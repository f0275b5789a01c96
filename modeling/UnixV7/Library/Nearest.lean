import Mathlib.Algebra.Order.Field.Basic
import Mathlib.Algebra.Order.Field.Power
import Mathlib.Data.Rat.Floor
import Mathlib.Tactic.Linarith
import Mathlib.Tactic.Ring

/-!
# Rounding to nearest

The integer nearest to a number, ties to even, and the nearest number of a binary format with a
precision and a least exponent. The exponents of the format are not bounded above.
-/

namespace UnixV7

variable {K : Type*} [Field K] [LinearOrder K] [IsStrictOrderedRing K]

/-- The integer `n` is nearest to `x`, and even if another one is as near. -/
structure RoundsEven (x : K) (n : ℤ) : Prop where
  near : 2 * |x - n| ≤ 1
  even : 2 * |x - n| = 1 → Even n

/-- The number has a significand of `P` bits at an exponent that the format has. -/
def Representable (P : ℕ) (low : ℤ) (x : K) : Prop :=
  ∃ h f : ℤ, |h| ≤ 2 ^ P ∧ low ≤ f ∧ x = h * 2 ^ f

/-- The number `m * 2 ^ p` of the format is nearest to `x`, and of two that are nearest it is the
one with the even significand. -/
structure Nearest (P : ℕ) (low : ℤ) (x : K) (m p : ℤ) : Prop where
  size : |m| ≤ 2 ^ P
  exponent : low ≤ p
  normal : 2 ^ (P - 1) ≤ |m| ∨ p = low
  near : ∀ y, Representable P low y → |x - m * 2 ^ p| ≤ |x - y|
  even : ∀ y, Representable P low y → |x - m * 2 ^ p| = |x - y| → y = m * 2 ^ p ∨ Even m

variable {x y a b : K} {n m : ℤ} {P : ℕ} {low p : ℤ}

/-- What is compared with a half to round a number up from its floor. -/
theorem roundsEven_of_floor (below : (n : K) ≤ x) (above : x < n + 1) (up : Prop) [Decidable up]
    (half : up ↔ 1 < 2 * (x - n) ∨ 2 * (x - n) = 1 ∧ ¬Even n) :
    RoundsEven x (if up then n + 1 else n) := by
  split
  · next yes =>
      have away : |x - ((n + 1 : ℤ) : K)| = n + 1 - x := by
        rw [abs_sub_comm, abs_of_nonneg]
        · push_cast
          ring
        · push_cast
          linarith
      constructor
      · rw [away]
        obtain more | tie := half.mp yes
        · linarith
        · linarith [tie.1]
      · intro tie
        rw [away] at tie
        obtain more | tie := half.mp yes
        · linarith
        · exact Int.even_add_one.mpr tie.2
  · next no =>
      have none := fun either => no (half.mpr either)
      have away : |x - n| = x - n := abs_of_nonneg (by linarith)
      constructor
      · rw [away]
        exact le_of_not_gt fun more => none (.inl more)
      · intro tie
        rw [away] at tie
        by_contra odd
        exact none (.inr ⟨tie, odd⟩)

theorem RoundsEven.le (rounds : RoundsEven x n) : 2 * (x - n) ≤ 1 ∧ -1 ≤ 2 * (x - n) := by
  have := abs_le.mp (show |x - n| ≤ 1 / 2 by linarith [rounds.near])
  constructor <;> linarith [this.1, this.2]

/-- No other integer is nearer. -/
theorem RoundsEven.near_int (rounds : RoundsEven x n) (k : ℤ) :
    |x - n| ≤ |x - k| ∧ (|x - n| = |x - k| → k = n ∨ Even n) := by
  by_cases same : k = n
  · subst same
    exact ⟨le_rfl, fun _ => .inl rfl⟩
  · have apart : (1 : K) ≤ |(k : K) - n| := by
      have whole : 1 ≤ |k - n| := Int.one_le_abs (sub_ne_zero.mpr same)
      exact_mod_cast whole
    have triangle : |(k : K) - n| ≤ |x - n| + |x - k| :=
      calc |(k : K) - n| = |(x - n) - (x - k)| := by ring_nf
        _ ≤ |x - n| + |x - k| := abs_sub _ _
    constructor
    · linarith [rounds.near]
    · intro tie
      exact .inr (rounds.even (le_antisymm rounds.near (by linarith)))

/-- Numbers between which no half of an integer lies round to the same. -/
theorem RoundsEven.of_between (rounds : RoundsEven x n) (left : a < x ∧ x < b)
    (right : a < y ∧ y < b) (none : ∀ j : ℤ, ¬(a < j / 2 ∧ (j : K) / 2 < b)) : RoundsEven y n := by
  obtain ⟨above, below⟩ := rounds.le
  have top := none (2 * n + 1)
  have bottom := none (2 * n - 1)
  push_cast at top bottom
  have high : y < n + 1 / 2 := by
    by_contra beyond
    exact top ⟨by linarith [left.1], by linarith [right.2]⟩
  have deep : n - 1 / 2 < y := by
    by_contra beyond
    exact bottom ⟨by linarith [right.1], by linarith [left.2]⟩
  have inside : |y - n| < 1 / 2 := abs_lt.mpr ⟨by linarith, by linarith⟩
  exact ⟨by linarith, fun tie => by linarith⟩

theorem RoundsEven.le_of_le (rounds : RoundsEven x n) {k : ℤ} (bound : (k : K) ≤ x) : k ≤ n := by
  have := rounds.le.1
  have : (k : K) < ((n + 1 : ℤ) : K) := by
    push_cast
    linarith
  exact Int.lt_add_one_iff.mp (Int.cast_lt.mp this)

theorem RoundsEven.ge_of_le (rounds : RoundsEven x n) {k : ℤ} (bound : x ≤ k) : n ≤ k := by
  have := rounds.le.2
  have : (n : K) < ((k + 1 : ℤ) : K) := by
    push_cast
    linarith
  exact Int.lt_add_one_iff.mp (Int.cast_lt.mp this)

/-- A significand rounded to an integer is that of the nearest number of the format, if its exponent
is the least one or it has all its bits. -/
theorem nearest_of_roundsEven (some : 0 < P) (rounds : RoundsEven (x / 2 ^ p) n)
    (nonneg : 0 ≤ x) (exponent : low ≤ p) (high : x / 2 ^ p ≤ 2 ^ P)
    (normal : 2 ^ (P - 1) ≤ x / 2 ^ p ∨ p = low) : Nearest P low x n p := by
  have unit : (0 : K) < 2 ^ p := zpow_pos two_pos p
  have positive : 0 ≤ n := rounds.le_of_le (by simpa using div_nonneg nonneg unit.le)
  have scale : ∀ z : K, |x - z * 2 ^ p| = |x / 2 ^ p - z| * 2 ^ p := by
    intro z
    rw [← abs_of_pos unit, ← abs_mul, abs_of_pos unit, sub_mul, div_mul_cancel₀ _ unit.ne']
  have integer : ∀ k : ℤ, |x - n * 2 ^ p| ≤ |x - k * 2 ^ p| ∧
      (|x - n * 2 ^ p| = |x - k * 2 ^ p| → k = n ∨ Even n) := by
    intro k
    obtain ⟨near, even⟩ := rounds.near_int k
    rw [scale, scale]
    exact ⟨mul_le_mul_of_nonneg_right near unit.le,
      fun tie => even (mul_right_cancel₀ unit.ne' tie)⟩
  have each : ∀ z, Representable P low z → |x - n * 2 ^ p| ≤ |x - z| ∧
      (|x - n * 2 ^ p| = |x - z| → z = n * 2 ^ p ∨ Even n) := by
    rintro z ⟨h, f, size, above, rfl⟩
    by_cases coarse : p ≤ f
    · -- a multiple of the unit in the last place
      have whole : (h : K) * 2 ^ f = ((h * 2 ^ (f - p).toNat : ℤ) : K) * 2 ^ p := by
        push_cast
        rw [mul_assoc, ← zpow_natCast, ← zpow_add₀ two_ne_zero]
        congr 2
        omega
      obtain ⟨near, even⟩ := integer (h * 2 ^ (f - p).toNat)
      rw [whole]
      refine ⟨near, fun tie => (even tie).imp_left fun same => ?_⟩
      rw [same]
    · -- a number of a smaller exponent is not above the least significand
      have full : 2 ^ (P - 1) ≤ x / 2 ^ p := normal.resolve_right (by omega)
      have half : (h : K) * 2 ^ f ≤ ((2 ^ (P - 1) : ℤ) : K) * 2 ^ p := by
        calc (h : K) * 2 ^ f ≤ 2 ^ P * 2 ^ f := by
              apply mul_le_mul_of_nonneg_right _ (zpow_pos two_pos f).le
              exact_mod_cast (le_abs_self h).trans size
          _ ≤ 2 ^ P * 2 ^ (p - 1) := by
              apply mul_le_mul_of_nonneg_left _ (pow_pos two_pos P).le
              exact zpow_le_zpow_right₀ one_le_two (by omega)
          _ = ((2 ^ (P - 1) : ℤ) : K) * 2 ^ p := by
              push_cast
              rw [zpow_sub_one₀ two_ne_zero, ← Nat.sub_add_cancel some, pow_succ]
              simp only [Nat.add_sub_cancel]
              field_simp
      have least : ((2 ^ (P - 1) : ℤ) : K) * 2 ^ p ≤ x := by
        rw [← le_div_iff₀ unit]
        exact_mod_cast full
      obtain ⟨near, even⟩ := integer (2 ^ (P - 1))
      have farther : |x - ((2 ^ (P - 1) : ℤ) : K) * 2 ^ p| ≤ |x - h * 2 ^ f| := by
        rw [abs_of_nonneg (by linarith), abs_of_nonneg (by linarith)]
        linarith
      refine ⟨near.trans farther, fun tie => ?_⟩
      have equal : |x - ((2 ^ (P - 1) : ℤ) : K) * 2 ^ p| = |x - h * 2 ^ f| :=
        le_antisymm farther (tie ▸ near)
      have same : (h : K) * 2 ^ f = ((2 ^ (P - 1) : ℤ) : K) * 2 ^ p := by
        rw [abs_of_nonneg (by linarith), abs_of_nonneg (by linarith)] at equal
        linarith
      rw [same] at tie ⊢
      refine (even tie).imp_left fun eq => ?_
      rw [eq]
  refine ⟨?_, exponent, normal.imp_left fun full => ?_, fun z rep => (each z rep).1,
    fun z rep => (each z rep).2⟩
  · rw [abs_of_nonneg positive]
    exact rounds.ge_of_le (by exact_mod_cast high)
  · rw [abs_of_nonneg positive]
    exact rounds.le_of_le (by exact_mod_cast full)

end UnixV7
