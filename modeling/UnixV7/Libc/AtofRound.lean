import UnixV7.Libc.AtofScale
import UnixV7.Libc.EcvtRound

/-!
# Decimal strings read

The digits that `atof` keeps, and a mark for those it does not, place the number between two
neighbours with so many digits that no number halfway between two of the format lies between them.
-/

namespace UnixV7.Libc.Atof

open Nat (digits)
open Stdio (numeral isdigit digitVal)

/-- Digits of the value `V`, `fr` of them behind the point, have been read: the first of them make
`n`, and `t` more are not kept. -/
structure Read (s : Mant) (V fr n t : ℕ) : Prop where
  num : s.num = digits (2 ^ 32) n
  lower : n * 10 ^ t ≤ V
  upper : V < (n + 1) * 10 ^ t
  sticky : s.sticky ↔ V ≠ n * 10 ^ t
  dexp : s.dexp = t - fr
  few : s.nd ≤ MAXDIG
  full : t = 0 ∨ s.nd = MAXDIG
  less : n < 10 ^ s.nd
  top : 0 < s.nd → 10 ^ (s.nd - 1) ≤ n

variable {s : Mant} {V fr n t : ℕ} {c : Char} {ds rest : List Char}

/-! ## Digits -/

theorem digitVal_lt (digit : isdigit c) : c.toNat - '0'.toNat = digitVal c ∧ digitVal c < 10 ∧
    (c = '0' ↔ digitVal c = 0) := by
  obtain ⟨d, small, rfl⟩ := Ecvt.char_eq digit
  revert d
  decide

theorem keep_fits (few : n < 10 ^ MAXDIG) {d : ℕ} (small : d < 10) :
    n * 10 + d < (2 ^ 32) ^ NLIMB := by
  have size := size_lt_ten_pow (n := n * 10 + d) (e := MAXDIG + 1) (by decide) (by
    rw [pow_succ]
    generalize 10 ^ MAXDIG = bound at few ⊢
    omega)
  exact lt_of_size_le size (by decide)

theorem digit_read (read : Read s V fr n t) (frac : Bool) (digit : isdigit c) :
    ∃ s' n' t', Atof.digit s c frac = some s' ∧
      Read s' (V * 10 + digitVal c) (fr + if frac then 1 else 0) n' t' := by
  obtain ⟨num, lower, upper, sticky, dexp, few, full, less, top⟩ := read
  obtain ⟨value, small, zero⟩ := digitVal_lt digit
  have behind : (if frac then s.dexp - 1 else s.dexp) =
      t - ((fr + if frac then 1 else 0 : ℕ) : ℤ) := by
    rw [dexp]
    cases frac
    · rfl
    · simp only [if_true]
      push_cast
      ring
  rw [Atof.digit]
  split
  · next leading =>
      rw [leading.1, pow_zero] at less
      obtain rfl : n = 0 := by omega
      obtain rfl : t = 0 := full.resolve_right (by rw [leading.1]; decide)
      rw [pow_zero, Nat.mul_one] at lower upper sticky
      obtain rfl : V = 0 := by omega
      have none := zero.mp leading.2
      refine ⟨_, 0, 0, rfl, num, by omega, by rw [none]; decide, ?_, ?_, few,
        .inl rfl, by positivity, fun more => by rw [leading.1] at more; contradiction⟩
      · rw [none]
        exact sticky
      · exact behind
  · next other =>
      split
      · next room =>
          obtain rfl : t = 0 := full.resolve_right room.ne
          rw [pow_zero, Nat.mul_one] at lower upper sticky
          obtain rfl : V = n := by omega
          have fits := keep_fits (n := V) (d := digitVal c)
            (less.trans_le (Nat.pow_le_pow_right (by decide) few)) small
          rw [num, value, bmuladd_digits (by decide) (by decide) (by omega) fits]
          refine ⟨_, V * 10 + digitVal c, 0, rfl, rfl, ?_, ?_, ?_, ?_, room, .inl rfl, ?_, ?_⟩
          · rw [pow_zero, Nat.mul_one]
          · rw [pow_zero, Nat.mul_one]
            exact Nat.lt_succ_self _
          · rw [pow_zero, Nat.mul_one]
            simpa using sticky
          · exact behind
          · dsimp only
            rw [pow_succ]
            generalize 10 ^ s.nd = bound at less ⊢
            omega
          · intro _
            dsimp only
            rw [Nat.add_sub_cancel]
            obtain none | some' := Nat.eq_zero_or_pos s.nd
            · have : digitVal c ≠ 0 := fun no => other ⟨none, zero.mpr no⟩
              rw [none, pow_zero]
              omega
            · have := top some'
              rw [← Nat.sub_add_cancel some', pow_succ]
              generalize 10 ^ (s.nd - 1) = bound at this ⊢
              omega
      · next no =>
          have last : s.nd = MAXDIG := le_antisymm few (not_lt.mp no)
          have power : ∀ m, m * 10 ^ (t + 1) = m * 10 ^ t * 10 := by
            intro m
            rw [pow_succ]
            ring
          refine ⟨_, n, t + 1, rfl, num, ?_, ?_, ?_, ?_, few, .inr last, less, top⟩
          · rw [power]
            omega
          · rw [power]
            omega
          · rw [power]
            simp only [Bool.or_eq_true, sticky, decide_eq_true_eq, ne_eq, zero]
            omega
          · dsimp only
            rw [← sub_eq_zero] at behind ⊢
            rw [← behind]
            cases frac
            · simp only [Bool.false_eq_true, if_false]
              push_cast
              ring
            · simp only [if_true]
              push_cast
              ring

/-- A loop reads all digits before the first other character. -/
theorem digitLoop_read (rest : List Char) (frac : Bool) (all : ∀ c ∈ ds, isdigit c)
    (next : ∀ c ∈ rest.head?, isdigit c = false) (read : Read s V fr n t) :
    ∃ s' n' t', digitLoop frac s (ds ++ rest) = some (s', rest) ∧
      Read s' (numeral 10 V ds) (fr + if frac then ds.length else 0) n' t' := by
  induction ds generalizing s V fr n t with
  | nil =>
      refine ⟨s, n, t, ?_, by cases frac <;> exact read⟩
      cases rest with
      | nil => rfl
      | cons c rest =>
          rw [List.nil_append, digitLoop, next c rfl]
          rfl
  | cons c ds ih =>
      obtain ⟨head, tail⟩ := List.forall_mem_cons.mp all
      obtain ⟨s₁, n₁, t₁, step, read₁⟩ := digit_read read frac head
      obtain ⟨s₂, n₂, t₂, steps, read₂⟩ := ih tail read₁
      refine ⟨s₂, n₂, t₂, ?_, ?_⟩
      · rw [List.cons_append, digitLoop, if_pos head, step]
        exact steps
      · rw [Stdio.numeral_cons]
        convert read₂ using 1
        cases frac
        · rfl
        · simp only [if_true, List.length_cons]
          ring

/-! ## Digits that are not kept -/

variable {x y : ℚ} {m : ℕ} {p d dexp : ℤ} {neg : Bool}

/-- Below a power, however it is written. -/
theorem pow_pow_le_pow {b e i j : ℕ} (positive : 0 < b) (bound : i * j ≤ e) :
    (b ^ i) ^ j ≤ b ^ e := by
  rw [← pow_mul]
  exact Nat.pow_le_pow_right positive bound

/-- Between two neighbours of so many digits there is no half of a multiple of the unit. -/
theorem no_half_between (least : -1074 ≤ p) (most : 10 ^ (MAXDIG - 1) ≤ n) (negative : d < 0)
    (size : (n : ℚ) * 10 ^ d < 2 ^ 53 * 2 ^ p) (j : ℤ) :
    ¬((n : ℚ) * 10 ^ d / 2 ^ p < j / 2 ∧ (j : ℚ) / 2 < (n + 1) * 10 ^ d / 2 ^ p) := by
  obtain ⟨D, rfl⟩ : ∃ D : ℕ, d = -D := ⟨(-d).toNat, by omega⟩
  have unit : (0 : ℚ) < 2 ^ p := zpow_pos two_pos p
  have ten : (0 : ℚ) < 10 ^ D := by positivity
  rw [zpow_neg, zpow_natCast] at size ⊢
  have fine : 0 ≤ p - 1 + D := by
    by_contra coarse
    obtain ⟨P, rfl⟩ : ∃ P : ℕ, p = -P := ⟨(-p).toNat, by omega⟩
    rw [zpow_neg, zpow_natCast, ← div_eq_mul_inv, ← div_eq_mul_inv,
      div_lt_div_iff₀ ten (by positivity)] at size
    have whole : n * 2 ^ P < 2 ^ 53 * 10 ^ D := by exact_mod_cast size
    have five : n * 2 ^ P < 2 ^ 53 * 5 ^ P * 2 ^ P :=
      calc n * 2 ^ P < 2 ^ 53 * 10 ^ D := whole
        _ ≤ 2 ^ 53 * 10 ^ P := Nat.mul_le_mul_left _ (Nat.pow_le_pow_right (by decide) (by omega))
        _ = 2 ^ 53 * 5 ^ P * 2 ^ P := by
            rw [mul_assoc, ← mul_pow]
            norm_num
    have bound : (10 ^ 17) ^ 47 < (10 ^ 17) ^ 47 :=
      calc (10 ^ 17) ^ 47 ≤ 10 ^ (MAXDIG - 1) := pow_pow_le_pow (by decide) (by decide)
        _ ≤ n := most
        _ < 2 ^ 53 * 5 ^ P := Nat.lt_of_mul_lt_mul_right five
        _ ≤ (2 ^ 2) ^ 47 * (5 ^ 23) ^ 47 :=
            Nat.mul_le_mul (pow_le_pow_pow (by decide) (by decide))
              (pow_le_pow_pow (by decide) (by omega))
        _ = (2 ^ 2 * 5 ^ 23) ^ 47 := (mul_pow _ _ _).symm
        _ ≤ (10 ^ 17) ^ 47 := Nat.pow_le_pow_left (by decide) 47
    exact absurd bound (lt_irrefl _)
  obtain ⟨e, shift⟩ := Int.eq_ofNat_of_zero_le fine
  rintro ⟨low, high⟩
  -- times the power of ten, the half is an integer between the two
  have integer : (j : ℚ) / 2 * 2 ^ p * 10 ^ D = ((j * 5 ^ D * 2 ^ e : ℤ) : ℚ) := by
    push_cast
    rw [show (10 : ℚ) = 5 * 2 by norm_num, mul_pow, ← zpow_natCast (2 : ℚ) e, ← shift,
      zpow_add₀ two_ne_zero, zpow_sub_one₀ two_ne_zero, zpow_natCast]
    ring
  have above : ((n : ℤ) : ℚ) < ((j * 5 ^ D * 2 ^ e : ℤ) : ℚ) := by
    rw [← integer, Int.cast_natCast]
    rw [div_lt_iff₀ unit, ← div_eq_mul_inv, div_lt_iff₀ ten] at low
    exact low
  have below : ((j * 5 ^ D * 2 ^ e : ℤ) : ℚ) < ((n + 1 : ℤ) : ℚ) := by
    rw [← integer]
    rw [lt_div_iff₀ unit, ← div_eq_mul_inv, lt_div_iff₀ ten] at high
    push_cast
    exact high
  have := Int.cast_lt.mp above
  have := Int.cast_lt.mp below
  omega

/-- A number between two such neighbours is rounded like any other there. -/
theorem Fits.of_between (fits : Fits x m p) (most : 10 ^ (MAXDIG - 1) ≤ n) (negative : d < 0)
    (left : (n : ℚ) * 10 ^ d < x ∧ x < (n + 1) * 10 ^ d)
    (right : (n : ℚ) * 10 ^ d < y ∧ y < (n + 1) * 10 ^ d) : Fits y m p := by
  obtain ⟨rounds, exponent, high, normal⟩ := fits
  have unit : (0 : ℚ) < 2 ^ p := zpow_pos two_pos p
  have size : (n : ℚ) * 10 ^ d < 2 ^ 53 * 2 ^ p :=
    left.1.trans_le ((div_le_iff₀ unit).mp high)
  have none := no_half_between exponent most negative size
  have scaled : ∀ {z : ℚ}, (n : ℚ) * 10 ^ d < z ∧ z < (n + 1) * 10 ^ d →
      (n : ℚ) * 10 ^ d / 2 ^ p < z / 2 ^ p ∧ z / 2 ^ p < (n + 1) * 10 ^ d / 2 ^ p :=
    fun inside => ⟨div_lt_div_of_pos_right inside.1 unit, div_lt_div_of_pos_right inside.2 unit⟩
  have integer : ∀ k : ℤ, ¬((n : ℚ) * 10 ^ d / 2 ^ p < k ∧ (k : ℚ) < (n + 1) * 10 ^ d / 2 ^ p) := by
    intro k inside
    apply none (2 * k)
    push_cast
    rwa [mul_div_cancel_left₀ _ two_ne_zero]
  refine ⟨rounds.of_between (scaled left) (scaled right) none, exponent, ?_,
    normal.imp_left fun full => ?_⟩
  · by_contra above
    apply integer (2 ^ 53)
    push_cast
    exact ⟨(scaled left).1.trans_le high, (not_le.mp above).trans (scaled right).2⟩
  · by_contra below
    apply integer (2 ^ 52)
    push_cast
    exact ⟨(scaled right).1.trans (not_le.mp below), full.trans_lt (scaled left).2⟩

/-! ## The result -/

/-- What a result says about the number read. -/
def Correct (x : ℚ) (neg : Bool) : Result → Prop
  | .zero neg' => neg' = neg ∧ Nearest 53 (-1074) x 0 (-1074)
  | .huge neg' => neg' = neg ∧ 2 ^ 1024 ≤ x
  | .ldexp neg' m p => neg' = neg ∧ Nearest 53 (-1074) x m p

theorem mark_spec (read : Read s V fr n t) :
    ∃ s' n' d, mark s = some s' ∧ s'.num = digits (2 ^ 32) n' ∧ s'.nd = s.nd ∧ s'.dexp = d ∧
      ((V = n * 10 ^ t ∧ n' = n ∧ d = t - fr) ∨
        (n * 10 ^ t < V ∧ n' = n * 10 + 1 ∧ d = t - fr - 1 ∧ s.nd = MAXDIG)) := by
  obtain ⟨num, lower, upper, sticky, dexp, few, full, less, top⟩ := read
  rw [mark]
  split
  · next inexact =>
      have other := sticky.mp inexact
      have last : s.nd = MAXDIG := by
        apply full.resolve_left
        rintro rfl
        rw [pow_zero, Nat.mul_one] at lower upper other
        omega
      have fits := keep_fits (n := n) (less.trans_le (by rw [last])) (show 1 < 10 by decide)
      rw [num, bmuladd_digits (by decide) (by decide) (by decide) fits]
      exact ⟨_, _, _, rfl, rfl, rfl, rfl, .inr ⟨by omega, rfl, by dsimp only; rw [dexp], last⟩⟩
  · next exact' =>
      have same : V = n * 10 ^ t := by
        by_contra other
        exact exact' (sticky.mpr other)
      exact ⟨s, n, _, rfl, num, rfl, rfl, .inl ⟨same, rfl, dexp⟩⟩

theorem ten_zpow_lt (e : ℤ) (bound : e ≤ -330) : (10 : ℚ) ^ e ≤ 2 ^ (-1075 : ℤ) := by
  have whole : 2 ^ 1075 ≤ 10 ^ 330 :=
    calc 2 ^ 1075 ≤ (2 ^ 109) ^ 10 := pow_le_pow_pow (by decide) (by decide)
      _ ≤ (10 ^ 33) ^ 10 := Nat.pow_le_pow_left (by decide) 10
      _ ≤ 10 ^ 330 := pow_pow_le_pow (by decide) (by decide)
  have whole' : (2 : ℚ) ^ 1075 ≤ 10 ^ 330 := by exact_mod_cast whole
  calc (10 : ℚ) ^ e ≤ 10 ^ (-(330 : ℕ) : ℤ) := zpow_le_zpow_right₀ (by norm_num) bound
    _ = (10 ^ 330)⁻¹ := by rw [zpow_neg, zpow_natCast]
    _ ≤ (2 ^ 1075)⁻¹ := inv_anti₀ (by positivity) whole'
    _ = 2 ^ (-(1075 : ℕ) : ℤ) := by rw [zpow_neg, zpow_natCast]

theorem two_pow_le (e : ℤ) (bound : 310 ≤ e) : (2 : ℚ) ^ 1024 ≤ 10 ^ e := by
  have whole : 2 ^ 1024 ≤ 10 ^ 310 :=
    calc 2 ^ 1024 ≤ (2 ^ 205) ^ 5 := pow_le_pow_pow (by decide) (by decide)
      _ ≤ (10 ^ 62) ^ 5 := Nat.pow_le_pow_left (by decide) 5
      _ ≤ 10 ^ 310 := pow_pow_le_pow (by decide) (by decide)
  have whole' : (2 : ℚ) ^ 1024 ≤ 10 ^ 310 := by exact_mod_cast whole
  calc (2 : ℚ) ^ 1024 ≤ 10 ^ 310 := whole'
    _ = 10 ^ ((310 : ℕ) : ℤ) := (zpow_natCast 10 310).symm
    _ ≤ 10 ^ e := zpow_le_zpow_right₀ (by norm_num) bound

/-- The digits read, with an exponent, are rounded to the number they stand for. -/
theorem value_correct (read : Read s V fr n t) (neg : Bool) (E : ℤ) :
    ∃ s' r, mark s = some s' ∧ value neg s' (s'.dexp + E) = some r ∧
      Correct (V * 10 ^ (E - fr)) neg r := by
  obtain ⟨s', n', d, marked, num, nd, exponent, kept⟩ := mark_spec read
  obtain ⟨-, lower, upper, -, -, few, full, less, top⟩ := read
  have nonneg : (0 : ℚ) ≤ V * 10 ^ (E - fr) := by positivity
  have limit : MAXDIG = 800 := rfl
  refine ⟨s', ?_⟩
  rw [value, num, nd, exponent]
  obtain rfl | some' := Nat.eq_zero_or_pos V
  · -- all digits are zeros
    have zero : n = 0 := by
      have := Nat.le_zero.mp lower
      exact (Nat.mul_eq_zero.mp this).resolve_right (by positivity)
    have none : n' = 0 := by
      obtain ⟨-, same, -⟩ | ⟨more, -⟩ := kept
      · rw [same, zero]
      · omega
    rw [none, Nat.digits_zero, if_pos (.inl rfl), Nat.cast_zero, zero_mul]
    exact ⟨_, marked, rfl, rfl, (fits_zero le_rfl (by positivity)).nearest le_rfl⟩
  have digits' : 0 < s.nd := by
    by_contra none
    obtain zero : s.nd = 0 := by omega
    rw [zero, pow_zero] at less
    obtain rfl : t = 0 := full.resolve_right (by omega)
    obtain rfl : n = 0 := by omega
    omega
  have size := top digits'
  have scaled : ∀ k : ℕ, ((k * 10 ^ t : ℕ) : ℚ) * 10 ^ (E - fr) = k * 10 ^ ((t : ℤ) - fr + E) := by
    intro k
    rw [show (t : ℤ) - fr + E = t + (E - fr) by ring, zpow_add₀ (by norm_num), zpow_natCast]
    push_cast
    ring
  have unit : (0 : ℚ) < 10 ^ (E - fr) := by positivity
  have above : (n : ℚ) * 10 ^ ((t : ℤ) - fr + E) ≤ V * 10 ^ (E - fr) := by
    rw [← scaled]
    exact mul_le_mul_of_nonneg_right (by exact_mod_cast lower) unit.le
  have below : (V : ℚ) * 10 ^ (E - fr) < (n + 1) * 10 ^ ((t : ℤ) - fr + E) := by
    rw [← Nat.cast_succ, ← scaled]
    exact mul_lt_mul_of_pos_right (by exact_mod_cast upper) unit
  have low : (10 : ℚ) ^ ((s.nd : ℤ) - 1 + ((t : ℤ) - fr + E)) ≤ V * 10 ^ (E - fr) := by
    have : (10 : ℚ) ^ (s.nd - 1) ≤ n := by exact_mod_cast size
    rw [zpow_add₀ (by norm_num), show (s.nd : ℤ) - 1 = (s.nd - 1 : ℕ) by omega, zpow_natCast]
    exact (mul_le_mul_of_nonneg_right this (by positivity)).trans above
  have high : (V : ℚ) * 10 ^ (E - fr) < 10 ^ ((s.nd : ℤ) + ((t : ℤ) - fr + E)) := by
    have : (n : ℚ) + 1 ≤ 10 ^ s.nd := by exact_mod_cast less
    rw [zpow_add₀ (by norm_num), zpow_natCast]
    exact below.trans_le (mul_le_mul_of_nonneg_right this (by positivity))
  have near : (t : ℤ) - fr - 1 ≤ d ∧ d ≤ t - fr := by
    obtain ⟨-, -, same⟩ | ⟨-, -, same, -⟩ := kept
    · omega
    · omega
  split
  · next tiny =>
      have positive : 0 < n' := by
        have : 0 < n := (Nat.two_pow_pos 0).trans_le ((Nat.pow_pos (by decide)).trans_le size)
        obtain ⟨-, rfl, -⟩ | ⟨-, rfl, -⟩ := kept
        · exact this
        · omega
      have small := tiny.resolve_left (Nat.digits_ne_nil_iff_ne_zero.mpr positive.ne')
      refine ⟨_, marked, rfl, rfl, (fits_zero nonneg (high.trans_le ?_)).nearest nonneg⟩
      exact ten_zpow_lt _ (by omega)
  split
  · next huge =>
      exact ⟨_, marked, rfl, rfl, (two_pow_le _ (by omega)).trans low⟩
  · next some'' inside =>
      have bounds : -330 ≤ (s.nd : ℤ) + (d + E) ∧ (s.nd : ℤ) + (d + E) ≤ 310 := by
        have := not_or.mp some''
        omega
      have positive : 0 < n' := Nat.pos_of_ne_zero fun zero =>
        some'' (.inl (by rw [zero, Nat.digits_zero]))
      have less' : n' < 10 ^ (s.nd + 1) := by
        rw [pow_succ]
        generalize 10 ^ s.nd = bound at less ⊢
        obtain ⟨-, rfl, -⟩ | ⟨-, rfl, -⟩ := kept <;> omega
      obtain ⟨r, run, correct⟩ := scale_spec neg (d + E) positive
        (size_lt_ten_pow (by omega) less') (by omega) (by
          intro whole
          apply size_lt_ten_pow (e := s.nd + 1 + (d + E).toNat) (by omega)
          rw [pow_add]
          exact Nat.mul_lt_mul_of_pos_right less' (by positivity))
      refine ⟨r, marked, run, ?_⟩
      have transfer : ∀ m p, Fits (n' * 10 ^ (d + E)) m p → Fits (V * 10 ^ (E - fr)) m p := by
        intro m p fits
        obtain ⟨same, rfl, rfl⟩ | ⟨more, rfl, rfl, last⟩ := kept
        · rw [same, scaled]
          exact fits
        · rw [last] at size bounds
          have lower' : (n : ℚ) * 10 ^ ((t : ℤ) - fr + E) < V * 10 ^ (E - fr) := by
            rw [← scaled]
            exact mul_lt_mul_of_pos_right (by exact_mod_cast more) unit
          have tenth : ((n * 10 + 1 : ℕ) : ℚ) * 10 ^ ((t : ℤ) - fr - 1 + E) =
              (n + 1 / 10) * 10 ^ ((t : ℤ) - fr + E) := by
            rw [show (t : ℤ) - fr - 1 + E = t - fr + E - 1 by ring, zpow_sub_one₀ (by norm_num)]
            push_cast
            ring
          have ulp : (0 : ℚ) < 10 ^ ((t : ℤ) - fr + E) := by positivity
          rw [tenth] at fits
          apply fits.of_between size (by omega) ⟨?_, ?_⟩ ⟨lower', below⟩
          · exact mul_lt_mul_of_pos_right (by linarith) ulp
          · exact mul_lt_mul_of_pos_right (by linarith) ulp
      obtain ⟨rfl, fits⟩ | ⟨m, p, rfl, fits⟩ := correct
      · exact ⟨rfl, (transfer 0 (-1074) (by exact_mod_cast fits)).nearest nonneg⟩
      · exact ⟨rfl, (transfer m p fits).nearest nonneg⟩

/-! ## Strings -/

/-- The texts of a sign. -/
def Signs (sgn : List Char) : Prop := sgn = [] ∨ sgn = ['-'] ∨ sgn = ['+']

/-- The parts of a decimal string: the sign, the digits, those after a point, and the letter, the
sign and the digits of an exponent. -/
structure Decimal where
  sgn : List Char
  whole : List Char
  frac : Option (List Char)
  exp : Option (Char × List Char × List Char)

namespace Decimal

/-- The parts are what they should be, and the exponent has five digits at most. -/
structure Proper (a : Decimal) : Prop where
  sgn : Signs a.sgn
  whole : ∀ c ∈ a.whole, isdigit c
  frac : ∀ f ∈ a.frac, ∀ c ∈ f, isdigit c
  letter : ∀ e ∈ a.exp, e.1 = 'E' ∨ e.1 = 'e'
  expSgn : ∀ e ∈ a.exp, Signs e.2.1
  expDigits : ∀ e ∈ a.exp, ∀ c ∈ e.2.2, isdigit c
  short : ∀ e ∈ a.exp, e.2.2.length ≤ 5

/-- The text of an exponent. -/
def expText (a : Decimal) : List Char :=
  match a.exp with
  | none => []
  | some (letter, sgn, ds) => letter :: (sgn ++ ds)

/-- The text of a fraction. -/
def fracText (a : Decimal) : List Char :=
  match a.frac with
  | none => []
  | some f => '.' :: f

/-- The string. -/
def text (a : Decimal) : List Char := a.sgn ++ (a.whole ++ (a.fracText ++ a.expText))

/-- The exponent of ten. -/
def exponent (a : Decimal) : ℤ :=
  match a.exp with
  | none => 0
  | some (_, sgn, ds) => if sgn = ['-'] then -numeral 10 0 ds else numeral 10 0 ds

/-- The exact value, without its sign. -/
def magnitude (a : Decimal) : ℚ :=
  numeral 10 0 (a.whole ++ a.frac.getD []) * 10 ^ (a.exponent - (a.frac.getD []).length)

/-- Whether the number has a minus. -/
def negative (a : Decimal) : Bool := a.sgn = ['-']

end Decimal

theorem sign_text {sgn : List Char} (signs : Signs sgn) (rest : List Char)
    (next : ∀ c ∈ rest.head?, c ≠ '-' ∧ c ≠ '+') :
    sign (sgn ++ rest) = (decide (sgn = ['-']), rest) := by
  obtain rfl | rfl | rfl := signs
  · have minus : rest.head? ≠ some '-' := fun head => (next '-' head).1 rfl
    have plus : rest.head? ≠ some '+' := fun head => (next '+' head).2 rfl
    rw [sign, List.nil_append, if_neg minus, if_neg plus]
    rfl
  · rfl
  · rfl

/-- All digits of an exponent count, if there are five at most. -/
theorem exponentLoop_digits (k : ℕ) (all : ∀ c ∈ ds, isdigit c) (few : ds.length + k ≤ 5)
    (small : n < 10 ^ k) : exponentLoop n ds = (numeral 10 n ds : ℕ) := by
  induction ds generalizing n k with
  | nil => rfl
  | cons c ds ih =>
      obtain ⟨head, tail⟩ := List.forall_mem_cons.mp all
      obtain ⟨value, digit, -⟩ := digitVal_lt head
      rw [List.length_cons] at few
      have room : n < 10000 :=
        small.trans_le (Nat.pow_le_pow_right (by decide) (show k ≤ 4 by omega))
      have next : (10 * (n : ℤ) + ((c.toNat : ℤ) - '0'.toNat)) =
          ((n * 10 + digitVal c : ℕ) : ℤ) := by
        rw [(Stdio.digitVal_of_isdigit head).1]
        push_cast
        ring
      rw [exponentLoop, if_pos head, if_pos (by exact_mod_cast room), next]
      apply ih (k + 1) tail (by omega)
      rw [pow_succ]
      omega

theorem exponent_text {a : Decimal} (proper : a.Proper) :
    Atof.exponent a.expText = a.exponent := by
  rw [Decimal.expText, Decimal.exponent]
  cases same : a.exp with
  | none => rfl
  | some e =>
      obtain ⟨letter, sgn, ds⟩ := e
      have first := proper.letter _ same
      have all := proper.expDigits _ same
      have read := sign_text (proper.expSgn _ same) ds fun c mem => by
        have digit := all c (List.mem_of_mem_head? mem)
        constructor <;> (rintro rfl; exact absurd digit (by decide))
      have digits' := exponentLoop_digits (n := 0) 0 all (proper.short _ same) (by decide)
      have letter' : (letter :: (sgn ++ ds)).head? = some 'E' ∨
          (letter :: (sgn ++ ds)).head? = some 'e' := first.imp (congrArg some) (congrArg some)
      rw [Nat.cast_zero] at digits'
      dsimp only
      rw [Atof.exponent, if_pos letter', List.tail_cons, read]
      dsimp only
      rw [digits']
      split <;> simp_all

/-- What follows the digits of a number is no digit. -/
theorem head_expText {a : Decimal} (proper : a.Proper) (mem : c ∈ a.expText.head?) :
    c = 'E' ∨ c = 'e' := by
  rw [Decimal.expText] at mem
  cases same : a.exp with
  | none =>
      rw [same] at mem
      contradiction
  | some e =>
      rw [same] at mem
      obtain rfl := Option.some.inj mem
      exact proper.letter _ same

theorem mantissa_text {a : Decimal} (proper : a.Proper) :
    ∃ s n t, Read s (numeral 10 0 (a.whole ++ a.frac.getD [])) (a.frac.getD []).length n t ∧
      mantissa (a.whole ++ (a.fracText ++ a.expText)) = (mark s).map (·, a.expText) := by
  have start : Read ⟨[], 0, 0, false⟩ 0 0 0 0 :=
    ⟨(Nat.digits_zero _).symm, le_rfl, by decide, by decide, rfl, by decide, .inl rfl, by decide,
      fun more => by contradiction⟩
  have behind : ∀ c ∈ a.expText.head?, isdigit c = false := by
    intro c mem
    obtain rfl | rfl := head_expText proper mem <;> decide
  have numeral_append : ∀ f, numeral 10 0 (a.whole ++ f) = numeral 10 (numeral 10 0 a.whole) f :=
    fun f => List.foldl_append
  cases same : a.frac with
  | none =>
      have point : a.expText.head? ≠ some '.' := by
        intro head
        obtain no | no := head_expText proper head <;> exact absurd no (by decide)
      obtain ⟨s, n, t, loop, read⟩ := digitLoop_read a.expText false proper.whole behind start
      refine ⟨s, n, t, ?_, ?_⟩
      · simpa using read
      · rw [Decimal.fracText, same, mantissa]
        dsimp only [List.nil_append]
        rw [loop]
        change (fraction s a.expText >>= _) = _
        rw [fraction, if_neg point]
        change (mark s >>= _) = _
        cases mark s <;> rfl
  | some f =>
      obtain ⟨s, n, t, loop, read⟩ := digitLoop_read ('.' :: (f ++ a.expText)) false
        proper.whole (fun c mem => by rw [← Option.some.inj mem]; decide) start
      obtain ⟨s', n', t', loop', read'⟩ :=
        digitLoop_read a.expText true (proper.frac f same) behind read
      refine ⟨s', n', t', ?_, ?_⟩
      · simpa [numeral_append] using read'
      · rw [Decimal.fracText, same, mantissa]
        dsimp only [List.cons_append]
        rw [loop]
        change (fraction s ('.' :: (f ++ a.expText)) >>= _) = _
        rw [fraction, if_pos (by rfl), List.tail_cons, loop']
        change (mark s' >>= _) = _
        cases mark s' <;> rfl

/-- What follows the sign of a number is neither a sign nor a blank. -/
theorem head_digits {a : Decimal} (proper : a.Proper)
    (mem : c ∈ (a.whole ++ (a.fracText ++ a.expText)).head?) : c ≠ '-' ∧ c ≠ '+' ∧ c ≠ ' ' := by
  have letters : isdigit c ∨ c = '.' ∨ c = 'E' ∨ c = 'e' := by
    cases digits' : a.whole with
    | cons d ds =>
        rw [digits'] at mem
        obtain rfl := Option.some.inj mem
        exact .inl (proper.whole d (by rw [digits']; exact List.mem_cons_self))
    | nil =>
        rw [digits', List.nil_append, Decimal.fracText] at mem
        cases point : a.frac with
        | some f =>
            rw [point] at mem
            exact .inr (.inl (Option.some.inj mem).symm)
        | none =>
            rw [point] at mem
            exact .inr (.inr (head_expText proper mem))
  obtain digit | rfl | rfl | rfl := letters
  · refine ⟨?_, ?_, ?_⟩ <;> (rintro rfl; exact absurd digit (by decide))
  · decide
  · decide
  · decide

/-- Every decimal string is read as the nearest number. -/
theorem atof_nearest (a : Decimal) (proper : a.Proper) :
    ∃ r, atof a.text = some r ∧ Correct a.magnitude a.negative r := by
  obtain ⟨s, n, t, read, mantissa'⟩ := mantissa_text proper
  obtain ⟨s', r, marked, run, correct⟩ := value_correct read a.negative a.exponent
  have blank : a.text.dropWhile (· = ' ') = a.text := by
    have head : ∀ c ∈ a.text.head?, c ≠ ' ' := by
      intro c mem
      rw [Decimal.text] at mem
      obtain none | minus | plus := proper.sgn
      · rw [none] at mem
        exact (head_digits proper mem).2.2
      · rw [minus] at mem
        obtain rfl := Option.some.inj mem
        decide
      · rw [plus] at mem
        obtain rfl := Option.some.inj mem
        decide
    cases same : a.text with
    | nil => rfl
    | cons c p =>
        rw [same] at head
        exact List.dropWhile_cons_of_neg (by simpa using head c rfl)
  refine ⟨r, ?_, correct⟩
  rw [atof, blank, Decimal.text,
    sign_text proper.sgn _ fun c mem =>
      ⟨(head_digits proper mem).1, (head_digits proper mem).2.1⟩]
  change (mantissa _ >>= _) = _
  rw [mantissa', marked]
  change value (decide (a.sgn = ['-'])) s' (s'.dexp + Atof.exponent a.expText) = _
  rw [exponent_text proper]
  exact run

theorem atof_nearest_least :
    ∃ r, atof ['-', '2', '.', '4', '7', 'e', '-', '3', '2', '4'] = some r ∧
      Correct (Decimal.magnitude
        ⟨['-'], ['2'], some ['4', '7'], some ('e', ['-'], ['3', '2', '4'])⟩)
        true r :=
  atof_nearest ⟨['-'], ['2'], some ['4', '7'], some ('e', ['-'], ['3', '2', '4'])⟩
    { sgn := .inr (.inl rfl)
      whole := List.all_eq_true.mp rfl
      frac := by
        intro f mem
        obtain rfl := Option.some.inj mem
        exact List.all_eq_true.mp rfl
      letter := by decide
      expSgn := by
        intro e mem
        obtain rfl := Option.some.inj mem
        exact .inr (.inl rfl)
      expDigits := by
        intro e mem
        obtain rfl := Option.some.inj mem
        exact List.all_eq_true.mp rfl
      short := by decide }

end UnixV7.Libc.Atof
