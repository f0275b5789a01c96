import UnixV7.Libc.Atof
import UnixV7.Library.Nearest

/-!
# The quotient and its rounding

The end of `atof`, from the digits and their exponent to the integer and the power of two: the
quotient is exact but for what `sticky` tells, and it is rounded once, to the place that the result
has.
-/

namespace UnixV7.Libc.Atof

open Limbs
open Nat (digits)

variable {den num n q k : ℕ} {x y : ℚ} {p : ℤ}

/-- The integer `m` at the exponent `p` is `x` rounded, at an exponent that a `double` has for
it. -/
structure Fits (x : ℚ) (m : ℕ) (p : ℤ) : Prop where
  rounds : RoundsEven (x / 2 ^ p) m
  exponent : -1074 ≤ p
  high : x / 2 ^ p ≤ 2 ^ 53
  normal : 2 ^ 52 ≤ x / 2 ^ p ∨ p = -1074

theorem Fits.nearest {m : ℕ} (fits : Fits x m p) (nonneg : 0 ≤ x) : Nearest 53 (-1074) x m p :=
  nearest_of_roundsEven (by decide) fits.rounds nonneg fits.exponent fits.high fits.normal

/-! ## The quotient -/

theorem divide_digits (positive : 0 < den) (n num q : ℕ) (less : num < den * 2 ^ n)
    (fits : den * 2 ^ n < (2 ^ 32) ^ (NLIMB - 1)) (low : 2 ^ n ∣ q) :
    divide (digits (2 ^ 32) den) n (digits (2 ^ 32) num) q =
      some (digits (2 ^ 32) (num % den), q + num / den) := by
  induction n generalizing num q with
  | zero =>
      rw [pow_zero, Nat.mul_one] at less
      rw [divide, Nat.mod_eq_of_lt less, Nat.div_eq_of_lt less, Nat.add_zero]
  | succ i ih =>
      have double : den * 2 ^ (i + 1) = den * 2 ^ i + den * 2 ^ i := by
        rw [pow_succ]
        ring
      obtain ⟨c, rfl⟩ := low
      have fits' : den * 2 ^ i < (2 ^ 32) ^ (NLIMB - 1) := by omega
      have shifted : 2 ^ (i + 1) * c = 2 ^ i * (2 * c) := by
        rw [pow_succ]
        ring
      rw [divide, bshl_digits den i fits']
      change (if 0 ≤ bcmp _ _ then divide _ i (bsub _ _) _ else _) = _
      by_cases more : den * 2 ^ i ≤ num
      · have bit : 2 ^ (i + 1) * c ||| 1 <<< i = 2 ^ (i + 1) * c + 2 ^ i := by
          have less' : 2 ^ i < 2 ^ (i + 1) := Nat.pow_lt_pow_right (by decide) (Nat.lt_succ_self i)
          rw [Nat.shiftLeft_eq, Nat.one_mul, Nat.mul_comm, ← Nat.shiftLeft_eq,
            ← Nat.shiftLeft_add_eq_or_of_lt less', Nat.shiftLeft_eq]
        have parts : num = num - den * 2 ^ i + 2 ^ i * den := by
          rw [Nat.mul_comm (2 ^ i) den]
          omega
        have quotient : num / den = (num - den * 2 ^ i) / den + 2 ^ i := by
          conv_lhs => rw [parts]
          exact Nat.add_mul_div_right _ _ positive
        have remainder : num % den = (num - den * 2 ^ i) % den := by
          conv_lhs => rw [parts]
          exact Nat.add_mul_mod_self_right _ _ _
        rw [if_pos ((bcmp_digits _ _).mpr more), bsub_digits more, bit,
          ih (num - den * 2 ^ i) _ (by omega) fits'
            (by rw [shifted]; exact (dvd_mul_right _ _).add (dvd_refl _)), quotient, remainder]
        congr 2
        omega
      · rw [if_neg (fun yes => more ((bcmp_digits _ _).mp yes)),
          ih num _ (Nat.lt_of_not_le more) fits' (by rw [shifted]; exact dvd_mul_right _ _)]

theorem topBit_spec (n : ℕ) (some' : 0 < q) (less : q < 2 ^ (n + 1)) :
    2 ^ topBit q n ≤ q ∧ q < 2 ^ (topBit q n + 1) := by
  induction n with
  | zero => exact ⟨some', less⟩
  | succ n ih =>
      rw [topBit, Nat.and_one_is_mod, Nat.shiftRight_eq_div_pow]
      have small : q / 2 ^ (n + 1) < 2 := by
        apply Nat.div_lt_of_lt_mul
        rwa [← pow_succ]
      split
      · next set =>
          refine ⟨?_, less⟩
          by_contra below
          rw [Nat.div_eq_of_lt (Nat.lt_of_not_le below)] at set
          exact set rfl
      · next clear =>
          apply ih
          have zero : q / 2 ^ (n + 1) = 0 := by
            generalize q / 2 ^ (n + 1) = bit at small clear
            omega
          exact (Nat.div_eq_zero_iff_lt (by positivity)).mp zero

/-! ## Rounding -/

/-- `z` is `q` and a fraction, and `roundOff` rounds it to the multiples of `2 ^ D`. -/
theorem roundOff_spec {z : ℚ} {D : ℕ} {sticky : Bool} (some' : 0 < D) (low : (q : ℚ) ≤ z)
    (high : z < q + 1) (inexact : sticky ↔ z ≠ q) :
    RoundsEven (z / 2 ^ D) (roundOff q D sticky) := by
  have unit : (0 : ℚ) < 2 ^ D := by positivity
  have parts : 2 ^ D * (q / 2 ^ D) + q % 2 ^ D = q := Nat.div_add_mod q (2 ^ D)
  have rem : q % 2 ^ D + 1 ≤ 2 ^ D := Nat.mod_lt q (Nat.two_pow_pos D)
  have half : 2 ^ D = 2 * 2 ^ (D - 1) := by rw [← pow_succ', Nat.sub_add_cancel some']
  have unfolded : roundOff q D sticky =
      if 2 ^ (D - 1) < q % 2 ^ D ∨
          q % 2 ^ D = 2 ^ (D - 1) ∧ (sticky ∨ q / 2 ^ D % 2 = 1) then
        q / 2 ^ D + 1 else q / 2 ^ D := by
    rw [roundOff]
    simp only [Nat.shiftRight_eq_div_pow, Nat.shiftLeft_eq, Nat.one_mul,
      Nat.and_two_pow_sub_one_eq_mod, Nat.and_one_is_mod]
  rw [unfolded]
  generalize q / 2 ^ D = m at parts ⊢
  generalize q % 2 ^ D = r at parts rem ⊢
  generalize 2 ^ (D - 1) = h at half ⊢
  have whole : (2 : ℚ) ^ D * m + r = q := by exact_mod_cast parts
  have rem' : (r : ℚ) + 1 ≤ 2 ^ D := by exact_mod_cast rem
  have half' : (2 : ℚ) ^ D = 2 * h := by exact_mod_cast half
  have value : 2 * (z / 2 ^ D - (m : ℤ)) = (r + (z - q)) / h := by
    have : (h : ℚ) ≠ 0 := by
      intro zero
      rw [zero, mul_zero] at half'
      exact unit.ne' half'
    rw [← whole, half']
    push_cast
    field_simp
    ring
  have positive : (0 : ℚ) < h := by linarith
  have rounds := roundsEven_of_floor (x := z / 2 ^ D) (n := (m : ℤ)) (by
      rw [le_div_iff₀ unit]
      push_cast
      linarith) (by
      rw [div_lt_iff₀ unit]
      push_cast
      linarith) (h < r ∨ r = h ∧ (sticky ∨ m % 2 = 1)) (by
      rw [value, one_lt_div positive, div_eq_one_iff_eq positive.ne', Int.not_even_iff_odd,
        Int.odd_coe_nat, Nat.odd_iff, inexact]
      constructor
      · rintro (more | ⟨rfl, rest | odd⟩)
        · have : (h : ℚ) + 1 ≤ r := by exact_mod_cast more
          left
          linarith
        · left
          have := lt_of_le_of_ne low (Ne.symm rest)
          linarith
        · by_cases exact : z = q
          · right
            rw [exact]
            exact ⟨by ring, odd⟩
          · left
            have := lt_of_le_of_ne low (Ne.symm exact)
            linarith
      · rintro (more | ⟨tie, odd⟩)
        · have : (h : ℚ) < r + 1 := by linarith
          have : h < r + 1 := by exact_mod_cast this
          obtain less | same := Nat.lt_or_eq_of_le (Nat.le_of_lt_succ this)
          · exact .inl less
          · refine .inr ⟨same.symm, .inl fun exact => ?_⟩
            rw [exact, same] at more
            linarith
        · have : (h : ℚ) < r + 1 ∧ (r : ℚ) ≤ h := ⟨by linarith, by linarith⟩
          have : h < r + 1 ∧ r ≤ h := ⟨by exact_mod_cast this.1, by exact_mod_cast this.2⟩
          exact .inr ⟨by omega, .inr odd⟩)
  split
  · next up =>
      rw [if_pos up] at rounds
      exact_mod_cast rounds
  · next down =>
      rw [if_neg down] at rounds
      exact rounds

/-- Half of the least number of the format, or less, is rounded to zero. -/
theorem fits_zero (nonneg : 0 ≤ x) (less : x < 2 ^ (-1075 : ℤ)) : Fits x 0 (-1074) := by
  have unit : (0 : ℚ) < 2 ^ (-1074 : ℤ) := by positivity
  have half : (2 : ℚ) ^ (-1075 : ℤ) = 2 ^ (-1074 : ℤ) / 2 := by
    rw [show (-1075 : ℤ) = -1074 - 1 by rfl, zpow_sub_one₀ two_ne_zero]
    rfl
  have small : x / 2 ^ (-1074 : ℤ) < 1 / 2 := by
    rw [div_lt_iff₀ unit]
    linarith
  have positive : 0 ≤ x / 2 ^ (-1074 : ℤ) := div_nonneg nonneg unit.le
  refine ⟨⟨?_, fun _ => ⟨0, rfl⟩⟩, le_rfl, ?_, .inr rfl⟩
  · rw [Nat.cast_zero, Int.cast_zero, sub_zero, abs_of_nonneg positive]
    linarith
  · exact small.le.trans (by norm_num)

theorem result_spec {k : ℤ} {sticky : Bool} (neg : Bool) (low : (q : ℚ) ≤ x * 2 ^ k)
    (high : x * 2 ^ k < q + 1) (inexact : sticky ↔ x * 2 ^ k ≠ q)
    (size : 2 ^ 61 ≤ q ∧ q < 2 ^ 63) :
    (result neg q k sticky = .zero neg ∧ Fits x 0 (-1074)) ∨
      ∃ m p, result neg q k sticky = .ldexp neg m p ∧ Fits x m p := by
  obtain ⟨below, above⟩ := topBit_spec (q := q) 63 (by omega) (by omega)
  rw [result]
  dsimp only
  generalize topBit q 63 = t at below above ⊢
  have least : 61 < t + 1 := (Nat.pow_lt_pow_iff_right (by decide)).mp (size.1.trans_lt above)
  have most : t < 63 := (Nat.pow_lt_pow_iff_right (by decide)).mp (below.trans_lt size.2)
  have unit : (0 : ℚ) < 2 ^ k := zpow_pos two_pos k
  have bottom : (2 : ℚ) ^ ((t : ℤ) - k) ≤ x := by
    rw [zpow_sub₀ two_ne_zero, div_le_iff₀ unit, zpow_natCast]
    have : (2 : ℚ) ^ t ≤ q := by exact_mod_cast below
    linarith
  have top : x < 2 ^ ((t : ℤ) - k + 1) := by
    have : (q : ℚ) + 1 ≤ 2 ^ (t + 1) := by exact_mod_cast above
    rw [show (t : ℤ) - k + 1 = ((t + 1 : ℕ) : ℤ) - k by push_cast; ring, zpow_sub₀ two_ne_zero,
      lt_div_iff₀ unit, zpow_natCast]
    linarith
  have nonneg : 0 ≤ x := (zpow_pos two_pos _).le.trans bottom
  generalize exponent : (t : ℤ) - k = e at bottom top ⊢
  split
  · next tiny =>
      refine .inl ⟨rfl, fits_zero nonneg (top.trans_le ?_)⟩
      exact zpow_le_zpow_right₀ one_le_two (by omega)
  · next large =>
      right
      refine ⟨_, _, rfl, ?_⟩
      obtain ⟨D, drop, positive⟩ : ∃ D : ℕ, (t : ℤ) + 1 - precision e = D ∧ 0 < D := by
        refine ⟨((t : ℤ) + 1 - precision e).toNat, ?_, ?_⟩
        · rw [precision]
          split <;> omega
        · rw [precision]
          split <;> omega
      have scaled : x / 2 ^ ((D : ℤ) - k) = x * 2 ^ k / 2 ^ D := by
        rw [zpow_sub₀ two_ne_zero, zpow_natCast]
        field_simp
      have place : -1074 ≤ (D : ℤ) - k ∧ e + 1 ≤ 53 + ((D : ℤ) - k) ∧
          (52 + ((D : ℤ) - k) ≤ e ∨ (D : ℤ) - k = -1074) := by
        rw [precision] at drop
        split at drop <;> omega
      have ulp : (0 : ℚ) < 2 ^ ((D : ℤ) - k) := zpow_pos two_pos _
      rw [drop, Int.toNat_natCast]
      constructor
      · rw [scaled]
        exact roundOff_spec positive low high inexact
      · exact place.1
      · rw [div_le_iff₀ ulp, ← zpow_natCast, ← zpow_add₀ two_ne_zero]
        exact top.le.trans (zpow_le_zpow_right₀ one_le_two place.2.1)
      · refine place.2.2.imp_left fun full => ?_
        rw [le_div_iff₀ ulp, ← zpow_natCast, ← zpow_add₀ two_ne_zero]
        exact (zpow_le_zpow_right₀ one_le_two full).trans bottom

/-- The division of aligned numbers. -/
theorem divide_result {k : ℤ} (neg : Bool) (positive : 0 < den)
    (value : x * 2 ^ k = num / den) (low : den * 2 ^ 61 ≤ num) (high : num < den * 2 ^ 63)
    (fits : den * 2 ^ 64 < (2 ^ 32) ^ (NLIMB - 1)) :
    ∃ r, (divide (digits (2 ^ 32) den) 64 (digits (2 ^ 32) num) 0 >>= fun p =>
        some (result neg p.2 k (p.1 ≠ []))) = some r ∧
      ((r = .zero neg ∧ Fits x 0 (-1074)) ∨ ∃ m p, r = .ldexp neg m p ∧ Fits x m p) := by
  have parts := Nat.div_add_mod num den
  have rem := Nat.mod_lt num positive
  have unit : (0 : ℚ) < den := by exact_mod_cast positive
  have whole : (den : ℚ) * (num / den : ℕ) + (num % den : ℕ) = num := by exact_mod_cast parts
  have rem' : ((num % den : ℕ) : ℚ) + 1 ≤ den := by exact_mod_cast rem
  have room : num < den * 2 ^ 64 :=
    high.trans_le (Nat.mul_le_mul_left den (Nat.pow_le_pow_right (by decide) (by decide)))
  rw [divide_digits positive 64 num 0 room fits (dvd_zero _), Nat.zero_add]
  refine ⟨_, rfl, result_spec neg ?_ ?_ ?_ ⟨?_, ?_⟩⟩
  · rw [value, le_div_iff₀ unit]
    have : (0 : ℚ) ≤ (num % den : ℕ) := Nat.cast_nonneg _
    linarith
  · rw [value, div_lt_iff₀ unit]
    linarith
  · rw [value, decide_eq_true_eq, Nat.digits_ne_nil_iff_ne_zero, ne_eq, ne_eq, not_iff_not,
      div_eq_iff unit.ne', ← Nat.cast_eq_zero (R := ℚ)]
    constructor
    · intro zero
      linarith
    · intro exact
      linarith
  · exact (Nat.le_div_iff_mul_le positive).mpr (by rwa [Nat.mul_comm])
  · exact Nat.div_lt_of_lt_mul high

theorem size_mul_two_pow (some' : 0 < n) (s : ℕ) : (n * 2 ^ s).size = n.size + s := by
  rw [← Nat.shiftLeft_eq, Nat.size_shiftLeft some'.ne']

/-- A quotient brought to 62 or 63 bits and divided. -/
theorem align_result (neg : Bool) (some' : 0 < num) (positive : 0 < den)
    (value : x = (num : ℚ) / den) (small : num.size + 64 < 32 * (NLIMB - 1))
    (small' : den.size + 64 < 32 * (NLIMB - 1)) :
    ∃ r, (align (digits (2 ^ 32) num) (digits (2 ^ 32) den) (62 - (num.size - den.size)) >>=
        fun p =>
        divide p.2 64 p.1 0 >>= fun p' =>
          some (result neg p'.2 (62 - (num.size - den.size)) (p'.1 ≠ []))) = some r ∧
      ((r = .zero neg ∧ Fits x 0 (-1074)) ∨ ∃ m p, r = .ldexp neg m p ∧ Fits x m p) := by
  obtain ⟨u, v, aligned, u', v', scaled, sizes, room⟩ : ∃ u v : ℕ,
      align (digits (2 ^ 32) num) (digits (2 ^ 32) den) (62 - (num.size - den.size)) =
        some (digits (2 ^ 32) u, digits (2 ^ 32) v) ∧ 0 < u ∧ 0 < v ∧
      x * 2 ^ (62 - ((num.size : ℤ) - den.size)) = (u : ℚ) / v ∧ u.size = v.size + 62 ∧
      v.size + 64 < 32 * (NLIMB - 1) := by
    have fits : ∀ w s : ℕ, 0 < w → w.size + s ≤ 32 * (NLIMB - 1) →
        bshl (digits (2 ^ 32) w) s = some (digits (2 ^ 32) (w * 2 ^ s)) := by
      intro w s nonzero bits
      apply bshl_digits
      rw [← pow_mul]
      apply (Nat.lt_size_self _).trans_le
      rw [size_mul_two_pow nonzero]
      exact Nat.pow_le_pow_right (by decide) bits
    have limit : NLIMB = 130 := rfl
    rw [align]
    obtain up | none | down := lt_trichotomy 0 (62 - ((num.size : ℤ) - den.size))
    · obtain ⟨s, shift⟩ := Int.eq_ofNat_of_zero_le up.le
      rw [if_pos up, shift, Int.toNat_natCast, fits num s some' (by omega)]
      refine ⟨num * 2 ^ s, den, rfl, by positivity, positive, ?_, ?_, small'⟩
      · rw [value, zpow_natCast]
        push_cast
        ring
      · rw [size_mul_two_pow some']
        omega
    · refine ⟨num, den, ?_, some', positive, ?_, by omega, small'⟩
      · rw [← none, if_neg (by decide), if_neg (by decide)]
      · rw [← none, zpow_zero, mul_one, value]
    · obtain ⟨s, shift⟩ :=
        Int.eq_ofNat_of_zero_le (show 0 ≤ -(62 - ((num.size : ℤ) - den.size)) by omega)
      have shift' : 62 - ((num.size : ℤ) - den.size) = -(s : ℤ) := by omega
      rw [if_neg (by omega), if_pos down, shift, Int.toNat_natCast, fits den s positive (by omega)]
      refine ⟨num, den * 2 ^ s, rfl, some', by positivity, ?_, ?_, ?_⟩
      · rw [value, shift', zpow_neg, zpow_natCast]
        push_cast
        field_simp
      · rw [size_mul_two_pow positive]
        omega
      · rw [size_mul_two_pow positive]
        omega
  rw [aligned]
  have top := Nat.lt_size_self u
  have bottom := Nat.lt_size_self v
  have top' : 2 ^ (u.size - 1) ≤ u := Nat.lt_size.mp (by have := Nat.size_pos.mpr u'; omega)
  have bottom' : 2 ^ (v.size - 1) ≤ v := Nat.lt_size.mp (by have := Nat.size_pos.mpr v'; omega)
  have some'' := Nat.size_pos.mpr v'
  apply divide_result neg v' scaled
  · calc v * 2 ^ 61 ≤ 2 ^ v.size * 2 ^ 61 := Nat.mul_le_mul_right _ bottom.le
      _ = 2 ^ (u.size - 1) := by
          rw [← pow_add, sizes]
          rfl
      _ ≤ u := top'
  · calc u < 2 ^ (u.size) := top
      _ = 2 ^ (v.size - 1) * 2 ^ 63 := by
          rw [← pow_add, sizes]
          congr 1
          omega
      _ ≤ v * 2 ^ 63 := Nat.mul_le_mul_right _ bottom'
  · calc v * 2 ^ 64 < 2 ^ v.size * 2 ^ 64 := Nat.mul_lt_mul_of_pos_right bottom (by decide)
      _ = 2 ^ (v.size + 64) := (pow_add 2 _ _).symm
      _ ≤ 2 ^ (32 * (NLIMB - 1)) := Nat.pow_le_pow_right (by decide) room.le
      _ = (2 ^ 32) ^ (NLIMB - 1) := pow_mul 2 32 _

/-! ## Powers of ten -/

theorem pow_le_pow_pow {b e i j : ℕ} (positive : 0 < b) (bound : e ≤ i * j) :
    b ^ e ≤ (b ^ i) ^ j := by
  rw [← pow_mul]
  exact Nat.pow_le_pow_right positive bound

theorem size_lt_ten_pow {e : ℕ} (bound : e ≤ 9 * 89) (less : n < 10 ^ e) :
    n.size ≤ 30 * 89 := by
  apply Nat.size_le.mpr
  calc n < 10 ^ e := less
    _ ≤ (10 ^ 9) ^ 89 := pow_le_pow_pow (by decide) bound
    _ < (2 ^ 30) ^ 89 := Nat.pow_lt_pow_left (by decide) (by decide)
    _ = 2 ^ (30 * 89) := (pow_mul 2 30 89).symm

theorem size_ten_pow {e : ℕ} (bound : e ≤ 10 * 113) : (10 ^ e).size ≤ 34 * 113 := by
  apply Nat.size_le.mpr
  calc 10 ^ e ≤ (10 ^ 10) ^ 113 := pow_le_pow_pow (by decide) bound
    _ < (2 ^ 34) ^ 113 := Nat.pow_lt_pow_left (by decide) (by decide)
    _ = 2 ^ (34 * 113) := (pow_mul 2 34 113).symm

theorem lt_of_size_le {bits : ℕ} (size : n.size ≤ bits) (room : bits ≤ 32 * NLIMB) :
    n < (2 ^ 32) ^ NLIMB := by
  rw [← pow_mul]
  exact Nat.size_le.mp (size.trans room)

/-- The number is rounded to the place it has. -/
theorem scale_spec (neg : Bool) (dexp : ℤ) (some' : 0 < n) (small : n.size ≤ 30 * 89)
    (least : -1130 ≤ dexp) (high : 0 ≤ dexp → (n * 10 ^ dexp.toNat).size ≤ 30 * 89) :
    ∃ r, scale neg (digits (2 ^ 32) n) dexp = some r ∧
      ((r = .zero neg ∧ Fits (n * 10 ^ dexp) 0 (-1074)) ∨
        ∃ m p, r = .ldexp neg m p ∧ Fits (n * 10 ^ dexp) m p) := by
  obtain ⟨num, den, quotient, num', den', value, size, size'⟩ : ∃ num den : ℕ,
      ratio (digits (2 ^ 32) n) dexp = some (digits (2 ^ 32) num, digits (2 ^ 32) den) ∧ 0 < num ∧
      0 < den ∧ (n : ℚ) * 10 ^ dexp = (num : ℚ) / den ∧ num.size ≤ 34 * 113 ∧
          den.size ≤ 34 * 113 := by
    have one : digits (2 ^ 32) 1 = [1] := Nat.digits_of_lt _ _ (by decide) (by decide)
    rw [ratio]
    split
    · next whole =>
        obtain ⟨e, rfl⟩ := Int.eq_ofNat_of_zero_le whole
        have bits := high whole
        rw [Int.toNat_natCast] at bits ⊢
        rw [bpow10_digits e n (lt_of_size_le bits (by decide))]
        refine ⟨n * 10 ^ e, 1, by rw [one]; rfl, by positivity, by decide, ?_, by omega, by decide⟩
        rw [zpow_natCast]
        push_cast
        rw [div_one]
    · next fraction =>
        obtain ⟨e, rfl⟩ : ∃ e : ℕ, dexp = -e := ⟨(-dexp).toNat, by omega⟩
        have bits := size_ten_pow (e := e) (by omega)
        have product := bpow10_digits e 1 (by
          rw [Nat.one_mul]
          exact lt_of_size_le bits (by decide))
        rw [Nat.one_mul, one] at product
        rw [neg_neg, Int.toNat_natCast, product]
        refine ⟨n, 10 ^ e, rfl, some', by positivity, ?_, by omega, bits⟩
        rw [zpow_neg, zpow_natCast]
        push_cast
        rfl
  have limit : NLIMB = 130 := rfl
  obtain ⟨r, run, correct⟩ := align_result neg num' den' value (by omega) (by omega)
  refine ⟨r, ?_, correct⟩
  rw [scale, quotient]
  change (align (digits (2 ^ 32) num) (digits (2 ^ 32) den)
    (62 - ((bbits (digits (2 ^ 32) num) : ℤ) - bbits (digits (2 ^ 32) den))) >>= _) = _
  rw [bbits_digits num'.ne', bbits_digits den'.ne']
  exact run

end UnixV7.Libc.Atof
