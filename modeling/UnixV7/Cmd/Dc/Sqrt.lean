import UnixV7.Cmd.Dc.Scale
import UnixV7.Library.Fuel

/-!
# Square roots

`sqrt` of `dc.c`. The first guess is made of the leading digits of the number, and the mean of the
guess and of what the number leaves when it is divided by the guess is the next one, as long as that
is smaller.
-/

namespace UnixV7

namespace Dc

open Fuel

/-- A function that divides: the quotient, and `rem`. -/
abbrev Division := List ℤ → List ℤ → List ℤ × List ℤ

/-- The loop `while((c -= nn)>=0)nn+=2`, and the `nn` it ends with. -/
def odds : ℕ → ℤ → ℤ → ℤ
  | 0, _, nn => nn
  | fuel + 1, c, nn => if 0 ≤ c - nn then odds fuel (c - nn) (nn + 2) else nn

/-- The leading digit of a number, or the two leading ones. -/
def lead (p : List ℤ) : ℤ :=
  let c := p.reverse.getD 0 0
  if p.length % 2 ≠ 1 then c * 100 + p.reverse.getD 1 0 else c

/-- The first guess. -/
def guess (p : List ℤ) : List ℤ :=
  let n := (p.length + 1) / 2
  let c := (odds ((lead p).toNat + 1) (lead p) 1 + 1) / 2
  let r := List.replicate (n - 1) 0
  if 100 ≤ c then r ++ [byte (c - 100), 1] else r ++ [byte c]

def sqtemp : List ℤ := [2]

/-- The loop of `sqrt`. -/
def newton (div : Division) (p : List ℤ) : ℕ → List ℤ → Except Unit (List ℤ)
  | 0, _ => .error ()
  | fuel + 1, r =>
      let q := (div p r).1
      let q := (div (add q r) sqtemp).1
      let t := add (chsign r) q
      if 0 ≤ t.getLastD 0 then .ok r else newton div p fuel q

/-- `sqrt`, with the function that divides. -/
def sqrt (div : Division) (p : List ℤ) (fuel : ℕ) : Except Unit (List ℤ) :=
  newton div p fuel (guess p)

/-- A number that is not negative is divided exactly by a positive one. -/
def Exact (div : Division) (a b : List ℤ) : Prop :=
  value 100 (div a b).1 = value 100 a / value 100 b ∧ Plain (div a b).1

/-- The largest number whose square is not above `P`. -/
def IsRoot (P R : ℤ) : Prop := R ^ 2 ≤ P ∧ P < (R + 1) ^ 2

variable {div : Division} {p q r s : List ℤ} {c P R : ℤ} {fuel : ℕ}

/-! ## The iteration -/

/-- The mean is not below the root. -/
theorem lt_mean (number : 0 ≤ P) (positive : 0 < R) : P < ((P / R + R) / 2 + 1) ^ 2 := by
  have high := Int.lt_mul_ediv_self_add (x := P) positive
  have low := Int.ediv_nonneg number positive.le
  have mean : P / R + R ≤ 2 * ((P / R + R) / 2) + 1 := by omega
  generalize P / R = x at high low mean ⊢
  generalize (x + R) / 2 = q at mean ⊢
  have square := sq_nonneg (x + 1 - R)
  have more : (x + 1 + R) ^ 2 ≤ (2 * (q + 1)) ^ 2 := pow_le_pow_left₀ (by omega) (by omega) 2
  linarith

/-- A mean that is not smaller. -/
theorem sq_le_of_mean (positive : 0 < R) (stop : R ≤ (P / R + R) / 2) : R ^ 2 ≤ P := by
  have low := Int.ediv_mul_le P positive.ne'
  have large : R ≤ P / R := by omega
  have := mul_le_mul_of_nonneg_right large positive.le
  rw [pow_two]
  linarith

theorem mean_pos (number : 0 < P) (positive : 0 < R) : 0 < (P / R + R) / 2 := by
  by_cases one : R = 1
  · rw [one, Int.ediv_one]
    omega
  · have := Int.ediv_nonneg number.le positive.le
    omega

/-- A number has no sign at its top exactly when it is not negative. -/
theorem Proper.top_nonneg_iff (proper : Proper p) : 0 ≤ p.getLastD 0 ↔ 0 ≤ value 100 p := by
  rcases proper with plain | ⟨r, rfl, digits, -⟩
  · refine iff_of_true ?_ plain.1.value_nonneg
    cases List.eq_nil_or_concat' p with
    | inl none =>
        rw [none]
        exact le_rfl
    | inr some =>
        obtain ⟨r, d, rfl⟩ := some
        rw [List.getLastD_concat]
        exact (digits_concat.mp plain.1).2.1
  · have := value_negative digits
    rw [List.getLastD_concat]
    omega

theorem Plain.small (plain : Plain p) : Small p := small_of_digits plain.1

theorem Plain.ne_nil (plain : Plain p) (positive : 0 < value 100 p) : p ≠ [] := by
  rintro rfl
  exact absurd positive (by decide)

/-- One turn of the loop. -/
theorem newton_succ (plain' : Plain r) (exact : Exact div p r)
    (halves : ∀ s, Plain s → Exact div s sqtemp) :
    ∃ q, Plain q ∧ value 100 q = (value 100 p / value 100 r + value 100 r) / 2 ∧
      ∀ fuel, newton div p (fuel + 1) r =
        if value 100 r ≤ value 100 q then .ok r else newton div p fuel q := by
  obtain ⟨quotient, plain_q⟩ := exact
  obtain ⟨sum, proper⟩ := add_spec plain_q.small plain'.small
  have nonneg : 0 ≤ value 100 (add (div p r).1 r) := by
    rw [sum]
    exact add_nonneg plain_q.1.value_nonneg plain'.1.value_nonneg
  obtain ⟨half, plain_h⟩ := halves _ (proper.plain nonneg)
  obtain ⟨difference, proper'⟩ := add_spec plain'.chsign.small plain_h.small
  rw [value_chsign plain'.small] at difference
  refine ⟨_, plain_h, ?_, fun fuel => ?_⟩
  · rw [half, sum, quotient]
    rfl
  · rw [newton]
    congr 1
    rw [proper'.top_nonneg_iff, difference, eq_iff_iff]
    constructor <;> intro <;> linarith

/-- From a number that is not below the root the loop comes to it. -/
theorem newton_spec (plain : Plain p) (some : p ≠ [])
    (exact : ∀ r, Plain r → r ≠ [] → Exact div p r) (halves : ∀ s, Plain s → Exact div s sqtemp)
    (n : ℕ) (plain' : Plain r) (positive : 0 < value 100 r) (size : value 100 r ≤ n)
    (above : value 100 p < (value 100 r + 1) ^ 2) :
    ∃ q, Settles (fun fuel => newton div p fuel r) q ∧ Plain q ∧
      IsRoot (value 100 p) (value 100 q) := by
  induction n generalizing r with
  | zero =>
      exfalso
      push_cast at size
      omega
  | succ n ih =>
      have number := plain.value_pos some
      obtain ⟨q, plain_q, mean, turn⟩ :=
        newton_succ plain' (exact r plain' (plain'.ne_nil positive)) halves
      by_cases stop : value 100 r ≤ value 100 q
      · refine ⟨r, (Settles.pure r).succ fun fuel => ?_, plain', ?_, above⟩
        · rw [turn, if_pos stop]
        · rw [mean] at stop
          exact sq_le_of_mean positive stop
      · obtain ⟨q', settles, rest⟩ := ih plain_q (by rw [mean]; exact mean_pos number positive)
          (by push_cast at size; omega) (by rw [mean]; exact lt_mean number.le positive)
        refine ⟨q', settles.succ fun fuel => ?_, rest⟩
        rw [turn, if_neg stop]

/-! ## The first guess -/

/-- The loop takes the odd numbers away, the sum of which is a square. -/
theorem odds_spec (k : ℤ) (low : 0 ≤ c) (enough : c < fuel) (positive : 0 ≤ k) :
    ∃ g, odds fuel c (2 * k + 1) = 2 * g - 1 ∧ k < g ∧ (g - 1) ^ 2 ≤ c + k ^ 2 ∧
      c + k ^ 2 < g ^ 2 := by
  induction fuel generalizing c k with
  | zero =>
      exfalso
      push_cast at enough
      omega
  | succ fuel ih =>
      rw [odds]
      split
      next more =>
        obtain ⟨g, last, large, below, above⟩ := ih (k + 1) more (by push_cast at enough; omega)
          (by omega)
        have sum : c - (2 * k + 1) + (k + 1) ^ 2 = c + k ^ 2 := by ring
        rw [sum] at below above
        refine ⟨g, ?_, by omega, below, above⟩
        rw [← last]
        ring_nf
      next less =>
        refine ⟨k + 1, by ring, by omega, ?_, ?_⟩
        · rw [add_sub_cancel_right]
          omega
        · linarith [add_sq k 1]

theorem getD_lt (digits : Digits 100 p) (n : ℕ) : p.reverse.getD n 0 < 100 := by
  rw [List.getD_eq_getElem?_getD]
  cases here : p.reverse[n]? with
  | none => decide
  | some d => exact (digits d (List.mem_reverse.mp (List.mem_of_getElem? here))).2

/-- What the leading digits tell of a number. -/
theorem lead_spec (plain : Plain p) (some : p ≠ []) :
    1 ≤ lead p ∧ lead p < 10000 ∧
      value 100 p < (lead p + 1) * (100 ^ ((p.length + 1) / 2 - 1)) ^ 2 := by
  obtain ⟨⟨-, one⟩, ⟨-, two⟩, -⟩ := leads plain.1 some
  have top := plain.top_pos some
  have first := getD_lt plain.1 0
  have low := Digits.getD_nonneg plain.1 1
  have second := getD_lt plain.1 1
  have size := List.length_pos_iff.mpr some
  rw [lead]
  split
  next even =>
    have half : p.length - 1 = ((p.length + 1) / 2 - 1) * 2 + 1 := by omega
    rw [half, pow_succ, pow_mul] at two
    refine ⟨by omega, by omega, ?_⟩
    linarith
  next odd =>
    have half : p.length - 1 = ((p.length + 1) / 2 - 1) * 2 := by omega
    rw [half, pow_mul] at one
    exact ⟨top, by omega, one⟩

/-- The first guess is not below the root. -/
theorem guess_spec (plain : Plain p) (some : p ≠ []) :
    Plain (guess p) ∧ 0 < value 100 (guess p) ∧ value 100 p < (value 100 (guess p) + 1) ^ 2 := by
  obtain ⟨low, high, bound⟩ := lead_spec plain some
  obtain ⟨g, last, positive, below, above⟩ := odds_spec (c := lead p)
    0 (by omega) (show lead p < ((lead p).toNat + 1 : ℕ) by omega) le_rfl
  have half : (odds ((lead p).toNat + 1) (lead p) 1 + 1) / 2 = g := by
    rw [show (1 : ℤ) = 2 * 0 + 1 from rfl, last]
    omega
  rw [guess, half]
  generalize (p.length + 1) / 2 - 1 = m at bound ⊢
  have zeros : Digits 100 (List.replicate m 0) := by
    intro d mem
    rw [List.eq_of_mem_replicate mem]
    decide
  have weight := power_pos m
  have small : g ≤ 100 := by
    by_contra large
    have := pow_le_pow_left₀ (show 0 ≤ (100 : ℤ) by decide) (show 100 ≤ g - 1 by omega) 2
    omega
  have root : ∀ R, R = g * 100 ^ m → 0 < R ∧ value 100 p < (R + 1) ^ 2 := by
    rintro R rfl
    have product := mul_pos positive weight
    have square := mul_le_mul_of_nonneg_right (show lead p + 1 ≤ g ^ 2 by omega)
      (pow_pos weight 2).le
    refine ⟨product, bound.trans_le (square.trans ?_)⟩
    rw [← mul_pow]
    exact pow_le_pow_left₀ product.le (by omega) 2
  have empty : value 100 (List.replicate m 0) = 0 := by
    have := value_replicate_zero m []
    rwa [List.append_nil, value_nil, mul_zero] at this
  split
  next large =>
    obtain rfl : g = 100 := by omega
    refine ⟨⟨digits_append.mpr ⟨zeros, by decide⟩, by simp⟩, root _ ?_⟩
    rw [value_append, List.length_replicate, empty]
    simp [byte]
    ring
  next less =>
    rw [byte_eq (by omega) (by omega)]
    refine ⟨⟨digits_concat.mpr ⟨zeros, by omega, by omega⟩, by simp; omega⟩, root _ ?_⟩
    rw [value_concat, List.length_replicate, empty]
    ring

/-! ## The division of dc -/

theorem Plain.magnitude_eq (plain : Plain p) : magnitude p = (p, false) :=
  if_neg fun last => absurd (plain.1 _ (List.mem_of_getLast? last)).1 (by decide)

/-- Where `div` divides it is exact. -/
theorem exact_of_divides (plain : Plain p) (plain' : Plain q) (divides : Divides p q) :
    Exact Dc.div p q := by
  obtain ⟨whole, less, nonneg, -, signed, -⟩ := divides
  have rest := nonneg plain.1.value_nonneg
  have divisor := plain'.1.value_nonneg
  rw [abs_of_nonneg rest, abs_of_nonneg divisor] at less
  have quotient : value 100 (Dc.div p q).1 = value 100 p / value 100 q := by
    rw [eq_comm, Int.ediv_eq_iff_of_pos (rest.trans_lt less)]
    constructor <;> linarith
  have top : (Dc.div p q).1.getLast? ≠ some 0 := by
    simp only [Dc.div, plain.magnitude_eq, plain'.magnitude_eq, bne_self_eq_false,
      Bool.false_eq_true, if_false]
    split_ifs
    · simp
    · simp
    · exact getLast?_trim _
  refine ⟨quotient, ?_, top⟩
  rcases signed with digits | ⟨r, here, digits⟩
  · exact digits
  · have negative := value_negative digits
    rw [← here, quotient] at negative
    exact absurd (Int.ediv_nonneg plain.1.value_nonneg divisor) (not_le.mpr negative)

/-- No guess is too large where the number made of the leading digits is exact. -/
theorem fits_two {divd : List ℤ} {o : ℕ} (rest : Remaining [2] divd o) :
    Fits (divisor [2]) (value 100 [2]) [2].length o (value 100 divd) := by
  induction o generalizing divd with
  | zero => trivial
  | succ o ih =>
      have lead := rest.lead
      have positive := lead.nonneg (mul_pos (power_pos _) (power_pos _)) rest.digits.value_nonneg
      have guess : (divisor [2]).guess (leading divd) (o + 1) = 8 * leading divd / 1601 :=
        Divisor.guess_succ _ positive o
      have enough : 0 ≤ leftover [2] divd o := by
        have low := Int.ediv_mul_le (8 * leading divd) (show (1601 : ℤ) ≠ 0 by decide)
        have power := power_pos o
        have below := mul_le_mul_of_nonneg_right
          (show 200 * (8 * leading divd / 1601) ≤ leading divd by omega) power.le
        have := lead.low
        rw [leftover, guess, show value 100 [2] = 2 from rfl, pow_succ]
        rw [show ([2] : List ℤ).length - 1 = 0 from rfl, pow_zero, one_mul, pow_succ] at this
        linarith
      obtain ⟨-, -, less, -⟩ := rest.next
      have short : leftover [2] divd o < 100 ^ ([2].length + (o + 1)) := by
        have power := power_pos o
        rw [show value 100 [2] = 2 from rfl] at less
        rw [List.length_singleton, Nat.add_comm 1, pow_succ, pow_succ]
        linarith
      obtain ⟨x, -, kept, left, rest'⟩ := rest.reduce enough
      rw [kept short, mul_zero, sub_zero] at left
      have fits := ih rest'
      rw [left] at fits
      exact rest.fits_iff.mpr ⟨enough, short, fits⟩

theorem plain_two : Plain sqtemp := ⟨by decide, by decide⟩

/-- Halves are always exact. -/
theorem exact_two (plain : Plain s) : Exact Dc.div s sqtemp := by
  have two : Proper sqtemp := .inl plain_two
  refine exact_of_divides plain plain_two (divides_of_fitting (.inl plain.1) two (by decide) ?_)
  intro length
  obtain ⟨digits, size, -⟩ := magnitude_spec (.inl plain.1)
  have rest := remaining_begin two.magnitude (by decide) digits length
  have fits := fits_two rest
  rw [value_concat, mul_zero, add_zero, size] at fits
  exact fits

/-- The square root of a positive number, where the function that divides is exact. -/
theorem sqrt_spec (div : Division) (plain : Plain p) (some : p ≠ [])
    (exact : ∀ r, Plain r → r ≠ [] → Exact div p r) (halves : ∀ s, Plain s → Exact div s sqtemp) :
    ∃ r, Settles (fun fuel => sqrt div p fuel) r ∧ Plain r ∧
      IsRoot (value 100 p) (value 100 r) := by
  obtain ⟨plain', positive, above⟩ := guess_spec plain some
  exact newton_spec plain some exact halves (value 100 (guess p)).toNat plain' positive (by omega)
    above

/-- With the division of dc, where no digit is lost when the number is divided. -/
theorem sqrt_of_fitting (plain : Plain p) (some : p ≠ [])
    (fitting : ∀ r, Plain r → r ≠ [] → Fitting p r) :
    ∃ r, Settles (fun fuel => sqrt Dc.div p fuel) r ∧ Plain r ∧
      IsRoot (value 100 p) (value 100 r) := by
  obtain ⟨plain', positive, above⟩ := guess_spec plain some
  refine newton_spec plain some (fun r plain' some' => ?_) (fun s => exact_two)
    (value 100 (guess p)).toNat plain' positive (by omega) above
  exact exact_of_divides plain plain'
    (divides_of_fitting (.inl plain.1) (.inl plain') some' (fitting r plain' some'))

/-- No digit is lost when 150 is divided. -/
theorem fitting_150 (plain : Plain r) (some : r ≠ []) : Fitting [50, 1] r := by
  have digits : Plain [50, 1] := ⟨by decide, by decide⟩
  rw [Fitting, plain.magnitude_eq, digits.magnitude_eq]
  intro length
  match r, plain, length with
  | [], _, _ => exact absurd rfl some
  | [d], plain, _ =>
      obtain ⟨low, high⟩ := plain.1 d List.mem_cons_self
      interval_cases d
      · exact absurd rfl plain.2
      all_goals decide
  | [d, e], _, _ => trivial

/-- The square root of 150. -/
theorem sqrt_spec_150 : ∃ r, Settles (fun fuel => sqrt Dc.div [50, 1] fuel) r ∧ Plain r ∧
    IsRoot 150 (value 100 r) :=
  sqrt_spec Dc.div ⟨by decide, by decide⟩ (by decide)
    (fun r plain some => exact_of_divides ⟨by decide, by decide⟩ plain (divides_of_fitting
      (.inl (by decide)) (.inl plain) some (fitting_150 plain some))) fun _ => exact_two

end Dc

end UnixV7
