import Mathlib.Data.List.GetD
import Mathlib.Data.Rat.Defs
import Mathlib.Algebra.Order.Field.Rat
import Mathlib.Tactic.FieldSimp
import Mathlib.Tactic.IntervalCases
import UnixV7.Cmd.Dc.Div

/-!
# Quotient and remainder of decimal fractions

The commands `/` and `%` of `dc.c`: `dscale` gives the dividend digits, or takes digits away, so
that the quotient has the digits asked for. Digits that were taken away go back into the remainder.
-/

namespace UnixV7

namespace Dc

/-- A number on the stack: its digits and the byte on top of them, the scale. -/
structure Number where
  digits : List ℤ
  scale : ℕ

/-- A row of `mult`: `mp * cq`, with the carry, added to what is in `mr` from its place on. -/
def multRow (cq : ℤ) : ℤ → List ℤ → List ℤ → List ℤ
  | carry, [], mr => if carry ≠ 0 then byte (mr.headD 0 + carry) :: mr.tail else mr
  | carry, cp :: mp, mr =>
      let mt := cp * cq + carry + mr.headD 0
      byte (mt.tmod 100) :: multRow cq (mt.tdiv 100) mp mr.tail

/-- The rows of `mult`; each begins one place further on. -/
def multRows (mp : List ℤ) : List ℤ → List ℤ → List ℤ
  | [], mr => mr
  | cq :: mq, mr =>
      match multRow cq 0 mp mr with
      | [] => []
      | d :: mr => d :: multRows mp mq mr

/-- The factor that `mult` multiplies, and whether it was negative. -/
def factor (p : List ℤ) : List ℤ × Bool :=
  if p.getLastD 0 < 0 then (chsign p, true) else (p, false)

/-- `mult` -/
def mult (p q : List ℤ) : List ℤ :=
  let (mp, s) := factor p
  let (mq, t) := factor q
  let mr := multRows mp mq []
  if s != t then chsign mr else mr

/-- `add0` -/
def add0 (p : List ℤ) (ct : ℕ) : List ℤ :=
  let q := List.replicate (ct / 2) 0 ++ p
  if ct % 2 = 1 then mult [10] q else q

/-- `removr`: what is left of a number without `n` decimal digits, and `irem`. -/
def removr (p : List ℤ) (n : ℕ) : List ℤ × List ℤ :=
  let q := (List.range (n / 2)).map fun i => p.getD i (-1)
  let r := p.drop (n / 2)
  if n % 2 = 1 then ((div r [10]).1, q ++ (div r [10]).2.take 1) else (r, q)

/-- `arg1` and `irem`, as `dscale` leaves them for the scale factor `k`. -/
def dscale (k : ℕ) (a b : Number) : List ℤ × Option (List ℤ) :=
  let c : ℤ := k - a.scale + b.scale
  if c < 0 then
    let (r, irem) := removr a.digits (-c).toNat
    (r, some irem)
  else (add0 a.digits c.toNat, none)

/-- What `/` leaves. -/
def quotient (k : ℕ) (a b : Number) : Number :=
  ⟨(div (dscale k a b).1 b.digits).1, k % 256⟩

/-- What `%` leaves. -/
def remainder (k : ℕ) (a b : Number) : Number :=
  let rem := (div (dscale k a b).1 b.digits).2
  match (dscale k a b).2 with
  | none => ⟨rem, (b.scale + k) % 256⟩
  | some irem => ⟨add (add0 rem (a.scale - (b.scale + k))) irem, a.scale⟩

/-- The value of a number. -/
def Number.value (a : Number) : ℚ := (UnixV7.value 100 a.digits : ℚ) / 10 ^ a.scale

/-- What `%` leaves belongs to what `/` leaves. -/
def Belongs (k : ℕ) (a b : Number) : Prop :=
  a.value = (quotient k a b).value * b.value + (remainder k a b).value ∧ (quotient k a b).scale = k

/-! ## Products -/

variable {a b : Number} {p q r mp mq mr : List ℤ} {c cq d : ℤ} {k m n o : ℕ}

/-- A row of `mult` adds a multiple. -/
theorem multRow_spec (digits : Digits 100 mp) (digits' : Digits 100 mr)
    (length : mr.length ≤ mp.length) (low : 0 ≤ cq) (high : cq < 100) (nonneg : 0 ≤ c)
    (carry : c < 100) :
    value 100 (multRow cq c mp mr) = value 100 mr + cq * value 100 mp + c ∧
      Digits 100 (multRow cq c mp mr) ∧ (multRow cq c mp mr).length ≤ mp.length + 1 ∧
      mp.length ≤ (multRow cq c mp mr).length := by
  induction mp generalizing c mr with
  | nil =>
    obtain rfl := List.length_eq_zero_iff.mp (Nat.le_zero.mp length)
    rw [multRow]
    split
    · rw [List.headD_nil, zero_add, byte_eq (by omega) (by omega)]
      exact ⟨by simp, digits_cons.mpr ⟨⟨nonneg, carry⟩, Digits.nil⟩, Nat.le_refl _, Nat.zero_le _⟩
    · rename_i none
      obtain rfl : c = 0 := not_not.mp none
      exact ⟨by simp, Digits.nil, Nat.zero_le _, Nat.le_refl _⟩
  | cons cp mp hyp =>
    obtain ⟨⟨low_p, high_p⟩, rest⟩ := digits_cons.mp digits
    have head := (small_of_digits digits').headD
    have head' : 0 ≤ mr.headD 0 := by
      cases mr with
      | nil => exact le_rfl
      | cons d mr => exact (digits' d List.mem_cons_self).1
    have product := mul_nonneg low_p low
    have most := mul_le_mul (show cp ≤ 99 by omega) (show cq ≤ 99 by omega) low (by decide)
    have tmod : (cp * cq + c + mr.headD 0).tmod 100 = (cp * cq + c + mr.headD 0) % 100 :=
      Int.tmod_eq_emod_of_nonneg (by omega)
    have tdiv : (cp * cq + c + mr.headD 0).tdiv 100 = (cp * cq + c + mr.headD 0) / 100 :=
      Int.tdiv_eq_ediv_of_nonneg (by omega)
    obtain ⟨sum, digits'', longest, shortest⟩ := hyp
      (c := (cp * cq + c + mr.headD 0) / 100) rest
      (fun d mem => digits' d (List.mem_of_mem_tail mem))
      (by rw [List.length_tail]; rw [List.length_cons] at length; omega) (by omega) (by omega)
    rw [multRow, tmod, tdiv, byte_eq (by omega) (by omega)]
    refine ⟨?_, digits_cons.mpr ⟨by omega, digits''⟩, Nat.succ_le_succ longest,
      Nat.succ_le_succ shortest⟩
    have split := Int.emod_add_mul_ediv (cp * cq + c + mr.headD 0) 100
    rw [value_cons, sum, value_cons, value_headD_tail mr]
    linarith

/-- All rows together make the product. -/
theorem multRows_spec (digits : Digits 100 mp) (digits' : Digits 100 mq)
    (digits'' : Digits 100 mr) (length : mr.length ≤ mp.length) (some : mp ≠ []) :
    value 100 (multRows mp mq mr) = value 100 mr + value 100 mp * value 100 mq ∧
      Digits 100 (multRows mp mq mr) := by
  induction mq generalizing mr with
  | nil => exact ⟨by simp [multRows], digits''⟩
  | cons cq mq hyp =>
    obtain ⟨⟨low, high⟩, rest⟩ := digits_cons.mp digits'
    obtain ⟨sum, digits_row, longest, shortest⟩ :=
      multRow_spec digits digits'' length low high le_rfl (by decide)
    rw [multRows]
    generalize multRow cq 0 mp mr = row at sum digits_row longest shortest ⊢
    cases row with
    | nil => exact absurd (List.length_eq_zero_iff.mp (Nat.le_zero.mp shortest)) some
    | cons d row =>
      obtain ⟨digit, digits_row⟩ := digits_cons.mp digits_row
      obtain ⟨total, digits_rows⟩ := hyp rest digits_row (Nat.le_of_succ_le_succ longest)
      refine ⟨?_, digits_cons.mpr ⟨digit, digits_rows⟩⟩
      rw [value_cons] at sum
      simp only [value_cons, total]
      linarith

theorem multRows_nil (mq : List ℤ) : multRows [] mq [] = [] := by
  cases mq with
  | nil => rfl
  | cons cq mq => rfl

theorem factor_eq (signed : Signed p) : factor p = magnitude p := by
  rw [factor, magnitude]
  rcases signed with digits | ⟨r, rfl, -⟩
  · have other : p.getLast? ≠ some (-1) := fun last =>
      absurd (digits (-1) (List.mem_of_getLast? last)).1 (by decide)
    have nonneg : ¬p.getLastD 0 < 0 := by
      rw [List.getLastD_eq_getLast?]
      cases last : p.getLast? with
      | none => decide
      | some d => exact not_lt.mpr (digits d (List.mem_of_getLast? last)).1
    rw [if_neg other, if_neg nonneg]
  · rw [if_pos List.getLast?_concat, if_pos (by simp)]

/-- `mult` multiplies. -/
theorem mult_spec (signed : Signed p) (signed' : Signed q) :
    value 100 (mult p q) = value 100 p * value 100 q ∧ Signed (mult p q) := by
  obtain ⟨digits, size, sign⟩ := magnitude_spec signed
  obtain ⟨digits', size', sign'⟩ := magnitude_spec signed'
  have rows : value 100 (multRows (magnitude p).1 (magnitude q).1 []) =
      |value 100 p| * |value 100 q| ∧
        Digits 100 (multRows (magnitude p).1 (magnitude q).1 []) := by
    by_cases none : (magnitude p).1 = []
    · rw [none, value_nil] at size
      rw [none, multRows_nil, ← size, zero_mul]
      exact ⟨rfl, Digits.nil⟩
    · obtain ⟨product, digits''⟩ := multRows_spec digits digits' Digits.nil (Nat.zero_le _) none
      exact ⟨by rw [product, size, size', value_nil, zero_add], digits''⟩
  rw [mult, factor_eq signed, factor_eq signed']
  generalize magnitude p = x at sign rows ⊢
  generalize magnitude q = y at sign' rows ⊢
  obtain ⟨mp, s⟩ := x
  obtain ⟨mq, t⟩ := y
  simp only at sign sign' rows ⊢
  rw [value_ite_chsign (small_of_digits rows.2), rows.1]
  refine ⟨?_, signed_ite_chsign rows.2 _⟩
  cases s with
  | false =>
    rw [abs_of_nonneg (show 0 ≤ value 100 p by simpa using sign)]
    cases t with
    | false => simp [abs_of_nonneg (show 0 ≤ value 100 q by simpa using sign')]
    | true => simp [abs_of_neg (sign'.mp rfl)]
  | true =>
    rw [abs_of_neg (sign.mp rfl)]
    cases t with
    | false => simp [abs_of_nonneg (show 0 ≤ value 100 q by simpa using sign')]
    | true => simp [abs_of_neg (sign'.mp rfl)]

/-! ## Digits added and taken away -/

theorem value_replicate_zero (m : ℕ) (p : List ℤ) :
    value 100 (List.replicate m 0 ++ p) = 100 ^ m * value 100 p := by
  induction m with
  | zero => simp
  | succ m hyp =>
    rw [List.replicate_succ, List.cons_append, value_cons, hyp, pow_succ]
    ring

theorem Signed.replicate_zero (signed : Signed p) (m : ℕ) : Signed (List.replicate m 0 ++ p) := by
  have zeros : Digits 100 (List.replicate m 0) := by
    intro d mem
    rw [List.eq_of_mem_replicate mem]
    decide
  rcases signed with digits | ⟨r, rfl, digits⟩
  · exact .inl (digits_append.mpr ⟨zeros, digits⟩)
  · exact .inr ⟨List.replicate m 0 ++ r, by rw [List.append_assoc],
      digits_append.mpr ⟨zeros, digits⟩⟩

/-- `add0` multiplies by a power of 10. -/
theorem add0_spec (signed : Signed p) (ct : ℕ) :
    value 100 (add0 p ct) = value 100 p * 10 ^ ct ∧ Signed (add0 p ct) := by
  have even := value_replicate_zero (ct / 2) p
  have signed' := signed.replicate_zero (ct / 2)
  have power : (100 : ℤ) ^ (ct / 2) = 10 ^ (2 * (ct / 2)) := by
    rw [pow_mul]
    rfl
  rw [add0]
  split
  · rename_i odd
    obtain ⟨product, signed''⟩ := mult_spec (.inl (by decide) : Signed [10]) signed'
    refine ⟨?_, signed''⟩
    have whole : (10 : ℤ) ^ ct = 10 ^ (2 * (ct / 2)) * 10 := by
      rw [← pow_succ]
      congr 1
      omega
    rw [product, even, power, whole, show value 100 [10] = 10 from rfl]
    ring
  · rw [even, power, show 2 * (ct / 2) = ct by omega]
    exact ⟨mul_comm _ _, signed'⟩

instance (p : List ℤ) : Decidable (Small p) :=
  inferInstanceAs (Decidable (∀ d ∈ p, -1 ≤ d ∧ d < 100))

/-- A divisor that begins with a digit from 10 on and is far below the power of its length loses no
digit. -/
theorem fits_ten {divd : List ℤ} (rest : Remaining [10] divd o) :
    Fits (divisor [10]) (value 100 [10]) [10].length o (value 100 divd) := by
  induction o generalizing divd with
  | zero => trivial
  | succ o hyp =>
    have enough := rest.leftover_nonneg (by decide)
    obtain ⟨-, -, less, -⟩ := rest.next
    have short : leftover [10] divd o < 100 ^ ([10].length + (o + 1)) := by
      have power := power_pos o
      rw [show value 100 [10] = 10 from rfl] at less
      rw [List.length_singleton, Nat.add_comm 1, pow_succ, pow_succ]
      linarith
    obtain ⟨x, -, kept, left, rest'⟩ := rest.reduce enough
    rw [kept short, mul_zero, sub_zero] at left
    have := hyp rest'
    rw [left] at this
    exact rest.fits_iff.mpr ⟨enough, short, this⟩

theorem proper_ten : Proper [10] := .inl ⟨by decide, by decide⟩

theorem fitting_ten (signed : Signed p) : Fitting p [10] := by
  intro length
  obtain ⟨digits, size, -⟩ := magnitude_spec signed
  have rest := remaining_begin proper_ten.magnitude (by decide) digits length
  have fits := fits_ten rest
  rw [value_concat, mul_zero, add_zero, size] at fits
  exact fits

/-- The first digit of what a division by 10 leaves: a negative remainder other than -1 has two
digits, 100 and the remainder, and -1. -/
theorem rem_take_one (signed : Signed p) :
    value 100 ((div p [10]).2.take 1) =
        (if value 100 (div p [10]).2 < -1 then 100 else 0) + value 100 (div p [10]).2 ∧
      Small ((div p [10]).2.take 1) := by
  obtain ⟨digits, size, sign⟩ := magnitude_spec signed
  obtain ⟨-, less, -, -, -, -⟩ :=
    divides_of_fitting signed proper_ten (by decide) (fitting_ten signed)
  have form : ∃ d s, Plain d ∧ (div p [10]).2 = if s = true then chsign d else d := by
    rcases Nat.lt_or_ge (magnitude p).1.length (magnitude [10]).1.length with short | length
    · have none : (magnitude p).1 = [] :=
        List.length_eq_zero_iff.mp (Nat.lt_one_iff.mp short)
      rw [div_eq_of_lt (by decide) short, none]
      exact ⟨[], _, ⟨Digits.nil, by decide⟩, rfl⟩
    · have rest := remaining_begin proper_ten.magnitude (by decide) digits length
      obtain ⟨r, v, found, -, -, digits_r, -, -⟩ := steps_fits (p := []) rest (fits_ten rest)
      rw [List.append_nil] at found
      rw [div_eq (by decide) length found]
      exact ⟨trim r, _, ⟨digits_r.trim, getLast?_trim r⟩, rfl⟩
  obtain ⟨d, s, plain, form⟩ := form
  rw [form] at less ⊢
  rw [value_ite_chsign (small_of_digits plain.1)] at less ⊢
  have ten : |value 100 [10]| = 10 := rfl
  rw [ten] at less
  have nonneg := plain.1.value_nonneg
  have below : value 100 d < 10 := by
    cases s with
    | false => exact (abs_lt.mp less).2
    | true =>
      have := (abs_lt.mp less).1
      simp only [if_true] at this
      omega
  cases d with
  | nil => cases s <;> exact ⟨by decide, by decide⟩
  | cons x d =>
    have large := plain.le_value (List.cons_ne_nil x d)
    obtain rfl : d = [] := by
      by_contra some
      have := List.length_pos_iff.mpr some
      have : (100 : ℤ) ^ 1 ≤ 100 ^ ((x :: d).length - 1) :=
        pow_le_pow_right₀ (by decide) (by rw [List.length_cons]; omega)
      omega
    rw [value_cons, value_nil, mul_zero, add_zero] at below large
    change 1 ≤ x at large
    interval_cases x <;> cases s <;> exact ⟨by decide, by decide⟩

theorem Signed.drop (signed : Signed p) (m : ℕ) : Signed (p.drop m) := by
  rcases signed with digits | ⟨r, rfl, digits⟩
  · exact .inl (digits.sublist (List.drop_sublist m p))
  · rcases Nat.lt_or_ge r.length m with more | inside
    · rw [List.drop_eq_nil_of_le (by rw [List.length_append, List.length_singleton]; omega)]
      exact .inl Digits.nil
    · rw [List.drop_append_of_le_length inside]
      exact .inr ⟨_, rfl, digits.sublist (List.drop_sublist m r)⟩

theorem Small.append (small : Small p) (small' : Small q) : Small (p ++ q) :=
  List.forall_mem_append.mpr ⟨small, small'⟩

/-- The digits that are taken away, where there are enough. -/
theorem strip_of_le (inside : m ≤ p.length) :
    (List.range m).map (fun i => p.getD i (-1)) = p.take m := by
  apply List.ext_getElem
  · simp [inside]
  · intro i low high
    simp only [List.length_map, List.length_range] at low
    rw [List.getElem_map, List.getElem_range, List.getElem_take,
      List.getD_eq_getElem _ _ (by omega)]

/-- Where there are not enough, -1 is taken at the end. -/
theorem strip_of_lt (short : p.length < m) :
    (List.range m).map (fun i => p.getD i (-1)) = p ++ List.replicate (m - p.length) (-1) := by
  apply List.ext_getElem
  · simp
    omega
  · intro i low high
    simp only [List.length_map, List.length_range] at low
    rw [List.getElem_map, List.getElem_range]
    rcases Nat.lt_or_ge i p.length with inside | outside
    · rw [List.getElem_append_left inside, List.getD_eq_getElem _ _ inside]
    · rw [List.getElem_append_right outside, List.getElem_replicate,
        List.getD_eq_default _ _ outside]

theorem value_replicate_neg (n : ℕ) : value 100 (List.replicate (n + 1) (-1)) < 0 := by
  induction n with
  | zero => decide
  | succ n hyp =>
    rw [List.replicate_succ, value_cons]
    omega

/-- The remainder by 10 is C's. -/
theorem value_rem_ten (signed : Signed p) :
    value 100 p = value 100 (div p [10]).1 * 10 + value 100 (div p [10]).2 ∧
      value 100 (div p [10]).2 = (value 100 p).tmod 10 ∧ Signed (div p [10]).1 := by
  obtain ⟨whole, less, nonneg, nonpos, signed', -⟩ :=
    divides_of_fitting signed proper_ten (by decide) (fitting_ten signed)
  rw [show value 100 [10] = 10 from rfl] at whole less
  refine ⟨whole, ?_, signed'⟩
  have bounds := abs_lt.mp (show |value 100 (div p [10]).2| < 10 from less)
  rcases lt_or_ge (value 100 p) 0 with negative | positive
  · have sign := nonpos negative.le
    rw [← neg_neg (value 100 p), Int.neg_tmod, Int.tmod_eq_emod_of_nonneg (by omega)]
    omega
  · have sign := nonneg positive
    rw [Int.tmod_eq_emod_of_nonneg positive]
    omega

/-- What `removr` leaves and what it takes away, where there are enough digits. -/
theorem removr_spec (signed : Signed p) (enough : n / 2 ≤ p.length) :
    value 100 (removr p n).1 * 10 ^ n + value 100 (removr p n).2 = value 100 p +
        (if n % 2 = 1 ∧ (value 100 (p.drop (n / 2))).tmod 10 < -1 then 100 ^ (n / 2 + 1) else 0) ∧
      Signed (removr p n).1 ∧ Small (removr p n).2 := by
  have small : Small (p.take (n / 2)) := fun d mem => signed.small d (List.mem_of_mem_take mem)
  have whole : value 100 p =
      value 100 (p.take (n / 2)) + 100 ^ (n / 2) * value 100 (p.drop (n / 2)) := by
    conv_lhs =>
      rw [← List.take_append_drop (n / 2) p, value_append, List.length_take_of_le enough]
  have power : (100 : ℤ) ^ (n / 2) = 10 ^ (2 * (n / 2)) := by
    rw [pow_mul]
    rfl
  rw [removr, strip_of_le enough]
  by_cases odd : n % 2 = 1
  · obtain ⟨split, tmod, signed'⟩ := value_rem_ten (signed.drop (n / 2))
    obtain ⟨first, small'⟩ := rem_take_one (signed.drop (n / 2))
    have power' : (10 : ℤ) ^ n = 10 ^ (2 * (n / 2)) * 10 := by
      rw [← pow_succ]
      congr 1
      omega
    rw [if_pos odd]
    refine ⟨?_, signed', small.append small'⟩
    dsimp only
    rw [value_append, List.length_take_of_le enough, first, ← tmod, whole, split, power', pow_succ,
      power]
    by_cases two : value 100 (div (p.drop (n / 2)) [10]).2 < -1
    · rw [if_pos two, if_pos ⟨odd, two⟩]
      ring
    · rw [if_neg two, if_neg fun both => two both.2]
      ring
  · rw [if_neg odd, if_neg fun both => odd both.1]
    refine ⟨?_, signed.drop _, small⟩
    dsimp only
    rw [whole, power, show 2 * (n / 2) = n by omega]
    ring

/-- Where there are not enough digits, nothing is left and too little is taken away. -/
theorem removr_of_lt (signed : Signed p) (short : p.length < n / 2) :
    (removr p n).1 = [] ∧ value 100 (removr p n).2 ≠ value 100 p ∧ Small (removr p n).2 := by
  have none : div [] [10] = ([], []) := by decide
  have irem : (removr p n).2 = p ++ List.replicate (n / 2 - p.length) (-1) := by
    rw [removr, strip_of_lt short, List.drop_eq_nil_of_le (by omega), none]
    split
    · exact List.append_nil _
    · rfl
  obtain ⟨j, more⟩ : ∃ j, n / 2 - p.length = j + 1 := ⟨n / 2 - p.length - 1, by omega⟩
  refine ⟨?_, ?_, ?_⟩
  · rw [removr, strip_of_lt short, List.drop_eq_nil_of_le (by omega), none]
    split <;> rfl
  · have negative := mul_pos (power_pos p.length) (neg_pos.mpr (value_replicate_neg j))
    rw [irem, value_append, more]
    intro same
    linarith
  · rw [irem]
    refine signed.small.append fun d mem => ?_
    rw [List.eq_of_mem_replicate mem]
    decide

/-! ## Quotient and remainder -/

/-- Where what is taken from the dividend goes back into the remainder and the scale of the
remainder fits its byte. If no digits are taken away, the scale is below 256 or the remainder is 0.
Otherwise the dividend has as many bytes as are taken away, and where a single decimal digit is
taken away as well, what the division by 10 leaves is not below -1. -/
def Kept (k : ℕ) (a b : Number) : Prop :=
  if a.scale ≤ b.scale + k then
    b.scale + k < 256 ∨
      UnixV7.value 100 b.digits ∣ UnixV7.value 100 a.digits * 10 ^ (b.scale + k - a.scale)
  else
    (a.scale - (b.scale + k)) / 2 ≤ a.digits.length ∧
      ¬((a.scale - (b.scale + k)) % 2 = 1 ∧
        (UnixV7.value 100 (a.digits.drop ((a.scale - (b.scale + k)) / 2))).tmod 10 < -1)

/-- The dividend gets digits. -/
theorem dscale_of_le (le : a.scale ≤ b.scale + k) :
    dscale k a b = (add0 a.digits (b.scale + k - a.scale), none) := by
  rw [dscale, if_neg (by omega), show ((k : ℤ) - a.scale + b.scale).toNat =
    b.scale + k - a.scale by omega]

/-- The dividend loses digits. -/
theorem dscale_of_lt (lt : b.scale + k < a.scale) :
    dscale k a b = ((removr a.digits (a.scale - (b.scale + k))).1,
      some (removr a.digits (a.scale - (b.scale + k))).2) := by
  rw [dscale, if_pos (by omega), show (-((k : ℤ) - a.scale + b.scale)).toNat =
    a.scale - (b.scale + k) by omega]

theorem ten_pow_ne_zero (n : ℕ) : (10 : ℚ) ^ n ≠ 0 := pow_ne_zero n (by norm_num)

/-- The fractions of a division with more digits. -/
theorem fractions_of_le {A B Q R : ℤ} {c s t : ℕ} (whole : A * 10 ^ c = Q * B + R)
    (scales : s + c = t + k) :
    (A : ℚ) / 10 ^ s = Q / 10 ^ k * (B / 10 ^ t) + R / 10 ^ (t + k) := by
  have cast : (A : ℚ) * 10 ^ c = Q * B + R := by exact_mod_cast whole
  have power : (10 : ℚ) ^ s * 10 ^ c = 10 ^ t * 10 ^ k := by rw [← pow_add, scales, pow_add]
  have left : (A : ℚ) / 10 ^ s = (A * 10 ^ c) / (10 ^ s * 10 ^ c) :=
    (mul_div_mul_right _ _ (ten_pow_ne_zero c)).symm
  rw [left, cast, power, pow_add]
  have := ten_pow_ne_zero t
  have := ten_pow_ne_zero k
  field_simp

/-- The fractions of a division with fewer digits. -/
theorem fractions_of_lt {A B Q R : ℤ} {I : ℤ} {s t : ℕ} (scales : s = t + k + n) :
    (A : ℚ) / 10 ^ s = Q / 10 ^ k * (B / 10 ^ t) + ((R * 10 ^ n + I : ℤ) : ℚ) / 10 ^ s ↔
      A = (Q * B + R) * 10 ^ n + I := by
  have := ten_pow_ne_zero t
  have := ten_pow_ne_zero k
  have := ten_pow_ne_zero n
  have right : (Q : ℚ) / 10 ^ k * (B / 10 ^ t) + ((R * 10 ^ n + I : ℤ) : ℚ) / 10 ^ s =
      (((Q * B + R) * 10 ^ n + I : ℤ) : ℚ) / 10 ^ s := by
    rw [scales, pow_add, pow_add]
    push_cast
    field_simp
    ring
  rw [right, div_left_inj' (ten_pow_ne_zero s)]
  exact Int.cast_inj

/-- Two scales give different values, but for 0. -/
theorem fraction_inj {R : ℤ} {s t : ℕ} : (R : ℚ) / 10 ^ s = R / 10 ^ t ↔ s = t ∨ R = 0 := by
  constructor
  · intro same
    by_cases zero : R = 0
    · exact .inr zero
    · left
      have nonzero : (R : ℚ) ≠ 0 := Int.cast_ne_zero.mpr zero
      have powers : (10 : ℚ) ^ t = 10 ^ s := by
        rw [div_eq_div_iff (ten_pow_ne_zero s) (ten_pow_ne_zero t)] at same
        exact mul_left_cancel₀ nonzero same
      exact (pow_right_injective₀ (by norm_num) (by norm_num) powers).symm
  · rintro (rfl | rfl)
    · rfl
    · simp

/-- Where no digit of the quotient is lost, the remainder belongs to it exactly where the digits
that are taken away go back. -/
theorem belongs_iff_kept (signed : Signed a.digits) (proper : Proper b.digits)
    (some : b.digits ≠ []) (factor : k ≤ 99) (fits : Fitting (dscale k a b).1 b.digits) :
    Belongs k a b ↔ Kept k a b := by
  have scale : (quotient k a b).scale = k := Nat.mod_eq_of_lt (by omega)
  rw [Belongs, and_iff_left scale, Number.value, Number.value, Number.value, Number.value, scale,
    quotient, remainder]
  rcases Nat.lt_or_ge (b.scale + k) a.scale with lt | le
  · rw [Kept, if_neg (Nat.not_le.mpr lt)]
    rw [dscale_of_lt lt] at fits ⊢
    dsimp only at fits ⊢
    obtain ⟨n, spare⟩ : ∃ n, a.scale - (b.scale + k) = n := ⟨_, rfl⟩
    rw [spare] at fits ⊢
    rcases Nat.lt_or_ge a.digits.length (n / 2) with short | enough
    · obtain ⟨none, other, small⟩ := removr_of_lt signed short
      have nothing : div [] b.digits = ([], []) := by
        have positive : (magnitude ([] : List ℤ)).1.length < (magnitude b.digits).1.length :=
          List.length_pos_iff.mpr (proper.magnitude_ne_nil some)
        rw [div_eq_of_lt some positive]
        rfl
      obtain ⟨shifted, signed_shift⟩ := add0_spec (.inl Digits.nil : Signed []) n
      obtain ⟨sum, -⟩ := add_spec signed_shift.small small
      rw [none, nothing, sum, shifted, value_nil, zero_mul, zero_add, Int.cast_zero, zero_div,
        zero_mul, zero_add, div_left_inj' (ten_pow_ne_zero _), Int.cast_inj]
      exact iff_of_false (Ne.symm other) fun both => absurd both.1 (Nat.not_le.mpr short)
    · obtain ⟨whole, signed', small⟩ := removr_spec signed enough
      obtain ⟨split, -, -, -, -, signed_rem⟩ := divides_of_fitting signed' proper some fits
      obtain ⟨shifted, signed_shift⟩ := add0_spec signed_rem n
      obtain ⟨sum, -⟩ := add_spec signed_shift.small small
      rw [sum, shifted, fractions_of_lt (by omega), ← split, whole, and_iff_right enough]
      split
      · rename_i wrong
        have := power_pos (n / 2 + 1)
        exact iff_of_false (by omega) (not_not.mpr wrong)
      · rename_i right
        exact iff_of_true (add_zero _).symm right
  · rw [Kept, if_pos le]
    rw [dscale_of_le le] at fits ⊢
    dsimp only at fits ⊢
    obtain ⟨longer, signed'⟩ := add0_spec signed (b.scale + k - a.scale)
    obtain ⟨split, less, -⟩ := divides_of_fitting signed' proper some fits
    rw [longer] at split
    rw [fractions_of_le (k := k) (t := b.scale) split (by omega), add_right_inj, fraction_inj]
    have zero_iff : UnixV7.value 100 (div (add0 a.digits (b.scale + k - a.scale)) b.digits).2 = 0 ↔
        UnixV7.value 100 b.digits ∣ UnixV7.value 100 a.digits * 10 ^ (b.scale + k - a.scale) := by
      rw [split, Int.dvd_add_right (Int.dvd_mul_left _ _)]
      refine ⟨fun zero => by rw [zero]; exact dvd_zero _, fun divides => ?_⟩
      rw [Int.abs_eq_natAbs, Int.abs_eq_natAbs] at less
      exact Int.eq_zero_of_dvd_of_natAbs_lt_natAbs divides (by exact_mod_cast less)
    rw [zero_iff]
    exact or_congr_left (by omega)

/-- The remainder belongs to the quotient where no digit of the quotient is lost and the digits that
are taken away go back; and where no digit is lost, only there. -/
theorem belongs_of_kept (signed : Signed a.digits) (proper : Proper b.digits)
    (some : b.digits ≠ []) (factor : k ≤ 99) :
    (Fitting (dscale k a b).1 b.digits ∧ Kept k a b → Belongs k a b) ∧
      (Fitting (dscale k a b).1 b.digits → Belongs k a b → Kept k a b) :=
  ⟨fun both => (belongs_iff_kept signed proper some factor both.1).mpr both.2,
    fun fits => (belongs_iff_kept signed proper some factor fits).mp⟩

/-- 1.50 and .7, with two digits; and 1.50 and 7, with one, where a digit is taken away. -/
theorem belongs_150_7 :
    Belongs 2 ⟨[50, 1], 2⟩ ⟨[7], 1⟩ ∧ Belongs 1 ⟨[50, 1], 2⟩ ⟨[7], 0⟩ :=
  ⟨(belongs_of_kept (.inl (by decide)) (.inl ⟨by decide, by decide⟩) (by decide) (by decide)).1
      ⟨show _ → _ by decide, .inl (by decide)⟩,
    (belongs_of_kept (.inl (by decide)) (.inl ⟨by decide, by decide⟩) (by decide) (by decide)).1
      ⟨show _ → _ by decide, show ite _ _ _ by decide⟩⟩

/-- .000005 and 3, without digits: the bytes that are not there are taken for -1, and the remainder
comes out as -.010095. -/
theorem not_forall_belongs :
    ¬∀ k a b, Proper a.digits → Proper b.digits → b.digits ≠ [] → k ≤ 99 → Belongs k a b := by
  intro all
  have belongs := (all 0 ⟨[5], 6⟩ ⟨[3], 0⟩ (.inl ⟨by decide, by decide⟩)
    (.inl ⟨by decide, by decide⟩) (by decide) (by decide)).1
  have quotient_eq : quotient 0 ⟨[5], 6⟩ ⟨[3], 0⟩ = ⟨[], 0⟩ := rfl
  have remainder_eq : remainder 0 ⟨[5], 6⟩ ⟨[3], 0⟩ = ⟨[5, 99, 98, -1], 6⟩ := rfl
  rw [quotient_eq, remainder_eq] at belongs
  norm_num [Number.value] at belongs

end Dc

end UnixV7
