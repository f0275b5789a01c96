import UnixV7.Cmd.Dc.Blk

/-!
# Division

`div` of `dc.c`. Each digit of the quotient is guessed from the three leading digits of what is left
of the dividend and from a number made of the leading digits of the divisor. The guess may be one
too small, and what is left may then have a digit too many, which is dropped before the next step;
it may also be one too large.
-/

namespace UnixV7

namespace Dc

/-- `divr * dig`, in `divxyz`. -/
def times (dig : ℤ) : ℤ → List ℤ → List ℤ
  | carry, [] => [byte carry]
  | carry, x :: divr =>
      let d := x * dig + carry
      byte (d.tmod 100) :: times dig (d.tdiv 100) divr

/-- The loop that takes `divxyz` away, with the carry. -/
def minus : ℤ → List ℤ → List ℤ → List ℤ × ℤ
  | carry, [], _ => ([], carry)
  | carry, x :: divd, ys =>
      let d := x - ys.headD 0 - carry
      let (d, carry) := if d < 0 then (d + 100, 1) else (d, 0)
      let (divd, carry) := minus carry divd ys.tail
      (byte d :: divd, carry)

/-- The three leading digits of a number. -/
def leading (p : List ℤ) : ℤ :=
  let r := p.reverse
  (r.getD 0 0 * 100 + r.getD 1 0) * 100 + r.getD 2 0

/-- `magic` and `c`, made of the leading digits of the divisor. -/
structure Divisor where
  magic : Bool
  c : ℤ

def divisor (divr : List ℤ) : Divisor :=
  let r := divr.reverse
  let c := r.getD 0 0
  if c < 10 then ⟨true, (((c * 100 + r.getD 1 0) * 100 + r.getD 2 0) * 2).tdiv 25⟩
  else ⟨false, c * 100 + r.getD 1 0⟩

/-- `dig`, guessed from the leading digits `td` of what is left of the dividend. -/
def Divisor.guess (k : Divisor) (td : ℤ) (offset : ℕ) : ℤ :=
  let (td, cc) := if offset = 0 then (td + 1, k.c) else (td, k.c + 1)
  let td := if k.magic then td * 8 else td
  td.tdiv cc

/-- What one step leaves of the dividend, with the carry. -/
def reduce (divr divd : List ℤ) (offset : ℕ) (dig : ℤ) : List ℤ × ℤ :=
  let (w, carry) := minus 0 (divd.drop offset) (times dig 0 divr)
  (divd.take offset ++ w, carry)

/-- The loop over the digits of the quotient, with what follows it when `divcarry` is set: the
remainder and the digits as they were guessed. -/
def steps (divr : List ℤ) : ℕ → List ℤ → List ℤ → List ℤ × List ℤ
  | 0, divd, p =>
      let dig := (divisor divr).guess (leading divd) 0
      let (divd, carry) := reduce divr divd 0 dig
      if carry ≠ 0 then (add divr (divd ++ [byte (-1)]), byte (dig - 1) :: p)
      else (divd, byte dig :: p)
  | offset + 1, divd, p =>
      let dig := (divisor divr).guess (leading divd) (offset + 1)
      let (divd, _) := reduce divr divd (offset + 1) dig
      steps divr offset divd.dropLast (byte dig :: p)

/-- The loop that makes digits of the guessed ones. -/
def settle : ℤ → List ℤ → List ℤ
  | carry, [] => if carry ≠ 0 then [byte carry] else []
  | carry, d :: p =>
      let d := d + carry
      if 100 ≤ d then byte (d - 100) :: settle 1 p else byte d :: settle 0 p

/-- A number and its sign. -/
def magnitude (p : List ℤ) : List ℤ × Bool :=
  if p.getLast? = some (-1) then (chsign p, true) else (p, false)

/-- `div`: the quotient, and `rem`. -/
def div (a b : List ℤ) : List ℤ × List ℤ :=
  if b = [] then ([], [])
  else
    let (divr, s) := magnitude b
    let (divd, t) := magnitude a
    if divd.length < divr.length then ([], if t then chsign divd else divd)
    else
      let (r, p) := steps divr (divd.length - divr.length) (divd ++ [0]) []
      let p := trim (settle 0 p)
      let r := trim r
      (if s != t then chsign p else p, if t then chsign r else r)

/-! ## The leading digits -/

variable {a b p q r divr divd : List ℤ} {c d g s t x B D P Q T W X : ℤ} {k : Divisor} {n o : ℕ}

/-- The leading digits of a number, as numbers. -/
theorem leads (digits : Digits 100 p) (some : p ≠ []) :
    (p.reverse.getD 0 0 * 100 ^ (p.length - 1) ≤ value 100 p ∧
      value 100 p < (p.reverse.getD 0 0 + 1) * 100 ^ (p.length - 1)) ∧
    ((p.reverse.getD 0 0 * 100 + p.reverse.getD 1 0) * 100 ^ (p.length - 1) ≤ 100 * value 100 p ∧
      100 * value 100 p <
        (p.reverse.getD 0 0 * 100 + p.reverse.getD 1 0 + 1) * 100 ^ (p.length - 1)) ∧
    leading p * 100 ^ (p.length - 1) ≤ 10000 * value 100 p ∧
      10000 * value 100 p < (leading p + 1) * 100 ^ (p.length - 1) := by
  obtain ⟨p, x, rfl⟩ := (List.eq_nil_or_concat' p).resolve_left some
  obtain ⟨low₁, high₁⟩ := (digits_append.mp digits).1.lead (by decide) [x]
  rcases List.eq_nil_or_concat' p with rfl | ⟨p, y, rfl⟩
  · simp [leading]
    omega
  · rw [List.append_assoc] at digits
    obtain ⟨low₂, high₂⟩ := (digits_append.mp digits).1.lead (by decide) [y, x]
    rcases List.eq_nil_or_concat' p with rfl | ⟨p, z, rfl⟩
    · simp [leading] at low₁ high₁ ⊢
      omega
    · rw [List.append_assoc] at digits
      obtain ⟨low₃, high₃⟩ := (digits_append.mp digits).1.lead (by decide) [z, y, x]
      have size : (p ++ [z, y, x]).length - 1 = p.length + 2 := by simp
      simp only [List.append_assoc, List.cons_append, List.nil_append, List.length_append,
        value_cons, value_nil, pow_succ, List.length_cons, List.length_nil, mul_zero, add_zero,
        Nat.zero_add] at low₁ high₁ low₂ high₂ low₃ high₃ size ⊢
      rw [size, leading]
      simp only [List.reverse_append, List.reverse_cons, List.reverse_nil, List.nil_append,
        List.cons_append, List.getD_cons_zero, List.getD_cons_succ, pow_succ]
      refine ⟨⟨?_, ?_⟩, ⟨?_, ?_⟩, ?_, ?_⟩ <;> linarith

theorem Digits.getD_nonneg (digits : Digits 100 p) (n : ℕ) : 0 ≤ p.reverse.getD n 0 := by
  rw [List.getD_eq_getElem?_getD]
  cases here : p.reverse[n]? with
  | none => exact le_rfl
  | some d => exact (digits d (List.mem_reverse.mp (List.mem_of_getElem? here))).1

theorem Plain.top_pos (plain : Plain p) (some : p ≠ []) : 1 ≤ p.reverse.getD 0 0 := by
  have low := Digits.getD_nonneg plain.1 0
  obtain ⟨q, x, rfl⟩ := (List.eq_nil_or_concat' p).resolve_left some
  have other : x ≠ 0 := fun zero => plain.2 (by rw [zero, List.getLast?_concat])
  rw [List.reverse_append, List.reverse_singleton] at low ⊢
  change 0 ≤ x at low
  show 1 ≤ x
  omega

/-! ## The guess -/

/-- What the divisor is multiplied by when it begins with a digit below 10. -/
def Divisor.scale (k : Divisor) : ℤ := if k.magic then 8 else 1

/-- How near `c` is to a divisor `B` whose top digit has weight `P`. -/
structure Divisor.Near (k : Divisor) (B P : ℤ) : Prop where
  large : 800 ≤ k.c
  low : k.c * P ≤ k.scale * (100 * B)
  high : 25 * (k.scale * (100 * B)) < (25 * k.c + 26) * P

theorem Divisor.scale_bounds (k : Divisor) : 1 ≤ k.scale ∧ k.scale ≤ 8 := by
  rw [Divisor.scale]
  split <;> decide

theorem divisor_near (plain : Plain divr) (some : divr ≠ []) :
    (divisor divr).Near (value 100 divr) (100 ^ (divr.length - 1)) := by
  obtain ⟨-, ⟨low₂, high₂⟩, low₃, high₃⟩ := leads plain.1 some
  have first := plain.top_pos some
  have second := Digits.getD_nonneg plain.1 1
  have third := Digits.getD_nonneg plain.1 2
  have power := power_pos (divr.length - 1)
  rw [divisor]
  split
  · have big : 10000 ≤ leading divr := by
      rw [leading]
      omega
    change Divisor.Near ⟨true, (leading divr * 2).tdiv 25⟩ _ _
    rw [Int.tdiv_eq_ediv_of_nonneg (by omega)]
    have below : leading divr * 2 ≤ 25 * (leading divr * 2 / 25) + 24 := by omega
    have above : 25 * (leading divr * 2 / 25) ≤ leading divr * 2 := by omega
    have below' := mul_le_mul_of_nonneg_right below power.le
    have above' := mul_le_mul_of_nonneg_right above power.le
    refine ⟨by simp only; omega, ?_, ?_⟩ <;> simp only [Divisor.scale, if_true] <;> linarith
  · refine ⟨by simp only; omega, ?_, ?_⟩ <;> simp only [Divisor.scale] <;>
      rw [if_neg (by decide)] <;> linarith

/-- How near the three leading digits `T` are to what is left, `D`, with a top digit of weight
`100 * W`. -/
structure Lead (T W D : ℤ) : Prop where
  low : T * W ≤ 100 * D
  high : 100 * D < (T + 1) * W

theorem Lead.nonneg (lead : Lead T W D) (weight : 0 < W) (left : 0 ≤ D) : 0 ≤ T := by
  have : 0 < (T + 1) * W := by linarith [lead.high]
  have := pos_of_mul_pos_left this weight.le
  omega

/-- The guess before the last step, without the case of a small divisor. -/
theorem Divisor.guess_succ (k : Divisor) (positive : 0 ≤ T) (o : ℕ) :
    k.guess T (o + 1) = k.scale * T / (k.c + 1) := by
  rw [Divisor.guess, Divisor.scale]
  simp only [Nat.succ_ne_zero, if_false]
  split
  · rw [Int.tdiv_eq_ediv_of_nonneg (by omega), mul_comm]
  · rw [Int.tdiv_eq_ediv_of_nonneg positive, one_mul]

/-- The guess at the last step. -/
theorem Divisor.guess_zero (k : Divisor) (positive : 0 ≤ T) :
    k.guess T 0 = k.scale * (T + 1) / k.c := by
  rw [Divisor.guess, Divisor.scale]
  simp only [if_true]
  split
  · rw [Int.tdiv_eq_ediv_of_nonneg (by omega), mul_comm]
  · rw [Int.tdiv_eq_ediv_of_nonneg (by omega), one_mul]

section Accuracy

variable (near : k.Near B P) (lead : Lead T (P * Q) D) (weight : 0 < P) (weight' : 0 < Q)
  (left : 0 ≤ D) (small : D < 120 * (B * Q))

include near weight weight' in
/-- The products that the bounds are about. -/
theorem Divisor.Near.scaled :
    0 < P * Q ∧ k.c * (P * Q) ≤ k.scale * (100 * (B * Q)) ∧
      25 * (k.scale * (100 * (B * Q))) < (25 * k.c + 26) * (P * Q) ∧
      8 * (P * Q) ≤ k.scale * (B * Q) := by
  have low := mul_le_mul_of_nonneg_right near.low weight'.le
  have high := mul_lt_mul_of_pos_right near.high weight'
  have large := mul_le_mul_of_nonneg_right near.large (mul_pos weight weight').le
  refine ⟨mul_pos weight weight', ?_, ?_, ?_⟩ <;> linarith

include near lead weight weight' left small

/-- Before the last step the guess is a digit, or little more; it leaves little more than the
divisor, and takes little more than there is. -/
theorem guess_succ_bounds (o : ℕ) :
    0 ≤ k.guess T (o + 1) ∧ k.guess T (o + 1) ≤ 120 ∧
      100 * (D - k.guess T (o + 1) * (B * Q)) < 116 * (B * Q) ∧
      k.guess T (o + 1) * (B * Q) ≤ D + B * Q := by
  obtain ⟨weight, below, above, size⟩ := near.scaled weight weight'
  obtain ⟨one, eight⟩ := k.scale_bounds
  have positive := lead.nonneg weight left
  have large := near.large
  rw [k.guess_succ positive]
  have low := Int.ediv_mul_le (k.scale * T) (show k.c + 1 ≠ 0 by omega)
  have high := Int.lt_ediv_add_one_mul_self (k.scale * T) (show 0 < k.c + 1 by omega)
  have nonneg : 0 ≤ k.scale * T / (k.c + 1) :=
    Int.ediv_nonneg (mul_nonneg (by omega) positive) (by omega)
  generalize k.scale * T / (k.c + 1) = g at low high nonneg ⊢
  have low' := mul_le_mul_of_nonneg_right low weight.le
  have high' := mul_le_mul_of_nonneg_right (Int.add_one_le_iff.mpr high) weight.le
  have lead_low := mul_le_mul_of_nonneg_left lead.low (show 0 ≤ k.scale by omega)
  have lead_high := mul_lt_mul_of_pos_left lead.high (show 0 < k.scale by omega)
  have small' := mul_lt_mul_of_pos_left small (show 0 < k.scale by omega)
  have digit : g ≤ 120 := by
    by_contra more
    have more := mul_le_mul_of_nonneg_right (show 121 ≤ g by omega)
      (mul_nonneg (show 0 ≤ k.c + 1 by omega) weight.le)
    have := mul_le_mul_of_nonneg_right large weight.le
    linarith
  have scaled : 0 ≤ k.scale * (B * Q) := by linarith
  refine ⟨nonneg, digit, ?_, ?_⟩
  · have ceiling := mul_le_mul_of_nonneg_left below (show 0 ≤ g + 1 by omega)
    have excess := mul_le_mul_of_nonneg_left size (show 0 ≤ g + 8 by omega)
    have most := mul_le_mul_of_nonneg_right (show g + 8 ≤ 128 by omega) scaled
    have eight := mul_le_mul_of_nonneg_right eight weight.le
    refine lt_of_mul_lt_mul_left ?_ (show 0 ≤ k.scale by omega)
    linarith
  · have ceiling := mul_le_mul_of_nonneg_left above.le nonneg
    have most := mul_le_mul_of_nonneg_right digit weight.le
    refine le_of_mul_le_mul_left ?_ (show 0 < k.scale by omega)
    linarith

/-- At the last step the guess is at most one too large. -/
theorem guess_zero_bounds :
    0 ≤ k.guess T 0 ∧ k.guess T 0 ≤ 121 ∧ D < (k.guess T 0 + 1) * (B * Q) ∧
      k.guess T 0 * (B * Q) ≤ D + B * Q := by
  obtain ⟨weight, below, above, size⟩ := near.scaled weight weight'
  obtain ⟨one, eight⟩ := k.scale_bounds
  have positive := lead.nonneg weight left
  have large := near.large
  rw [k.guess_zero positive]
  have low := Int.ediv_mul_le (k.scale * (T + 1)) (show k.c ≠ 0 by omega)
  have high := Int.lt_ediv_add_one_mul_self (k.scale * (T + 1)) (show 0 < k.c by omega)
  have nonneg : 0 ≤ k.scale * (T + 1) / k.c :=
    Int.ediv_nonneg (mul_nonneg (by omega) (by omega)) (by omega)
  generalize k.scale * (T + 1) / k.c = g at low high nonneg ⊢
  have low' := mul_le_mul_of_nonneg_right low weight.le
  have high' := mul_lt_mul_of_pos_right high weight
  have lead_low := mul_le_mul_of_nonneg_left lead.low (show 0 ≤ k.scale by omega)
  have lead_high := mul_lt_mul_of_pos_left lead.high (show 0 < k.scale by omega)
  have small' := mul_lt_mul_of_pos_left small (show 0 < k.scale by omega)
  have eight := mul_le_mul_of_nonneg_right eight weight.le
  have digit : g ≤ 121 := by
    by_contra more
    have more := mul_le_mul_of_nonneg_right (show 122 ≤ g by omega)
      (mul_nonneg (show 0 ≤ k.c by omega) weight.le)
    have := mul_le_mul_of_nonneg_right large weight.le
    linarith
  refine ⟨nonneg, digit, ?_, ?_⟩
  · have ceiling := mul_le_mul_of_nonneg_left below (show 0 ≤ g + 1 by omega)
    refine lt_of_mul_lt_mul_left ?_ (show 0 ≤ k.scale by omega)
    linarith
  · have ceiling := mul_le_mul_of_nonneg_left above.le nonneg
    have most := mul_le_mul_of_nonneg_right digit weight.le
    refine le_of_mul_le_mul_left ?_ (show 0 < k.scale by omega)
    linarith

end Accuracy

/-! ## One step -/

/-- The divisor times a digit. -/
theorem times_spec (digits : Digits 100 b) (low : 0 ≤ c) (carry : c ≤ g) (byte_size : g < 128) :
    ∃ ys t, times g c b = ys ++ [t] ∧ ys.length = b.length ∧ Digits 100 ys ∧ 0 ≤ t ∧ t < 128 ∧
      value 100 (ys ++ [t]) = g * value 100 b + c := by
  induction b generalizing c with
  | nil =>
    refine ⟨[], c, ?_, rfl, Digits.nil, low, by omega, by simp⟩
    rw [times, byte_eq (by omega) (by omega)]
    rfl
  | cons x b hyp =>
    obtain ⟨⟨nonneg, digit⟩, rest⟩ := digits_cons.mp digits
    have product := mul_nonneg nonneg (low.trans carry)
    have most := mul_le_mul_of_nonneg_right (show x ≤ 99 by omega) (low.trans carry)
    have tmod : (x * g + c).tmod 100 = (x * g + c) % 100 :=
      Int.tmod_eq_emod_of_nonneg (by omega)
    have tdiv : (x * g + c).tdiv 100 = (x * g + c) / 100 :=
      Int.tdiv_eq_ediv_of_nonneg (by omega)
    obtain ⟨ys, t, rows, length, digits', top, top', sum⟩ :=
      hyp rest (c := (x * g + c) / 100) (by omega) (by omega)
    refine ⟨(x * g + c) % 100 :: ys, t, ?_, by rw [List.length_cons, length, List.length_cons],
      digits_cons.mpr ⟨by omega, digits'⟩, top, top', ?_⟩
    · rw [times, tmod, tdiv, rows, byte_eq (by omega) (by omega)]
      rfl
    · have split := Int.emod_add_mul_ediv (x * g + c) 100
      rw [List.cons_append, value_cons, sum, value_cons]
      linarith

/-- One digit, with a borrow. -/
theorem minus_cons_of_neg {w ys : List ℤ} {y : ℤ} (under : d - y - c < 0) :
    minus c (d :: w) (y :: ys) =
      (byte (d - y - c + 100) :: (minus 1 w ys).1, (minus 1 w ys).2) := by
  rw [minus, if_pos (show d - (y :: ys).headD 0 - c < 0 from under)]
  rfl

/-- One digit, without. -/
theorem minus_cons_of_nonneg {w ys : List ℤ} {y : ℤ} (enough : ¬d - y - c < 0) :
    minus c (d :: w) (y :: ys) = (byte (d - y - c) :: (minus 0 w ys).1, (minus 0 w ys).2) := by
  rw [minus, if_neg (show ¬d - (y :: ys).headD 0 - c < 0 from enough)]
  rfl

/-- What is left of some digits when others are taken away. -/
theorem minus_spec {w ys : List ℤ} (digits : Digits 100 w) (digits' : Digits 100 ys)
    (length : w.length = ys.length + 1) (low : 0 ≤ t) (high : t < 128) (carry : c = 0 ∨ c = 1) :
    ∃ q x c', minus c w (ys ++ [t]) = (q ++ [x], c') ∧ Digits 100 q ∧ q.length = ys.length ∧
      value 100 (q ++ [x]) =
        value 100 w - value 100 (ys ++ [t]) - c + 100 ^ (ys.length + 1) * c' ∧
      (c' = 0 ∧ 0 ≤ x ∨ c' = 1 ∧ x < 100) := by
  induction ys generalizing w c with
  | nil =>
    obtain ⟨d, rfl⟩ := List.length_eq_one_iff.mp length
    obtain ⟨nonneg, digit⟩ := (digits_cons.mp digits).1
    by_cases under : d - t - c < 0
    · refine ⟨[], d - t - c + 100, 1, ?_, Digits.nil, rfl, by simp, .inr ⟨rfl, by omega⟩⟩
      rw [List.nil_append, minus_cons_of_neg under, byte_eq (by omega) (by omega)]
      rfl
    · refine ⟨[], d - t - c, 0, ?_, Digits.nil, rfl, by simp, .inl ⟨rfl, by omega⟩⟩
      rw [List.nil_append, minus_cons_of_nonneg under, byte_eq (by omega) (by omega)]
      rfl
  | cons y ys hyp =>
    obtain ⟨d, w, rfl⟩ := List.exists_cons_of_length_eq_add_one length
    obtain ⟨⟨nonneg, digit⟩, rest⟩ := digits_cons.mp digits
    obtain ⟨⟨nonneg', digit'⟩, rest'⟩ := digits_cons.mp digits'
    have length' : w.length = ys.length + 1 := Nat.succ_injective length
    by_cases under : d - y - c < 0
    · obtain ⟨q, x, c', left, digits'', size, sum, sign⟩ := hyp rest rest' length' (.inr rfl)
      refine ⟨(d - y - c + 100) :: q, x, c', ?_, digits_cons.mpr ⟨by omega, digits''⟩,
        by rw [List.length_cons, size, List.length_cons], ?_, sign⟩
      · rw [List.cons_append, minus_cons_of_neg under, left, byte_eq (by omega) (by omega)]
        rfl
      · rw [List.cons_append, value_cons, sum, value_cons, List.cons_append, value_cons,
          List.length_cons, pow_succ _ (ys.length + 1)]
        ring
    · obtain ⟨q, x, c', left, digits'', size, sum, sign⟩ := hyp rest rest' length' (.inl rfl)
      refine ⟨(d - y - c) :: q, x, c', ?_, digits_cons.mpr ⟨by omega, digits''⟩,
        by rw [List.length_cons, size, List.length_cons], ?_, sign⟩
      · rw [List.cons_append, minus_cons_of_nonneg under, left, byte_eq (by omega) (by omega)]
        rfl
      · rw [List.cons_append, value_cons, sum, value_cons, List.cons_append, value_cons,
          List.length_cons, pow_succ _ (ys.length + 1)]
        ring

/-- One step takes the divisor times a digit away, and has a carry if there is less. -/
theorem reduce_spec (digits : Digits 100 divr) (digits' : Digits 100 divd)
    (length : divd.length = divr.length + 1 + o) (low : 0 ≤ g) (high : g < 128)
    (fits : g * (value 100 divr * 100 ^ o) ≤ value 100 divd + value 100 divr * 100 ^ o) :
    Digits 100 (reduce divr divd o g).1 ∧ (reduce divr divd o g).1.length = divd.length ∧
      ((reduce divr divd o g).2 = 0 ∧ value 100 (reduce divr divd o g).1 =
          value 100 divd - g * (value 100 divr * 100 ^ o) ∨
        (reduce divr divd o g).2 = 1 ∧ value 100 (reduce divr divd o g).1 =
            value 100 divd - g * (value 100 divr * 100 ^ o) + 100 ^ divd.length ∧
          value 100 divd < g * (value 100 divr * 100 ^ o)) := by
  have below : Digits 100 (divd.take o) := digits'.sublist (List.take_sublist _ _)
  have above : Digits 100 (divd.drop o) := digits'.sublist (List.drop_sublist _ _)
  have take_length : (divd.take o).length = o := List.length_take_of_le (by omega)
  have drop_length : (divd.drop o).length = divr.length + 1 := by
    rw [List.length_drop]
    omega
  obtain ⟨ys, t, rows, size, digits_ys, top, top', product⟩ := times_spec digits le_rfl low high
  obtain ⟨q, x, c', left, digits_q, size', sum, sign⟩ :=
    minus_spec above digits_ys (by rw [drop_length, size]) top top' (.inl rfl)
  have whole : value 100 divd = value 100 (divd.take o) + 100 ^ o * value 100 (divd.drop o) := by
    conv_lhs => rw [← List.take_append_drop o divd, value_append, take_length]
  have low_nonneg := below.value_nonneg
  have low_lt := below.value_lt (by decide)
  have high_lt := above.value_lt (by decide)
  have divr_lt := digits.value_lt (by decide)
  have power := power_pos o
  have room := power_pos divr.length
  rw [take_length] at low_lt
  rw [drop_length] at high_lt
  rw [product, size, sub_zero, add_zero] at sum
  have value_eq : value 100 (divd.take o ++ (q ++ [x])) = value 100 divd -
      g * (value 100 divr * 100 ^ o) + 100 ^ o * (100 ^ (divr.length + 1) * c') := by
    rw [value_append, take_length, sum, whole]
    ring
  have power_eq : (100 : ℤ) ^ o * 100 ^ (divr.length + 1) = 100 ^ divd.length := by
    rw [← pow_add, length, Nat.add_comm o]
  have lower : -(value 100 divr) - 1 < value 100 (divd.drop o) - g * value 100 divr := by
    refine lt_of_mul_lt_mul_left ?_ power.le
    linarith
  have top_digit : 0 ≤ x ∧ x < 100 := by
    apply digits_q.top (by decide)
    · rcases sign with ⟨rfl, nonneg⟩ | ⟨rfl, -⟩
      · have := digits_q.value_nonneg
        have := mul_nonneg (power_pos q.length).le nonneg
        rw [value_concat]
        omega
      · rw [sum, pow_succ]
        linarith
    · rw [size', size]
      rcases sign with ⟨rfl, -⟩ | ⟨rfl, digit⟩
      · have := mul_nonneg low digits.value_nonneg
        rw [sum, mul_zero, add_zero]
        omega
      · have := digits_q.value_lt (by decide)
        have := mul_le_mul_of_nonneg_left (show x ≤ 99 by omega) (power_pos q.length).le
        rw [value_concat, ← size, ← size', pow_succ]
        linarith
  have shape : reduce divr divd o g = (divd.take o ++ (q ++ [x]), c') := by
    rw [reduce, rows, left]
  rw [shape]
  refine ⟨digits_append.mpr ⟨below, digits_concat.mpr ⟨digits_q, top_digit⟩⟩, ?_, ?_⟩
  · rw [List.length_append, take_length, List.length_append, List.length_singleton, size', size,
      length]
    omega
  · rcases sign with ⟨rfl, -⟩ | ⟨rfl, -⟩
    · refine .inl ⟨rfl, value_eq.trans ?_⟩
      rw [mul_zero, mul_zero, add_zero]
    · refine .inr ⟨rfl, value_eq.trans (by rw [mul_one, power_eq]), ?_⟩
      have := (digits_concat.mpr ⟨digits_q, top_digit⟩).value_lt (by decide)
      rw [sum, List.length_append, List.length_singleton, size', size, mul_one] at this
      have under : value 100 (divd.drop o) - g * value 100 divr ≤ -1 := by omega
      have := mul_le_mul_of_nonneg_left under power.le
      linarith

/-! ## The loop -/

/-- Where no digit is lost: at every step but the last the guess takes no more than there is, and
leaves no more digits than the divisor has. -/
def Fits (k : Divisor) (B : ℤ) (L : ℕ) : ℕ → ℤ → Prop
  | 0, _ => True
  | o + 1, D =>
      let left := D - k.guess (10000 * D / 100 ^ (L + (o + 1))) (o + 1) * (B * 100 ^ (o + 1))
      0 ≤ left ∧ left < 100 ^ (L + (o + 1)) ∧ Fits k B L o left

instance decidableFits (k : Divisor) (B : ℤ) (L : ℕ) : ∀ o D, Decidable (Fits k B L o D)
  | 0, _ => isTrue trivial
  | o + 1, D =>
      have := decidableFits k B L o
        (D - k.guess (10000 * D / 100 ^ (L + (o + 1))) (o + 1) * (B * 100 ^ (o + 1)))
      inferInstanceAs (Decidable (_ ∧ _ ∧ _))

/-- The leading digits are found by division. -/
theorem leading_eq (digits : Digits 100 p) (some : p ≠ []) :
    10000 * value 100 p / 100 ^ (p.length - 1) = leading p := by
  obtain ⟨-, -, low, high⟩ := leads digits some
  rw [Int.ediv_eq_iff_of_pos (power_pos _)]
  exact ⟨low, by linarith⟩

/-- What is left of the dividend before the step at `o`: one digit more than the divisor and those
below. -/
structure Remaining (divr divd : List ℤ) (o : ℕ) : Prop where
  plain : Plain divr
  some : divr ≠ []
  digits : Digits 100 divd
  length : divd.length = divr.length + 1 + o
  small : value 100 divd < 120 * (value 100 divr * 100 ^ o)

namespace Remaining

variable (rest : Remaining divr divd o)

include rest

theorem divr_length : divr.length = divr.length - 1 + 1 :=
  (Nat.sub_add_cancel (List.length_pos_iff.mpr rest.some)).symm

theorem lead :
    Lead (leading divd) (100 ^ (divr.length - 1) * 100 ^ o) (value 100 divd) := by
  have some : divd ≠ [] := List.ne_nil_of_length_pos (by rw [rest.length]; omega)
  obtain ⟨-, -, low, high⟩ := leads rest.digits some
  have size : divd.length - 1 = divr.length - 1 + o + 1 := by
    have := rest.divr_length
    have := rest.length
    omega
  rw [size, pow_succ, pow_add] at low high
  constructor <;> linarith

theorem near : (divisor divr).Near (value 100 divr) (100 ^ (divr.length - 1)) :=
  divisor_near rest.plain rest.some

theorem leading_eq :
    10000 * value 100 divd / 100 ^ (divr.length + o) = leading divd := by
  have some : divd ≠ [] := List.ne_nil_of_length_pos (by rw [rest.length]; omega)
  rw [← Dc.leading_eq rest.digits some, rest.length]
  congr 2
  omega

end Remaining

/-- What the guess at the last step is worth. -/
theorem Remaining.last (rest : Remaining divr divd 0) :
    0 ≤ (divisor divr).guess (leading divd) 0 ∧ (divisor divr).guess (leading divd) 0 ≤ 121 ∧
      value 100 divd < ((divisor divr).guess (leading divd) 0 + 1) * value 100 divr ∧
      (divisor divr).guess (leading divd) 0 * value 100 divr ≤
        value 100 divd + value 100 divr := by
  have bounds := guess_zero_bounds rest.near rest.lead (power_pos _) (power_pos _)
    rest.digits.value_nonneg rest.small
  rwa [pow_zero, mul_one] at bounds

/-- What is left after the step at `o + 1`. -/
def leftover (divr divd : List ℤ) (o : ℕ) : ℤ :=
  value 100 divd -
    (divisor divr).guess (leading divd) (o + 1) * (value 100 divr * 100 ^ (o + 1))

namespace Remaining

variable (rest : Remaining divr divd (o + 1))

include rest

/-- What the guess before the last step is worth. -/
theorem next :
    0 ≤ (divisor divr).guess (leading divd) (o + 1) ∧
      (divisor divr).guess (leading divd) (o + 1) ≤ 120 ∧
      leftover divr divd o < 116 * (value 100 divr * 100 ^ o) ∧
      -(value 100 divr * 100 ^ (o + 1)) ≤ leftover divr divd o := by
  obtain ⟨low, high, left, fits⟩ := guess_succ_bounds rest.near rest.lead (power_pos _)
    (power_pos _) rest.digits.value_nonneg rest.small o
  refine ⟨low, high, ?_, ?_⟩
  · rw [leftover, pow_succ] at *
    linarith
  · rw [leftover]
    linarith

theorem fits_iff : Fits (divisor divr) (value 100 divr) divr.length (o + 1) (value 100 divd) ↔
    0 ≤ leftover divr divd o ∧ leftover divr divd o < 100 ^ (divr.length + (o + 1)) ∧
      Fits (divisor divr) (value 100 divr) divr.length o (leftover divr divd o) := by
  rw [Fits, rest.leading_eq]
  rfl

/-- Where the guess takes no more than there is, the step leaves what it should, but for the digit
that is dropped. -/
theorem reduce (enough : 0 ≤ leftover divr divd o) :
    ∃ x, 0 ≤ x ∧ (leftover divr divd o < 100 ^ (divr.length + (o + 1)) → x = 0) ∧
      value 100 (Dc.reduce divr divd (o + 1)
          ((divisor divr).guess (leading divd) (o + 1))).1.dropLast =
        leftover divr divd o - 100 ^ (divr.length + (o + 1)) * x ∧
      Remaining divr (Dc.reduce divr divd (o + 1)
          ((divisor divr).guess (leading divd) (o + 1))).1.dropLast o := by
  obtain ⟨low, high, left, fits⟩ := rest.next
  obtain ⟨digits, length, result⟩ := reduce_spec rest.plain.1 rest.digits rest.length low
    (show (divisor divr).guess (leading divd) (o + 1) < 128 by omega) (by
      rw [leftover] at fits
      linarith)
  generalize Dc.reduce divr divd (o + 1) ((divisor divr).guess (leading divd) (o + 1)) = out
    at digits length result ⊢
  rcases result with ⟨-, result⟩ | ⟨-, -, under⟩
  · change value 100 out.1 = leftover divr divd o at result
    have some : out.1 ≠ [] := List.ne_nil_of_length_pos (by rw [length, rest.length]; omega)
    obtain ⟨q, x, here⟩ := (List.eq_nil_or_concat' out.1).resolve_left some
    rw [here] at digits length result ⊢
    rw [List.dropLast_concat]
    obtain ⟨digits_q, nonneg, digit⟩ := digits_concat.mp digits
    have size : q.length = divr.length + (o + 1) := by
      rw [List.length_append, List.length_singleton, rest.length] at length
      omega
    rw [value_concat, size] at result
    have low_q := digits_q.value_nonneg
    have power := power_pos (divr.length + (o + 1))
    have drop := mul_nonneg power.le nonneg
    refine ⟨x, nonneg, fun less => ?_, by omega, rest.plain, rest.some, digits_q, by omega, ?_⟩
    · by_contra other
      have := mul_le_mul_of_nonneg_left (show 1 ≤ x by omega) power.le
      omega
    · have := mul_pos (rest.plain.value_pos rest.some) (power_pos o)
      omega
  · rw [leftover] at enough
    omega

end Remaining

theorem steps_zero : steps divr 0 divd p =
    if (reduce divr divd 0 ((divisor divr).guess (leading divd) 0)).2 ≠ 0 then
      (add divr ((reduce divr divd 0 ((divisor divr).guess (leading divd) 0)).1 ++ [byte (-1)]),
        byte ((divisor divr).guess (leading divd) 0 - 1) :: p)
    else ((reduce divr divd 0 ((divisor divr).guess (leading divd) 0)).1,
      byte ((divisor divr).guess (leading divd) 0) :: p) := rfl

theorem steps_succ : steps divr (o + 1) divd p =
    steps divr o
      (reduce divr divd (o + 1) ((divisor divr).guess (leading divd) (o + 1))).1.dropLast
      (byte ((divisor divr).guess (leading divd) (o + 1)) :: p) := rfl

/-- A number that is not negative has no -1 at its top. -/
theorem Proper.plain (proper : Proper p) (nonneg : 0 ≤ value 100 p) : Plain p := by
  rcases proper with plain | ⟨r, rfl, digits, -⟩
  · exact plain
  · have := value_negative digits
    omega

/-- The last step corrects a guess that is one too large. -/
theorem steps_last (rest : Remaining divr divd 0) :
    ∃ r d, steps divr 0 divd p = (r, d :: p) ∧ 0 ≤ d ∧ d ≤ 121 ∧ Digits 100 r ∧
      d * value 100 divr + value 100 r = value 100 divd ∧ value 100 r < value 100 divr := by
  obtain ⟨low, high, less, fits⟩ := rest.last
  obtain ⟨digits, length, result⟩ := reduce_spec (o := 0) rest.plain.1 rest.digits rest.length low
    (show (divisor divr).guess (leading divd) 0 < 128 by omega) (by rwa [pow_zero, mul_one])
  rw [steps_zero]
  generalize reduce divr divd 0 ((divisor divr).guess (leading divd) 0) = out
    at digits length result ⊢
  generalize (divisor divr).guess (leading divd) 0 = g at low high less fits result ⊢
  rw [pow_zero, mul_one] at result
  rcases result with ⟨carry, result⟩ | ⟨carry, result, under⟩
  · rw [carry, if_neg (by decide), byte_eq (by omega) (by omega)]
    exact ⟨out.1, g, rfl, low, high, digits, by rw [result]; ring, by rw [result]; linarith⟩
  · rw [carry, if_pos (by decide), byte_eq (by decide) (by decide)]
    have signed : Signed (out.1 ++ [-1]) := .inr ⟨_, rfl, digits⟩
    obtain ⟨sum, proper⟩ := add_spec (small_of_digits rest.plain.1) signed.small
    rw [value_concat, result, length] at sum
    have nonneg := rest.digits.value_nonneg
    have one : 1 ≤ g := by
      by_contra none
      obtain rfl : g = 0 := by omega
      omega
    rw [byte_eq (by omega) (by omega)]
    refine ⟨_, g - 1, rfl, by omega, by omega, (proper.plain (by rw [sum]; linarith)).1, ?_, ?_⟩
    · rw [sum]
      ring
    · rw [sum]
      linarith

/-- Where no digit is lost the loop divides. -/
theorem steps_fits (rest : Remaining divr divd o)
    (fits : Fits (divisor divr) (value 100 divr) divr.length o (value 100 divd)) :
    ∃ r v, steps divr o divd p = (r, v ++ p) ∧ v.length = o + 1 ∧ (∀ d ∈ v, 0 ≤ d ∧ d ≤ 121) ∧
      Digits 100 r ∧ value 100 v * value 100 divr + value 100 r = value 100 divd ∧
      value 100 r < value 100 divr := by
  induction o generalizing divd p with
  | zero =>
    obtain ⟨r, d, found, low, high, digits, whole, less⟩ := steps_last (p := p) rest
    refine ⟨r, [d], found, rfl, List.forall_mem_singleton.mpr ⟨low, high⟩, digits, ?_, less⟩
    rwa [value_cons, value_nil, mul_zero, add_zero]
  | succ o hyp =>
    obtain ⟨enough, short, fits⟩ := rest.fits_iff.mp fits
    obtain ⟨low, high, -, -⟩ := rest.next
    obtain ⟨x, -, kept, left, rest'⟩ := rest.reduce enough
    rw [kept short, mul_zero, sub_zero] at left
    rw [← left] at fits
    obtain ⟨r, v, found, length, digits_v, digits, whole, less⟩ := hyp
      (p := byte ((divisor divr).guess (leading divd) (o + 1)) :: p) rest' fits
    rw [steps_succ, found, byte_eq (by omega) (by omega)]
    refine ⟨r, v ++ [(divisor divr).guess (leading divd) (o + 1)], by rw [List.append_assoc]; rfl,
      by rw [List.length_append, length]; rfl,
      List.forall_mem_append.mpr ⟨digits_v, List.forall_mem_singleton.mpr ⟨low, by omega⟩⟩, digits,
      ?_, less⟩
    rw [left, leftover] at whole
    rw [value_concat, length]
    linarith

/-! ## The digits of the quotient -/

/-- The carries do not change the value. -/
theorem value_settle (bytes : ∀ d ∈ p, -128 ≤ d ∧ d < 128) (carry : c = 0 ∨ c = 1) :
    value 100 (settle c p) = value 100 p + c := by
  induction p generalizing c with
  | nil =>
    rcases carry with rfl | rfl
    · rfl
    · rfl
  | cons d p hyp =>
    obtain ⟨⟨low, high⟩, rest⟩ := List.forall_mem_cons.mp bytes
    rw [settle]
    split
    · rw [byte_eq (by omega) (by omega), value_cons, hyp rest (.inr rfl), value_cons]
      ring
    · rw [byte_eq (by omega) (by omega), value_cons, hyp rest (.inl rfl), value_cons]
      ring

theorem digits_settle (digits : ∀ d ∈ p, 0 ≤ d ∧ d ≤ 121) (carry : c = 0 ∨ c = 1) :
    Digits 100 (settle c p) := by
  induction p generalizing c with
  | nil =>
    rcases carry with rfl | rfl
    · exact Digits.nil
    · exact digits_cons.mpr ⟨by decide, Digits.nil⟩
  | cons d p hyp =>
    obtain ⟨⟨low, high⟩, rest⟩ := List.forall_mem_cons.mp digits
    rw [settle]
    split
    · rw [byte_eq (by omega) (by omega)]
      exact digits_cons.mpr ⟨by omega, hyp rest (.inr rfl)⟩
    · rw [byte_eq (by omega) (by omega)]
      exact digits_cons.mpr ⟨by omega, hyp rest (.inl rfl)⟩

/-! ## Signs -/

/-- The quotient and the remainder of `div` are right. -/
def Divides (a b : List ℤ) : Prop :=
  value 100 a = value 100 (div a b).1 * value 100 b + value 100 (div a b).2 ∧
    |value 100 (div a b).2| < |value 100 b| ∧
    (0 ≤ value 100 a → 0 ≤ value 100 (div a b).2) ∧
    (value 100 a ≤ 0 → value 100 (div a b).2 ≤ 0) ∧
    Signed (div a b).1 ∧ Signed (div a b).2

/-- Where no digit is lost when `a` is divided by `b`. -/
def Fitting (a b : List ℤ) : Prop :=
  (magnitude b).1.length ≤ (magnitude a).1.length →
    Fits (divisor (magnitude b).1) |value 100 b| (magnitude b).1.length
      ((magnitude a).1.length - (magnitude b).1.length) |value 100 a|

theorem magnitude_spec (signed : Signed p) :
    Digits 100 (magnitude p).1 ∧ value 100 (magnitude p).1 = |value 100 p| ∧
      ((magnitude p).2 = true ↔ value 100 p < 0) := by
  rw [magnitude]
  rcases signed with digits | ⟨r, rfl, digits⟩
  · have other : p.getLast? ≠ some (-1) := fun last =>
      absurd (digits (-1) (List.mem_of_getLast? last)).1 (by decide)
    have nonneg := digits.value_nonneg
    rw [if_neg other]
    exact ⟨digits, (abs_of_nonneg nonneg).symm, by simpa using nonneg⟩
  · have negative := value_negative digits
    have signed : Signed (r ++ [-1]) := .inr ⟨r, rfl, digits⟩
    rw [if_pos List.getLast?_concat]
    exact ⟨digits_chsign digits, by rw [value_chsign signed.small, abs_of_neg negative],
      by simpa using negative⟩

theorem Proper.magnitude (proper : Proper p) : Plain (magnitude p).1 := by
  rw [Dc.magnitude]
  rcases proper with plain | ⟨r, rfl, digits, form⟩
  · have other : p.getLast? ≠ some (-1) := fun last =>
      absurd (plain.1 (-1) (List.mem_of_getLast? last)).1 (by decide)
    rwa [if_neg other]
  · rw [if_pos List.getLast?_concat]
    exact plain_chsign digits form

/-- A number is 0 only if it has no digits. -/
theorem Proper.value_ne_zero (proper : Proper p) (some : p ≠ []) : value 100 p ≠ 0 := by
  rcases proper with plain | ⟨r, rfl, digits, -⟩
  · exact (plain.value_pos some).ne'
  · exact (value_negative digits).ne

/-- The magnitude of a number other than 0 has digits. -/
theorem Proper.magnitude_ne_nil (proper : Proper p) (some : p ≠ []) : (Dc.magnitude p).1 ≠ [] := by
  intro none
  have size := (magnitude_spec proper.signed).2.1
  rw [none, value_nil] at size
  exact proper.value_ne_zero some (abs_eq_zero.mp size.symm)

/-- A number with the sign it should have. -/
theorem value_ite_chsign (small : Small p) (s : Bool) :
    value 100 (if s then chsign p else p) = if s then -value 100 p else value 100 p := by
  cases s with
  | false => rfl
  | true => exact value_chsign small

theorem signed_ite_chsign (digits : Digits 100 p) (s : Bool) :
    Signed (if s then chsign p else p) := by
  have signed : Signed p := .inl digits
  cases s with
  | false => exact signed
  | true => exact signed.chsign

/-- The dividend with a zero in front is where the loop begins. -/
theorem remaining_begin (plain : Plain divr) (some : divr ≠ []) (digits : Digits 100 divd)
    (length : divr.length ≤ divd.length) :
    Remaining divr (divd ++ [0]) (divd.length - divr.length) where
  plain := plain
  some := some
  digits := digits_concat.mpr ⟨digits, by decide⟩
  length := by
    rw [List.length_append, List.length_singleton]
    omega
  small := by
    have positive := List.length_pos_iff.mpr some
    have power := power_pos (divd.length - divr.length)
    have large := mul_le_mul_of_nonneg_right (plain.le_value some) power.le
    have below := digits.value_lt (by decide)
    have split : (100 : ℤ) ^ divd.length =
        100 * (100 ^ (divr.length - 1) * 100 ^ (divd.length - divr.length)) := by
      rw [← pow_add, ← pow_succ']
      congr 1
      omega
    have more := mul_pos (plain.value_pos some) power
    rw [value_concat, mul_zero, add_zero]
    omega

/-- `div`, where the dividend has no fewer digits than the divisor. -/
theorem div_eq (some : b ≠ []) (length : (magnitude b).1.length ≤ (magnitude a).1.length) {r v}
    (found : steps (magnitude b).1 ((magnitude a).1.length - (magnitude b).1.length)
      ((magnitude a).1 ++ [0]) [] = (r, v)) :
    div a b = (if (magnitude b).2 != (magnitude a).2 then chsign (trim (settle 0 v))
        else trim (settle 0 v),
      if (magnitude a).2 then chsign (trim r) else trim r) := by
  rw [div, if_neg some]
  generalize magnitude a = x at length found ⊢
  generalize magnitude b = y at length found ⊢
  dsimp only
  rw [if_neg (Nat.not_lt.mpr length), found]

/-- `div`, where the dividend has fewer digits than the divisor. -/
theorem div_eq_of_lt (some : b ≠ []) (length : (magnitude a).1.length < (magnitude b).1.length) :
    div a b = ([], if (magnitude a).2 then chsign (magnitude a).1 else (magnitude a).1) := by
  rw [div, if_neg some]
  generalize magnitude a = x at length ⊢
  generalize magnitude b = y at length ⊢
  dsimp only
  rw [if_pos length]

/-- A quotient and a remainder of the magnitudes, with the signs they should have. -/
theorem signs {u v w z : ℤ} {l m : Bool} (left : l = true ↔ u < 0) (right : m = true ↔ v < 0)
    (whole : |u| = w * |v| + z) (low : 0 ≤ z) (high : z < |v|) :
    u = (if m != l then -w else w) * v + (if l then -z else z) ∧
      |if l then -z else z| < |v| ∧ (0 ≤ u → 0 ≤ if l then -z else z) ∧
      (u ≤ 0 → (if l then -z else z) ≤ 0) := by
  have nonneg : u = 0 → w * |v| + z = 0 := fun zero => by rw [← whole, zero, abs_zero]
  have quotient : u = 0 → z = 0 := by
    intro zero
    have := nonneg zero
    by_contra other
    have : 0 ≤ w := by
      by_contra negative
      have := mul_le_mul_of_nonneg_right (show w ≤ -1 by omega) (abs_nonneg v)
      omega
    have := mul_nonneg this (abs_nonneg v)
    omega
  cases l with
  | false =>
    have positive : 0 ≤ u := by simpa using left
    rw [abs_of_nonneg positive] at whole
    cases m with
    | false =>
      have positive' : 0 ≤ v := by simpa using right
      rw [abs_of_nonneg positive'] at whole high ⊢
      exact ⟨whole, by simpa [abs_of_nonneg low] using high, fun _ => low, fun none => by
        have := quotient (by omega)
        simp [this]⟩
    | true =>
      have negative : v < 0 := right.mp rfl
      rw [abs_of_neg negative] at whole high ⊢
      exact ⟨by simpa using whole, by simpa [abs_of_nonneg low] using high, fun _ => low,
        fun none => by
          have := quotient (by omega)
          simp [this]⟩
  | true =>
    have negative : u < 0 := left.mp rfl
    rw [abs_of_neg negative] at whole
    cases m with
    | false =>
      have positive' : 0 ≤ v := by simpa using right
      rw [abs_of_nonneg positive'] at whole high ⊢
      refine ⟨by simp; linarith, by simpa [abs_of_nonneg low] using high, fun none => by omega,
        fun _ => by simpa using low⟩
    | true =>
      have negative' : v < 0 := right.mp rfl
      rw [abs_of_neg negative'] at whole high ⊢
      refine ⟨by simp; linarith, by simpa [abs_of_nonneg low] using high, fun none => by omega,
        fun _ => by simpa using low⟩

/-- Where no digit is lost `div` divides. -/
theorem divides_of_fitting (signed : Signed a) (proper : Proper b) (some : b ≠ [])
    (fits : Fitting a b) : Divides a b := by
  obtain ⟨digits_a, size, sign⟩ := magnitude_spec signed
  obtain ⟨-, size', sign'⟩ := magnitude_spec proper.signed
  have plain := proper.magnitude
  have some' := proper.magnitude_ne_nil some
  rcases Nat.lt_or_ge (magnitude a).1.length (magnitude b).1.length with less | length
  · have below := digits_a.value_lt (by decide)
    have above := plain.le_value some'
    have power : (100 : ℤ) ^ (magnitude a).1.length ≤ 100 ^ ((magnitude b).1.length - 1) :=
      pow_le_pow_right₀ (by decide) (by omega)
    rw [size] at below
    rw [size'] at above
    obtain ⟨whole, small, nonneg, nonpos⟩ := signs (w := 0) (z := |value 100 a|) sign sign'
      (by rw [zero_mul, zero_add]) (abs_nonneg _) (by omega)
    rw [Divides, div_eq_of_lt some less, value_ite_chsign (small_of_digits digits_a), size]
    exact ⟨by simpa using whole, small, nonneg, nonpos, .inl Digits.nil,
      signed_ite_chsign digits_a _⟩
  · have rest := remaining_begin plain some' digits_a length
    have whole : value 100 ((magnitude a).1 ++ [0]) = |value 100 a| := by
      rw [value_concat, mul_zero, add_zero, size]
    have fits := fits length
    rw [← size', ← whole] at fits
    obtain ⟨r, v, found, -, digits_v, digits, sum, small⟩ := steps_fits (p := []) rest fits
    rw [List.append_nil] at found
    have quotient : Digits 100 (trim (settle 0 v)) := (digits_settle digits_v (.inl rfl)).trim
    have remainder : Digits 100 (trim r) := digits.trim
    have value_q : value 100 (trim (settle 0 v)) = value 100 v := by
      rw [value_trim, value_settle (fun d mem => by have := digits_v d mem; omega) (.inl rfl),
        add_zero]
    rw [size'] at sum small
    obtain ⟨right, less, nonneg, nonpos⟩ := signs sign sign' (whole.symm.trans sum.symm)
      digits.value_nonneg small
    rw [Divides, div_eq some length found, value_ite_chsign (small_of_digits quotient),
      value_ite_chsign (small_of_digits remainder), value_q, value_trim]
    exact ⟨right, less, nonneg, nonpos, signed_ite_chsign quotient _,
      signed_ite_chsign remainder _⟩

/-! ## Lost digits -/

theorem byte_bounds (x : ℤ) : -128 ≤ byte x ∧ byte x < 128 :=
  ⟨Int.le_bmod (by decide), Int.bmod_lt (by decide)⟩

/-- The digits of the quotient are bytes, whatever becomes of the dividend. -/
theorem steps_bytes (divr : List ℤ) (o : ℕ) (divd p : List ℤ) :
    ∃ r v, steps divr o divd p = (r, v ++ p) ∧ v.length = o + 1 ∧ ∀ d ∈ v, -128 ≤ d ∧ d < 128 := by
  induction o generalizing divd p with
  | zero =>
    rw [steps_zero]
    split
    · exact ⟨_, [_], rfl, rfl, List.forall_mem_singleton.mpr (byte_bounds _)⟩
    · exact ⟨_, [_], rfl, rfl, List.forall_mem_singleton.mpr (byte_bounds _)⟩
  | succ o hyp =>
    obtain ⟨r, v, found, length, bytes⟩ := hyp
      (reduce divr divd (o + 1) ((divisor divr).guess (leading divd) (o + 1))).1.dropLast
      (byte ((divisor divr).guess (leading divd) (o + 1)) :: p)
    refine ⟨r, v ++ [byte ((divisor divr).guess (leading divd) (o + 1))], ?_,
      by rw [List.length_append, length]; rfl,
      List.forall_mem_append.mpr ⟨bytes, List.forall_mem_singleton.mpr (byte_bounds _)⟩⟩
    rw [steps_succ, found, List.append_assoc]
    rfl

theorem value_le_of_bytes (bytes : ∀ d ∈ p, -128 ≤ d ∧ d < 128) :
    99 * value 100 p ≤ 127 * (100 ^ p.length - 1) := by
  induction p with
  | nil => simp
  | cons d p hyp =>
    obtain ⟨⟨-, high⟩, rest⟩ := List.forall_mem_cons.mp bytes
    have := hyp rest
    rw [value_cons, List.length_cons, pow_succ]
    linarith

/-- The loop, in general: a quotient of which no low part is negative, with any remainder below the
divisor, makes little more than the dividend, and not the dividend itself where a digit is lost. -/
theorem steps_lost (rest : Remaining divr divd o) :
    ∃ r v, steps divr o divd p = (r, v ++ p) ∧ v.length = o + 1 ∧
      (∀ d ∈ v, -128 ≤ d ∧ d < 128) ∧
      ((∀ q, q <+: v → 0 ≤ value 100 q) → ∀ R, 0 ≤ R → R < value 100 divr →
        value 100 v * value 100 divr + R ≤
            value 100 divd + 3 * (value 100 divr * 100 ^ o) ∧
          (¬Fits (divisor divr) (value 100 divr) divr.length o (value 100 divd) →
            value 100 v * value 100 divr + R ≠ value 100 divd)) := by
  have positive := rest.plain.value_pos rest.some
  induction o generalizing divd p with
  | zero =>
    obtain ⟨r, d, found, low, high, digits, whole, less⟩ := steps_last (p := p) rest
    refine ⟨r, [d], found, rfl, List.forall_mem_singleton.mpr ⟨by omega, by omega⟩,
      fun parts R nonneg small => ⟨?_, fun lost => absurd trivial lost⟩⟩
    have := digits.value_nonneg
    rw [value_cons, value_nil, mul_zero, add_zero, pow_zero]
    linarith
  | succ o hyp =>
    obtain ⟨low, high, left, fits⟩ := rest.next
    have power := power_pos o
    have more := mul_pos positive power
    have one : (1 : ℤ) ≤ 100 ^ o := power
    have more' := mul_le_mul_of_nonneg_left one positive.le
    rw [pow_succ] at fits
    rw [steps_succ, byte_eq (by omega) (by omega), rest.fits_iff]
    generalize step : (divisor divr).guess (leading divd) (o + 1) = g at low high
    have taken : leftover divr divd o = value 100 divd - g * (value 100 divr * 100 ^ (o + 1)) := by
      rw [leftover, step]
    by_cases enough : 0 ≤ leftover divr divd o
    · obtain ⟨x, nonneg_x, kept, value_eq, rest'⟩ := rest.reduce enough
      rw [step] at value_eq rest'
      obtain ⟨r, v, found, length, bytes, bound⟩ := hyp (p := g :: p) rest'
      refine ⟨r, v ++ [g], by rw [found, List.append_assoc]; rfl,
        by rw [List.length_append, length]; rfl,
        List.forall_mem_append.mpr ⟨bytes, List.forall_mem_singleton.mpr ⟨by omega, by omega⟩⟩,
        fun parts R nonneg small => ?_⟩
      obtain ⟨upper, lost⟩ := bound (fun q part => parts q (part.trans (List.prefix_append _ _)))
        R nonneg small
      have room := power_pos (divr.length + (o + 1))
      have drop := mul_nonneg room.le nonneg_x
      rw [value_eq] at upper lost
      rw [value_concat, length]
      rw [pow_succ] at taken ⊢
      refine ⟨by linarith, fun broken => ?_⟩
      by_cases short : leftover divr divd o < 100 ^ (divr.length + (o + 1))
      · rw [kept short, mul_zero, sub_zero] at lost
        have := lost fun fine => broken ⟨enough, short, fine⟩
        intro same
        apply this
        linarith
      · have some : 1 ≤ x := by
          by_contra none
          obtain rfl : x = 0 := by omega
          have digits := rest'.digits.value_lt (by decide)
          rw [rest'.length, value_eq, mul_zero, sub_zero,
            show divr.length + 1 + o = divr.length + (o + 1) by omega] at digits
          exact short digits
        have dropped := mul_le_mul_of_nonneg_left some room.le
        have size := mul_lt_mul_of_pos_right (rest.plain.1.value_lt (by decide)) power
        rw [pow_add, pow_succ] at dropped room upper
        intro same
        linarith
    · obtain ⟨r, v, found, length, bytes⟩ := steps_bytes divr o
        (reduce divr divd (o + 1) g).1.dropLast (g :: p)
      refine ⟨r, v ++ [g], by rw [found, List.append_assoc]; rfl,
        by rw [List.length_append, length]; rfl,
        List.forall_mem_append.mpr ⟨bytes, List.forall_mem_singleton.mpr ⟨by omega, by omega⟩⟩,
        fun parts R nonneg small => ?_⟩
      have low_part := parts v (List.prefix_append _ _)
      have high_part := value_le_of_bytes bytes
      have product := mul_nonneg low_part positive.le
      have product' := mul_le_mul_of_nonneg_right high_part positive.le
      rw [value_concat, length]
      rw [length] at high_part product'
      rw [pow_succ] at taken high_part product' ⊢
      refine ⟨by linarith, fun _ same => ?_⟩
      linarith

/-- What the loop over the quotient leaves of its low digits. -/
theorem nonneg_of_settle (bytes : ∀ d ∈ q ++ p, -128 ≤ d ∧ d < 128) (carry : c = 0 ∨ c = 1)
    (digits : Digits 100 (settle c (q ++ p))) : 0 ≤ value 100 q + c := by
  induction q generalizing c with
  | nil =>
    rw [value_nil]
    omega
  | cons d q hyp =>
    obtain ⟨⟨low, high⟩, rest⟩ := List.forall_mem_cons.mp bytes
    rw [List.cons_append, settle] at digits
    rw [value_cons]
    split at digits
    · have := hyp rest (.inr rfl) (digits_cons.mp digits).2
      omega
    · rw [byte_eq (by omega) (by omega)] at digits
      have := hyp rest (.inl rfl) (digits_cons.mp digits).2
      have := (digits_cons.mp digits).1.1
      omega

theorem digits_of_trim (digits : Digits 100 (trim p)) : Digits 100 p := by
  induction p using List.reverseRecOn with
  | nil => exact Digits.nil
  | append_singleton p d hyp =>
    by_cases zero : d = 0
    · rw [zero, trim_concat_zero] at digits
      exact digits_concat.mpr ⟨hyp digits, by omega, by omega⟩
    · rwa [trim_concat p zero] at digits

/-- Where the divisor begins with a digit from 10 on, no guess is too large. -/
theorem Remaining.leftover_nonneg (rest : Remaining divr divd (o + 1))
    (large : (divisor divr).magic = false) : 0 ≤ leftover divr divd o := by
  have lead := rest.lead
  have positive := lead.nonneg (mul_pos (power_pos _) (power_pos _)) rest.digits.value_nonneg
  obtain ⟨-, ⟨-, above⟩, -⟩ := leads rest.plain.1 rest.some
  have sharp : 100 * value 100 divr < ((divisor divr).c + 1) * 100 ^ (divr.length - 1) := by
    rw [divisor] at large ⊢
    split at large
    · exact absurd (show true = false from large) (by decide)
    · rename_i more
      rw [if_neg more]
      exact above
  have near := rest.near.large
  rw [leftover, Divisor.guess_succ _ positive, Divisor.scale, large, if_neg (by decide), one_mul]
  have low := Int.ediv_mul_le (leading divd) (show (divisor divr).c + 1 ≠ 0 by omega)
  have nonneg : 0 ≤ leading divd / ((divisor divr).c + 1) := Int.ediv_nonneg positive (by omega)
  have below := mul_le_mul_of_nonneg_right low
    (mul_pos (power_pos (divr.length - 1)) (power_pos (o + 1))).le
  have sharp := mul_lt_mul_of_pos_right sharp (power_pos (o + 1))
  have sharp := mul_le_mul_of_nonneg_left sharp.le nonneg
  have := lead.low
  linarith

/-- Then all guesses are digits, or little more. -/
theorem steps_digits (rest : Remaining divr divd o) (large : (divisor divr).magic = false) :
    ∃ r v, steps divr o divd p = (r, v ++ p) ∧ ∀ d ∈ v, 0 ≤ d ∧ d ≤ 121 := by
  induction o generalizing divd p with
  | zero =>
    obtain ⟨r, d, found, low, high, -⟩ := steps_last (p := p) rest
    exact ⟨r, [d], found, List.forall_mem_singleton.mpr ⟨low, high⟩⟩
  | succ o hyp =>
    obtain ⟨low, high, -⟩ := rest.next
    obtain ⟨-, -, -, -, rest'⟩ := rest.reduce (rest.leftover_nonneg large)
    obtain ⟨r, v, found, digits⟩ := hyp
      (p := byte ((divisor divr).guess (leading divd) (o + 1)) :: p) rest'
    rw [steps_succ, found, byte_eq (by omega) (by omega)]
    exact ⟨r, v ++ [(divisor divr).guess (leading divd) (o + 1)], by rw [List.append_assoc]; rfl,
      List.forall_mem_append.mpr ⟨digits, List.forall_mem_singleton.mpr ⟨low, by omega⟩⟩⟩

/-- A quotient and a remainder with the signs they should have are a quotient and a remainder of
the magnitudes. -/
theorem signs_inverse {u v w z : ℤ} {l m : Bool} (left : l = true ↔ u < 0)
    (right : m = true ↔ v < 0) (whole : u = (if m != l then -w else w) * v + z)
    (nonneg : 0 ≤ u → 0 ≤ z) (nonpos : u ≤ 0 → z ≤ 0) : |u| = w * |v| + |z| := by
  cases l with
  | false =>
    have positive : 0 ≤ u := by simpa using left
    rw [abs_of_nonneg positive, abs_of_nonneg (nonneg positive)]
    cases m with
    | false =>
      have positive' : 0 ≤ v := by simpa using right
      rw [abs_of_nonneg positive']
      exact whole
    | true =>
      rw [abs_of_neg (right.mp rfl)]
      simpa using whole
  | true =>
    have negative : u < 0 := left.mp rfl
    rw [abs_of_neg negative, abs_of_nonpos (nonpos negative.le)]
    cases m with
    | false =>
      have positive' : 0 ≤ v := by simpa using right
      rw [abs_of_nonneg positive', whole]
      simp
      ring
    | true =>
      rw [abs_of_neg (right.mp rfl), whole]
      simp
      ring

/-- A quotient of numbers that are not negative is not negative. -/
theorem quotient_nonneg {u v w z : ℤ} (whole : |u| = w * |v| + |z|) (less : |z| < |v|) :
    0 ≤ w := by
  by_contra negative
  have := mul_le_mul_of_nonneg_right (show w ≤ -1 by omega) (abs_nonneg v)
  have := abs_nonneg u
  omega

/-- Where numbers of one sign are divided, or the divisor begins with a digit from 10 on, and a
digit is lost, `div` does not divide. -/
theorem fitting_of_divides (signed_a : Signed a) (proper : Proper b) (some : b ≠ [])
    (form : (value 100 a < 0 ↔ value 100 b < 0) ∨ (divisor (magnitude b).1).magic = false)
    (divides : Divides a b) : Fitting a b := by
  intro length
  obtain ⟨digits_a, size, sign⟩ := magnitude_spec signed_a
  obtain ⟨-, size', sign'⟩ := magnitude_spec proper.signed
  have plain := proper.magnitude
  have some' := proper.magnitude_ne_nil some
  have rest := remaining_begin plain some' digits_a length
  have whole : value 100 ((magnitude a).1 ++ [0]) = |value 100 a| := by
    rw [value_concat, mul_zero, add_zero, size]
  obtain ⟨r, v, found, -, bytes, lost⟩ := steps_lost (p := []) rest
  rw [List.append_nil] at found
  rw [size', whole] at lost
  obtain ⟨sum, less, nonneg, nonpos, signed, -⟩ := divides
  have quotient := congrArg Prod.fst (div_eq some length found)
  have settled : value 100 (trim (settle 0 v)) = value 100 v := by
    rw [value_trim, value_settle bytes (.inl rfl), add_zero]
  have done : Digits 100 (settle 0 v) ∧ |value 100 a| =
      value 100 v * |value 100 b| + |value 100 (div a b).2| := by
    rcases form with same | large
    · have one_sign : (magnitude b).2 = (magnitude a).2 := by
        rw [Bool.eq_iff_iff, sign, sign', same]
      have printed : (div a b).1 = trim (settle 0 v) := by
        rw [quotient, one_sign]
        simp
      rw [printed, settled] at sum
      have magnitudes := signs_inverse (w := value 100 v) sign sign'
        (by rw [one_sign]; simpa using sum) nonneg nonpos
      have nonneg_q := quotient_nonneg magnitudes less
      refine ⟨?_, magnitudes⟩
      rw [printed] at signed
      rcases signed with digits | ⟨q, here, digits⟩
      · exact digits_of_trim digits
      · have := value_negative digits
        rw [here] at settled
        omega
    · obtain ⟨r', v', found', digits⟩ := steps_digits (p := []) rest large
      rw [List.append_nil, found, Prod.mk.injEq] at found'
      rw [← found'.2] at digits
      have settled_digits := digits_settle digits (c := 0) (.inl rfl)
      rw [quotient] at sum
      change _ = value 100 (if _ then _ else _) * _ + _ at sum
      rw [value_ite_chsign (small_of_digits settled_digits.trim), settled] at sum
      exact ⟨settled_digits, signs_inverse sign sign' sum nonneg nonpos⟩
  obtain ⟨digits, magnitudes⟩ := done
  have parts : ∀ q, q <+: v → 0 ≤ value 100 q := by
    rintro q ⟨p, rfl⟩
    have := nonneg_of_settle bytes (.inl rfl) digits
    rwa [add_zero] at this
  by_contra broken
  exact (lost parts _ (abs_nonneg _) less).2 broken magnitudes.symm

/-- `div` divides where no digit is lost; for numbers of one sign, and for divisors that begin with
a digit from 10 on, only there. -/
theorem div_iff_fitting (signed : Signed a) (proper : Proper b) (some : b ≠ []) :
    (Fitting a b → Divides a b) ∧
      ((value 100 a < 0 ↔ value 100 b < 0) ∨ (divisor (magnitude b).1).magic = false →
        Divides a b → Fitting a b) :=
  ⟨divides_of_fitting signed proper some, fitting_of_divides signed proper some⟩

/-- 150 by 7. -/
theorem divides_150_by_7 : Divides [50, 1] [7] :=
  (div_iff_fitting (.inl (by decide)) (.inl ⟨by decide, by decide⟩) (by decide)).1
    (show _ → _ by decide)

/-- 99019900 by 9901: the quotient should be 10000, but a digit of what is left is dropped, and it
comes out as 9900. -/
theorem not_forall_divides :
    ¬∀ a b, Proper a → Proper b → b ≠ [] → Divides a b := fun all =>
  absurd (all [0, 99, 1, 99] [1, 99] (.inl ⟨by decide, by decide⟩) (.inl ⟨by decide, by decide⟩)
    (by decide)).1 (by decide)

end Dc

end UnixV7
