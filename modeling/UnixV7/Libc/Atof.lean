import UnixV7.Library.Limbs
import UnixV7.Libc.PrintScan
import Mathlib.Data.Nat.Size
import Mathlib.Tactic.Positivity

/-!
# Decimal to floating

`atof` up to the integer and the power of two it hands to `ldexp`. A big integer is the list of its
limbs below `n`, and a number that needs more limbs than there is room for is no result: a limb
stored outside the array, and the carry that `bmuladd` drops there. A string is the list of its
characters before the zero; it is shorter than what an `int` counts.
-/

namespace UnixV7.Libc.Atof

open Limbs
open Stdio (isdigit)

/-- The limbs of a big integer. -/
abbrev big := List ℕ

/-- The limbs there is room for. -/
abbrev NLIMB : ℕ := 130

/-- The digits that are kept. -/
abbrev MAXDIG : ℕ := 800

/-- `bmuladd` -/
def bmuladd (a : big) (m c : ℕ) : Option big := store NLIMB (mulAdd (2 ^ 32) m a c)

/-- The loop that counts the bits of a limb. -/
def bitLoop : ℕ → ℕ → ℕ
  | 0, _ => 0
  | fuel + 1, w => if w = 0 then 0 else bitLoop fuel (w >>> 1) + 1

/-- `bbits` -/
def bbits (a : big) : ℕ :=
  match a.getLast? with
  | none => 0
  | some w => 32 * (a.length - 1) + bitLoop 32 w

/-- The limbs moved up by `r` bits, from the one above `prev` on; each is stored after it has been
read for the last time. -/
def shiftLoop (r : ℕ) : ℕ → big → big
  | prev, [] => [if r ≠ 0 then prev >>> (32 - r) else 0]
  | prev, w :: a =>
      ((if r ≠ 0 then prev >>> (32 - r) else 0) ||| w <<< r % 2 ^ 32) :: shiftLoop r w a

/-- `bshl` -/
def bshl (a : big) (s : ℕ) : Option big :=
  if a = [] then some []
  else if a.length + s / 32 + 1 ≤ NLIMB then
    some (strip (List.replicate (s / 32) 0 ++ shiftLoop (s % 32) 0 a))
  else none

/-- The loop of `bcmp`; the limb above decides first. -/
def bcmpLoop : big → big → ℤ
  | w :: a, v :: b =>
      if bcmpLoop a b ≠ 0 then bcmpLoop a b else if w ≠ v then if w < v then -1 else 1 else 0
  | _, _ => 0

/-- `bcmp` -/
def bcmp (a b : big) : ℤ :=
  if a.length ≠ b.length then if a.length < b.length then -1 else 1 else bcmpLoop a b

/-- `t` in the loop of `bsub`. -/
def difference (w v c : ℕ) : ℕ := (w + 2 ^ 64 - v - c) % 2 ^ 64

/-- The loop of `bsub`, with a borrow of `c`. -/
def bsubLoop : big → big → ℕ → big
  | [], _, _ => []
  | w :: a, b, c =>
      difference w (b.headD 0) c % 2 ^ 32 ::
        bsubLoop a b.tail (difference w (b.headD 0) c >>> 32 &&& 1)

/-- `bsub` -/
def bsub (a b : big) : big := strip (bsubLoop a b 0)

/-- A loop of multiplications by `m`. -/
def bmulLoop (m : ℕ) : ℕ → big → Option big
  | 0, a => some a
  | n + 1, a => do
      let a ← bmuladd a m 0
      bmulLoop m n a

/-- `bpow10` -/
def bpow10 (a : big) (e : ℕ) : Option big := do
  let a ← bmulLoop 1000000000 (e / 9) a
  bmulLoop 10 (e % 9) a

/-- The digits read so far. -/
structure Mant where
  num : big
  nd : ℕ
  dexp : ℤ
  sticky : Bool

/-- `digit` -/
def digit (s : Mant) (c : Char) (frac : Bool) : Option Mant :=
  if s.nd = 0 ∧ c = '0' then
    some { s with dexp := if frac then s.dexp - 1 else s.dexp }
  else if s.nd < MAXDIG then do
    let num ← bmuladd s.num 10 (c.toNat - '0'.toNat)
    some { s with
      num := num
      nd := s.nd + 1
      dexp := if frac then s.dexp - 1 else s.dexp }
  else
    some { s with
      sticky := s.sticky || c ≠ '0'
      dexp := if frac then s.dexp else s.dexp + 1 }

/-- A loop over digits, and the text from the character after them on. -/
def digitLoop (frac : Bool) : Mant → List Char → Option (Mant × List Char)
  | s, [] => some (s, [])
  | s, c :: p =>
      if isdigit c then do
        let s ← digit s c frac
        digitLoop frac s p
      else
        some (s, c :: p)

/-- The sign of a number and the text after it. -/
def sign (p : List Char) : Bool × List Char :=
  if p.head? = some '-' then (true, p.tail)
  else if p.head? = some '+' then (false, p.tail)
  else (false, p)

/-- The digits after a point. -/
def fraction (s : Mant) (p : List Char) : Option (Mant × List Char) :=
  if p.head? = some '.' then digitLoop true s p.tail else some (s, p)

/-- A digit in place of those that are not kept, unless they are zeros. -/
def mark (s : Mant) : Option Mant :=
  if s.sticky then do
    let num ← bmuladd s.num 10 1
    some { s with num := num, dexp := s.dexp - 1 }
  else
    some s

/-- The digits before and after the point. -/
def mantissa (p : List Char) : Option (Mant × List Char) := do
  let (s, p) ← digitLoop false ⟨[], 0, 0, false⟩ p
  let (s, p) ← fraction s p
  let s ← mark s
  some (s, p)

/-- The loop over the digits of the exponent. -/
def exponentLoop (eexp : ℤ) : List Char → ℤ
  | [] => eexp
  | c :: p =>
      if isdigit c then
        exponentLoop (if eexp < 10000 then 10 * eexp + (c.toNat - '0'.toNat) else eexp) p
      else
        eexp

/-- The exponent, `0` if there is none. -/
def exponent (p : List Char) : ℤ :=
  if p.head? = some 'E' ∨ p.head? = some 'e' then
    let (negexp, p) := sign p.tail
    if negexp then -exponentLoop 0 p else exponentLoop 0 p
  else
    0

/-- What `atof` returns: a zero, a number out of range, or an integer and a power of two. -/
inductive Result
  | zero (neg : Bool)
  | huge (neg : Bool)
  | ldexp (neg : Bool) (m : ℕ) (e : ℤ)
  deriving DecidableEq

/-- The division, one bit of the quotient after the other. -/
def divide (den : big) : ℕ → big → ℕ → Option (big × ℕ)
  | 0, num, q => some (num, q)
  | i + 1, num, q => do
      let t ← bshl den i
      if 0 ≤ bcmp num t then divide den i (bsub num t) (q ||| 1 <<< i) else divide den i num q

/-- The loop that finds the top bit of `q`, from bit `e2` down. -/
def topBit (q : ℕ) : ℕ → ℕ
  | 0 => 0
  | e2 + 1 => if q >>> (e2 + 1) &&& 1 ≠ 0 then e2 + 1 else topBit q e2

/-- The precision of the result: a subnormal number has fewer bits. -/
def precision (e2 : ℤ) : ℤ := if e2 < -1022 then 1075 + e2 else 53

/-- `q` rounded to its upper bits, the lower `drop` of them being dropped. -/
def roundOff (q drop : ℕ) (sticky : Bool) : ℕ :=
  let m := q >>> drop
  let rem := q &&& (1 <<< drop - 1)
  let half := 1 <<< (drop - 1)
  if half < rem ∨ rem = half ∧ (sticky ∨ m &&& 1 = 1) then m + 1 else m

/-- The end of `atof`, for the quotient `q` at the exponent `-k`. -/
def result (neg : Bool) (q : ℕ) (k : ℤ) (sticky : Bool) : Result :=
  let top := topBit q 63
  let e2 := top - k
  if e2 < -1075 then
    .zero neg
  else
    let drop := top + 1 - precision e2
    .ldexp neg (roundOff q drop.toNat sticky) (drop - k)

/-- The number `num * 10 ^ dexp` as a quotient. -/
def ratio (num : big) (dexp : ℤ) : Option (big × big) :=
  if 0 ≤ dexp then do
    let num ← bpow10 num dexp.toNat
    some (num, [1])
  else do
    let den ← bpow10 [1] (-dexp).toNat
    some (num, den)

/-- The quotient times `2 ^ k`. -/
def align (num den : big) (k : ℤ) : Option (big × big) :=
  if 0 < k then do
    let num ← bshl num k.toNat
    some (num, den)
  else if k < 0 then do
    let den ← bshl den (-k).toNat
    some (num, den)
  else
    some (num, den)

/-- The end of `atof`, for the number `num * 10 ^ dexp`. -/
def scale (neg : Bool) (num : big) (dexp : ℤ) : Option Result := do
  let (num, den) ← ratio num dexp
  let k : ℤ := 62 - (bbits num - bbits den)
  let (num, den) ← align num den k
  let (num, q) ← divide den 64 num 0
  some (result neg q k (num ≠ []))

/-- The value is `num * 10 ^ dexp`, of `nd` digits. -/
def value (neg : Bool) (s : Mant) (dexp : ℤ) : Option Result :=
  if s.num = [] ∨ s.nd + dexp < -330 then some (.zero neg)
  else if 310 < s.nd + dexp then some (.huge neg)
  else scale neg s.num dexp

/-- `atof` -/
def atof (p : List Char) : Option Result := do
  let (neg, p) := sign (p.dropWhile (· = ' '))
  let (s, p) ← mantissa p
  value neg s (s.dexp + exponent p)

open Nat (digits ofDigits)

variable {a b : big} {v w x y r c m n : ℕ}

/-! ## Big integers -/

theorem base : 1 < 2 ^ 32 := by decide

theorem small_digits (v : ℕ) : ∀ d ∈ digits (2 ^ 32) v, d < 2 ^ 32 :=
  fun _ mem => Nat.digits_lt_base base mem

theorem bmuladd_digits (some' : 0 < m) (factor : m ≤ 2 ^ 32) (carry : c < 2 ^ 32)
    (fits : v * m + c < (2 ^ 32) ^ NLIMB) :
    bmuladd (digits (2 ^ 32) v) m c = some (digits (2 ^ 32) (v * m + c)) :=
  store_mulAdd base some' factor carry fits

theorem bmulLoop_digits (some' : 0 < m) (factor : m ≤ 2 ^ 32) (n v : ℕ)
    (fits : v * m ^ n < (2 ^ 32) ^ NLIMB) :
    bmulLoop m n (digits (2 ^ 32) v) = some (digits (2 ^ 32) (v * m ^ n)) := by
  induction n generalizing v with
  | zero => rw [bmulLoop, pow_zero, Nat.mul_one]
  | succ n ih =>
      have power : v * m ^ (n + 1) = v * m * m ^ n := by
        rw [pow_succ]
        ring
      rw [power] at fits ⊢
      have fits' : v * m + 0 < (2 ^ 32) ^ NLIMB :=
        (Nat.le_mul_of_pos_right (v * m) (pow_pos some' n)).trans_lt fits
      rw [bmulLoop, bmuladd_digits some' factor (by decide) fits']
      exact ih (v * m) fits

/-- `bpow10` multiplies by a power of ten. -/
theorem bpow10_digits (e v : ℕ) (fits : v * 10 ^ e < (2 ^ 32) ^ NLIMB) :
    bpow10 (digits (2 ^ 32) v) e = some (digits (2 ^ 32) (v * 10 ^ e)) := by
  have power : v * 10 ^ e = v * 1000000000 ^ (e / 9) * 10 ^ (e % 9) := by
    rw [show 1000000000 = 10 ^ 9 from rfl, mul_assoc, ← pow_mul, ← pow_add, Nat.div_add_mod]
  rw [power] at fits ⊢
  have fits' := (Nat.le_mul_of_pos_right (v * 1000000000 ^ (e / 9))
    (pow_pos (show 0 < 10 by decide) (e % 9))).trans_lt fits
  rw [bpow10, bmulLoop_digits (by decide) (by decide) _ _ fits']
  exact bmulLoop_digits (by decide) (by decide) _ _ fits

/-- The bits of a number with `top` above `n` bits. -/
theorem size_add_mul {low top : ℕ} (n : ℕ) (less : low < 2 ^ n) (some' : 0 < top) :
    (low + 2 ^ n * top).size = n + top.size := by
  have positive := Nat.size_pos.mpr some'
  apply le_antisymm
  · apply Nat.size_le.mpr
    calc low + 2 ^ n * top < 2 ^ n * (top + 1) := by rw [Nat.mul_succ]; omega
      _ ≤ 2 ^ n * 2 ^ top.size := Nat.mul_le_mul_left _ (Nat.lt_size_self top)
      _ = 2 ^ (n + top.size) := (pow_add 2 n _).symm
  · have bit : 2 ^ (top.size - 1) ≤ top := Nat.lt_size.mp (by omega)
    have whole : 2 ^ (n + (top.size - 1)) ≤ low + 2 ^ n * top :=
      calc 2 ^ (n + (top.size - 1)) = 2 ^ n * 2 ^ (top.size - 1) := pow_add 2 n _
        _ ≤ 2 ^ n * top := Nat.mul_le_mul_left _ bit
        _ ≤ low + 2 ^ n * top := Nat.le_add_left ..
    have := Nat.lt_size.mpr whole
    omega

theorem bitLoop_eq (fuel w : ℕ) (small : w < 2 ^ fuel) : bitLoop fuel w = w.size := by
  induction fuel generalizing w with
  | zero =>
      obtain rfl : w = 0 := by omega
      rfl
  | succ fuel ih =>
      rw [bitLoop]
      split
      · next zero => rw [zero, Nat.size_zero]
      · next some' =>
          have half : w >>> 1 = w / 2 := by rw [Nat.shiftRight_eq_div_pow, pow_one]
          rw [half, ih _ (by rw [pow_succ] at small; omega)]
          obtain one | more := Nat.eq_zero_or_pos (w / 2)
          · obtain rfl : w = 1 := by omega
            rfl
          · have split := size_add_mul 1 (Nat.mod_lt w (show 0 < 2 ^ 1 by decide)) more
            rw [pow_one, Nat.mod_add_div] at split
            omega

/-- `bbits` counts bits. -/
theorem bbits_digits (some' : v ≠ 0) : bbits (digits (2 ^ 32) v) = v.size := by
  have nonempty : digits (2 ^ 32) v ≠ [] := Nat.digits_ne_nil_iff_ne_zero.mpr some'
  have split := List.dropLast_append_getLast nonempty
  have top := Nat.getLast_digit_ne_zero (2 ^ 32) some'
  have limb := small_digits v _ (List.getLast_mem nonempty)
  have less := Nat.ofDigits_lt_base_pow_length base (l := (digits (2 ^ 32) v).dropLast)
    fun d mem => small_digits v d (List.mem_of_mem_dropLast mem)
  have value := Nat.ofDigits_digits (2 ^ 32) v
  rw [← split, Nat.ofDigits_append, Nat.ofDigits_singleton] at value
  rw [← pow_mul] at less value
  have size := size_add_mul _ less (Nat.pos_of_ne_zero top)
  rw [value, List.length_dropLast] at size
  rw [bbits, List.getLast?_eq_some_getLast nonempty, size]
  dsimp only
  rw [bitLoop_eq 32 _ limb]

theorem shiftLoop_spec (less : r < 32) {prev : ℕ} (limb : prev < 2 ^ 32)
    (small : ∀ d ∈ a, d < 2 ^ 32) :
    ofDigits (2 ^ 32) (shiftLoop r prev a) = ofDigits (2 ^ 32) a * 2 ^ r + prev / 2 ^ (32 - r) ∧
      ∀ d ∈ shiftLoop r prev a, d < 2 ^ 32 := by
  have up : ∀ {prev}, prev < 2 ^ 32 →
      (if r ≠ 0 then prev >>> (32 - r) else 0) = prev / 2 ^ (32 - r) ∧
        prev / 2 ^ (32 - r) < 2 ^ r := by
    intro prev limb
    have split : 2 ^ 32 = 2 ^ (32 - r) * 2 ^ r := by
      rw [← pow_add, Nat.sub_add_cancel less.le]
    constructor
    · split
      · rw [Nat.shiftRight_eq_div_pow]
      · next none =>
          obtain rfl := not_not.mp none
          rw [Nat.div_eq_of_lt limb]
    · apply Nat.div_lt_of_lt_mul
      rwa [← split]
  induction a generalizing prev with
  | nil =>
      obtain ⟨same, bits⟩ := up limb
      rw [shiftLoop, same, Nat.ofDigits_singleton, Nat.ofDigits_nil, Nat.zero_mul, Nat.zero_add]
      refine ⟨rfl, ?_⟩
      intro d mem
      rw [List.mem_singleton.mp mem]
      exact bits.trans_le (Nat.pow_le_pow_right (by decide) less.le)
  | cons w a ih =>
      obtain ⟨head, tail⟩ := List.forall_mem_cons.mp small
      obtain ⟨same, bits⟩ := up limb
      obtain ⟨value, limbs⟩ := ih head tail
      have low : w <<< r % 2 ^ 32 = (w % 2 ^ (32 - r)) <<< r := by
        rw [Nat.shiftLeft_eq, Nat.shiftLeft_eq, ← Nat.mul_mod_mul_right, ← pow_add,
          Nat.sub_add_cancel less.le]
      have join : (prev / 2 ^ (32 - r) ||| w <<< r % 2 ^ 32) =
          w % 2 ^ (32 - r) * 2 ^ r + prev / 2 ^ (32 - r) := by
        rw [low, Nat.or_comm, ← Nat.shiftLeft_add_eq_or_of_lt bits, Nat.shiftLeft_eq]
      have split : 2 ^ 32 = 2 ^ (32 - r) * 2 ^ r := by
        rw [← pow_add, Nat.sub_add_cancel less.le]
      rw [shiftLoop, same, join]
      constructor
      · rw [Nat.ofDigits_cons, Nat.ofDigits_cons, value]
        have parts := Nat.div_add_mod w (2 ^ (32 - r))
        calc w % 2 ^ (32 - r) * 2 ^ r + prev / 2 ^ (32 - r) +
              2 ^ 32 * (ofDigits (2 ^ 32) a * 2 ^ r + w / 2 ^ (32 - r))
            = (2 ^ 32 * (w / 2 ^ (32 - r)) + w % 2 ^ (32 - r) * 2 ^ r) +
                2 ^ 32 * ofDigits (2 ^ 32) a * 2 ^ r + prev / 2 ^ (32 - r) := by ring
          _ = (2 ^ (32 - r) * (w / 2 ^ (32 - r)) + w % 2 ^ (32 - r)) * 2 ^ r +
                2 ^ 32 * ofDigits (2 ^ 32) a * 2 ^ r + prev / 2 ^ (32 - r) := by
              rw [Nat.add_mul]
              conv_lhs => enter [1, 1, 1]; rw [split]
              ring
          _ = (w + 2 ^ 32 * ofDigits (2 ^ 32) a) * 2 ^ r + prev / 2 ^ (32 - r) := by
              rw [parts]
              ring
      · apply List.forall_mem_cons.mpr ⟨_, limbs⟩
        have := Nat.mod_lt w (Nat.two_pow_pos (32 - r))
        have : (w % 2 ^ (32 - r) + 1) * 2 ^ r ≤ 2 ^ 32 := by
          conv_rhs => rw [split]
          exact Nat.mul_le_mul_right _ this
        rw [Nat.add_mul, Nat.one_mul] at this
        omega

/-- `bshl` shifts, with a limb to spare. -/
theorem bshl_digits (v s : ℕ) (fits : v * 2 ^ s < (2 ^ 32) ^ (NLIMB - 1)) :
    bshl (digits (2 ^ 32) v) s = some (digits (2 ^ 32) (v * 2 ^ s)) := by
  rw [bshl]
  split
  · next none =>
      have zero : v = 0 := Nat.digits_eq_nil_iff_eq_zero.mp none
      rw [zero, Nat.zero_mul, Nat.digits_zero]
  · next more =>
      have some' : v ≠ 0 := Nat.digits_ne_nil_iff_ne_zero.mp more
      have length := List.length_pos_of_ne_nil more
      have power : 2 ^ s = (2 ^ 32) ^ (s / 32) * 2 ^ (s % 32) := by
        rw [← pow_mul, ← pow_add, Nat.div_add_mod]
      have room : (digits (2 ^ 32) v).length - 1 + s / 32 < NLIMB - 1 := by
        apply (Nat.pow_lt_pow_iff_right base).mp
        calc (2 ^ 32) ^ ((digits (2 ^ 32) v).length - 1 + s / 32)
            = (2 ^ 32) ^ ((digits (2 ^ 32) v).length - 1) * (2 ^ 32) ^ (s / 32) := pow_add _ _ _
          _ ≤ v * 2 ^ s := by
              apply Nat.mul_le_mul
              · by_contra less
                have := length_le base (Nat.lt_of_not_le less)
                omega
              · rw [power]
                exact Nat.le_mul_of_pos_right _ (Nat.two_pow_pos _)
          _ < (2 ^ 32) ^ (NLIMB - 1) := fits
      have limit : NLIMB = 130 := rfl
      obtain ⟨value, limbs⟩ := shiftLoop_spec (Nat.mod_lt s (by decide)) (show 0 < 2 ^ 32 by decide)
        (small_digits v)
      rw [if_pos (by omega), strip_eq base, Nat.ofDigits_append, Nat.ofDigits_replicate_zero,
        List.length_replicate, value, Nat.ofDigits_digits, Nat.zero_div, power]
      · congr 2
        ring
      · intro d mem
        obtain mem | mem := List.mem_append.mp mem
        · rw [List.eq_of_mem_replicate mem]
          decide
        · exact limbs d mem

theorem bcmpLoop_spec (same : a.length = b.length) (small : ∀ d ∈ a, d < 2 ^ 32)
    (small' : ∀ d ∈ b, d < 2 ^ 32) :
    (0 < bcmpLoop a b ↔ ofDigits (2 ^ 32) b < ofDigits (2 ^ 32) a) ∧
      (bcmpLoop a b < 0 ↔ ofDigits (2 ^ 32) a < ofDigits (2 ^ 32) b) := by
  induction a generalizing b with
  | nil =>
      obtain rfl := List.eq_nil_of_length_eq_zero same.symm
      exact ⟨by decide, by decide⟩
  | cons w a ih =>
      cases b with
      | nil => contradiction
      | cons v b =>
          obtain ⟨head, tail⟩ := List.forall_mem_cons.mp small
          obtain ⟨head', tail'⟩ := List.forall_mem_cons.mp small'
          obtain ⟨more, less⟩ := ih (Nat.succ.inj same) tail tail'
          rw [bcmpLoop, Nat.ofDigits_cons, Nat.ofDigits_cons]
          generalize bcmpLoop a b = above at more less ⊢
          generalize ofDigits (2 ^ 32) a = x at more less ⊢
          generalize ofDigits (2 ^ 32) b = y at more less ⊢
          split
          · omega
          · split
            · split <;> omega
            · omega

/-- `bcmp` compares. -/
theorem bcmp_digits (x y : ℕ) : 0 ≤ bcmp (digits (2 ^ 32) x) (digits (2 ^ 32) y) ↔ y ≤ x := by
  rw [bcmp]
  split
  · next other =>
      split
      · next shorter =>
          have := (Nat.le_length_digits_le (2 ^ 32) y x)
          have : ¬y ≤ x := fun le => by
            have := Nat.le_length_digits_le (2 ^ 32) y x le
            omega
          simpa using this
      · next longer =>
          have : y ≤ x := by
            by_contra less
            have := Nat.le_length_digits_le (2 ^ 32) x y (Nat.le_of_not_le less)
            omega
          simpa using this
  · next same =>
      obtain ⟨-, less⟩ := bcmpLoop_spec (not_not.mp same) (small_digits x) (small_digits y)
      rw [Nat.ofDigits_digits, Nat.ofDigits_digits] at less
      rw [← not_lt, less, not_lt]

theorem bsubLoop_spec (limb : c < 2) (small : ∀ d ∈ a, d < 2 ^ 32) (small' : ∀ d ∈ b, d < 2 ^ 32)
    (shorter : b.length ≤ a.length) (le : ofDigits (2 ^ 32) b + c ≤ ofDigits (2 ^ 32) a) :
    ofDigits (2 ^ 32) (bsubLoop a b c) + ofDigits (2 ^ 32) b + c = ofDigits (2 ^ 32) a ∧
      ∀ d ∈ bsubLoop a b c, d < 2 ^ 32 := by
  induction a generalizing b c with
  | nil =>
      obtain rfl := List.eq_nil_of_length_eq_zero (Nat.le_zero.mp shorter)
      rw [Nat.ofDigits_nil, Nat.zero_add] at le
      rw [bsubLoop, Nat.ofDigits_nil]
      exact ⟨by omega, List.forall_mem_nil _⟩
  | cons w a ih =>
      obtain ⟨head, tail⟩ := List.forall_mem_cons.mp small
      have limb' : b.headD 0 < 2 ^ 32 := by
        cases b with
        | nil => decide
        | cons v b => exact small' v List.mem_cons_self
      have rest : ∀ d ∈ b.tail, d < 2 ^ 32 := fun d mem => small' d (List.mem_of_mem_tail mem)
      have whole : ofDigits (2 ^ 32) b = b.headD 0 + 2 ^ 32 * ofDigits (2 ^ 32) b.tail := by
        cases b with
        | nil => rfl
        | cons v b => exact Nat.ofDigits_cons
      have length : b.tail.length ≤ a.length := by
        rw [List.length_tail]
        rw [List.length_cons] at shorter
        omega
      have borrow : difference w (b.headD 0) c >>> 32 &&& 1 =
          if w < b.headD 0 + c then 1 else 0 := by
        rw [Nat.and_one_is_mod, Nat.shiftRight_eq_div_pow, difference]
        split <;> omega
      have digit : difference w (b.headD 0) c % 2 ^ 32 + b.headD 0 + c =
          w + 2 ^ 32 * if w < b.headD 0 + c then 1 else 0 := by
        rw [difference]
        split <;> omega
      rw [Nat.ofDigits_cons, whole] at le
      obtain ⟨value, limbs⟩ := ih (b := b.tail) (c := if w < b.headD 0 + c then 1 else 0)
        (by split <;> decide) tail rest length (by split <;> omega)
      rw [bsubLoop, borrow, Nat.ofDigits_cons, Nat.ofDigits_cons, whole]
      refine ⟨by omega, List.forall_mem_cons.mpr ⟨Nat.mod_lt _ (by decide), limbs⟩⟩

/-- `bsub` subtracts. -/
theorem bsub_digits (le : y ≤ x) :
    bsub (digits (2 ^ 32) x) (digits (2 ^ 32) y) = digits (2 ^ 32) (x - y) := by
  obtain ⟨value, limbs⟩ := bsubLoop_spec (c := 0) (by decide) (small_digits x) (small_digits y)
    (Nat.le_length_digits_le (2 ^ 32) y x le) (by simpa [Nat.ofDigits_digits] using le)
  rw [Nat.ofDigits_digits, Nat.ofDigits_digits] at value
  rw [bsub, strip_eq base limbs]
  congr 1
  omega

end UnixV7.Libc.Atof
