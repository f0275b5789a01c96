import Mathlib.Algebra.Order.Archimedean.Basic
import Mathlib.Data.Nat.Size
import UnixV7.Libc.AtofRound
import UnixV7.Libc.EcvtRound
import UnixV7.Library.Separated

/-!
# Floating numbers printed and read again

The conversions `e` and `f` of `_doprnt`. What is printed with `e` is read by `atof` as the number
that was printed, if there are enough digits; what is printed with `f` is the number rounded to the
places asked for.
-/

namespace UnixV7.Stdio

open Libc
open Libc.Atof (Decimal Signs)
open Libc.Ecvt (Double Rounded)

/-- What `cvt` takes of a `double`: whether it is below zero, and what `frexp` makes of it unless it
is zero. -/
structure Number where
  neg : Bool
  parts : Option (ℕ × ℤ)

namespace Number

/-- The number of a double word. What is not at most the largest number is taken for that one. -/
def ofBits (x : BitVec 64) : Number :=
  let exponent : ℕ := x.toNat / 2 ^ 52 % 2 ^ 11
  let fraction : ℕ := x.toNat % 2 ^ 52
  if exponent = 2047 then ⟨x.msb && fraction = 0, some (2 ^ 53 - 1, 971)⟩
  else if exponent ≠ 0 then ⟨x.msb, some (2 ^ 52 + fraction, exponent - 1075)⟩
  else if fraction = 0 then ⟨false, none⟩
  else ⟨x.msb, some (fraction * 2 ^ (53 - fraction.size), fraction.size - 1127)⟩

/-- The number without its sign. -/
def magnitude (x : Number) : ℚ := x.parts.elim 0 fun (m, e) => m * 2 ^ e

/-- The digits, the point and the sign that `ecvt` gives, or `fcvt` if `eflag` is not set. -/
def cvt (x : Number) (ndigits : ℤ) (eflag : Bool) : Option (List Char × ℤ × Bool) :=
  match x.parts with
  | none => some (List.replicate (min ndigits (Ecvt.NDIG - 2)).toNat '0', 0, x.neg)
  | some (m, e) =>
      (Ecvt.cvt m e ndigits eflag).map fun (text, decpt) => (text, decpt, x.neg)

end Number

/-- `if (sign) *p++ = '-'` -/
def minus (sign : Bool) : List Char := if sign then ['-'] else []

/-- The exponent that the conversion `e` puts behind the digits. -/
def exponentText (decpt : ℤ) : List Char :=
  let sgn := if decpt - 1 < 0 then '-' else '+'
  let n := (decpt - 1).natAbs
  let hundreds := if 100 ≤ n then [Ecvt.char (n / 100)] else []
  let n := if 100 ≤ n then n % 100 else n
  'e' :: sgn :: (hundreds ++ [Ecvt.char (n / 10), Ecvt.char (n % 10)])

/-- The conversion `e`, unless the digits of `ecvt` end too early. -/
def eText (x : Number) (ndigit : ℤ) : Option (List Char) := do
  let (s, decpt, sign) ← x.cvt (ndigit + 1) true
  match s with
  | [] => none
  | c :: s =>
      if s.length < ndigit then none
      else
        let decpt := if c = '0' then decpt + 1 else decpt
        some (minus sign ++ c :: '.' :: (s.take ndigit.toNat ++ exponentText decpt))

/-- The loop for the digits before the point, and what it leaves of them. -/
def wholeLoop : ℕ → List Char → List Char × List Char
  | 0, s => ([], s)
  | n + 1, [] => ('0' :: (wholeLoop n []).1, [])
  | n + 1, c :: s => (c :: (wholeLoop n s).1, (wholeLoop n s).2)

/-- The loop for the digits behind the point. -/
def fracLoop : ℕ → ℤ → List Char → List Char
  | 0, _, _ => []
  | n + 1, decpt, [] => '0' :: fracLoop n (decpt + 1) []
  | n + 1, decpt, c :: s =>
      if decpt < 0 then '0' :: fracLoop n (decpt + 1) (c :: s) else c :: fracLoop n (decpt + 1) s

/-- The conversion `f`. -/
def fText (x : Number) (ndigit : ℤ) : Option (List Char) := do
  let (s, decpt, sign) ← x.cvt ndigit false
  let (whole, s) := wholeLoop decpt.toNat s
  some (minus sign ++ (if decpt ≤ 0 then ['0'] else []) ++ whole ++
    (if ndigit ≠ 0 then ['.'] else []) ++ fracLoop ndigit.toNat decpt s)

/-- What `atof` returns, without its sign, and the sign. -/
def readValue : Atof.Result → Option ℚ
  | .zero _ => some 0
  | .huge _ => none
  | .ldexp _ m e => some (m * 2 ^ e)

def readSign : Atof.Result → Bool
  | .zero neg => neg
  | .huge neg => neg
  | .ldexp neg _ _ => neg

/-- The texts of the conversions of floating numbers, that of `g` being given. -/
def real (gcvt : ℤ → BitVec 64 → List Char) (c : Char) (ndigit : ℤ) (x : BitVec 64) : List Char :=
  match c with
  | 'e' => (eText (.ofBits x) ndigit).getD []
  | 'f' => (fText (.ofBits x) ndigit).getD []
  | _ => gcvt ndigit x

variable {m n k : ℕ} {e r decpt : ℤ} {s text ds : List Char} {c : Char} {x : Number}

/-! ## The number of a double word -/

/-- The parts are those of a finite number of the format. -/
theorem Number.ofBits_double (x : BitVec 64) (parts : (ofBits x).parts = some (m, e)) :
    Double m e ∧ Representable 53 (-1074) ((m : ℚ) * 2 ^ e) := by
  have exponent : x.toNat / 2 ^ 52 % 2 ^ 11 < 2 ^ 11 := Nat.mod_lt _ (by decide)
  have fraction : x.toNat % 2 ^ 52 < 2 ^ 52 := Nat.mod_lt _ (by decide)
  rw [ofBits] at parts
  generalize x.toNat / 2 ^ 52 % 2 ^ 11 = exp at exponent parts
  generalize x.toNat % 2 ^ 52 = frac at fraction parts
  split at parts
  · obtain ⟨rfl, rfl⟩ := Prod.mk.inj (Option.some.inj parts)
    exact ⟨⟨by decide, by decide, by decide, le_rfl⟩,
      ⟨2 ^ 53 - 1, 971, by decide, by decide, by norm_num⟩⟩
  next finite =>
    split at parts
    next normal =>
      obtain ⟨rfl, rfl⟩ := Prod.mk.inj (Option.some.inj parts)
      refine ⟨⟨Nat.le_add_right _ _, by omega, by omega, by omega⟩,
        ⟨(2 ^ 52 + frac : ℕ), exp - 1075, ?_, by omega, by push_cast; rfl⟩⟩
      rw [Nat.abs_cast]
      exact_mod_cast (by omega : 2 ^ 52 + frac ≤ 2 ^ 53)
    next small =>
      split at parts
      · cases parts
      next some' =>
        obtain ⟨rfl, rfl⟩ := Prod.mk.inj (Option.some.inj parts)
        have size : frac.size ≤ 52 := Nat.size_le.mpr fraction
        have positive : 0 < frac.size := Nat.size_pos.mpr (Nat.pos_of_ne_zero some')
        have above : 2 ^ (frac.size - 1) ≤ frac := Nat.lt_size.mp (by omega)
        have below : frac < 2 ^ frac.size := Nat.lt_size_self frac
        refine ⟨⟨?_, ?_, by omega, by omega⟩, ⟨frac, -1074, ?_, le_rfl, ?_⟩⟩
        · calc 2 ^ 52 = 2 ^ (frac.size - 1) * 2 ^ (53 - frac.size) := by
                rw [← pow_add]
                congr 1
                omega
            _ ≤ frac * 2 ^ (53 - frac.size) := Nat.mul_le_mul_right _ above
        · calc frac * 2 ^ (53 - frac.size) < 2 ^ frac.size * 2 ^ (53 - frac.size) :=
                Nat.mul_lt_mul_of_pos_right below (by positivity)
            _ = 2 ^ 53 := by
                rw [← pow_add]
                congr 1
                omega
        · rw [Nat.abs_cast]
          exact_mod_cast (by omega : frac ≤ 2 ^ 53)
        · rw [Nat.cast_mul, Nat.cast_pow, mul_assoc, Nat.cast_ofNat, ← zpow_natCast,
            ← zpow_add₀ two_ne_zero, Int.cast_natCast]
          congr 2
          omega

/-- What is in the exponent field is not the mark of an infinity. -/
def Finite (x : BitVec 64) : Prop := x.toNat / 2 ^ 52 % 2 ^ 11 ≠ 2047

instance : DecidablePred Finite := fun x =>
  inferInstanceAs (Decidable (x.toNat / 2 ^ 52 % 2 ^ 11 ≠ 2047))

/-- The sign of a finite word is its upper bit, and its parts give the other bits. -/
theorem Number.ofBits_finite {x : BitVec 64} (finite : Finite x)
    (parts : (ofBits x).parts = some (m, e)) :
    (ofBits x).neg = x.msb ∧
      x.toNat % 2 ^ 63 = if -1074 ≤ e then (e + 1075).toNat * 2 ^ 52 + (m - 2 ^ 52)
        else m / 2 ^ (-1074 - e).toNat := by
  have fields : x.toNat % 2 ^ 63 = x.toNat / 2 ^ 52 % 2 ^ 11 * 2 ^ 52 + x.toNat % 2 ^ 52 := by
    omega
  have fraction : x.toNat % 2 ^ 52 < 2 ^ 52 := Nat.mod_lt _ (by decide)
  rw [Finite] at finite
  rw [fields]
  rw [ofBits] at parts ⊢
  generalize x.toNat / 2 ^ 52 % 2 ^ 11 = exp at finite parts ⊢
  generalize x.toNat % 2 ^ 52 = frac at fraction parts ⊢
  rw [if_neg finite] at parts ⊢
  by_cases normal : exp ≠ 0
  · rw [if_pos normal] at parts ⊢
    obtain ⟨rfl, rfl⟩ := Prod.mk.inj (Option.some.inj parts)
    rw [if_pos (by omega)]
    exact ⟨rfl, by omega⟩
  · rw [if_neg normal] at parts ⊢
    by_cases none' : frac = 0
    · rw [if_pos none'] at parts
      cases parts
    · rw [if_neg none'] at parts ⊢
      obtain ⟨rfl, rfl⟩ := Prod.mk.inj (Option.some.inj parts)
      have size : frac.size ≤ 52 := Nat.size_le.mpr fraction
      have shift : (-1074 - ((frac.size : ℤ) - 1127)).toNat = 53 - frac.size := by omega
      rw [if_neg (by omega), shift, Nat.mul_div_cancel _ (by positivity)]
      exact ⟨rfl, by omega⟩

/-- A word of a number other than zero has parts. -/
theorem Number.exists_parts {x : BitVec 64} (some' : x.toNat % 2 ^ 63 ≠ 0) :
    ∃ m e, (ofBits x).parts = some (m, e) := by
  rw [ofBits]
  by_cases mark : x.toNat / 2 ^ 52 % 2 ^ 11 = 2047
  · rw [if_pos mark]
    exact ⟨_, _, rfl⟩
  · rw [if_neg mark]
    by_cases normal : x.toNat / 2 ^ 52 % 2 ^ 11 ≠ 0
    · rw [if_pos normal]
      exact ⟨_, _, rfl⟩
    · rw [if_neg normal, if_neg (by omega)]
      exact ⟨_, _, rfl⟩

/-- Of two numbers the one with the larger exponent is the larger one. -/
theorem magnitude_lt {m' : ℕ} {e' : ℤ} (double : Double m e) (double' : Double m' e')
    (less : e < e') : (m : ℚ) * 2 ^ e < m' * 2 ^ e' := by
  have high : (m : ℚ) < 2 ^ 53 := by exact_mod_cast double.high
  have low : (2 ^ 52 : ℚ) ≤ m' := by exact_mod_cast double'.low
  calc (m : ℚ) * 2 ^ e < 2 ^ 53 * 2 ^ e := mul_lt_mul_of_pos_right high (by positivity)
    _ = 2 ^ 52 * 2 ^ (e + 1) := by
        rw [zpow_add_one₀ two_ne_zero]
        ring
    _ ≤ m' * 2 ^ e' := by
        refine mul_le_mul low ?_ (by positivity) (by positivity)
        exact zpow_le_zpow_right₀ one_le_two less

/-- The significand and the exponent of a number are its own. -/
theorem magnitude_unique {m' : ℕ} {e' : ℤ} (double : Double m e) (double' : Double m' e')
    (same : (m : ℚ) * 2 ^ e = m' * 2 ^ e') : m = m' ∧ e = e' := by
  have exponents : e = e' := by
    rcases lt_trichotomy e e' with less | equal | more
    · exact absurd same (magnitude_lt double double' less).ne
    · exact equal
    · exact absurd same (magnitude_lt double' double more).ne'
  subst exponents
  exact ⟨by exact_mod_cast mul_right_cancel₀ (zpow_ne_zero e two_ne_zero) same, rfl⟩

/-- Finite words of one sign and one magnitude other than zero are equal. -/
theorem Number.ofBits_injective {x y : BitVec 64} (finite : Finite x)
    (some' : x.toNat % 2 ^ 63 ≠ 0) (finite' : Finite y) (sign : (ofBits x).neg = (ofBits y).neg)
    (value : (ofBits x).magnitude = (ofBits y).magnitude) : x = y := by
  obtain ⟨m, e, parts⟩ := exists_parts some'
  obtain ⟨double, -⟩ := ofBits_double x parts
  have positive : (0 : ℚ) < m * 2 ^ e := by
    have low : 0 < m := lt_of_lt_of_le (by decide) double.low
    positivity
  rw [magnitude, magnitude, parts, Option.elim_some] at value
  cases parts' : (ofBits y).parts with
  | none =>
      rw [parts'] at value
      exact absurd value positive.ne'
  | some both =>
      obtain ⟨m', e'⟩ := both
      rw [parts'] at value
      obtain ⟨rfl, rfl⟩ := magnitude_unique double (ofBits_double y parts').1 value
      obtain ⟨upper, lower⟩ := ofBits_finite finite parts
      obtain ⟨upper', lower'⟩ := ofBits_finite finite' parts'
      have msb : x.msb = y.msb := upper.symm.trans (sign.trans upper')
      have rest : x.toNat % 2 ^ 63 = y.toNat % 2 ^ 63 := lower.trans lower'.symm
      rw [BitVec.msb_eq_decide, BitVec.msb_eq_decide, decide_eq_decide] at msb
      refine BitVec.eq_of_toNat_eq ?_
      have below := x.isLt
      have below' := y.isLt
      omega

/-! ## Digits -/

theorem numeral_lt (plain : ∀ c ∈ ds, isdigit c) : numeral 10 0 ds < 10 ^ ds.length := by
  induction ds using List.reverseRecOn with
  | nil => exact Nat.one_pos
  | append_singleton ds c ih =>
      have digit := plain c (List.mem_append_right _ (List.mem_singleton_self c))
      obtain ⟨d, small, rfl⟩ := Ecvt.char_eq digit
      have rest := ih fun c mem => plain c (List.mem_append_left _ mem)
      rw [Ecvt.numeral_append_one, (Ecvt.char_spec small).2, List.length_append,
        List.length_singleton, pow_succ]
      omega

/-- Zeros before a number do not count. -/
theorem numeral_zeros_append (k : ℕ) (ds : List Char) :
    numeral 10 0 (List.replicate k '0' ++ ds) = numeral 10 0 ds := by
  induction k with
  | zero => rfl
  | succ k ih =>
      rw [List.replicate_succ, List.cons_append]
      exact ih

theorem numeral_one_zeros (k : ℕ) : numeral 10 0 ('1' :: List.replicate k '0') = 10 ^ k := by
  induction k with
  | zero => rfl
  | succ k ih =>
      rw [List.replicate_succ', ← List.cons_append, Ecvt.numeral_append_one, ih, pow_succ]
      rfl

theorem isdigit_replicate (k : ℕ) : ∀ c ∈ List.replicate k '0', isdigit c := by
  intro c mem
  rw [List.eq_of_mem_replicate mem]
  rfl

/-- What is kept of a number is as near to it as its last place allows. -/
theorem Rounded.close {y : ℚ} (rounded : Rounded y r k true s decpt) (some : 0 < k) :
    s.length = k ∧ (∀ c ∈ s, isdigit c) ∧
      2 * |y - numeral 10 0 s * 10 ^ (decpt - k)| ≤ 10 ^ (r - k) := by
  have unit : (0 : ℚ) < 10 ^ (r - k) := zpow_pos (by norm_num) _
  have near : ∀ n : ℤ, RoundsEven (y / 10 ^ (r - k)) n →
      2 * |y - n * 10 ^ (r - k)| ≤ 10 ^ (r - k) := by
    intro n rounds
    have scale : |y - n * 10 ^ (r - k)| = |y / 10 ^ (r - k) - n| * 10 ^ (r - k) := by
      rw [← abs_of_pos unit, ← abs_mul, abs_of_pos unit, sub_mul, div_mul_cancel₀ _ unit.ne']
    rw [scale, ← mul_assoc]
    exact mul_le_of_le_one_left unit.le rounds.near
  cases rounded with
  | none negative => omega
  | kept s length plain rounds =>
      exact ⟨by exact_mod_cast length, plain, by simpa using near _ rounds⟩
  | carried n places rounds =>
      obtain ⟨n, rfl⟩ : ∃ i, n = i + 1 := ⟨n - 1, by omega⟩
      refine ⟨?_, List.forall_mem_cons.mpr ⟨rfl, isdigit_replicate _⟩, ?_⟩
      · rw [List.length_cons, if_pos rfl, List.length_replicate]
        omega
      · have value := near _ rounds
        have scale : (10 : ℚ) ^ (r + 1 - k) = 10 * 10 ^ (r - k) := by
          rw [show r + 1 - k = 1 + (r - k) by omega, zpow_add₀ (by norm_num), zpow_one]
        rw [if_pos rfl, Nat.add_sub_cancel, numeral_one_zeros, scale]
        push_cast at value ⊢
        rwa [pow_succ, mul_assoc] at value

/-- The first digit of a number with all its places is not zero. -/
theorem head_ne_zero (full : 10 ^ ds.length ≤ numeral 10 0 (c :: ds))
    (plain : ∀ c ∈ ds, isdigit c) : c ≠ '0' := by
  rintro rfl
  have less := numeral_lt plain
  have same : numeral 10 0 ('0' :: ds) = numeral 10 0 ds := numeral_zeros_append 1 ds
  omega

/-! ## The conversion `e` -/

/-- The sign of an exponent, and its digits. -/
theorem exponentText_spec (near : (decpt - 1).natAbs < 1000) :
    ∃ sgn ds, exponentText decpt = 'e' :: (sgn ++ ds) ∧ Signs sgn ∧ (∀ c ∈ ds, isdigit c) ∧
      ds.length ≤ 3 ∧
      (if sgn = ['-'] then -(numeral 10 0 ds : ℤ) else numeral 10 0 ds) = decpt - 1 := by
  have last : ∀ k < 10, isdigit (Ecvt.char k) ∧ digitVal (Ecvt.char k) = k :=
    fun k small => Ecvt.char_spec small
  obtain ⟨ds, text, plain, short, value⟩ : ∃ ds, exponentText decpt =
      'e' :: ([if decpt - 1 < 0 then '-' else '+'] ++ ds) ∧ (∀ c ∈ ds, isdigit c) ∧
        ds.length ≤ 3 ∧ numeral 10 0 ds = (decpt - 1).natAbs := by
    rw [exponentText]
    generalize (decpt - 1).natAbs = n at near ⊢
    by_cases large : 100 ≤ n
    · have first := last (n / 100) (by omega)
      have second := last (n % 100 / 10) (by omega)
      have third := last (n % 100 % 10) (by omega)
      refine ⟨[Ecvt.char (n / 100), Ecvt.char (n % 100 / 10), Ecvt.char (n % 100 % 10)], ?_, ?_,
        le_rfl, ?_⟩
      · rw [if_pos large, if_pos large]
        rfl
      · simp only [List.forall_mem_cons, first.1, second.1, third.1, true_and]
        exact List.forall_mem_nil _
      · show ((0 * 10 + digitVal _) * 10 + digitVal _) * 10 + digitVal _ = n
        rw [first.2, second.2, third.2]
        omega
    · have second := last (n / 10) (by omega)
      have third := last (n % 10) (by omega)
      refine ⟨[Ecvt.char (n / 10), Ecvt.char (n % 10)], ?_, ?_, Nat.le_succ 2, ?_⟩
      · rw [if_neg large, if_neg large]
        rfl
      · simp only [List.forall_mem_cons, second.1, third.1, true_and]
        exact List.forall_mem_nil _
      · show (0 * 10 + digitVal _) * 10 + digitVal _ = n
        rw [second.2, third.2]
        omega
  refine ⟨_, ds, text, ?_, plain, short, ?_⟩
  · split
    · exact .inr (.inl rfl)
    · exact .inr (.inr rfl)
  · rw [value]
    by_cases negative : decpt - 1 < 0
    · rw [if_pos (by rw [if_pos negative])]
      omega
    · rw [if_neg (by rw [if_neg negative]; decide)]
      omega

/-- The digits of a number other than zero that are printed with `e`. -/
theorem eText_spec (neg : Bool) (double : Double m e)
    (place : (10 : ℚ) ^ (r - 1) ≤ m * 2 ^ e ∧ (m : ℚ) * 2 ^ e < 10 ^ r) (few : k ≤ 70) :
    ∃ d ds decpt, eText ⟨neg, some (m, e)⟩ k =
        some (minus neg ++ d :: '.' :: (ds ++ exponentText decpt)) ∧
      isdigit d ∧ (∀ c ∈ ds, isdigit c) ∧ ds.length = k ∧ r ≤ decpt ∧ decpt ≤ r + 1 ∧
      2 * |(m : ℚ) * 2 ^ e - numeral 10 0 (d :: ds) * 10 ^ (decpt - 1 - k)| ≤
        10 ^ (r - 1 - k) := by
  obtain ⟨text, decpt, converted, rounded⟩ := Ecvt.cvt_spec double place
    (show (0 : ℤ) ≤ k + 1 by omega) (by omega) true (by rw [if_pos rfl]; omega)
  rw [if_pos rfl] at rounded
  obtain ⟨length, plain, near⟩ := Rounded.close (k := k + 1) (by exact_mod_cast rounded) (by omega)
  obtain ⟨d, ds, rfl⟩ : ∃ d ds, text = d :: ds := List.exists_cons_of_length_eq_add_one length
  obtain ⟨digit, plain⟩ := List.forall_mem_cons.mp plain
  have size : ds.length = k := Nat.succ.inj length
  have first : d ≠ '0' := by
    cases rounded with
    | kept _ _ _ rounds =>
        have full : ((10 ^ k : ℤ) : ℚ) ≤ (m : ℚ) * 2 ^ e / 10 ^ (r - (k + 1)) := by
          rw [le_div_iff₀ (zpow_pos (by norm_num) _)]
          push_cast
          rw [← zpow_natCast, ← zpow_add₀ (by norm_num),
            show (k : ℤ) + (r - (k + 1)) = r - 1 by omega]
          exact place.1
        have kept := rounds.le_of_le full
        exact head_ne_zero (by rw [size]; exact_mod_cast kept) plain
    | carried => decide
  have between : r ≤ decpt ∧ decpt ≤ r + 1 := by
    cases rounded <;> omega
  refine ⟨d, ds, decpt, ?_, digit, plain, size, between.1, between.2, ?_⟩
  · rw [eText]
    have enough : ¬((ds.length : ℤ) < k) := by omega
    have whole : ds.take (k : ℤ).toNat = ds := by
      rw [Int.toNat_natCast, ← size, List.take_length]
    simp only [Number.cvt, converted, Option.map_some, Option.bind_eq_bind, Option.bind_some]
    rw [if_neg enough, if_neg first, whole]
  · push_cast at near
    rwa [sub_add_eq_sub_sub_swap, sub_add_eq_sub_sub_swap] at near

/-- What `atof` makes of digits with an exponent. -/
theorem atof_eText (neg : Bool) (decpt : ℤ) (digit : isdigit c) (plain : ∀ c ∈ ds, isdigit c)
    (near : (decpt - 1).natAbs < 1000) :
    ∃ result, Atof.atof (minus neg ++ c :: '.' :: (ds ++ exponentText decpt)) = some result ∧
      Atof.Correct (numeral 10 0 (c :: ds) * 10 ^ (decpt - 1 - ds.length)) neg result := by
  obtain ⟨sgn, xs, text, signs, digits, short, value⟩ := exponentText_spec near
  let a : Decimal := ⟨minus neg, [c], some ds, some ('e', sgn, xs)⟩
  have exp : ∀ x ∈ a.exp, x = ('e', sgn, xs) := fun x mem => (Option.some.inj mem).symm
  have signed : Signs (minus neg) := by
    cases neg
    · exact .inl rfl
    · exact .inr (.inl rfl)
  have proper : a.Proper := by
    refine ⟨signed, List.forall_mem_singleton.mpr digit, ?_, ?_, ?_, ?_, ?_⟩
    · intro f mem
      obtain rfl := Option.some.inj mem
      exact plain
    all_goals
      intro x mem
      obtain rfl := exp x mem
    · exact .inr rfl
    · exact signs
    · exact digits
    · exact short.trans (by decide)
  obtain ⟨s, n, t, read, mantissa⟩ := Atof.mantissa_text proper
  obtain ⟨s', result, marked, run, correct⟩ := Atof.value_correct read neg a.exponent
  have exponent : a.exponent = decpt - 1 := value
  have after := Atof.exponent_text proper
  have sign := Atof.sign_text signed (c :: '.' :: (ds ++ exponentText decpt)) fun d mem => by
    obtain rfl := Option.some.inj mem
    constructor <;> (rintro rfl; exact absurd digit (by decide))
  have blank : c ≠ ' ' := by
    rintro rfl
    exact absurd digit (by decide)
  have text' : a.expText = exponentText decpt := text.symm
  have parts : [c] ++ (a.fracText ++ a.expText) = c :: '.' :: (ds ++ exponentText decpt) := by
    rw [text']
    rfl
  refine ⟨result, ?_, ?_⟩
  · have start : (minus neg ++ c :: '.' :: (ds ++ exponentText decpt)).dropWhile (· = ' ') =
        minus neg ++ c :: '.' :: (ds ++ exponentText decpt) := by
      cases neg
      · exact List.dropWhile_cons_of_neg (by simpa using blank)
      · exact List.dropWhile_cons_of_neg (by decide)
    have flag : decide (minus neg = ['-']) = neg := by cases neg <;> rfl
    have read' : Atof.mantissa (c :: '.' :: (ds ++ exponentText decpt)) = _ := parts ▸ mantissa
    rw [Atof.atof, start, sign, flag]
    change (Atof.mantissa _ >>= _) = _
    rw [read', marked]
    change Atof.value neg s' (s'.dexp + Atof.exponent a.expText) = _
    rw [after]
    exact run
  · rw [exponent] at correct
    exact correct

theorem two_pow_top : (2 : ℚ) ^ 1024 = 2 ^ 53 * 2 ^ (971 : ℤ) :=
  calc (2 : ℚ) ^ 1024 = 2 ^ ((1024 : ℕ) : ℤ) := (zpow_natCast 2 1024).symm
    _ = 2 ^ ((53 : ℕ) : ℤ) * 2 ^ (971 : ℤ) := by
        rw [← zpow_add₀ two_ne_zero]
        rfl
    _ = 2 ^ 53 * 2 ^ (971 : ℤ) := by rw [zpow_natCast]

/-- The largest number. -/
theorem magnitude_le (double : Double m e) : (m : ℚ) * 2 ^ e ≤ (2 ^ 53 - 1) * 2 ^ (971 : ℤ) := by
  have high : (m : ℚ) + 1 ≤ 2 ^ 53 := by exact_mod_cast double.high
  calc (m : ℚ) * 2 ^ e ≤ (2 ^ 53 - 1) * 2 ^ e :=
        mul_le_mul_of_nonneg_right (by linarith) (zpow_pos two_pos e).le
    _ ≤ (2 ^ 53 - 1) * 2 ^ (971 : ℤ) :=
        mul_le_mul_of_nonneg_left (zpow_le_zpow_right₀ one_le_two double.most) (by norm_num)

/-- A number other than zero is at some place. -/
theorem exists_place (double : Double m e) :
    ∃ r : ℤ, (10 : ℚ) ^ (r - 1) ≤ m * 2 ^ e ∧ (m : ℚ) * 2 ^ e < 10 ^ r ∧ -330 ≤ r ∧ r ≤ 310 := by
  have low : (2 : ℚ) ^ 52 ≤ m := by exact_mod_cast double.low
  have some' : (0 : ℚ) < m := (show (0 : ℚ) < 2 ^ 52 by norm_num).trans_le low
  have positive : (0 : ℚ) < m * 2 ^ e := mul_pos some' (zpow_pos two_pos e)
  obtain ⟨r, above, below⟩ := exists_mem_Ico_zpow positive (show (1 : ℚ) < 10 by norm_num)
  refine ⟨r + 1, by rwa [add_sub_cancel_right], below, ?_, ?_⟩
  · by_contra small
    have bound := Atof.ten_zpow_lt (r + 1) (by omega)
    have least : (2 : ℚ) ^ (-1074 : ℤ) ≤ m * 2 ^ e :=
      calc (2 : ℚ) ^ (-1074 : ℤ) = 2 ^ 52 * 2 ^ (-1126 : ℤ) := by
            rw [← zpow_natCast, ← zpow_add₀ two_ne_zero]
            rfl
        _ ≤ m * 2 ^ e := mul_le_mul low (zpow_le_zpow_right₀ one_le_two double.least)
            (zpow_pos two_pos _).le (Nat.cast_nonneg m)
    have step : (2 : ℚ) ^ (-1075 : ℤ) ≤ 2 ^ (-1074 : ℤ) :=
      zpow_le_zpow_right₀ one_le_two (by decide)
    linarith
  · by_contra large
    have bound := Atof.two_pow_le r (by omega)
    have most : (m : ℚ) * 2 ^ e < 2 ^ 1024 := by
      rw [two_pow_top]
      refine (magnitude_le double).trans_lt ?_
      exact mul_lt_mul_of_pos_right (by norm_num) (zpow_pos two_pos _)
    exact absurd (bound.trans above) (not_le.mpr most)

/-- With 17 digits what is printed with `e` is read as the number it was. -/
theorem atof_printed (neg : Bool) (double : Double m e)
    (rep : Representable 53 (-1074) ((m : ℚ) * 2 ^ e)) (many : 16 ≤ k) (few : k ≤ 70) :
    ∃ text p q, eText ⟨neg, some (m, e)⟩ k = some text ∧
      Atof.atof text = some (.ldexp neg p q) ∧ (p : ℚ) * 2 ^ q = m * 2 ^ e := by
  obtain ⟨r, low, high, least, most⟩ := exists_place double
  obtain ⟨d, ds, decpt, printed, digit, plain, size, from_r, to_r, near⟩ :=
    eText_spec neg double ⟨low, high⟩ few
  obtain ⟨result, read, correct⟩ := atof_eText neg decpt digit plain (by omega)
  rw [size] at correct
  generalize value : (numeral 10 0 (d :: ds) : ℚ) * 10 ^ (decpt - 1 - k) = y at near correct
  have unit : (0 : ℚ) < 10 ^ (r - 1 - k) := zpow_pos (by norm_num) _
  have close : 2 * |y - m * 2 ^ e| * 2 ^ 53 < m * 2 ^ e :=
    calc 2 * |y - m * 2 ^ e| * 2 ^ 53 ≤ 10 ^ (r - 1 - k) * 2 ^ 53 := by
          rw [abs_sub_comm]
          exact mul_le_mul_of_nonneg_right near (by norm_num)
      _ < 10 ^ (r - 1 - k) * 10 ^ (16 : ℤ) := mul_lt_mul_of_pos_left (by norm_num) unit
      _ = 10 ^ (r - 1 - k + 16) := (zpow_add₀ (by norm_num) _ _).symm
      _ ≤ 10 ^ (r - 1) := zpow_le_zpow_right₀ (by norm_num) (by omega)
      _ ≤ m * 2 ^ e := low
  have positive : (0 : ℚ) < m * 2 ^ e := (zpow_pos (by norm_num) _).trans_le low
  have found : ∀ p q : ℤ, Nearest 53 (-1074) y p q → (p : ℚ) * 2 ^ q = m * 2 ^ e := by
    intro p q nearest
    exact nearest.eq_of_close (m := m) (by decide) (by exact_mod_cast rep)
      (by exact_mod_cast double.low) (by exact_mod_cast double.high.le) (by exact_mod_cast close)
  cases result with
  | zero neg' =>
      have none := found 0 (-1074) correct.2
      rw [Int.cast_zero, zero_mul] at none
      exact absurd none positive.ne
  | huge neg' =>
      have large : (2 : ℚ) ^ 53 * 2 ^ (971 : ℤ) ≤ y := two_pow_top ▸ correct.2
      have small := magnitude_le double
      have away := (le_abs_self (y - m * 2 ^ e))
      have last : (0 : ℚ) < 2 ^ (971 : ℤ) := zpow_pos two_pos _
      generalize (2 : ℚ) ^ (971 : ℤ) = u at large small last
      norm_num at close large small
      linarith
  | ldexp neg' p q =>
      obtain ⟨rfl, nearest⟩ := correct
      exact ⟨_, p, q, printed, read, by exact_mod_cast found p q nearest⟩

/-! ## The conversion `f` -/

theorem fracLoop_nil (n : ℕ) (decpt : ℤ) : fracLoop n decpt [] = List.replicate n '0' := by
  induction n generalizing decpt with
  | zero => rfl
  | succ n ih => rw [fracLoop, ih, List.replicate_succ]

/-- Behind the zeros the digits follow as they are. -/
theorem fracLoop_digits (some : 0 ≤ decpt) : fracLoop s.length decpt s = s := by
  induction s generalizing decpt with
  | nil => rfl
  | cons c s ih => rw [List.length_cons, fracLoop, if_neg (by omega), ih (by omega)]

theorem fracLoop_zeros (z : ℕ) (s : List Char) :
    fracLoop (z + s.length) (-z) s = List.replicate z '0' ++ s := by
  induction z with
  | zero => rw [Nat.zero_add]; exact fracLoop_digits le_rfl
  | succ z ih =>
      cases s with
      | nil => rw [fracLoop_nil, List.append_nil]; rfl
      | cons c s =>
          rw [show z + 1 + (c :: s).length = z + (c :: s).length + 1 by omega, fracLoop,
            if_pos (by omega), show -((z + 1 : ℕ) : ℤ) + 1 = -z by omega, ih]
          rfl

theorem wholeLoop_digits (within : n ≤ s.length) : wholeLoop n s = (s.take n, s.drop n) := by
  induction n generalizing s with
  | zero => rfl
  | succ n ih =>
      cases s with
      | nil => exact absurd within (Nat.not_succ_le_zero n)
      | cons c s =>
          rw [wholeLoop, ih (Nat.le_of_succ_le_succ within)]
          rfl

/-- The digits of `fcvt` around the point, with the zeros that they do not have. -/
theorem fText_layout (plain : ∀ c ∈ s, isdigit c)
    (length : (s.length : ℤ) = k + decpt ∨ s = [] ∧ decpt ≤ 0) :
    ∃ whole frac, (if decpt ≤ 0 then ['0'] else []) ++ (wholeLoop decpt.toNat s).1 = whole ∧
      fracLoop k decpt (wholeLoop decpt.toNat s).2 = frac ∧ whole ≠ [] ∧ frac.length = k ∧
      (∀ c ∈ whole ++ frac, isdigit c) ∧ numeral 10 0 (whole ++ frac) = numeral 10 0 s := by
  refine ⟨_, _, rfl, rfl, ?_⟩
  by_cases below : decpt ≤ 0
  · have frac : fracLoop k decpt s = List.replicate (k - s.length) '0' ++ s := by
      obtain length | ⟨rfl, -⟩ := length
      · have zeros := fracLoop_zeros (k - s.length) s
        rwa [show k - s.length + s.length = k by omega,
          show -((k - s.length : ℕ) : ℤ) = decpt by omega] at zeros
      · rw [fracLoop_nil, List.append_nil]
        rfl
    have short : s.length ≤ k := by
      obtain length | ⟨rfl, -⟩ := length
      · omega
      · exact Nat.zero_le k
    rw [Int.toNat_of_nonpos below, wholeLoop, if_pos below, List.append_nil, frac,
      List.singleton_append]
    refine ⟨List.cons_ne_nil _ _, ?_, ?_, ?_⟩
    · rw [List.length_append, List.length_replicate, Nat.sub_add_cancel short]
    · refine List.forall_mem_cons.mpr ⟨rfl, fun c mem => ?_⟩
      obtain mem | mem := List.mem_append.mp mem
      · exact isdigit_replicate _ c mem
      · exact plain c mem
    · show numeral 10 0 (List.replicate 1 '0' ++ (List.replicate (k - s.length) '0' ++ s)) = _
      rw [numeral_zeros_append, numeral_zeros_append]
  · obtain ⟨n, rfl⟩ := Int.eq_ofNat_of_zero_le (by omega : 0 ≤ decpt)
    have size : s.length = k + n := by
      obtain length | ⟨-, none⟩ := length <;> omega
    have rest : (s.drop n).length = k := by
      rw [List.length_drop]
      omega
    have frac : fracLoop k n (s.drop n) = s.drop n := by
      have digits := fracLoop_digits (s := s.drop n) (Int.natCast_nonneg n)
      rwa [rest] at digits
    rw [Int.toNat_natCast, wholeLoop_digits (by omega), if_neg below, List.nil_append, frac,
      List.take_append_drop]
    refine ⟨?_, rest, plain, rfl⟩
    rw [← List.length_pos_iff, List.length_take]
    omega

/-- What is printed with `f` is the number rounded to the places asked for, if it has not too many
before them. -/
theorem fText_rounded (neg : Bool) (double : Double m e) (few : k ≤ 70)
    (room : (m : ℚ) * 2 ^ e * 10 ^ k < 10 ^ 78) :
    ∃ whole frac, fText ⟨neg, some (m, e)⟩ k =
        some (minus neg ++ whole ++ (if (k : ℤ) ≠ 0 then ['.'] else []) ++ frac) ∧
      whole ≠ [] ∧ frac.length = k ∧ (∀ c ∈ whole ++ frac, isdigit c) ∧
      RoundsEven ((m : ℚ) * 2 ^ e * 10 ^ k) (numeral 10 0 (whole ++ frac)) := by
  obtain ⟨r, low, high, -, -⟩ := exists_place double
  have places : k + r ≤ 78 := by
    have below : (10 : ℚ) ^ (r - 1 + k) < 10 ^ (78 : ℤ) :=
      calc (10 : ℚ) ^ (r - 1 + k) = 10 ^ (r - 1) * 10 ^ k := by
            rw [zpow_add₀ (by norm_num), zpow_natCast]
        _ ≤ m * 2 ^ e * 10 ^ k := mul_le_mul_of_nonneg_right low (by positivity)
        _ < 10 ^ 78 := room
        _ = 10 ^ (78 : ℤ) := (zpow_natCast 10 78).symm
    have less := (zpow_lt_zpow_iff_right₀ (by norm_num)).mp below
    omega
  obtain ⟨text, decpt, converted, rounded⟩ := Ecvt.cvt_spec double ⟨low, high⟩
    (Int.natCast_nonneg k) (by omega) false (by rw [if_neg Bool.false_ne_true]; exact places)
  rw [if_neg Bool.false_ne_true] at rounded
  have scale : (m : ℚ) * 2 ^ e / 10 ^ (r - (k + r)) = m * 2 ^ e * 10 ^ k := by
    rw [show r - (k + r) = -(k : ℤ) by omega, zpow_neg, zpow_natCast, div_inv_eq_mul]
  obtain ⟨plain, length, rounds⟩ : (∀ c ∈ text, isdigit c) ∧
      ((text.length : ℤ) = k + decpt ∨ text = [] ∧ decpt ≤ 0) ∧
      RoundsEven ((m : ℚ) * 2 ^ e * 10 ^ k) (numeral 10 0 text) := by
    rw [← scale]
    cases rounded with
    | none negative =>
        -- the number is below a tenth of the last place
        refine ⟨List.forall_mem_nil _, .inr ⟨rfl, by omega⟩, ?_⟩
        have nonneg : (0 : ℚ) ≤ m * 2 ^ e * 10 ^ k := by positivity
        have small : (m : ℚ) * 2 ^ e * 10 ^ k ≤ 10 ^ (-1 : ℤ) :=
          calc (m : ℚ) * 2 ^ e * 10 ^ k ≤ 10 ^ r * 10 ^ k :=
                mul_le_mul_of_nonneg_right high.le (by positivity)
            _ = 10 ^ (r + k) := by rw [zpow_add₀ (by norm_num), zpow_natCast]
            _ ≤ 10 ^ (-1 : ℤ) := zpow_le_zpow_right₀ (by norm_num) (by omega)
        rw [scale]
        norm_num at small
        constructor
        · rw [show numeral 10 0 [] = 0 from rfl, Nat.cast_zero, Int.cast_zero, sub_zero,
            abs_of_nonneg nonneg]
          linarith
        · exact fun _ => Even.zero
    | kept text length plain rounds => exact ⟨plain, .inl length, rounds⟩
    | carried n places rounds =>
        rw [if_neg Bool.false_ne_true, numeral_one_zeros]
        refine ⟨List.forall_mem_cons.mpr ⟨rfl, isdigit_replicate n⟩, .inl ?_, ?_⟩
        · rw [List.length_cons, List.length_replicate]
          push_cast
          omega
        · exact_mod_cast rounds
  obtain ⟨whole, frac, first, second, some', size, digits, value⟩ := fText_layout plain length
  refine ⟨whole, frac, ?_, some', size, digits, by rwa [value]⟩
  rw [fText]
  simp only [Number.cvt, converted, Option.map_some, Option.bind_eq_bind, Option.bind_some]
  rw [Int.toNat_natCast, second, ← first, List.append_assoc (minus neg)]

/-- A zero has zeros on both sides of the point. -/
theorem fText_zero (neg : Bool) (few : k ≤ 70) :
    ∃ whole frac, fText ⟨neg, none⟩ k =
        some (minus neg ++ whole ++ (if (k : ℤ) ≠ 0 then ['.'] else []) ++ frac) ∧
      whole ≠ [] ∧ frac.length = k ∧ (∀ c ∈ whole ++ frac, isdigit c) ∧
      numeral 10 0 (whole ++ frac) = 0 := by
  have size : (min (k : ℤ) ((Ecvt.NDIG : ℤ) - 2)).toNat = k := by
    have limit : ((Ecvt.NDIG : ℕ) : ℤ) = 80 := rfl
    omega
  obtain ⟨whole, frac, first, second, some', length, digits, value⟩ :=
    fText_layout (k := k) (isdigit_replicate k) (.inl (by rw [List.length_replicate, add_zero]))
  refine ⟨whole, frac, ?_, some', length, digits, ?_⟩
  · rw [fText]
    simp only [Number.cvt, size, Option.bind_eq_bind, Option.bind_some]
    rw [Int.toNat_natCast, second, ← first, List.append_assoc (minus neg)]
  · rw [value, ← List.append_nil (List.replicate k '0'), numeral_zeros_append]
    rfl

/-! ## Formats -/

/-- A zero is read as one. -/
theorem atof_zero (neg : Bool) (few : k ≤ 70) :
    ∃ text result, eText ⟨neg, none⟩ k = some text ∧ Atof.atof text = some result ∧
      readSign result = neg ∧ readValue result = some 0 := by
  have zeros : numeral 10 0 ('0' :: List.replicate k '0') = 0 := by
    have value := numeral_zeros_append (k + 1) []
    rwa [List.append_nil] at value
  obtain ⟨result, read, correct⟩ := atof_eText neg 1 (c := '0') rfl (isdigit_replicate k)
    (by decide)
  have printed : eText ⟨neg, none⟩ k =
      some (minus neg ++ '0' :: '.' :: (List.replicate k '0' ++ exponentText 1)) := by
    have size : (min ((k : ℤ) + 1) ((Ecvt.NDIG : ℤ) - 2)).toNat = k + 1 := by
      have limit : ((Ecvt.NDIG : ℕ) : ℤ) = 80 := rfl
      omega
    have enough : ¬(((List.replicate k '0').length : ℤ) < k) := by
      rw [List.length_replicate]
      omega
    rw [eText]
    simp only [Number.cvt, size, List.replicate_succ, Option.bind_eq_bind, Option.bind_some]
    rw [if_neg enough, if_pos trivial, Int.toNat_natCast, List.take_replicate, Nat.min_self]
    rfl
  refine ⟨_, result, printed, read, ?_⟩
  rw [zeros, Nat.cast_zero, zero_mul] at correct
  cases result with
  | zero neg' => exact ⟨correct.1, rfl⟩
  | huge neg' => exact absurd correct.2 (not_le.mpr (pow_pos two_pos 1024))
  | ldexp neg' p q =>
      have near := correct.2.near 0 ⟨0, -1074, by decide, le_rfl, by simp⟩
      rw [sub_zero, abs_zero, abs_nonpos_iff, zero_sub, neg_eq_zero] at near
      exact ⟨correct.1, congrArg some (by exact_mod_cast near)⟩

variable (gcvt : ℤ → BitVec 64 → List Char)

/-- What is printed for a format of a precision and a conversion. -/
theorem doprnt_real (x : BitVec 64) (conv : c = 'e' ∨ c = 'f') (some' : ds ≠ [])
    (plain : ∀ c ∈ ds, isdigit c) (fits : numeral 10 0 ds < 2 ^ 31) :
    doprnt (real gcvt) ('%' :: '.' :: (ds ++ [c])) [.double x] =
      some (real gcvt c (min (numeral 10 0 ds) 70 : ℕ) x) := by
  have letter : isdigit c = false ∧ c ≠ '*' ∧ c ≠ 'l' ∧ c ≠ 'L' := by
    obtain rfl | rfl := conv <;> decide
  have read : gnum (ds ++ [c]) [.double x] =
      some (((numeral 10 0 ds : ℕ) : ℤ), [c], [.double x]) := by
    refine gnum_field (.digits ds plain fits) (fun d mem => ?_) [.double x]
    obtain rfl := Option.some.inj mem
    exact ⟨letter.1, letter.2.1⟩
  have given : decide ([c].length < (ds ++ [c]).length) = true := by
    rw [decide_eq_true_eq, List.length_append]
    exact Nat.lt_add_of_pos_left (List.length_pos_iff.mpr some')
  have precise : precision ('.' :: (ds ++ [c])) [.double x] =
      some (((numeral 10 0 ds : ℕ) : ℤ), true, [c], [.double x]) := by
    rw [precision, List.head?_cons, if_pos rfl, List.tail_cons]
    simp only [read, Option.bind_eq_bind, Option.bind_some, given]
  have last : conversion [c] = (false, some c, []) := by
    rw [conversion, if_neg (not_or.mpr letter.2.2)]
  have read' : directive ('.' :: (ds ++ [c])) [.double x] =
      some (⟨false, ' ', 0, (numeral 10 0 ds : ℕ), true, false⟩, some c, [], [.double x]) := by
    have width : gnum ('.' :: (ds ++ [c])) [.double x] =
        some (0, '.' :: (ds ++ [c]), [.double x]) := rfl
    rw [directive]
    simp only [List.head?_cons, Option.some.injEq, Char.reduceEq, if_false, width, precise, last,
      Option.bind_eq_bind, Option.bind_some, decide_false]
  have digits : realDigits ⟨false, ' ', 0, (numeral 10 0 ds : ℕ), true, false⟩ =
      (min (numeral 10 0 ds) 70 : ℕ) := by
    rw [realDigits]
    dsimp only
    rw [if_pos rfl]
    omega
  have converted : convert (real gcvt) ⟨false, ' ', 0, (numeral 10 0 ds : ℕ), true, false⟩ c
      [.double x] = some (real gcvt c (min (numeral 10 0 ds) 70 : ℕ) x, ' ', []) := by
    rw [← digits]
    obtain rfl | rfl := conv <;> rfl
  rw [doprnt, doprntLoop, List.takeWhile_cons_of_neg (by decide),
    List.dropWhile_cons_of_neg (by decide)]
  dsimp only
  rw [read']
  dsimp only [Option.bind_eq_bind, Option.bind_some]
  rw [converted]
  dsimp only [Option.bind_eq_bind, Option.bind_some]
  have text : ∀ s, filled ⟨false, ' ', 0, (numeral 10 0 ds : ℕ), true, false⟩ ' ' s = s := by
    intro s
    rw [filled]
    dsimp only
    rw [max_eq_right (by omega)]
    exact List.append_nil s
  rw [text, List.length_cons, doprntLoop]
  simp

/-- From the text of a word with 16 places at least, `atof` reads the number of the word with its
sign. -/
theorem atof_word (x : BitVec 64) (many : 16 ≤ k) (few : k ≤ 70) :
    ∃ text result, eText (Number.ofBits x) k = some text ∧ Atof.atof text = some result ∧
      readSign result = (Number.ofBits x).neg ∧
      readValue result = some (Number.ofBits x).magnitude := by
  have eta : Number.ofBits x = ⟨(Number.ofBits x).neg, (Number.ofBits x).parts⟩ := rfl
  rw [Number.magnitude]
  cases same : (Number.ofBits x).parts with
  | none =>
      obtain ⟨text, result, shown, read, sign, value⟩ := atof_zero (Number.ofBits x).neg few
      rw [same] at eta
      exact ⟨text, result, eta ▸ shown, read, sign, value⟩
  | some parts =>
      obtain ⟨m, e⟩ := parts
      obtain ⟨double, rep⟩ := Number.ofBits_double x same
      obtain ⟨text, p, q, shown, read, value⟩ :=
        atof_printed (Number.ofBits x).neg double rep many few
      rw [same] at eta
      exact ⟨text, _, eta ▸ shown, read, rfl, congrArg some value⟩

/-- Whatever word is printed with `e` and 16 places at least, `atof` reads the number of the word
with its sign. -/
theorem atof_doprnt (x : BitVec 64) (plain : ∀ c ∈ ds, isdigit c)
    (many : 16 ≤ numeral 10 0 ds) (fits : numeral 10 0 ds < 2 ^ 31) :
    ∃ text result, doprnt (real gcvt) ('%' :: '.' :: (ds ++ ['e'])) [.double x] = some text ∧
      Atof.atof text = some result ∧ readSign result = (Number.ofBits x).neg ∧
      readValue result = some (Number.ofBits x).magnitude := by
  have some' : ds ≠ [] := by
    rintro rfl
    exact absurd many (by decide)
  have printed := doprnt_real gcvt x (.inl rfl) some' plain fits
  obtain ⟨text, result, shown, read⟩ :=
    atof_word x (le_min many (by decide : 16 ≤ 70)) (Nat.min_le_right _ _)
  rw [real, shown, Option.getD_some] at printed
  exact ⟨text, result, printed, read⟩

/-- The word of one third, with 16 places. -/
theorem atof_doprnt_third : ∃ text result,
    doprnt (real fun _ _ => []) ['%', '.', '1', '6', 'e'] [.double 0x3fd5555555555555] = some text ∧
      Atof.atof text = some result ∧
      readSign result = (Number.ofBits 0x3fd5555555555555).neg ∧
      readValue result = some (Number.ofBits 0x3fd5555555555555).magnitude :=
  atof_doprnt (fun _ _ => []) _ (List.all_eq_true.mp rfl : ∀ c ∈ ['1', '6'], isdigit c)
    (by decide) (by decide)

/-- The word of a finite number other than zero that `atof` reads from the text of `%.16e` is the
word that was printed: it has the same sign, significand and exponent. -/
theorem atof_same_word (x : BitVec 64) (finite : Finite x) (some' : x.toNat % 2 ^ 63 ≠ 0) :
    ∃ text result, doprnt (real gcvt) ['%', '.', '1', '6', 'e'] [.double x] = some text ∧
      Atof.atof text = some result ∧
      ∀ y, Finite y → (readSign result = (Number.ofBits y).neg ∧
        readValue result = some (Number.ofBits y).magnitude ↔ y = x) := by
  have plain : ∀ c ∈ ['1', '6'], isdigit c := List.all_eq_true.mp rfl
  have printed := doprnt_real gcvt x (c := 'e') (.inl rfl) (List.cons_ne_nil _ _) plain (by decide)
  obtain ⟨text, result, shown, read, sign, value⟩ :=
    atof_word x (le_refl 16) (by decide : 16 ≤ 70)
  refine ⟨text, result, ?_, read, fun y finite' => ⟨fun same => ?_, fun same => ?_⟩⟩
  · rw [real] at printed
    exact printed.trans (by rw [show min (numeral 10 0 ['1', '6']) 70 = 16 from rfl, shown]; rfl)
  · rw [sign, value] at same
    exact (Number.ofBits_injective finite some' finite' same.1 (Option.some.inj same.2)).symm
  · rw [same]
    exact ⟨sign, value⟩

/-- The smallest word of a number above zero. -/
theorem atof_same_word_least : ∃ text result,
    doprnt (real fun _ _ => []) ['%', '.', '1', '6', 'e'] [.double 1] = some text ∧
      Atof.atof text = some result ∧
      ∀ y, Finite y → (readSign result = (Number.ofBits y).neg ∧
        readValue result = some (Number.ofBits y).magnitude ↔ y = 1) :=
  atof_same_word (fun _ _ => []) 1 (by decide) (by decide)

/-- What is printed with `f` for a word is its number, rounded to the places asked for, as long as
it has not too many before them. -/
theorem doprnt_rounded (x : BitVec 64) (plain : ∀ c ∈ ds, isdigit c) (some' : ds ≠ [])
    (few : numeral 10 0 ds ≤ 70)
    (room : (Number.ofBits x).magnitude * 10 ^ numeral 10 0 ds < 10 ^ 78) :
    ∃ whole frac, doprnt (real gcvt) ('%' :: '.' :: (ds ++ ['f'])) [.double x] =
        some (minus (Number.ofBits x).neg ++ whole ++
          (if ((numeral 10 0 ds : ℕ) : ℤ) ≠ 0 then ['.'] else []) ++ frac) ∧
      whole ≠ [] ∧ frac.length = numeral 10 0 ds ∧ (∀ c ∈ whole ++ frac, isdigit c) ∧
      RoundsEven ((Number.ofBits x).magnitude * 10 ^ numeral 10 0 ds)
        (numeral 10 0 (whole ++ frac)) := by
  have printed := doprnt_real gcvt x (.inr rfl) some' plain (by omega)
  rw [Nat.min_eq_left few] at printed
  generalize numeral 10 0 ds = k at printed few room ⊢
  change doprnt _ _ _ = some ((fText (Number.ofBits x) k).getD []) at printed
  have eta : Number.ofBits x = ⟨(Number.ofBits x).neg, (Number.ofBits x).parts⟩ := rfl
  rw [Number.magnitude] at room ⊢
  cases same : (Number.ofBits x).parts with
  | none =>
      obtain ⟨whole, frac, shown, most, length, digits, value⟩ :=
        fText_zero (Number.ofBits x).neg few
      rw [same] at eta
      rw [eta, shown] at printed
      refine ⟨whole, frac, printed, most, length, digits, ?_⟩
      rw [value]
      exact ⟨by simp, fun _ => Even.zero⟩
  | some parts =>
      obtain ⟨m, e⟩ := parts
      rw [same] at room
      obtain ⟨whole, frac, shown, rounded⟩ := fText_rounded (Number.ofBits x).neg
        (Number.ofBits_double x same).1 few room
      rw [same] at eta
      rw [eta, shown] at printed
      exact ⟨whole, frac, printed, rounded⟩

/-- A negative number that is rounded to one place, to the even digit. -/
theorem doprnt_rounded_quarter : ∃ whole frac,
    doprnt (real fun _ _ => []) ['%', '.', '1', 'f'] [.double 0xbfe8000000000000] =
        some (minus (Number.ofBits 0xbfe8000000000000).neg ++ whole ++
          (if ((1 : ℕ) : ℤ) ≠ 0 then ['.'] else []) ++ frac) ∧
      whole ≠ [] ∧ frac.length = 1 ∧ (∀ c ∈ whole ++ frac, isdigit c) ∧
      RoundsEven ((Number.ofBits 0xbfe8000000000000).magnitude * 10 ^ 1)
        (numeral 10 0 (whole ++ frac)) :=
  doprnt_rounded (fun _ _ => []) _ (List.all_eq_true.mp rfl : ∀ c ∈ ['1'], isdigit c)
    (by decide) (by decide) (by
      rw [show Number.ofBits 0xbfe8000000000000 = ⟨true, some (2 ^ 52 + 2 ^ 51, -53)⟩ from rfl,
        show numeral 10 0 ['1'] = 1 from rfl]
      norm_num [Number.magnitude])

end UnixV7.Stdio
