import UnixV7.Library.Limbs
import Mathlib.Tactic.FieldSimp
import Mathlib.Tactic.NormNum
import Mathlib.Tactic.Positivity

/-!
# Floating to decimal

`cvt` of `ecvt.c` from the place on where the number is `m * 2 ^ e` in integers. A big integer is
the list of its limbs below `n`. A limb, a digit or a character stored outside its array is no
result.
-/

namespace UnixV7.Libc.Ecvt

open Limbs

/-- The limbs of a big integer. -/
abbrev big := List ℕ

/-- The limbs there is room for. -/
abbrev NLIMB : ℕ := 40

/-- The characters there is room for. -/
abbrev NDIG : ℕ := 80

/-- One limb divided, the remainder above it being `r`. -/
def divStep (w r : ℕ) : ℕ × ℕ :=
  let h := r <<< 16 ||| w >>> 16
  let l := (h % 10) <<< 16 ||| (w &&& 0xffff)
  ((h / 10) <<< 16 ||| l / 10, l % 10)

/-- The loop of `bdiv10`, from the top limb down. -/
def bdiv10Loop : big → big × ℕ
  | [] => ([], 0)
  | w :: a =>
      let (b, r) := bdiv10Loop a
      let (d, r) := divStep w r
      (d :: b, r)

/-- `bdiv10` -/
def bdiv10 (a : big) : big × ℕ :=
  let (b, r) := bdiv10Loop a
  (strip b, r)

/-- `bmul10` -/
def bmul10 (a : big) : Option big := store NLIMB (mulAdd (2 ^ 32) 10 a 0)

/-- The digit at the top of a product, its bits from `fs` up. -/
def topDigit (fs : ℕ) (fp : big) : ℕ :=
  let q := fs / 32
  let r := fs % 32
  let d := if q < fp.length then fp.getD q 0 >>> r else 0
  if r ≠ 0 ∧ q + 1 < fp.length then d ||| (fp.getD (q + 1) 0 <<< (32 - r)) % 2 ^ 32 else d

/-- The product without that digit. -/
def dropDigit (fs : ℕ) (fp : big) : big :=
  let q := fs / 32
  let r := fs % 32
  if q < fp.length then
    (fp.set q (fp.getD q 0 &&& if r ≠ 0 then 1 <<< r - 1 else 0)).take (q + 1)
  else
    fp

/-- `fdigit` -/
def fdigit (fs : ℕ) (fp : big) : Option (ℕ × big) :=
  if fp = [] then
    some (0, [])
  else do
    let fp ← bmul10 fp
    some (topDigit fs fp, strip (dropDigit fs fp))

/-- What `next` has still to give: digits of the integer part, the first one first, and the
fraction. -/
structure Rest where
  id : List ℕ
  fp : big

/-- `next` -/
def next (fs : ℕ) (s : Rest) : Option (ℕ × Rest) :=
  match s.id with
  | d :: id => some (d, { s with id := id })
  | [] => do
      let (d, fp) ← fdigit fs s.fp
      some (d, { s with fp := fp })

/-- The two limbs of a `long long`. -/
def two (m : ℕ) : big := [m % 2 ^ 32, m >>> 32 % 2 ^ 32]

/-- The loop over whole limbs, `n` times. -/
def shiftLimbs : ℕ → big → Option big
  | 0, ip => some ip
  | n + 1, ip => if ip.length < NLIMB then shiftLimbs n (0 :: ip) else none

/-- A shift by one bit, with `c` coming in. -/
def shiftBit : big → ℕ → big × ℕ
  | [], c => ([], c)
  | w :: a, c =>
      let (b, d) := shiftBit a (w >>> 31)
      ((w <<< 1 ||| c) % 2 ^ 32 :: b, d)

/-- The loop over single bits, `n` times. -/
def shiftBits : ℕ → big → Option big
  | 0, ip => some ip
  | n + 1, ip => do
      let ip ← store NLIMB (shiftBit ip 0)
      shiftBits n ip

/-- The integer part, the fraction and its number of bits. -/
def split (m : ℕ) (e : ℤ) : Option (big × big × ℕ) :=
  if 0 ≤ e then do
    let ip ← shiftLimbs (e.toNat / 32) (two m)
    let ip ← shiftBits (e.toNat % 32) ip
    some (strip ip, [], 0)
  else
    let fs := (-e).toNat
    if fs < 64 then
      some (strip (two (m >>> fs)), strip (two (m &&& (1 <<< fs - 1))), fs)
    else
      some ([], strip (two m), fs)

/-- The loop that fills `id`, in which there is room for so many digits. -/
def integerDigits : ℕ → big → Option (List ℕ)
  | 0, ip => if ip = [] then some [] else none
  | room + 1, ip =>
      if ip = [] then some []
      else
        let (ip, d) := bdiv10 ip
        (integerDigits room ip).map (d :: ·)

/-- The loop over leading zeros of a fraction, at most `fs` of them. -/
def skipZeros (fs : ℕ) : ℕ → ℕ → Rest → ℤ → Option (ℕ × Rest × ℤ)
  | 0, _, _, _ => none
  | fuel + 1, d, s, r2 =>
      if d = 0 then do
        let (d, s) ← next fs s
        skipZeros fs fuel d s (r2 - 1)
      else
        some (d, s, r2)

/-- The loop that gives `k` digits, the first one being `d`, and the digit after them. -/
def digitLoop (fs : ℕ) : ℕ → ℕ → Rest → Option (List ℕ × ℕ × Rest)
  | 0, d, s => some ([], d, s)
  | k + 1, d, s => do
      let (d', s) ← next fs s
      let (ds, d', s) ← digitLoop fs k d' s
      some (d :: ds, d', s)

/-- `d + '0'` -/
def char (d : ℕ) : Char := Char.ofNat (d + '0'.toNat)

/-- `return(buf)`, with room for the zero at the end. -/
def answer (text : List Char) (decpt : ℤ) : Option (List Char × ℤ) :=
  if text.length < NDIG then some (text, decpt) else none

/-- One more in the last place, which comes first in the list; none if all digits are nines. -/
def bump : List Char → Option (List Char)
  | [] => none
  | c :: s => if c = '9' then (bump s).map ('0' :: ·) else some (Char.ofNat (c.toNat + 1) :: s)

/-- Whether the digits dropped, of which `d` is the first one, round up. -/
def roundsUp (buf : List Char) (d : ℕ) (s : Rest) : Bool :=
  let sticky := s.fp ≠ [] || s.id.any (· ≠ 0)
  5 < d || d = 5 && (sticky || buf.getLast?.any fun c => c.toNat &&& 1 = 1)

/-- The end of `cvt`: the digits that are kept are rounded. -/
def finish (buf : List Char) (d : ℕ) (s : Rest) (r2 : ℤ) (eflag : Bool) :
    Option (List Char × ℤ) :=
  if roundsUp buf d s then
    match bump buf.reverse with
    | some t => answer t.reverse r2
    | none =>
        let zeros := if buf.length ≠ 0 ∧ !eflag then ['0'] else []
        answer ('1' :: List.replicate (buf.length - 1) '0' ++ zeros) (r2 + 1)
  else
    answer buf r2

/-- `cvt` from the digits on; `d` is the first one, and the point is `r2` places behind the place
before it. -/
def emit (fs d : ℕ) (s : Rest) (r2 ndigits : ℤ) (eflag : Bool) : Option (List Char × ℤ) :=
  let k := if eflag then ndigits else ndigits + r2
  if k < 0 then
    some ([], r2)
  else if NDIG - 1 < k then do
    let (ds, _) ← digitLoop fs (NDIG - 1) d s
    answer (ds.map char) r2
  else do
    let (ds, d, s) ← digitLoop fs k.toNat d s
    finish (ds.map char) d s r2 eflag

/-- The first digit that is not a leading zero of a fraction, and the place of the point. -/
def first (fs : ℕ) (id : List ℕ) (fp : big) : Option (ℕ × Rest × ℤ) := do
  let (d, s) ← next fs ⟨id.reverse, fp⟩
  if id = [] then skipZeros fs (fs + 1) d s 0 else some (d, s, id.length)

/-- `cvt` for the number `m * 2 ^ e`. -/
def cvt (m : ℕ) (e ndigits : ℤ) (eflag : Bool) : Option (List Char × ℤ) := do
  let ndigits := if ndigits < 0 then 0 else ndigits
  let ndigits := if NDIG - 1 ≤ ndigits then (NDIG : ℤ) - 2 else ndigits
  let (ip, fp, fs) ← split m e
  let id ← integerDigits 320 ip
  let (d, s, r2) ← first fs id fp
  emit fs d s r2 ndigits eflag

/-- `ecvt` -/
def ecvt (m : ℕ) (e ndigits : ℤ) : Option (List Char × ℤ) := cvt m e ndigits true

/-- `fcvt` -/
def fcvt (m : ℕ) (e ndigits : ℤ) : Option (List Char × ℤ) := cvt m e ndigits false

open Nat (digits ofDigits)

variable {a : big} {v w r c : ℕ}

/-! ## Big integers -/

theorem base : 1 < 2 ^ 32 := by decide

theorem small_digits (v : ℕ) : ∀ d ∈ digits (2 ^ 32) v, d < 2 ^ 32 :=
  fun _ mem => Nat.digits_lt_base base mem

theorem divStep_spec (limb : w < 2 ^ 32) (rem : r < 10) :
    (divStep w r).1 * 10 + (divStep w r).2 = r * 2 ^ 32 + w ∧ (divStep w r).1 < 2 ^ 32 ∧
      (divStep w r).2 < 10 := by
  have high : w >>> 16 < 2 ^ 16 := by
    rw [Nat.shiftRight_eq_div_pow]
    omega
  have low : w &&& 0xffff = w % 2 ^ 16 := Nat.and_two_pow_sub_one_eq_mod w 16
  have join : r <<< 16 ||| w >>> 16 = r * 2 ^ 16 + w / 2 ^ 16 := by
    rw [← Nat.shiftLeft_add_eq_or_of_lt high, Nat.shiftLeft_eq, Nat.shiftRight_eq_div_pow]
  have join' : ∀ h : ℕ, (h % 10) <<< 16 ||| (w &&& 0xffff) = h % 10 * 2 ^ 16 + w % 2 ^ 16 := by
    intro h
    rw [low, ← Nat.shiftLeft_add_eq_or_of_lt (Nat.mod_lt _ (by decide)), Nat.shiftLeft_eq]
  have join'' : ∀ h l : ℕ, l / 10 < 2 ^ 16 →
      (h / 10) <<< 16 ||| l / 10 = h / 10 * 2 ^ 16 + l / 10 := by
    intro h l less
    rw [← Nat.shiftLeft_add_eq_or_of_lt less, Nat.shiftLeft_eq]
  rw [divStep]
  dsimp only
  rw [join, join', join'' _ _ (by omega)]
  omega

theorem bdiv10Loop_spec (small : ∀ d ∈ a, d < 2 ^ 32) :
    ofDigits (2 ^ 32) (bdiv10Loop a).1 * 10 + (bdiv10Loop a).2 = ofDigits (2 ^ 32) a ∧
      (∀ d ∈ (bdiv10Loop a).1, d < 2 ^ 32) ∧ (bdiv10Loop a).2 < 10 := by
  induction a with
  | nil => exact ⟨rfl, List.forall_mem_nil _, by decide⟩
  | cons w a ih =>
      obtain ⟨head, tail⟩ := List.forall_mem_cons.mp small
      obtain ⟨value, limbs, rem⟩ := ih tail
      obtain ⟨step, limb, rem'⟩ := divStep_spec head rem
      have unfolded : bdiv10Loop (w :: a) =
          ((divStep w (bdiv10Loop a).2).1 :: (bdiv10Loop a).1, (divStep w (bdiv10Loop a).2).2) :=
            rfl
      rw [unfolded, Nat.ofDigits_cons, Nat.ofDigits_cons, ← value]
      refine ⟨?_, List.forall_mem_cons.mpr ⟨limb, limbs⟩, rem'⟩
      linarith

/-- `bdiv10` divides. -/
theorem bdiv10_digits (v : ℕ) : bdiv10 (digits (2 ^ 32) v) =
    (digits (2 ^ 32) (v / 10), v % 10) := by
  obtain ⟨value, small, rem⟩ := bdiv10Loop_spec (small_digits v)
  rw [Nat.ofDigits_digits] at value
  have unfolded : bdiv10 (digits (2 ^ 32) v) =
      (strip (bdiv10Loop (digits (2 ^ 32) v)).1, (bdiv10Loop (digits (2 ^ 32) v)).2) := rfl
  rw [unfolded, strip_eq base small]
  generalize ofDigits (2 ^ 32) (bdiv10Loop (digits (2 ^ 32) v)).1 = quotient at value ⊢
  rw [show quotient = v / 10 by omega, show (bdiv10Loop (digits (2 ^ 32) v)).2 = v % 10 by omega]

/-- `bmul10` multiplies, with room for one more limb. -/
theorem bmul10_digits (fits : v * 10 < (2 ^ 32) ^ NLIMB) :
    bmul10 (digits (2 ^ 32) v) = some (digits (2 ^ 32) (v * 10)) :=
  store_mulAdd base (by decide) (by decide) (by decide) fits

/-- A bit of a big integer, by its limb and its place in it. -/
theorem two_pow_place (fs : ℕ) : 2 ^ fs = (2 ^ 32) ^ (fs / 32) * 2 ^ (fs % 32) := by
  rw [← pow_mul, ← pow_add, Nat.div_add_mod]

theorem lt_of_length_le {q : ℕ} (short : (digits (2 ^ 32) v).length ≤ q) : v < (2 ^ 32) ^ q :=
  (Nat.digits_length_le_iff base v).mp short

theorem topDigit_digits {fs : ℕ} (small : v < 2 ^ fs * 10) :
    topDigit fs (digits (2 ^ 32) v) = v / 2 ^ fs := by
  have place := two_pow_place fs
  have inside : fs % 32 < 32 := Nat.mod_lt fs (by decide)
  rw [topDigit]
  simp only [Nat.getD_digits v _ (show 2 ≤ 2 ^ 32 by decide)]
  generalize fs / 32 = q at place ⊢
  generalize fs % 32 = r at place inside ⊢
  rw [place, mul_assoc] at small
  rw [place, ← Nat.div_div_eq_div_mul, pow_succ (2 ^ 32) q,
    ← Nat.div_div_eq_div_mul]
  have first : (if q < (digits (2 ^ 32) v).length then (v / (2 ^ 32) ^ q % 2 ^ 32) >>> r else 0) =
      v / (2 ^ 32) ^ q % 2 ^ 32 / 2 ^ r := by
    rw [Nat.shiftRight_eq_div_pow]
    split
    · rfl
    · next short => rw [Nat.div_eq_of_lt (lt_of_length_le (not_lt.mp short)), Nat.zero_mod,
        Nat.zero_div]
  rw [first]
  have less : v / (2 ^ 32) ^ q < 2 ^ r * 10 := Nat.div_lt_of_lt_mul small
  have one : q + 1 ≥ (digits (2 ^ 32) v).length → v / (2 ^ 32) ^ q < 2 ^ 32 := by
    intro short
    apply Nat.div_lt_of_lt_mul
    rw [← pow_succ]
    exact lt_of_length_le short
  generalize v / (2 ^ 32) ^ q = g at less one ⊢
  have limb : 2 ^ 32 = 2 ^ r * 2 ^ (32 - r) := by
    rw [← pow_add, Nat.add_sub_cancel' inside.le]
  split
  · have high : g / 2 ^ 32 * 2 ^ (32 - r) < 10 := by
      apply Nat.lt_of_mul_lt_mul_left (a := 2 ^ r)
      calc 2 ^ r * (g / 2 ^ 32 * 2 ^ (32 - r)) = 2 ^ r * 2 ^ (32 - r) * (g / 2 ^ 32) := by ring
        _ = 2 ^ 32 * (g / 2 ^ 32) := by rw [← limb]
        _ ≤ g := Nat.mul_div_le g _
        _ < 2 ^ r * 10 := less
    have few : g / 2 ^ 32 < 10 :=
      (Nat.le_mul_of_pos_right _ (Nat.two_pow_pos _)).trans_lt high
    have low : g % 2 ^ 32 / 2 ^ r < 2 ^ (32 - r) := by
      apply Nat.div_lt_of_lt_mul
      rw [← limb]
      exact Nat.mod_lt g (by decide)
    rw [Nat.mod_eq_of_lt (show g / 2 ^ 32 < 2 ^ 32 by omega), Nat.shiftLeft_eq,
      Nat.mod_eq_of_lt (show g / 2 ^ 32 * 2 ^ (32 - r) < 2 ^ 32 by omega), ← Nat.shiftLeft_eq,
      Nat.or_comm, ← Nat.shiftLeft_add_eq_or_of_lt low, Nat.shiftLeft_eq]
    have whole : g = 2 ^ r * (g / 2 ^ 32 * 2 ^ (32 - r)) + g % 2 ^ 32 := by
      calc g = 2 ^ 32 * (g / 2 ^ 32) + g % 2 ^ 32 := (Nat.div_add_mod g _).symm
        _ = 2 ^ r * 2 ^ (32 - r) * (g / 2 ^ 32) + g % 2 ^ 32 := by rw [← limb]
        _ = 2 ^ r * (g / 2 ^ 32 * 2 ^ (32 - r)) + g % 2 ^ 32 := by ring
    conv_rhs => rw [whole]
    rw [Nat.mul_add_div (Nat.two_pow_pos r)]
  · next other =>
      have fits : g < 2 ^ 32 := by
        by_cases none : r = 0
        · subst none
          omega
        · exact one (not_lt.mp fun longer => other ⟨none, longer⟩)
      rw [Nat.mod_eq_of_lt fits]

theorem dropDigit_digits (fs v : ℕ) :
    strip (dropDigit fs (digits (2 ^ 32) v)) = digits (2 ^ 32) (v % 2 ^ fs) := by
  have place := two_pow_place fs
  have inside : fs % 32 < 32 := Nat.mod_lt fs (by decide)
  rw [dropDigit]
  simp only [Nat.getD_digits v _ (show 2 ≤ 2 ^ 32 by decide)]
  generalize fs / 32 = q at place ⊢
  generalize fs % 32 = r at place inside ⊢
  have masked : (v / (2 ^ 32) ^ q % 2 ^ 32 &&& if r ≠ 0 then 1 <<< r - 1 else 0) =
      v / (2 ^ 32) ^ q % 2 ^ r := by
    have cut : v / (2 ^ 32) ^ q % 2 ^ 32 % 2 ^ r = v / (2 ^ 32) ^ q % 2 ^ r :=
      Nat.mod_mod_of_dvd _ (Nat.pow_dvd_pow 2 inside.le)
    split
    · rw [Nat.shiftLeft_eq, Nat.one_mul, Nat.and_two_pow_sub_one_eq_mod, cut]
    · next none =>
        obtain rfl := not_not.mp none
        rw [Nat.and_zero, pow_zero, Nat.mod_one]
  rw [masked]
  split
  · next longer =>
      have cut : ((digits (2 ^ 32) v).set q (v / (2 ^ 32) ^ q % 2 ^ r)).take (q + 1) =
          (digits (2 ^ 32) v).take q ++ [v / (2 ^ 32) ^ q % 2 ^ r] := by
        rw [List.take_succ_eq_append_getElem (by simpa using longer), List.getElem_set_self,
          List.take_set_of_le le_rfl]
      rw [cut, strip_eq base]
      · rw [Nat.ofDigits_append, Nat.ofDigits_singleton,
          ← Nat.self_mod_pow_eq_ofDigits_take q v (by decide), List.length_take_of_le longer.le,
          place, Nat.mod_mul]
      · intro d mem
        obtain mem | mem := List.mem_append.mp mem
        · exact small_digits v d (List.mem_of_mem_take mem)
        · rw [List.mem_singleton.mp mem]
          exact (Nat.mod_lt _ (Nat.two_pow_pos r)).trans_le
            (Nat.pow_le_pow_right (by decide) inside.le)
  · next short =>
      have below := lt_of_length_le (not_lt.mp short)
      have fits : v < 2 ^ fs := by
        rw [place]
        exact below.trans_le (Nat.le_mul_of_pos_right _ (Nat.two_pow_pos r))
      rw [strip_eq base (small_digits v), Nat.ofDigits_digits, Nat.mod_eq_of_lt fits]

/-- `fdigit` gives the digit before the point of ten times the fraction. -/
theorem fdigit_digits {fs : ℕ} (small : v < 2 ^ fs) (room : fs + 4 ≤ 32 * NLIMB) :
    fdigit fs (digits (2 ^ 32) v) =
      some (v * 10 / 2 ^ fs, digits (2 ^ 32) (v * 10 % 2 ^ fs)) := by
  rw [fdigit]
  split
  · next none =>
      have zero : v = 0 := Nat.digits_eq_nil_iff_eq_zero.mp none
      rw [zero, Nat.zero_mul, Nat.zero_div, Nat.zero_mod, Nat.digits_zero]
  · have fits : v * 10 < (2 ^ 32) ^ NLIMB :=
      calc v * 10 < 2 ^ fs * 2 ^ 4 := by omega
        _ = 2 ^ (fs + 4) := (pow_add 2 fs 4).symm
        _ ≤ 2 ^ (32 * NLIMB) := Nat.pow_le_pow_right (by decide) room
        _ = (2 ^ 32) ^ NLIMB := pow_mul 2 32 NLIMB
    rw [bmul10_digits fits]
    change some (topDigit fs (digits (2 ^ 32) (v * 10)),
      strip (dropDigit fs (digits (2 ^ 32) (v * 10)))) = _
    rw [topDigit_digits (Nat.mul_lt_mul_of_pos_right small (by decide)), dropDigit_digits]

theorem two_value {m : ℕ} (fits : m < 2 ^ 64) :
    ofDigits (2 ^ 32) (two m) = m ∧ ∀ d ∈ two m, d < 2 ^ 32 := by
  rw [two, Nat.shiftRight_eq_div_pow]
  constructor
  · rw [Nat.ofDigits_cons, Nat.ofDigits_singleton]
    omega
  · intro d mem
    obtain rfl | rfl := List.mem_pair.mp mem
    · exact Nat.mod_lt _ (by decide)
    · exact Nat.mod_lt _ (by decide)

theorem strip_two {m : ℕ} (fits : m < 2 ^ 64) : strip (two m) = digits (2 ^ 32) m := by
  obtain ⟨value, small⟩ := two_value fits
  rw [strip_eq base small, value]

theorem two_digits {m : ℕ} (large : 2 ^ 32 ≤ m) (fits : m < 2 ^ 64) :
    two m = digits (2 ^ 32) m := by
  obtain ⟨value, small⟩ := two_value fits
  rw [eq_digits base small, value]
  intro _
  rw [value]
  exact large

theorem shiftLimbs_digits (n v : ℕ) (some' : 0 < v)
    (room : (digits (2 ^ 32) v).length + n ≤ NLIMB) :
    shiftLimbs n (digits (2 ^ 32) v) = some (digits (2 ^ 32) (v * 2 ^ (32 * n))) := by
  induction n generalizing v with
  | zero => rw [shiftLimbs, Nat.mul_zero, pow_zero, Nat.mul_one]
  | succ n ih =>
      have up := Nat.digits_base_mul base some'
      have length := congrArg List.length up
      rw [List.length_cons] at length
      have power : 2 ^ 32 * v * 2 ^ (32 * n) = v * 2 ^ (32 * (n + 1)) := by
        rw [Nat.mul_succ, pow_add]
        ring
      rw [shiftLimbs, if_pos (by omega), ← up, ih _ (by positivity) (by omega), power]

theorem shiftBit_eq (small : ∀ d ∈ a, d < 2 ^ 32) (bit : c < 2) :
    shiftBit a c = mulAdd (2 ^ 32) 2 a c := by
  induction a generalizing c with
  | nil => rfl
  | cons w a ih =>
      obtain ⟨head, tail⟩ := List.forall_mem_cons.mp small
      have join : w <<< 1 ||| c = w * 2 + c := by
        rw [← Nat.shiftLeft_add_eq_or_of_lt (by simpa using bit), Nat.shiftLeft_eq, pow_one]
      have out : w >>> 31 = (w * 2 + c) / 2 ^ 32 := by
        rw [Nat.shiftRight_eq_div_pow]
        omega
      have unfolded : shiftBit (w :: a) c =
          ((w <<< 1 ||| c) % 2 ^ 32 :: (shiftBit a (w >>> 31)).1, (shiftBit a (w >>> 31)).2) := rfl
      rw [unfolded, mulAdd_cons, join, out, ih tail (by omega)]

theorem shiftBits_digits (n v : ℕ) (room : v * 2 ^ n < (2 ^ 32) ^ NLIMB) :
    shiftBits n (digits (2 ^ 32) v) = some (digits (2 ^ 32) (v * 2 ^ n)) := by
  induction n generalizing v with
  | zero => rw [shiftBits, pow_zero, Nat.mul_one]
  | succ n ih =>
      have double : v * 2 ^ (n + 1) = v * 2 * 2 ^ n := by
        rw [pow_succ]
        ring
      rw [double] at room ⊢
      have fits : v * 2 + 0 < (2 ^ 32) ^ NLIMB :=
        (Nat.le_mul_of_pos_right (v * 2) (by positivity)).trans_lt room
      rw [shiftBits, shiftBit_eq (small_digits v) (by decide),
        store_mulAdd base (by decide) (by decide) (by decide) fits]
      exact ih (v * 2) room

/-- The digits of the integer part. -/
theorem integerDigits_digits (room v : ℕ) (fits : v < 10 ^ room) :
    integerDigits room (digits (2 ^ 32) v) = some (digits 10 v) := by
  induction room generalizing v with
  | zero =>
      obtain rfl : v = 0 := by omega
      rw [integerDigits, Nat.digits_zero, if_pos rfl, Nat.digits_zero]
  | succ room ih =>
      rw [integerDigits]
      split
      · next none =>
          rw [Nat.digits_eq_nil_iff_eq_zero.mp none, Nat.digits_zero]
      · next more =>
          have some' : v ≠ 0 := Nat.digits_ne_nil_iff_ne_zero.mp more
          rw [bdiv10_digits]
          dsimp only
          rw [ih _ (Nat.div_lt_of_lt_mul (by rwa [pow_succ'] at fits)),
            Nat.digits_eq_cons_digits_div (by decide) some']
          rfl

/-- The significand and the exponent of a finite `double` other than zero, as `frexp` gives
them. -/
structure Double (m : ℕ) (e : ℤ) : Prop where
  low : 2 ^ 52 ≤ m
  high : m < 2 ^ 53
  least : -1126 ≤ e
  most : e ≤ 971

theorem significand_lt {m n k : ℕ} (high : m < 2 ^ 53) (most : 53 + n ≤ k) : m * 2 ^ n < 2 ^ k :=
  calc m * 2 ^ n < 2 ^ 53 * 2 ^ n := Nat.mul_lt_mul_of_pos_right high (by positivity)
    _ = 2 ^ (53 + n) := (pow_add 2 53 n).symm
    _ ≤ 2 ^ k := Nat.pow_le_pow_right (by decide) most

/-- The integer part and the fraction are those of the number. -/
theorem split_spec {m : ℕ} {e : ℤ} (double : Double m e) :
    ∃ i f fs, split m e = some (digits (2 ^ 32) i, digits (2 ^ 32) f, fs) ∧ f < 2 ^ fs ∧
      fs ≤ 1126 ∧ i < (10 ^ 5) ^ 64 ∧ (m : ℚ) * 2 ^ e = i + f / 2 ^ fs := by
  obtain ⟨low, high, least, most⟩ := double
  rw [split]
  split
  · next whole =>
      obtain ⟨n, rfl⟩ := Int.eq_ofNat_of_zero_le whole
      have places : 32 * (n / 32) + n % 32 = n := Nat.div_add_mod n 32
      have limbs : NLIMB = 40 := rfl
      have length : (digits (2 ^ 32) m).length ≤ 2 := by
        apply length_le base
        omega
      have shifted : m * 2 ^ (32 * (n / 32)) * 2 ^ (n % 32) = m * 2 ^ n := by
        rw [mul_assoc, ← pow_add, places]
      refine ⟨m * 2 ^ n, 0, 0, ?_, by decide, by decide, ?_, ?_⟩
      · rw [two_digits (by omega) (by omega), Int.toNat_natCast,
          shiftLimbs_digits _ _ (by omega) (by omega)]
        change (shiftBits (n % 32) _ >>= _) = _
        rw [shiftBits_digits _ _ ?_, shifted]
        · change some (strip (digits (2 ^ 32) (m * 2 ^ n)), _, _) = _
          rw [strip_eq base (small_digits _), Nat.ofDigits_digits, Nat.digits_zero]
        · rw [shifted, ← pow_mul]
          exact significand_lt high (by omega)
      · calc m * 2 ^ n < 2 ^ (16 * 64) := significand_lt high (by omega)
          _ = (2 ^ 16) ^ 64 := by rw [pow_mul]
          _ < (10 ^ 5) ^ 64 := Nat.pow_lt_pow_left (by decide) (by decide)
      · push_cast
        simp
  · next fraction =>
      obtain ⟨n, rfl⟩ : ∃ n : ℕ, e = -n := ⟨(-e).toNat, by omega⟩
      have value : ∀ i f : ℕ, i * 2 ^ n + f = m → (m : ℚ) * 2 ^ (-(n : ℤ)) = i + f / 2 ^ n := by
        intro i f parts
        rw [zpow_neg, zpow_natCast, ← parts]
        push_cast
        field_simp
      dsimp only
      rw [neg_neg, Int.toNat_natCast]
      split
      · next narrow =>
          refine ⟨m / 2 ^ n, m % 2 ^ n, n, ?_, Nat.mod_lt _ (by positivity), by omega, ?_, ?_⟩
          · have part : m / 2 ^ n ≤ m := Nat.div_le_self ..
            have part' : m % 2 ^ n ≤ m := Nat.mod_le ..
            rw [Nat.shiftRight_eq_div_pow, Nat.shiftLeft_eq, Nat.one_mul,
              Nat.and_two_pow_sub_one_eq_mod, strip_two (by omega), strip_two (by omega)]
          · calc m / 2 ^ n ≤ m := Nat.div_le_self ..
              _ < 2 ^ 53 := high
              _ < (10 ^ 5) ^ 64 := by norm_num
          · exact value _ _ (Nat.div_add_mod' m (2 ^ n))
      · next wide =>
          refine ⟨0, m, n, ?_, ?_, by omega, Nat.pow_pos (by decide), ?_⟩
          · rw [strip_two (by omega), Nat.digits_zero]
          · exact high.trans_le (Nat.pow_le_pow_right (by decide) (by omega))
          · exact value _ _ (by omega)

end UnixV7.Libc.Ecvt
