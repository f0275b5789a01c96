import Mathlib.Data.BitVec
import Mathlib.Tactic.NormNum
import Mathlib.Tactic.Ring
import UnixV7.Libc.Doscan

/-!
# Integers printed and read again

What `_doprnt` makes of an integer is blanks, a sign and digits, and from these `_innum` makes the
integer.
-/

namespace UnixV7.Stdio

/-- The number read so far, after more digits. -/
def numeral (b n : ℕ) (ds : List Char) : ℕ := ds.foldl (fun n c => n * b + digitVal c) n

/-- A number in a format: the characters, the arguments they take, and the value. -/
inductive Field : List Char → List Arg → ℤ → Prop
  | star (x : BitVec 32) : Field ['*'] [.word x] x.toInt
  | digits (ds : List Char) (plain : ∀ c ∈ ds, isdigit c) (fits : numeral 10 0 ds < 2 ^ 31) :
      Field ds [] (numeral 10 0 ds)

/-- The precision in a format, which may be missing. -/
inductive Precision : List Char → List Arg → Prop
  | none : Precision [] []
  | some (p : List Char) (args : List Arg) (n : ℤ) (field : Field p args n) :
      Precision ('.' :: p) args

/-- An integer of one of the sizes that are printed. -/
inductive Value
  | int (x : BitVec 32)
  | long (x : BitVec 32)
  | llong (x : BitVec 64)
  deriving DecidableEq

namespace Value

/-- The characters before the conversion. -/
def modifier : Value → List Char
  | int _ => []
  | long _ => ['l']
  | llong _ => ['l', 'l']

/-- The value as an argument. -/
def arg : Value → Arg
  | int x => .word x
  | long x => .word x
  | llong x => .dword x

/-- The size of the value. -/
def size : Value → Size
  | int _ => .REGULAR
  | long _ => .LONG
  | llong _ => .LLONG

/-- The value where it is stored. -/
def stored : Value → Stored
  | int x => .int x
  | long x => .long x
  | llong x => .llong x

/-- The 64 bits printed: the sign goes on with `%d` only. -/
def bits (signed : Bool) : Value → BitVec 64
  | int x => if signed then x.signExtend 64 else x.setWidth 64
  | long x => if signed then x.signExtend 64 else x.setWidth 64
  | llong x => x

end Value

variable {b n k : ℕ} {c : Char} {ds rest fmt : List Char}

theorem numeral_cons : numeral b n (c :: ds) = numeral b (n * b + digitVal c) ds := rfl

theorem numeral_zeros (j : ℕ) : numeral b 0 (List.replicate j '0' ++ ds) = numeral b 0 ds := by
  induction j with
  | zero => rfl
  | succ j ih =>
      rw [List.replicate_succ, List.cons_append, numeral_cons, Nat.zero_mul]
      exact ih

/-! ## The format -/

theorem le_numeral (n : ℕ) (ds : List Char) : n ≤ numeral 10 n ds := by
  induction ds generalizing n with
  | nil => exact le_rfl
  | cons c ds ih =>
      have := ih (n * 10 + digitVal c)
      rw [numeral_cons]
      omega

theorem digitVal_of_isdigit (digit : isdigit c) :
    (c.toNat : ℤ) - '0'.toNat = digitVal c ∧ digitVal c < 10 := by
  have range : '0' ≤ c ∧ c ≤ '9' := by simpa [isdigit] using digit
  have low : '0'.toNat ≤ c.toNat := range.1
  have high : c.toNat ≤ '9'.toNat := range.2
  have zero : '0'.toNat = 48 := rfl
  have nine : '9'.toNat = 57 := rfl
  rw [digitVal, if_pos range]
  omega

theorem gnumLoop_digits (plain : ∀ c ∈ ds, isdigit c) (fits : numeral 10 n ds < 2 ^ 31)
    (next : ∀ c ∈ rest.head?, isdigit c = false) :
    gnumLoop n (ds ++ rest) = (((numeral 10 n ds : ℕ) : ℤ), rest) := by
  induction ds generalizing n with
  | nil =>
      cases rest with
      | nil => rfl
      | cons c rest =>
          rw [List.nil_append, gnumLoop, next c rfl]
          rfl
  | cons c ds ih =>
      obtain ⟨head, tail⟩ := List.forall_mem_cons.mp plain
      obtain ⟨value, small⟩ := digitVal_of_isdigit head
      have bound := (le_numeral (n * 10 + digitVal c) ds).trans_lt fits
      have sum : ((n : ℤ) * 10 + c.toNat - '0'.toNat).bmod (2 ^ 32) =
          ((n * 10 + digitVal c : ℕ) : ℤ) := by
        have exact : (n : ℤ) * 10 + c.toNat - '0'.toNat = ((n * 10 + digitVal c : ℕ) : ℤ) := by
          rw [Nat.cast_add, Nat.cast_mul, ← value]
          ring
        rw [exact]
        apply Int.bmod_eq_of_le <;> omega
      rw [List.cons_append, gnumLoop, if_pos head, sum]
      exact ih tail fits

theorem gnum_field {args : List Arg} {n : ℤ} (field : Field ds args n)
    (next : ∀ c ∈ rest.head?, isdigit c = false ∧ c ≠ '*') (more : List Arg) :
    gnum (ds ++ rest) (args ++ more) = some (n, rest, more) := by
  cases field with
  | star x => rfl
  | digits ds plain fits =>
      have first : (ds ++ rest).head? ≠ some '*' := by
        cases ds with
        | nil =>
            intro star
            exact (next '*' star).2 rfl
        | cons c ds =>
            intro star
            obtain rfl := Option.some.inj star
            exact absurd (plain '*' List.mem_cons_self) (by decide)
      rw [gnum, if_neg first]
      have read := gnumLoop_digits (n := 0) plain fits fun c mem => (next c mem).1
      rw [Nat.cast_zero] at read
      rw [read]
      rfl

/-- The conversions of integers. -/
def Integral (c : Char) : Prop := c = 'd' ∨ c = 'u' ∨ c = 'o' ∨ c = 'x'

/-- A directive for an integer: the flag, the width, the precision and the conversion. -/
def format (minus : Bool) (w p : List Char) (v : Value) (conv : Char) : List Char :=
  '%' :: ((if minus then ['-'] else []) ++ (w ++ (p ++ (v.modifier ++ [conv]))))

/-- Whether a value is a `long long`. -/
def Value.ll : Value → Bool
  | llong _ => true
  | _ => false

/-- The text of an integer before it is filled up. -/
def text (spec : Spec) (v : Value) (conv : Char) : List Char :=
  if conv = 'd' then signed spec (v.bits true) else num spec (base conv) (v.bits false)

variable {real : Char → ℤ → BitVec 64 → List Char} {spec : Spec} {v : Value} {conv : Char}
  {w p : List Char} {wargs pargs : List Arg} {width : ℤ}

theorem conversion_modifier (integral : Integral conv) :
    ∃ c, conversion (v.modifier ++ [conv]) = (v.ll, some c, []) ∧
      (c = conv ∨ longer conv = some c) := by
  obtain rfl | rfl | rfl | rfl := integral
  all_goals
    cases v with
    | int x => exact ⟨_, rfl, .inl rfl⟩
    | long x => exact ⟨_, rfl, .inr rfl⟩
    | llong x => exact ⟨_, rfl, .inr rfl⟩

theorem signedArg_arg (same : spec.ll = v.ll) :
    signedArg spec [v.arg] = some (v.bits true, []) := by
  rw [signedArg, same]
  cases v <;> rfl

theorem unsignedArg_arg (same : spec.ll = v.ll) :
    unsignedArg spec [v.arg] = some (v.bits false, []) := by
  rw [unsignedArg, same]
  cases v <;> rfl

theorem convert_arg (real : Char → ℤ → BitVec 64 → List Char) (same : spec.ll = v.ll)
    (integral : Integral conv) (letter : c = conv ∨ longer conv = some c) :
    convert real spec c [v.arg] = some (text spec v conv, spec.zfill, []) := by
  have signed := signedArg_arg same
  have unsigned := unsignedArg_arg same
  obtain rfl | rfl | rfl | rfl := integral
  all_goals
    obtain rfl | long := letter
    · simp [convert, signed, unsigned, text, base]
    · obtain rfl := Option.some.inj long
      simp [convert, signed, unsigned, text, base]

/-- What a directive reads before the conversion begins with a letter. -/
theorem head_modifier (integral : Integral conv) (mem : c ∈ (v.modifier ++ [conv]).head?) :
    isdigit c = false ∧ c ≠ '*' ∧ c ≠ '-' ∧ c ≠ '.' ∧ c ≠ '0' := by
  have letters : c = 'l' ∨ Integral c := by
    cases v with
    | int x =>
        obtain rfl := Option.some.inj mem
        exact .inr integral
    | long x => exact .inl (Option.some.inj mem).symm
    | llong x => exact .inl (Option.some.inj mem).symm
  obtain rfl | rfl | rfl | rfl | rfl := letters <;> decide

theorem precision_field (precision' : Precision p pargs) (integral : Integral conv) :
    ∃ n given, precision (p ++ (v.modifier ++ [conv])) (pargs ++ [v.arg]) =
      some (n, given, v.modifier ++ [conv], [v.arg]) := by
  cases precision' with
  | none =>
      refine ⟨0, false, ?_⟩
      rw [precision, if_neg]
      · rfl
      · intro dot
        exact (head_modifier integral dot).2.2.2.1 rfl
  | some p args n field =>
      have next : ∀ c ∈ (v.modifier ++ [conv]).head?, isdigit c = false ∧ c ≠ '*' := fun c mem =>
        ⟨(head_modifier integral mem).1, (head_modifier integral mem).2.1⟩
      have read := gnum_field field next [v.arg]
      apply Exists.intro n
      apply Exists.intro
      rw [precision, List.cons_append, List.head?_cons, if_pos rfl, List.tail_cons, read]
      rfl

/-- The head of what follows the width. -/
theorem head_precision (precision' : Precision p pargs) (integral : Integral conv)
    (mem : c ∈ (p ++ (v.modifier ++ [conv])).head?) :
    isdigit c = false ∧ c ≠ '*' ∧ c ≠ '-' ∧ c ≠ '0' := by
  cases precision' with
  | none =>
      obtain ⟨digit, star, minus, -, zero⟩ := head_modifier integral mem
      exact ⟨digit, star, minus, zero⟩
  | some p args n field =>
      obtain rfl := Option.some.inj mem
      decide

theorem directive_format (field : Field w wargs width) (precision' : Precision p pargs)
    (integral : Integral conv) (minus : Bool) :
    ∃ n given c, directive (format minus w p v conv).tail (wargs ++ (pargs ++ [v.arg])) =
        some (⟨minus, if w.head? = some '0' then '0' else ' ', width, n, given, v.ll⟩, some c, [],
          [v.arg]) ∧
      (c = conv ∨ longer conv = some c) := by
  obtain ⟨c, letter, long⟩ := conversion_modifier (v := v) integral
  obtain ⟨n, given, after⟩ := precision_field (v := v) precision' integral
  have next : ∀ c ∈ (p ++ (v.modifier ++ [conv])).head?, isdigit c = false ∧ c ≠ '*' :=
    fun c mem => ⟨(head_precision precision' integral mem).1,
      (head_precision precision' integral mem).2.1⟩
  have read := gnum_field field next (pargs ++ [v.arg])
  have first : ∀ d, d = '-' ∨ d = '0' → (w ++ (p ++ (v.modifier ++ [conv]))).head? = some d →
      w.head? = some d := by
    intro d either head
    cases w with
    | nil =>
        obtain ⟨-, -, minus, zero⟩ := head_precision precision' integral head
        obtain same | same := either
        · exact absurd same minus
        · exact absurd same zero
    | cons e w => exact head
  have plain : w.head? ≠ some '-' := by
    intro head
    cases field with
    | star x => exact absurd head (by decide)
    | digits ds plain fits =>
        obtain ⟨rest, rfl⟩ := List.head?_eq_some_iff.mp head
        exact absurd (plain '-' List.mem_cons_self) (by decide)
  have zero : ((w ++ (p ++ (v.modifier ++ [conv]))).head? = some '0') = (w.head? = some '0') := by
    apply propext
    constructor
    · exact first '0' (.inr rfl)
    · intro head
      rw [List.head?_append, head]
      rfl
  refine ⟨n, given, c, ?_, long⟩
  cases minus with
  | true =>
      rw [directive, format]
      simp only [List.tail_cons, if_true, List.singleton_append, List.head?_cons, zero, read]
      simp only [Option.bind_eq_bind, Option.bind_some, after, letter, decide_true]
  | false =>
      have none : (w ++ (p ++ (v.modifier ++ [conv]))).head? ≠ some '-' :=
        fun head => plain (first '-' (.inl rfl) head)
      rw [directive, format]
      simp only [List.tail_cons, if_false, Bool.false_eq_true, List.nil_append, none, zero, read]
      simp only [Option.bind_eq_bind, Option.bind_some, after, letter, decide_false]

/-! ## The text -/

theorem digitChar_spec {d : ℕ} (small : d < 16) :
    digitVal (digitChar d) = d ∧ isDigitOf 16 (digitChar d) ∧
      (d < 10 → isdigit (digitChar d)) := by
  revert d
  decide

theorem isDigitOf_digitChar {d : ℕ} (bases : b = 8 ∨ b = 10 ∨ b = 16) (small : d < b) :
    digitVal (digitChar d) = d ∧ isDigitOf b (digitChar d) := by
  obtain ⟨value, hex, decimal⟩ := digitChar_spec (show d < 16 by omega)
  refine ⟨value, ?_⟩
  obtain rfl | rfl | rfl := bases
  · rw [isDigitOf, decimal (by omega)]
    rfl
  · rw [isDigitOf, decimal small]
    rfl
  · exact hex

/-- The digits of a number in a base. -/
structure Numeral (b u : ℕ) (ds : List Char) : Prop where
  some : ds ≠ []
  digits : ∀ c ∈ ds, isDigitOf b c
  value : numeral b 0 ds = u

/-- The digits that the loop puts before `s`, at most as many as the size of the number allows. -/
theorem digits_spec (bases : b = 8 ∨ b = 10 ∨ b = 16) (fuel u k : ℕ) (s : List Char)
    (size : u < b ^ k) (some : 0 < k) (enough : k ≤ fuel) :
    ∃ ds, digits b fuel u s = ds ++ s ∧ ds ≠ [] ∧ ds.length ≤ k ∧
      (∀ c ∈ ds, isDigitOf b c) ∧ ∀ more, numeral b 0 (ds ++ more) = numeral b u more := by
  have positive : 0 < b := by omega
  induction fuel generalizing u k s with
  | zero => omega
  | succ fuel ih =>
      obtain ⟨value, digit⟩ := isDigitOf_digitChar bases (Nat.mod_lt u positive)
      rw [digits]
      split
      · next last =>
          refine ⟨[digitChar (u % b)], rfl, by simp, some, by simpa using digit, fun more => ?_⟩
          have small : u % b = u := Nat.mod_eq_of_lt ((Nat.div_eq_zero_iff_lt positive).mp last)
          rw [List.singleton_append, numeral_cons, value, small, Nat.zero_mul, Nat.zero_add]
      · next larger =>
          have longer : 1 < k := by
            by_contra short
            obtain rfl : k = 1 := by omega
            exact larger (Nat.div_eq_of_lt (by simpa using size))
          have size' : u / b < b ^ (k - 1) := by
            apply Nat.div_lt_of_lt_mul
            rw [← pow_succ', Nat.sub_add_cancel some]
            exact size
          obtain ⟨ds, split, nonempty, length, all, read⟩ :=
            ih (u / b) (k - 1) (digitChar (u % b) :: s) size' (by omega) (by omega)
          refine ⟨ds ++ [digitChar (u % b)], by rw [split, List.append_assoc]; rfl, by simp, ?_, ?_,
            fun more => ?_⟩
          · rw [List.length_append, List.length_singleton]
            omega
          · intro c mem
            obtain mem | mem := List.mem_append.mp mem
            · exact all c mem
            · rw [List.mem_singleton.mp mem]
              exact digit
          · rw [List.append_assoc, read, List.singleton_append, numeral_cons, value,
              Nat.div_add_mod']

theorem num_spec (bases : b = 8 ∨ b = 10 ∨ b = 16) (spec : Spec) (u : BitVec 64) :
    Numeral b u.toNat (num spec b u) ∧ (num spec b u).length ≤ 23 := by
  have size : u.toNat < b ^ 22 :=
    calc u.toNat < 2 ^ 64 := u.isLt
      _ ≤ 8 ^ 22 := by norm_num
      _ ≤ b ^ 22 := Nat.pow_le_pow_left (by omega) 22
  obtain ⟨ds, split, nonempty, length, all, read⟩ :=
    digits_spec bases 64 u.toNat 22 [] size (by decide) (by decide)
  have value : numeral b 0 ds = u.toNat := by
    rw [← List.append_nil ds, read]
    rfl
  rw [List.append_nil] at split
  rw [num, split]
  split
  · refine ⟨⟨by simp, List.forall_mem_cons.mpr ⟨?_, all⟩, ?_⟩, ?_⟩
    · rw [isDigitOf]
      rfl
    · rw [← value]
      exact numeral_zeros 1
    · rw [List.length_append, List.length_singleton]
      omega
  · exact ⟨⟨nonempty, all, value⟩, by rw [List.nil_append]; omega⟩

/-- A text filled up on the left by blanks or by zeros behind its sign, or on the right by
blanks. -/
theorem filled_spec (spec : Spec) {sign body : List Char} (signs : sign = [] ∨ sign = ['-'])
    (head : ∀ c ∈ body.head?, c ≠ '-') {zfill : Char} (fills : zfill = ' ' ∨ zfill = '0')
    (right : spec.rjust → zfill = ' ') :
    ∃ i j k, filled spec zfill (sign ++ body) =
        List.replicate i ' ' ++ (sign ++ (List.replicate j '0' ++ body)) ++ List.replicate k ' ' ∧
      ((sign ++ (List.replicate j '0' ++ body)).length : ℤ) ≤
        max spec.width (sign ++ body).length := by
  have blanks : ∀ n string, fillLeft ' ' n string = List.replicate n ' ' ++ string := by
    intro n string
    induction n with
    | zero => rfl
    | succ n ih =>
        rw [fillLeft, if_neg (fun minus => absurd minus.2 (by decide)), ih]
        rfl
  have zeros : ∀ n, fillLeft '0' n body = List.replicate n '0' ++ body := by
    intro n
    induction n with
    | zero => rfl
    | succ n ih =>
        rw [fillLeft, if_neg (fun minus => head '-' minus.1 rfl), ih]
        rfl
  have signed : ∀ n, fillLeft '0' n (sign ++ body) = sign ++ (List.replicate n '0' ++ body) := by
    intro n
    obtain rfl | rfl := signs
    · exact zeros n
    · cases n with
      | zero => rfl
      | succ n =>
          rw [List.singleton_append, fillLeft, if_pos ⟨rfl, rfl⟩, List.tail_cons, zeros]
          rfl
  have plain : (sign ++ (List.replicate 0 '0' ++ body)).length = (sign ++ body).length := rfl
  rw [filled]
  generalize length : (sign ++ body).length = len at plain ⊢
  have none : (-max (spec.width - (len : ℤ)) 0).toNat = 0 := by omega
  cases rjust : spec.rjust with
  | true =>
      rw [right rjust]
      refine ⟨0, 0, (max (spec.width - (len : ℤ)) 0).toNat, ?_, by omega⟩
      simp only [if_true, strout, none, fillLeft]
      rfl
  | false =>
      have some : strout (sign ++ body) (-max (spec.width - (len : ℤ)) 0) zfill =
          fillLeft zfill (max (spec.width - (len : ℤ)) 0).toNat (sign ++ body) := by
        rw [strout, none, neg_neg, List.replicate_zero, List.append_nil]
      simp only [Bool.false_eq_true, if_false]
      rw [some]
      obtain rfl | rfl := fills
      · refine ⟨(max (spec.width - (len : ℤ)) 0).toNat, 0, 0, ?_, by omega⟩
        simp only [blanks, List.replicate_zero, List.append_nil, List.nil_append]
      · refine ⟨0, (max (spec.width - (len : ℤ)) 0).toNat, 0, ?_, ?_⟩
        · rw [signed, List.replicate_zero, List.nil_append, List.append_nil]
        · rw [List.length_append, List.length_append, List.length_replicate]
          rw [List.length_append] at length
          push_cast
          omega

/-! ## Reading -/

theorem shifted_ofNat (bases : b = 8 ∨ b = 10 ∨ b = 16) (n d : ℕ) :
    shifted b (BitVec.ofNat 64 n) + BitVec.ofNat 64 d = BitVec.ofNat 64 (n * b + d) := by
  apply BitVec.eq_of_toNat_eq
  obtain rfl | rfl | rfl := bases
  all_goals
    simp only [shifted, if_true, Nat.reduceEqDiff, if_false, BitVec.toNat_add,
      BitVec.toNat_shiftLeft, BitVec.toNat_ofNat, Nat.shiftLeft_eq]
    omega

theorem isDigitOf_hex (digit : isDigitOf b c) : isDigitOf 16 c := by
  rw [isDigitOf, Bool.or_eq_true, Bool.and_eq_true] at digit ⊢
  exact digit.imp id fun letter => ⟨rfl, letter.2⟩

/-- The loop over digits. -/
theorem innumLoop_digits (bases : b = 8 ∨ b = 10 ∨ b = 16) (float : Bool) (len n ndigit : ℕ)
    (np rest : List Char) (expseen : Bool) (all : ∀ c ∈ ds, isDigitOf b c)
    (room : np.length + ds.length ≤ 64) :
    innumLoop b float (ds.length + len)
        ⟨np, (ds ++ rest).head?, (ds ++ rest).tail, BitVec.ofNat 64 n, ndigit, expseen⟩ =
      innumLoop b float len ⟨np ++ ds, rest.head?, rest.tail, BitVec.ofNat 64 (numeral b n ds),
        ndigit + ds.length, expseen⟩ := by
  induction ds generalizing np n ndigit with
  | nil =>
      rw [List.append_nil, List.nil_append, List.length_nil, Nat.zero_add]
      rfl
  | cons c ds ih =>
      obtain ⟨digit, all⟩ := List.forall_mem_cons.mp all
      rw [List.length_cons] at room
      have length : (np ++ [c]).length = np.length + 1 := by simp
      have step := ih (n * b + digitVal c) (ndigit + 1) (np ++ [c]) all (by omega)
      rw [show (c :: ds).length + len = ds.length + len + 1 by rw [List.length_cons]; omega]
      rw [innumLoop]
      dsimp only [List.cons_append, List.head?_cons, List.tail_cons]
      rw [if_pos digit, Scan.take_of_lt (by dsimp only; omega)]
      change innumLoop b float (ds.length + len) ⟨_, _, _, shifted b _ + _, _, _⟩ = _
      rw [shifted_ofNat bases, step, List.append_assoc, List.singleton_append, numeral_cons,
        List.length_cons]
      congr 2
      omega

/-- The loop ends before a character that is no digit. -/
theorem innumLoop_stop (len : ℕ) (s : Scan) (next : ∀ c ∈ s.c, isDigitOf b c = false) :
    innumLoop b false len s = .ok s := by
  cases len with
  | zero => rfl
  | succ len =>
      rw [innumLoop]
      cases char : s.c with
      | none => rfl
      | some c =>
          dsimp only
          rw [if_neg (by simp [next c char])]
          split
          · exact if_pos (.inr rfl)
          split
          · exact if_pos (.inr (.inl rfl))
          · rfl

theorem innumRest_digits {type : Char} (bases : base type = 8 ∨ base type = 10 ∨ base type = 16)
    (integer : floating type = false) (len : ℤ) (size : Size) (negflg : Bool) (np : List Char)
    (some : ds ≠ []) (all : ∀ c ∈ ds, isDigitOf (base type) c)
    (next : ∀ c ∈ rest.head?, isDigitOf (base type) c = false)
    (room : np.length + ds.length ≤ 62) (width : ds.length ≤ len) :
    innumRest true type len size negflg ⟨np, (ds ++ rest).head?, (ds ++ rest).tail, 0, 0, false⟩ =
      .ok ⟨true, stored false size (np ++ ds)
        (if negflg then -BitVec.ofNat 64 (numeral (base type) 0 ds)
          else BitVec.ofNat 64 (numeral (base type) 0 ds)), rest, rest.isEmpty⟩ := by
  obtain ⟨more, enough⟩ : ∃ more, len.toNat = ds.length + more := ⟨len.toNat - ds.length, by omega⟩
  have read := innumLoop_digits bases (floating type) more 0 0 np rest false all (by omega)
  have length : (np ++ ds).length < 64 := by
    rw [List.length_append]
    omega
  rw [innumRest, enough, show (0 : BitVec 64) = BitVec.ofNat 64 0 from rfl, read, integer,
    innumLoop_stop more _ next]
  change (if !true || (np ++ ds).isEmpty then _ else _) = _
  rw [if_neg (by simp [some]), put_of_lt length]
  cases rest <;> rfl

/-- A number behind blanks is read up to the first character that is no digit of it. -/
theorem innum_number {type : Char} (bases : base type = 8 ∨ base type = 10 ∨ base type = 16)
    (integer : floating type = false) {len : ℤ} (wide : 62 ≤ len) (size : Size) (blanks : ℕ)
    (negflg : Bool) (nonempty : ds ≠ []) (all : ∀ c ∈ ds, isDigitOf (base type) c)
    (next : ∀ c ∈ rest.head?, isDigitOf (base type) c = false)
    (room : ((if negflg then ['-'] else []) ++ ds).length ≤ 62) :
    innum true type len size
        (List.replicate blanks ' ' ++ ((if negflg then ['-'] else []) ++ ds) ++ rest) =
      .ok ⟨true, stored false size ((if negflg then ['-'] else []) ++ ds)
        (if negflg then -BitVec.ofNat 64 (numeral (base type) 0 ds)
          else BitVec.ofNat 64 (numeral (base type) 0 ds)), rest, rest.isEmpty⟩ := by
  have skip : ∀ c more, white c = false →
      (List.replicate blanks ' ' ++ (c :: more)).dropWhile white = c :: more := by
    intro c more black
    rw [List.dropWhile_append_of_pos fun x mem => by rw [List.eq_of_mem_replicate mem]; rfl]
    exact List.dropWhile_cons_of_neg (by simp [black])
  have width : (if 62 < len then 62 else len) = 62 := by
    split <;> omega
  rw [innum, width, List.append_assoc]
  cases negflg with
  | true =>
      simp only [if_true, List.singleton_append, List.length_cons] at room ⊢
      rw [List.cons_append, skip '-' _ rfl]
      apply (if_pos rfl).trans
      rw [Scan.take_of_lt (by simp)]
      exact innumRest_digits bases integer _ size true ['-'] nonempty all next
        (by rw [List.length_singleton]; omega) (by omega)
  | false =>
      simp only [Bool.false_eq_true, if_false, List.nil_append] at room ⊢
      obtain ⟨c, tail, rfl⟩ := List.exists_cons_of_ne_nil nonempty
      have digit : isDigitOf (base type) c := all c List.mem_cons_self
      have other : ∀ d : Char, isDigitOf 16 d = false → some c ≠ some d := by
        intro d not same
        obtain rfl := Option.some.inj same
        rw [isDigitOf_hex digit] at not
        contradiction
      have black : white c = false := by
        have blank := other ' ' rfl
        have tab := other '\t' rfl
        have newline := other '\n' rfl
        rw [ne_eq, Option.some.injEq] at blank tab newline
        simp [white, blank, tab, newline]
      rw [List.cons_append, skip c _ black]
      apply (if_neg (other '-' rfl)).trans
      apply (if_neg (other '+' rfl)).trans
      exact innumRest_digits bases integer _ size false [] nonempty all next
        (by rw [List.length_nil]; omega) (by omega)

/-! ## Printing and reading -/

theorem base_cases (integral : Integral conv) :
    (base conv = 8 ∨ base conv = 10 ∨ base conv = 16) ∧ floating conv = false := by
  obtain rfl | rfl | rfl | rfl := integral <;> decide

theorem setWidth_signExtend (x : BitVec 32) : (x.signExtend 64).setWidth 32 = x := by
  ext i inside
  simp only [BitVec.getElem_setWidth, BitVec.getLsbD_signExtend]
  simp [inside, show i < 64 by omega]

theorem stored_bits (v : Value) (signed : Bool) (numbuf : List Char) :
    stored false v.size numbuf (v.bits signed) = some v.stored := by
  cases v with
  | int x =>
      cases signed <;> simp [stored, Value.size, Value.bits, Value.stored, setWidth_signExtend]
  | long x =>
      cases signed <;> simp [stored, Value.size, Value.bits, Value.stored, setWidth_signExtend]
  | llong x => rfl

/-- The text of an integer is a sign and digits of it. -/
theorem text_spec (spec : Spec) (v : Value) (integral : Integral conv) :
    ∃ (negflg : Bool) (ds : List Char) (signed : Bool) (u : BitVec 64),
      text spec v conv = (if negflg then ['-'] else []) ++ ds ∧ ds.length ≤ 23 ∧
      Numeral (base conv) u.toNat ds ∧ (if negflg then -u else u) = v.bits signed := by
  by_cases decimal : conv = 'd'
  · subst decimal
    rw [text, if_pos rfl, signed]
    split
    · obtain ⟨numeral, short⟩ := num_spec (b := 10) (by decide) spec (-v.bits true)
      exact ⟨true, _, true, -v.bits true, rfl, short, numeral,
        by rw [if_pos rfl, BitVec.neg_neg]⟩
    · obtain ⟨numeral, short⟩ := num_spec (b := 10) (by decide) spec (v.bits true)
      exact ⟨false, _, true, v.bits true, rfl, short, numeral, rfl⟩
  · obtain ⟨numeral, short⟩ := num_spec (base_cases integral).1 spec (v.bits false)
    rw [text, if_neg decimal]
    exact ⟨false, _, false, v.bits false, rfl, short, numeral, rfl⟩

theorem doprnt_format (real : Char → ℤ → BitVec 64 → List Char) (v : Value)
    (field : Field w wargs width) (precision' : Precision p pargs) (integral : Integral conv)
    (minus : Bool) :
    ∃ n given, doprnt real (format minus w p v conv) (wargs ++ (pargs ++ [v.arg])) =
      some (filled ⟨minus, if w.head? = some '0' then '0' else ' ', width, n, given, v.ll⟩
        (if w.head? = some '0' then '0' else ' ')
        (text ⟨minus, if w.head? = some '0' then '0' else ' ', width, n, given, v.ll⟩ v conv)) := by
  obtain ⟨n, given, c, read, letter⟩ := directive_format (v := v) field precision' integral minus
  refine ⟨n, given, ?_⟩
  have same : (⟨minus, if w.head? = some '0' then '0' else ' ', width, n, given, v.ll⟩ : Spec).ll =
      v.ll := rfl
  have converted := convert_arg real same integral letter
  rw [doprnt, doprntLoop, format, List.takeWhile_cons_of_neg (by decide),
    List.dropWhile_cons_of_neg (by decide)]
  dsimp only
  rw [format, List.tail_cons] at read
  rw [read]
  dsimp only [Option.bind_eq_bind, Option.bind_some]
  rw [converted]
  dsimp only [Option.bind_eq_bind, Option.bind_some]
  rw [List.length_cons, doprntLoop]
  simp

/-- What is printed is read again up to the blanks behind it, and no number overruns the
buffer. -/
theorem innum_doprnt (real : Char → ℤ → BitVec 64 → List Char) (minus : Bool) (v : Value)
    (field : Field w wargs width) (small : width ≤ 60) (precision' : Precision p pargs)
    (integral : Integral conv) (fill : minus → w.head? ≠ some '0') :
    (∃ text blanks,
      doprnt real (format minus w p v conv) (wargs ++ (pargs ++ [v.arg])) =
        some (text ++ List.replicate blanks ' ') ∧
      text.getLast? ≠ some ' ' ∧
      ∀ len rest, 62 ≤ len →
        (∀ c ∈ (List.replicate blanks ' ' ++ rest).head?, isDigitOf (base conv) c = false) →
        innum true conv len v.size (text ++ (List.replicate blanks ' ' ++ rest)) =
          .ok ⟨true, some v.stored, List.replicate blanks ' ' ++ rest,
            (List.replicate blanks ' ' ++ rest).isEmpty⟩) ∧
    ∀ ptr type len size iop, ∃ result, innum ptr type len size iop = .ok result := by
  refine ⟨?_, innum_fits⟩
  obtain ⟨bases, integer⟩ := base_cases integral
  obtain ⟨n, given, printed⟩ :=
    doprnt_format real v field precision' integral minus
  generalize zero : (if w.head? = some '0' then '0' else ' ') = zfill at printed
  obtain ⟨negflg, ds, signed, u, split, short, numeral, bits⟩ :=
    text_spec ⟨minus, zfill, width, n, given, v.ll⟩ v integral
  have signs : (if negflg then ['-'] else []) = [] ∨ (if negflg then ['-'] else []) = ['-'] := by
    cases negflg with
    | true => exact .inr rfl
    | false => exact .inl rfl
  have head : ∀ c ∈ ds.head?, c ≠ '-' := by
    intro c mem same
    have digit := isDigitOf_hex (numeral.digits c (List.mem_of_mem_head? mem))
    subst same
    exact absurd digit (by decide)
  have fills : zfill = ' ' ∨ zfill = '0' := by
    rw [← zero]
    split
    · exact .inr rfl
    · exact .inl rfl
  have right : minus → zfill = ' ' := by
    intro flag
    rw [← zero, if_neg (fill flag)]
  obtain ⟨i, j, k, layout, length⟩ :=
    filled_spec (⟨minus, zfill, width, n, given, v.ll⟩ : Spec) signs head fills right
  rw [split, layout] at printed
  have all : ∀ c ∈ List.replicate j '0' ++ ds, isDigitOf (base conv) c := by
    intro c mem
    obtain mem | mem := List.mem_append.mp mem
    · rw [List.eq_of_mem_replicate mem, isDigitOf]
      rfl
    · exact numeral.digits c mem
  have room : ((if negflg then ['-'] else []) ++ (List.replicate j '0' ++ ds)).length ≤ 62 := by
    have sign : (if negflg then ['-'] else []).length ≤ 1 := by
      cases negflg <;> decide
    have own : ((if negflg then ['-'] else []) ++ ds).length ≤ 24 := by
      rw [List.length_append]
      omega
    dsimp only at length
    omega
  have last : (List.replicate i ' ' ++ ((if negflg then ['-'] else []) ++
      (List.replicate j '0' ++ ds))).getLast? ≠ some ' ' := by
    intro blank
    rw [← List.append_assoc, ← List.append_assoc, List.getLast?_append_of_ne_nil _ numeral.some]
      at blank
    exact absurd (isDigitOf_hex (numeral.digits ' ' (List.mem_of_mem_getLast? blank))) (by decide)
  refine ⟨_, k, printed, last, fun len rest wide next => ?_⟩
  have read := innum_number bases integer wide v.size i negflg
    (List.append_ne_nil_of_right_ne_nil _ numeral.some) all next room
  rw [read, numeral_zeros, numeral.value, BitVec.ofNat_toNat, BitVec.setWidth_eq, bits, stored_bits]

theorem innum_doprnt_least : ∃ text blanks,
    doprnt (fun _ _ _ => []) (format false ['0', '3', '0'] ['.', '*'] (.llong (2 ^ 63)) 'd')
      [.word 4, .dword (2 ^ 63)] = some (text ++ List.replicate blanks ' ') ∧
    innum true 'd' 30000 .LLONG (text ++ List.replicate blanks ' ') =
      .ok ⟨true, some (.llong (2 ^ 63)), List.replicate blanks ' ',
        (List.replicate blanks ' ').isEmpty⟩ := by
  obtain ⟨text, blanks, printed, -, read⟩ :=
    (innum_doprnt (fun _ _ _ => []) false (.llong (2 ^ 63))
      (.digits ['0', '3', '0'] (List.all_eq_true.mp rfl) (by decide)) (by decide)
      (.some ['*'] [.word 4] 4 (.star 4)) (.inl rfl) (by decide)).1
  refine ⟨text, blanks, printed, ?_⟩
  have result := read 30000 [] (by decide) (by
    rw [List.append_nil]
    cases blanks with
    | zero => intro c mem; contradiction
    | succ blanks =>
        intro c mem
        obtain rfl := Option.some.inj mem
        decide)
  rwa [List.append_nil] at result

end UnixV7.Stdio
