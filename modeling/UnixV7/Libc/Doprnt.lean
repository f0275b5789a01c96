import Mathlib.Data.Char
import Mathlib.Data.Nat.Digits.Lemmas
import Mathlib.Tactic.Common
import Mathlib.Tactic.Linarith

/-!
# Formatted output

`_doprnt` and `_strout` of the standard I/O library. A format is the list of its characters before
the zero, a stream the list of the characters put on it. The texts of the conversions of floating
numbers are a parameter.
-/

namespace UnixV7.Stdio

/-- An argument after the format: an `int` or a `long` takes one word, a `long long` two. -/
inductive Arg
  | word (x : BitVec 32)
  | dword (x : BitVec 64)
  | double (x : BitVec 64)
  | string (s : Option (List Char))
  deriving DecidableEq

namespace Arg

/-- `va_arg` of a word -/
def nextWord : List Arg → Option (BitVec 32 × List Arg)
  | word x :: argp => some (x, argp)
  | _ => none

/-- `va_arg` of a double word -/
def nextDword : List Arg → Option (BitVec 64 × List Arg)
  | dword x :: argp => some (x, argp)
  | _ => none

/-- `va_arg` of a `double` -/
def nextDouble : List Arg → Option (BitVec 64 × List Arg)
  | double x :: argp => some (x, argp)
  | _ => none

/-- `va_arg` of a string, which may be a null pointer -/
def nextString : List Arg → Option (Option (List Char) × List Arg)
  | string s :: argp => some (s, argp)
  | _ => none

end Arg

/-- `isdigit` -/
def isdigit (c : Char) : Bool := '0' ≤ c && c ≤ '9'

/-- The loop of `gnum`, in the integers of an `int`. -/
def gnumLoop (n : ℤ) : List Char → ℤ × List Char
  | [] => (n, [])
  | c :: fmt =>
      if isdigit c then gnumLoop ((n * 10 + c.toNat - '0'.toNat).bmod (2 ^ 32)) fmt
      else (n, c :: fmt)

/-- `gnum` -/
def gnum (fmt : List Char) (argp : List Arg) : Option (ℤ × List Char × List Arg) :=
  if fmt.head? = some '*' then do
    let (n, argp) ← Arg.nextWord argp
    some (n.toInt, fmt.tail, argp)
  else
    let (n, fmt) := gnumLoop 0 fmt
    some (n, fmt, argp)

/-- What a directive asks for, up to its conversion. -/
structure Spec where
  rjust : Bool
  zfill : Char
  width : ℤ
  ndigit : ℤ
  ndfnd : Bool
  ll : Bool
  deriving DecidableEq

/-- The precision, `0` if there is none, and whether there is one. -/
def precision (fmt : List Char) (argp : List Arg) : Option (ℤ × Bool × List Char × List Arg) :=
  if fmt.head? = some '.' then do
    let (ndigit, after, argp) ← gnum fmt.tail argp
    some (ndigit, decide (after.length < fmt.tail.length), after, argp)
  else
    some (0, false, fmt, argp)

/-- The conversion for a long argument. -/
def longer : Char → Option Char
  | 'd' => some 'D'
  | 'o' => some 'O'
  | 'x' => some 'X'
  | 'u' => some 'U'
  | _ => none

/-- The conversion, none at the end of the format, and whether it is of a `long long`. -/
def conversion : List Char → Bool × Option Char × List Char
  | [] => (false, none, [])
  | c :: fmt =>
      if c = 'l' ∨ c = 'L' then
        let ll := fmt.head? = some 'l'
        let fmt := if ll then fmt.tail else fmt
        match fmt.head? >>= longer with
        | some c => (ll, some c, fmt.tail)
        | none => (ll, some 'u', fmt)
      else
        (false, some c, fmt)

/-- A directive from behind its `%` on. -/
def directive (fmt : List Char) (argp : List Arg) :
    Option (Spec × Option Char × List Char × List Arg) := do
  let rjust := fmt.head? = some '-'
  let fmt := if rjust then fmt.tail else fmt
  let zfill := if fmt.head? = some '0' then '0' else ' '
  let (width, fmt, argp) ← gnum fmt argp
  let (ndigit, ndfnd, fmt, argp) ← precision fmt argp
  let (ll, c, fmt) := conversion fmt
  some (⟨rjust, zfill, width, ndigit, ndfnd, ll⟩, c, fmt, argp)

/-- `"0123456789abcdef"[d]` -/
def digitChar (d : ℕ) : Char := "0123456789abcdef".toList.getD d ' '

/-- The loop that puts the digits of `u` before `s`; `u` has 64 bits and the base is 8 at least, so
that its end is reached. -/
def digits (base : ℕ) : ℕ → ℕ → List Char → List Char
  | 0, _, s => s
  | fuel + 1, u, s =>
      if u / base = 0 then digitChar (u % base) :: s
      else digits base fuel (u / base) (digitChar (u % base) :: s)

/-- The text from the label `num` on. -/
def num (spec : Spec) (base : ℕ) (u : BitVec 64) : List Char :=
  (if spec.ndigit ≠ 0 ∧ u ≠ 0 then ['0'] else []) ++ digits base 64 u.toNat []

/-- The text of a signed argument. -/
def signed (spec : Spec) (u : BitVec 64) : List Char :=
  if u.toInt < 0 then '-' :: num spec 10 (-u) else num spec 10 u

/-- The signed argument. -/
def signedArg (spec : Spec) (argp : List Arg) : Option (BitVec 64 × List Arg) :=
  if spec.ll then Arg.nextDword argp
  else (Arg.nextWord argp).map fun (x, argp) => (x.signExtend 64, argp)

/-- The unsigned argument. -/
def unsignedArg (spec : Spec) (argp : List Arg) : Option (BitVec 64 × List Arg) :=
  if spec.ll then Arg.nextDword argp
  else (Arg.nextWord argp).map fun (x, argp) => (x.setWidth 64, argp)

/-- The precision of a conversion of a floating number. -/
def realDigits (spec : Spec) : ℤ :=
  let ndigit := if spec.ndfnd then spec.ndigit else 6
  if 70 < ndigit then 70 else ndigit

/-- The characters of a string that are printed. -/
def shown (spec : Spec) (s : List Char) : List Char :=
  if spec.ndfnd then s.take spec.ndigit.toNat else s

/-- The text of a conversion, and the character it is filled up with. -/
def convert (real : Char → ℤ → BitVec 64 → List Char) (spec : Spec) (c : Char) (argp : List Arg) :
    Option (List Char × Char × List Arg) :=
  match c with
  | 'd' | 'D' => (signedArg spec argp).map fun (u, argp) => (signed spec u, spec.zfill, argp)
  | 'o' | 'O' => (unsignedArg spec argp).map fun (u, argp) => (num spec 8 u, spec.zfill, argp)
  | 'x' | 'X' => (unsignedArg spec argp).map fun (u, argp) => (num spec 16 u, spec.zfill, argp)
  | 'u' | 'U' => (unsignedArg spec argp).map fun (u, argp) => (num spec 10 u, spec.zfill, argp)
  | 'e' | 'f' | 'g' =>
      (Arg.nextDouble argp).map fun (x, argp) => (real c (realDigits spec) x, spec.zfill, argp)
  | 'c' => (Arg.nextWord argp).map fun (x, argp) =>
      (if x.setWidth 8 = 0#8 then [] else [Char.ofNat (x.setWidth 8).toNat], ' ', argp)
  | 's' => (Arg.nextString argp).map fun (s, argp) =>
      (shown spec (s.getD "(null)".toList), ' ', argp)
  | c => some ([c], spec.zfill, argp)

/-- `_strout` with an `adjust` of `-n`. -/
def fillLeft (fillch : Char) : ℕ → List Char → List Char
  | 0, string => string
  | n + 1, string =>
      if string.head? = some '-' ∧ fillch = '0' then '-' :: fillch :: fillLeft fillch n string.tail
      else fillch :: fillLeft fillch n string

/-- `_strout` -/
def strout (string : List Char) (adjust : ℤ) (fillch : Char) : List Char :=
  fillLeft fillch (-adjust).toNat string ++ List.replicate adjust.toNat fillch

/-- The text of a directive, filled up to its width. -/
def filled (spec : Spec) (zfill : Char) (text : List Char) : List Char :=
  let c := max (spec.width - text.length) 0
  strout text (if spec.rjust then c else -c) zfill

/-- The loop of `_doprnt`, which takes a character of the format at least each time. -/
def doprntLoop (real : Char → ℤ → BitVec 64 → List Char) :
    ℕ → List Char → List Arg → Option (List Char)
  | 0, _, _ => none
  | fuel + 1, fmt, argp =>
      let plain := fmt.takeWhile (· ≠ '%')
      match fmt.dropWhile (· ≠ '%') with
      | [] => some plain
      | _ :: fmt => do
          let (spec, c, fmt, argp) ← directive fmt argp
          match c with
          | none => some plain
          | some c => do
              let (text, zfill, argp) ← convert real spec c argp
              let rest ← doprntLoop real fuel fmt argp
              some (plain ++ filled spec zfill text ++ rest)

/-- `_doprnt` -/
def doprnt (real : Char → ℤ → BitVec 64 → List Char) (fmt : List Char) (argp : List Arg) :
    Option (List Char) :=
  doprntLoop real (fmt.length + 1) fmt argp

end UnixV7.Stdio
