import Mathlib.Data.List.Basic
import Mathlib.Data.Nat.Bitwise

/-!
# Compiled expressions of grep

`compile` of `grep.c`. An expression is compiled into items: a character, a dot, a class with its
table of 128 bits, the brackets of a group, the text of a group again, and the end of the line.
Characters are bytes, and the memory from a pointer on is the list of the bytes there: reading past
its end gives nothing.
-/

namespace UnixV7

namespace Grep

/-- The characters that mean something in an expression. -/
def caret : UInt8 := '^'.toUInt8
def dot : UInt8 := '.'.toUInt8
def asterisk : UInt8 := '*'.toUInt8
def dollar : UInt8 := '$'.toUInt8
def leftBracket : UInt8 := '['.toUInt8
def rightBracket : UInt8 := ']'.toUInt8
def hyphen : UInt8 := '-'.toUInt8
def backslash : UInt8 := '\\'.toUInt8
def leftParen : UInt8 := '('.toUInt8
def rightParen : UInt8 := ')'.toUInt8
def digitOne : UInt8 := '1'.toUInt8
def digitNine : UInt8 := '9'.toUInt8
def newline : UInt8 := '\n'.toUInt8

/-- The size of `expbuf` -/
def ESIZE : ℕ := 256

/-- The groups there may be. -/
def NBRA : ℕ := 9

/-- An item of `expbuf`, with its `STAR`. The 16 bytes of a class are one number. -/
inductive Item where
  | cchr (c : UInt8) (star : Bool)
  | cdot (star : Bool)
  | ccl (table : ℕ) (star : Bool)
  | cbra (n : ℕ)
  | cket (n : ℕ)
  | cback (n : ℕ) (star : Bool)
  | cdol
  deriving DecidableEq

/-- The bytes of `expbuf` that an item takes. -/
def Item.size : Item → ℕ
  | .cchr _ _ => 2
  | .cdot _ => 1
  | .ccl _ _ => 17
  | .cbra _ => 2
  | .cket _ => 2
  | .cback _ _ => 2
  | .cdol => 1

/-- `*lastep |= STAR`. The code of a bracket has the bit already or is never met here, and the end
of the line is followed by the end of the expression. -/
def Item.addStar : Item → Item
  | .cchr c _ => .cchr c true
  | .cdot _ => .cdot true
  | .ccl table _ => .ccl table true
  | .cback n _ => .cback n true
  | item => item

/-- `*lastep==CBRA || *lastep==CKET` -/
def Item.isBracket : Item → Bool
  | .cbra _ => true
  | .cket _ => true
  | _ => false

/-- `c & 0177` -/
def low (c : UInt8) : ℕ := c.toNat % 128

/-- `ep[c>>3] |= bittab[c&07]` -/
def setBit (table c : ℕ) : ℕ := table ||| 2 ^ c

/-- `ep[c>>3] & bittab[c&07]` -/
def inClass (table : ℕ) (c : UInt8) : Bool := table.testBit (low c)

/-- `for (c = sp[-2]&0177; c<(*sp&0177); c++) ep[c>>3] |= bittab[c&07];`, with the bit of the last
`c` set after it. -/
def setRange (table first last : ℕ) : ℕ :=
  setBit ((List.range' first (last - first)).foldl setBit table) (max first last)

/-- `ep[cclcnt] ^= -1` for the whole table, and `ep[0] &= 0376` -/
def negate (table : ℕ) : ℕ := (table ^^^ (2 ^ 128 - 1)) &&& (2 ^ 128 - 2)

/-- The variables of `compile`: the items in `expbuf`, which of them `lastep` is, the open groups
innermost first, and how many groups were closed and opened. -/
structure Partial where
  expbuf : List Item
  lastep : Option ℕ
  bracket : List ℕ
  closed : ℕ
  numbra : ℕ

namespace Partial

/-- `ep - expbuf` -/
def ep (s : Partial) : ℕ := (s.expbuf.map Item.size).sum

/-- `lastep = ep` -/
def setLast (s : Partial) : Partial := { s with lastep := some s.expbuf.length }

/-- An item is written at `ep`. -/
def put (s : Partial) (item : Item) : Partial := { s with expbuf := s.expbuf ++ [item] }

/-- `lastep==0 || *lastep==CBRA || *lastep==CKET` -/
def noRepeat (s : Partial) : Bool :=
  match s.lastep with
  | none => true
  | some i => (s.expbuf[i]?).any Item.isBracket

/-- `*lastep |= STAR` -/
def repeatLast (s : Partial) : Partial :=
  match s.lastep with
  | none => s
  | some i => { s with expbuf := s.expbuf.modify i Item.addStar }

/-- `\(` -/
def opening (s : Partial) : Partial :=
  { s.put (.cbra s.numbra) with bracket := s.numbra :: s.bracket, numbra := s.numbra + 1 }

/-- `\)` -/
def closing (s : Partial) (n : ℕ) (bracket : List ℕ) : Partial :=
  { s.put (.cket n) with bracket := bracket, closed := s.closed + 1 }

/-- What follows a backslash: a bracket, a reference to a group, or a character. -/
def escape (s : Partial) (c : UInt8) : Option Partial :=
  if c = leftParen then
    if NBRA ≤ s.numbra then none else some s.opening
  else if c = rightParen then
    match s.bracket with
    | [] => none
    | n :: bracket => some (s.closing n bracket)
  else if digitOne ≤ c ∧ c ≤ digitNine then
    if s.closed ≤ (c - digitOne).toNat then none
    else some (s.put (.cback (c - digitOne).toNat false))
  else some (s.put (.cchr c false))

end Partial

mutual

/-- The loop of `compile`; nothing where the expression is not accepted. -/
def compileFrom (s : Partial) : List UInt8 → Option (List Item)
  | [] => none
  | c :: sp =>
      if ESIZE ≤ s.ep then none
      else if c = 0 then some s.expbuf
      else if c = dot then compileFrom (s.setLast.put (.cdot false)) sp
      else if c = asterisk then
        if s.noRepeat then compileFrom (s.put (.cchr c false)) sp
        else compileFrom s.repeatLast sp
      else if c = dollar then
        match sp with
        | [] => none
        | d :: sp' =>
            if d ≠ 0 then compileFrom (s.setLast.put (.cchr c false)) (d :: sp')
            else compileFrom (s.setLast.put .cdol) (d :: sp')
      else if c = leftBracket then
        if ESIZE ≤ s.ep + 17 then none
        else
          match sp with
          | [] => none
          | d :: sp' =>
              if d = caret then classFrom s.setLast true 0 true 0 sp'
              else classFrom s.setLast false 0 true 0 (d :: sp')
      else if c = backslash then
        match sp with
        | [] => none
        | d :: sp' =>
            match s.setLast.escape d with
            | none => none
            | some s => compileFrom s sp'
      else compileFrom (s.setLast.put (.cchr c false)) sp

/-- The loop over the characters of a class, from the character `c` on. `first` says that
`sp == cstart`, and `before` is the character in front of `c`, which is `sp[-2]`. -/
def classFrom (s : Partial) (neg : Bool) (table : ℕ) (first : Bool) (before : UInt8) :
    List UInt8 → Option (List Item)
  | [] => none
  | c :: sp =>
      if c = 0 then none
      else
        match sp with
        | [] => none
        | d :: sp' =>
            if c = hyphen ∧ ¬first ∧ d ≠ rightBracket then
              match sp' with
              | [] => none
              | e :: sp'' =>
                  let table := setRange table (low before) (low d)
                  if e = rightBracket then
                    compileFrom (s.put (.ccl (if neg then negate table else table) false)) sp''
                  else classFrom s neg table false d (e :: sp'')
            else
              let table := setBit table (low c)
              if d = rightBracket then
                compileFrom (s.put (.ccl (if neg then negate table else table) false)) sp'
              else classFrom s neg table false c (d :: sp')

end

/-- `compile`: the items of `expbuf`, and `circf`. -/
def compile (astr : List UInt8) : Option (List Item × Bool) :=
  match astr with
  | [] => none
  | c :: sp =>
      if c = caret then (compileFrom ⟨[], none, [], 0, 0⟩ sp).map fun expbuf => (expbuf, true)
      else (compileFrom ⟨[], none, [], 0, 0⟩ (c :: sp)).map fun expbuf => (expbuf, false)

end Grep

end UnixV7
