import Mathlib.Data.Nat.Notation
import Mathlib.Logic.Function.Basic

/-!
# The words of fgrep

`cgotofn` of `fgrep.c` enters the words in a table. A place of the machine is a list of `words`
linked by `link`, one for each character that may follow, and `nst` leads to the place behind that
character. The table is a function of the index, and `smax` the last element in use.
-/

namespace UnixV7

open Function

namespace Fgrep

/-- `MAXSIZ` -/
def MAXSIZ : ℕ := 6000

def newline : UInt8 := 10

/-- Why there is no result: `overflo` stopped the program, or a pointer leads nowhere or a loop does
not end. -/
inductive Stop where
  | overflo
  | stuck
  deriving DecidableEq

/-- `struct words` -/
structure Words where
  inp : UInt8
  out : Bool
  nst : Option ℕ
  link : Option ℕ
  fail : Option ℕ

/-- An element of the table that was never written. -/
def blank : Words := ⟨0, false, none, none, none⟩

/-- `w` and `smax` -/
structure Table where
  w : ℕ → Words
  smax : ℕ

/-- Where the loop over a list ends: at the character, at an element without one, or behind the
last one. -/
inductive Place where
  | same (s : ℕ)
  | empty (s : ℕ)
  | last (s : ℕ)

/-- The loop over the elements of a list in `cgotofn`, with the character `c`. -/
def loop (w : ℕ → Words) (c : UInt8) : ℕ → ℕ → Except Stop Place
  | 0, _ => .error .stuck
  | fuel + 1, s =>
      if (w s).inp = c then .ok (.same s)
      else if (w s).inp = 0 then .ok (.empty s)
      else
        match (w s).link with
        | none => .ok (.last s)
        | some t => loop w c fuel t

/-- A pointer is followed. -/
def follow (p : Option ℕ) : Except Stop ℕ :=
  match p with
  | none => .error .stuck
  | some s => .ok s

namespace Table

/-- `if (smax >= &w[MAXSIZ - 1]) overflo(); s->link = ++smax;` -/
def addLink (t : Table) (s : ℕ) : Except Stop Table :=
  if MAXSIZ - 1 ≤ t.smax then .error .overflo
  else .ok ⟨update t.w s { t.w s with link := some (t.smax + 1) }, t.smax + 1⟩

/-- `s->inp = c; if (smax >= &w[MAXSIZ - 1]) overflo(); s->nst = ++smax;` -/
def addChild (t : Table) (s : ℕ) (c : UInt8) : Except Stop Table :=
  if MAXSIZ - 1 ≤ t.smax then .error .overflo
  else .ok ⟨update t.w s { t.w s with inp := c, nst := some (t.smax + 1) }, t.smax + 1⟩

/-- `s->out = 1` -/
def setOut (t : Table) (s : ℕ) : Table := { t with w := update t.w s { t.w s with out := true } }

/-- What follows the label `nenter`: the newline behind a whole line is entered. -/
def nenter (t : Table) (s : ℕ) : Except Stop Table := do
  let t ← t.addChild s newline
  .ok (t.setOut t.smax)

/-- What follows the loop of `enter`. -/
def finish (xflag : Bool) (t : Table) : Except Stop Table :=
  if xflag then t.nenter t.smax else .ok (t.setOut t.smax)

/-- The newline behind a word that was there already up to the element `s`. -/
def endWord (xflag : Bool) (t : Table) (s : ℕ) : Except Stop Table :=
  if xflag then do
    match ← loop t.w newline MAXSIZ s with
    | .same s => do
        let s ← follow (t.w s).nst
        .ok (t.setOut s)
    | .empty s => t.nenter s
    | .last s => do
        let t ← t.addLink s
        t.nenter t.smax
  else .ok (t.setOut s)

end Table

mutual

/-- The loop at `nword`, over the characters that `getargc` gives up to the end of the file. -/
def nword (xflag : Bool) (t : Table) (s : ℕ) : List UInt8 → Except Stop Table
  | [] => .ok t
  | c :: args =>
      if c = newline then do
        let t ← t.endWord xflag s
        nword xflag t 0 args
      else do
        match ← loop t.w c MAXSIZ s with
        | .same s => do
            let s ← follow (t.w s).nst
            nword xflag t s args
        | .empty s => enter xflag t s c args
        | .last s => do
            let t ← t.addLink s
            enter xflag t t.smax c args

/-- The loop at `enter`: the rest of a word is new. -/
def enter (xflag : Bool) (t : Table) (s : ℕ) (c : UInt8) : List UInt8 → Except Stop Table
  | [] => do
      let t ← t.addChild s c
      t.finish xflag
  | d :: args => do
      let t ← t.addChild s c
      if d = newline then do
        let t ← t.finish xflag
        nword xflag t 0 args
      else enter xflag t t.smax d args

end

/-- `cgotofn` -/
def cgotofn (xflag : Bool) (args : List UInt8) : Except Stop Table :=
  nword xflag ⟨fun _ => blank, 0⟩ 0 args

end Fgrep

end UnixV7
