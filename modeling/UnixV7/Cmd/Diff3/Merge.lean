import Mathlib.Data.List.Basic
import Mathlib.Tactic.Common
import UnixV7.Library.Lines

/-!
# Merging two lists of changes

`merge`, `skip`, `duplicate`, `edit` and `edscript` of `diff3.c`, with an option that asks for a
script. A change list is what is left of it from the pointer on.
-/

namespace UnixV7.Diff3

open Function

/-- `trouble` reports a logic error; the other fault is that the fuel is spent. -/
inductive Fault
  | trouble
  | running

/-- `struct range`, with the members `from` and `to`. -/
structure Range where
  start : ℕ
  stop : ℕ

/-- `struct diff` -/
structure Diff where
  old : Range
  new : Range

/-- The numbers of the files, as they are in the reports. -/
inductive Which
  | one
  | two
  | three
deriving DecidableEq

/-- An open file and the place where it is read. -/
structure File where
  text : List Char
  pos : ℕ

/-- `fp` and `cline` -/
structure Input where
  fp : Which → File
  cline : Which → ℕ

/-- The options that ask for a script. -/
inductive Flag
  | e
  | three
  | x

def Flag.eflag : Flag → ℕ
  | e => 3
  | three => 2
  | x => 1

def NC : ℕ := 200

def File.rest (f : File) : List Char := f.text.drop f.pos

/-- `fseek` to a place that is given from the one where the file is read. -/
def File.forth (f : File) (n : ℕ) : File := { f with pos := f.pos + n }

def File.back (f : File) (n : ℕ) : File := { f with pos := f.pos - n }

/-- `getline`: the length of the line, or zero at the end of the file. -/
def getline (rest : List Char) : ℕ :=
  if '\n' ∈ rest then (rest.takeWhile (· ≠ '\n')).length + 1 else 0

namespace Input

/-- A line of `j` characters is read. -/
def read (s : Input) (i : Which) (j : ℕ) : Input where
  fp := update s.fp i ((s.fp i).forth j)
  cline := update s.cline i (s.cline i + 1)

/-- The loop of `skip` for a number of lines. -/
def skipLines (i : Which) : ℕ → Input → Except Fault (ℕ × Input)
  | 0, s => .ok (0, s)
  | lines + 1, s =>
      let j := getline (s.fp i).rest
      if j = 0 then .error .trouble
      else do
        let (n, s) ← skipLines i lines (s.read i j)
        .ok (j + n, s)

def skip (s : Input) (i : Which) (start : ℕ) : Except Fault (ℕ × Input) :=
  skipLines i (start - 1 - s.cline i) s

/-- Both characters of every pair are read. -/
def passed (s : Input) (nchar : ℕ) : Input :=
  { s with
    fp := update (update s.fp .one ((s.fp .one).forth nchar)) .two ((s.fp .two).forth nchar) }

def repos (s : Input) (nchar : ℕ) : Input :=
  { s with fp := update (update s.fp .one ((s.fp .one).back nchar)) .two ((s.fp .two).back nchar) }

end Input

/-- The loops of `duplicate` over the lines and the characters: the answer and `nchar`. -/
def compare : ℕ → List Char → List Char → ℕ → Except Fault (Bool × ℕ)
  | 0, _, _, nchar => .ok (true, nchar)
  | lines + 1, c :: f, d :: g, nchar =>
      if c ≠ d then .ok (false, nchar + 1)
      else if c = '\n' then compare lines f g (nchar + 1)
      else compare (lines + 1) f g (nchar + 1)
  | _ + 1, _, _, _ => .error .trouble

def duplicate (r₁ r₂ : Range) (s : Input) : Except Fault (Bool × Input) :=
  if r₁.stop - r₁.start ≠ r₂.stop - r₂.start then .ok (false, s)
  else do
    let (_, s) ← s.skip .one r₁.start
    let (_, s) ← s.skip .two r₂.start
    let (same, nchar) ← compare (r₁.stop - r₁.start) (s.fp .one).rest (s.fp .two).rest 0
    .ok (same, (s.passed nchar).repos nchar)

/-- `edit`: `de` begins with what was collected last, and `de[0]` is zero. -/
def edit (flag : Flag) (diff : Diff) (dup : Bool) (de : List Diff) (s : Input) :
    Except Fault (List Diff × Input) :=
  if (dup.toNat + 1) &&& flag.eflag = 0 then .ok (de, s)
  else do
    let (n, s) ← s.skip .three diff.new.start
    let start := (de.head?.elim 0 fun e => e.new.stop) + n
    let (n, s) ← s.skip .three diff.new.stop
    .ok (⟨diff.old, ⟨start, start + n⟩⟩ :: de, s)

namespace Diff

/-- The change begins where an earlier one does. -/
def begin (d e : Diff) : Diff :=
  if e.new.start < d.new.start then
    ⟨⟨d.old.start - (d.new.start - e.new.start), d.old.stop⟩, ⟨e.new.start, d.new.stop⟩⟩
  else d

/-- The change ends where a later one does. -/
def finish (d e : Diff) : Diff :=
  if d.new.stop < e.new.stop then
    ⟨⟨d.old.start, d.old.stop + (e.new.stop - d.new.stop)⟩, ⟨d.new.start, e.new.stop⟩⟩
  else d

/-- A change that reaches the next one of its list becomes part of it. -/
def into (d : Diff) : List Diff → Option (List Diff)
  | [] => none
  | next :: rest =>
      if next.new.start ≤ d.new.stop then
        some (⟨⟨d.old.start, next.old.stop⟩, ⟨d.new.start, next.new.stop⟩⟩ :: rest)
      else none

end Diff

def merge (flag : Flag) : ℕ → List Diff → List Diff → List Diff → Input →
    Except Fault (List Diff × Input)
  | 0, _, _, _, _ => .error .running
  | _ + 1, [], [], de, s => .ok (de, s)
  | fuel + 1, _ :: d₁, [], de, s => merge flag fuel d₁ [] de s
  | fuel + 1, [], _ :: d₂, de, s => merge flag fuel [] d₂ de s
  | fuel + 1, x :: d₁, y :: d₂, de, s =>
      -- first file is different from others
      if x.new.stop < y.new.start then merge flag fuel d₁ (y :: d₂) de s
      -- second file is different from others
      else if y.new.stop < x.new.start then merge flag fuel (x :: d₁) d₂ de s
      else
        match x.into d₁, y.into d₂ with
        | some d₁, _ => merge flag fuel d₁ (y :: d₂) de s
        | none, some d₂ => merge flag fuel (x :: d₁) d₂ de s
        | none, none =>
            -- stuff peculiar to third file or different in all
            if x.new.start = y.new.start ∧ x.new.stop = y.new.stop then do
              let (dup, s) ← duplicate x.old y.old s
              let (de, s) ← edit flag x dup de s
              merge flag fuel d₁ d₂ de s
            else
              let x' := x.begin y
              let y' := y.begin x
              merge flag fuel (x'.finish y' :: d₁) (y'.finish x' :: d₂) de s

/-- What `printf` writes for a number. -/
def decimal (n : ℕ) : List Char := Nat.toDigits 10 n

def prange (rold : Range) : List Char :=
  if rold.stop ≤ rold.start then decimal (rold.start - 1) ++ ['a', '\n']
  else
    decimal rold.start ++
      (if rold.start + 1 < rold.stop then ',' :: decimal (rold.stop - 1) else []) ++ ['c', '\n']

/-- The loop that copies `k` characters in blocks, with `k` as fuel. -/
def copy : ℕ → ℕ → File → Except Fault (List Char)
  | _, 0, _ => .ok []
  | 0, _ + 1, _ => .error .running
  | fuel + 1, k + 1, f =>
      let j := if k + 1 > 512 then 512 else k + 1
      let block := f.rest.take j
      if block.length ≠ j then .error .trouble
      else do
        let rest ← copy fuel (k + 1 - j) (f.forth j)
        .ok (block ++ rest)

/-- `edscript`: the last of `de` is printed first. -/
def edscript (f : File) : List Diff → Except Fault (List Char)
  | [] => .ok []
  | e :: de => do
      let k := e.new.stop - e.new.start
      let text ← copy k k { f with pos := e.new.start }
      let script ← edscript f de
      .ok (prange e.old ++ text ++ ['.', '\n'] ++ script)

/-- All files are open and nothing is read yet. -/
def Input.opened (texts : Which → List Char) : Input where
  fp i := ⟨texts i, 0⟩
  cline _ := 0

/-- `diff3` from the change lists and the files on. -/
def diff3 (flag : Flag) (d13 d23 : List Diff) (texts : Which → List Char) (fuel : ℕ) :
    Except Fault (List Char) := do
  let (de, s) ← merge flag fuel d13 d23 [] (.opened texts)
  edscript (s.fp .three) de

end UnixV7.Diff3
