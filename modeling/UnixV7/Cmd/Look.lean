import Mathlib.Algebra.Group.Nat.Defs
import Mathlib.Data.List.TakeWhile
import Mathlib.Logic.Relation
import UnixV7.Library.Fuel
import UnixV7.Library.Lines

/-!
# Looking a key up in a sorted file

The search of `look.c`: the bounds are places in the file and move to the beginnings of lines. An
open file is what is left of it behind the place where it stands.
-/

namespace UnixV7.Look

open UnixV7.Fuel UnixV7.Lines

/-- A value does not fit, or the fuel is spent. -/
inductive Fault
  | overflow
  | running

/-- A value of type `long`. -/
def long (x : ℕ) : Except Fault ℕ := if x < 2 ^ 31 then .ok x else .error .overflow

def newline : UInt8 := '\n'.toUInt8

/-- The options; `tab` is zero when it is not given. -/
structure Options where
  dict : Bool
  fold : Bool
  tab : UInt8

def isupper (c : UInt8) : Bool := 'A'.toUInt8 ≤ c ∧ c ≤ 'Z'.toUInt8

def islower (c : UInt8) : Bool := 'a'.toUInt8 ≤ c ∧ c ≤ 'z'.toUInt8

def isdigit (c : UInt8) : Bool := '0'.toUInt8 ≤ c ∧ c ≤ '9'.toUInt8

def isalnum (c : UInt8) : Bool := isupper c || islower c || isdigit c

/-- `canon`: what comes before the null of `new`. -/
def canon (o : Options) : List UInt8 → List UInt8
  | [] => []
  | c :: old =>
      if c = 0 ∨ c = o.tab then []
      else if o.dict ∧ ¬ isalnum c then canon o old
      else (if o.fold ∧ isupper c then c + ('a'.toUInt8 - 'A'.toUInt8) else c) :: canon o old

/-- `compare` -/
def compare : List UInt8 → List UInt8 → ℤ
  | [], [] => 0
  | [], _ :: _ => -1
  | _ :: _, [] => 1
  | c :: s, d :: t => if c = d then compare s t else if c < d then -2 else 2

/-- The loop to the end of a line: the place behind it and what is left there. -/
def skip : List UInt8 → ℕ → ℕ × List UInt8
  | [], mid => (mid + 1, [])
  | c :: rest, mid => if c = newline then (mid + 1, rest) else skip rest (mid + 1)

/-- `getword`: 249 characters of a line find room. -/
def getword (w : List UInt8) : List UInt8 → Option (List UInt8 × List UInt8)
  | [] => none
  | c :: rest =>
      if c = newline then some (w, rest)
      else getword (if w.length < 249 then w ++ [c] else w) rest

/-- `puts` stops at a null. -/
def puts (entry : List UInt8) : List UInt8 := entry.takeWhile (· ≠ 0) ++ [newline]

/-- The binary search: `top` and `bot` where it ends. -/
def search (o : Options) (file key : List UInt8) : ℕ → ℕ → ℕ → Except Fault (ℕ × ℕ)
  | 0, _, _ => .error .running
  | fuel + 1, top, bot => do
      let sum ← long (top + bot)
      let behind := skip (file.drop (sum / 2)) (sum / 2)
      match getword [] behind.2 with
      | none => .ok (top, bot)
      | some (entry, _) =>
          if compare key (canon o entry) ≤ 0 then
            if top ≤ behind.1 then .ok (top, bot) else search o file key fuel behind.1 bot
          else search o file key fuel top behind.1

theorem getword_length {w entry file rest : List UInt8}
    (found : getword w file = some (entry, rest)) : rest.length < file.length := by
  induction file generalizing w with
  | nil => exact nomatch found
  | cons c file ih =>
      rw [getword] at found
      split at found
      · rw [← (Prod.mk.inj (Option.some.inj found)).2]
        exact Nat.lt_succ_self _
      · exact (ih found).trans (Nat.lt_succ_self _)

/-- The second loop behind the search. -/
def tail (o : Options) (key file : List UInt8) : List UInt8 :=
  match _found : getword [] file with
  | none => []
  | some (entry, rest) =>
      let r := compare key (canon o entry)
      if r = -1 ∨ r = 0 then puts entry ++ tail o key rest else []
termination_by file.length
decreasing_by exact getword_length _found

/-- The first loop behind the search, up to `top` in a file of `size` characters. -/
def scan (o : Options) (key : List UInt8) (size top : ℕ) (file : List UInt8) : List UInt8 :=
  if size - file.length < top then
    match _found : getword [] file with
    | none => []
    | some (entry, rest) =>
        let r := compare key (canon o entry)
        if r = -2 then []
        else if r = -1 ∨ r = 0 then puts entry ++ tail o key rest
        else scan o key size top rest
  else tail o key file
termination_by file.length
decreasing_by exact getword_length _found

/-- What is printed for the argument `arg`. -/
def look (o : Options) (arg file : List UInt8) (fuel : ℕ) : Except Fault (List UInt8) := do
  let bounds ← search o file (canon o arg) fuel file.length 0
  .ok (scan o (canon o arg) file.length bounds.1 (file.drop bounds.2))

/-! ## Lines and keys -/

variable {o : Options} {key s t u : List UInt8} {lines : List (List UInt8)} {m : ℕ}

/-- A line that `getword` reads whole. -/
def Proper (line : List UInt8) : Prop := newline ∉ line ∧ line.length < 250

theorem compare_begins (s t : List UInt8) : compare s t = -1 ∨ compare s t = 0 ↔ s <+: t := by
  induction s generalizing t with
  | nil => cases t <;> simp [compare]
  | cons c s ih =>
      cases t with
      | nil => simp [compare]
      | cons d t =>
          rw [compare, List.cons_prefix_cons]
          split
          next same => rw [ih, and_iff_right same]
          next different => split <;> simp [different]

/-- The lines are in the order of their canonical forms. -/
def Sorted (o : Options) (lines : List (List UInt8)) : Prop :=
  lines.Pairwise fun a b => compare (canon o a) (canon o b) ≤ 0

/-- How many lines stand before the key. -/
def place (o : Options) (key : List UInt8) (lines : List (List UInt8)) : ℕ :=
  (lines.takeWhile fun line => ¬ compare key (canon o line) ≤ 0).length

/-- The line begins with the key. -/
def Begins (o : Options) (key line : List UInt8) : Prop := key <+: canon o line

instance (o : Options) (key line : List UInt8) : Decidable (Begins o key line) :=
  inferInstanceAs (Decidable (_ <+: _))

/-- The lines that begin with the key. -/
def found (o : Options) (key : List UInt8) (lines : List (List UInt8)) : List (List UInt8) :=
  lines.filter fun line => Begins o key line

theorem Begins.le {line : List UInt8} (begins : Begins o key line) :
    compare key (canon o line) ≤ 0 := by
  obtain one | zero := (compare_begins _ _).mpr begins
  · rw [one]
    decide
  · rw [zero]

/-- The beginning of the line behind the one in which `m` is. -/
def behind (file : List UInt8) (m : ℕ) : ℕ := (skip (file.drop m) m).1

/-- The bounds `top` and `bot` are narrowed towards a place: the middle moves to the beginning of
the next line and takes the side of `bot` when it stands before the place. -/
inductive Halves (file : List UInt8) (place : ℕ) : ℕ × ℕ → ℕ × ℕ → Prop
  | lower {top bot : ℕ} (after : place ≤ behind file ((top + bot) / 2))
      (less : behind file ((top + bot) / 2) < top) :
      Halves file place (top, bot) (behind file ((top + bot) / 2), bot)
  | upper {top bot : ℕ} (before : behind file ((top + bot) / 2) < place) :
      Halves file place (top, bot) (top, behind file ((top + bot) / 2))

theorem Halves.unique {file : List UInt8} {place : ℕ} {x y z : ℕ × ℕ}
    (left : Halves file place x y) (right : Halves file place x z) : y = z := by
  cases left with
  | lower after less =>
      cases right with
      | lower => rfl
      | upper before => exact absurd before (Nat.not_lt_of_le after)
  | upper before =>
      cases right with
      | lower after => exact absurd before (Nat.not_lt_of_le after)
      | upper => rfl

theorem skip_le (file : List UInt8) (mid : ℕ) : (skip file mid).1 ≤ mid + file.length + 1 := by
  induction file generalizing mid with
  | nil => exact Nat.le_refl (mid + 1)
  | cons c rest ih =>
      have later := ih (mid + 1)
      rw [skip, List.length_cons]
      split <;> omega

/-- The bounds stay within the file, or one behind its end. -/
theorem Halves.within {file : List UInt8} {place : ℕ} {x y : ℕ × ℕ} (halves : Halves file place x y)
    (within : x.1 ≤ file.length ∧ x.2 ≤ file.length + 1) :
    y.1 ≤ file.length ∧ y.2 ≤ file.length + 1 := by
  cases halves with
  | lower after less => exact ⟨(Nat.le_of_lt less).trans within.1, within.2⟩
  | @upper top bot before =>
      obtain ⟨high, low⟩ := within
      have skipped := skip_le (file.drop ((top + bot) / 2)) ((top + bot) / 2)
      rw [List.length_drop] at skipped
      refine ⟨high, ?_⟩
      rw [behind]
      dsimp only at high low ⊢
      omega

/-- The bytes that the blocks of the largest file hold. -/
def largest : ℕ := (10 + 128 + 128 ^ 2 + 128 ^ 3) * 512

end UnixV7.Look
