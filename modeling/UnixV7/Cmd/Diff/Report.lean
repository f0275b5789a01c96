import Mathlib.Data.Nat.Digits.Defs
import UnixV7.Cmd.Diff.Main

/-!
# The text of the changes

`change`, `range` and `fetch` of `diff.c`. The text is one of lines: a line with the numbers of each
change, and the lines of the two files that it is about.
-/

namespace UnixV7

open Function

namespace Diff

/-- What `printf` writes for a number. -/
def decimal (n : ℕ) : List ℕ := (Nat.toDigits 10 n).map Char.toNat

/-- `range` -/
def range (a b : ℕ) (separator : List ℕ) : List ℕ :=
  decimal (if b < a then b else a) ++ if a < b then separator ++ decimal b else []

/-- `a>b?'a':c>d?'d':'c'` -/
def Change.kind (x : Change) : ℕ :=
  if x.b < x.a then 'a'.toNat else if x.d < x.c then 'd'.toNat else 'c'.toNat

/-- `fetch`, with `s` before each line. -/
def fetchWith (s : List ℕ) (ix : ℕ → ℕ) (a b : ℕ) (f : List ℕ) : List ℕ :=
  (List.range' a (b + 1 - a)).flatMap fun i => s ++ (f.drop (ix (i - 1))).take (ix i - ix (i - 1))

/-- The strings that `change` prints. -/
def oldMark : List ℕ := ['<', ' '].map Char.toNat

def newMark : List ℕ := ['>', ' '].map Char.toNat

def rule : List ℕ := ['-', '-', '-'].map Char.toNat

def period : List ℕ := ['.'].map Char.toNat

/-- The line with which `change` begins. -/
def Change.header (opt : ℤ) (x : Change) : List ℕ :=
  if opt ≠ 1 then
    range x.a x.b [','.toNat] ++ x.kind :: if opt ≠ -1 then range x.c x.d [','.toNat] else []
  else x.kind :: range x.a x.b [' '.toNat]

/-- `change` -/
def Change.print (opt : ℤ) (s : Reading) (old new : List ℕ) (x : Change) : List ℕ :=
  if x.Idle then []
  else
    x.header opt ++ newline ::
      ((if opt = 0 then
          fetchWith oldMark s.ixold x.a x.b old ++
            if x.a ≤ x.b ∧ x.c ≤ x.d then rule ++ [newline] else []
        else []) ++
        fetchWith (if opt = 0 then newMark else []) s.ixnew x.c x.d new ++
        if opt ≠ 0 ∧ x.c ≤ x.d then period ++ [newline] else [])

/-- `main` with what is printed. -/
def report (bflag : Bool) (opt : ℤ) (old new : List ℕ) : Option (List ℕ) := do
  let us ← prepare bflag (old.length + 1) old
  let vs ← prepare bflag (new.length + 1) new
  let J ← matching us vs
  let s ← check bflag old new us.length vs.length J
  let xs ← output opt us.length vs.length s.J
  some (xs.flatMap (Change.print opt s old new))

/-! ## Lines -/

/-- The lines `a` to `b` of a file. -/
def part {α : Type*} (lines : List α) (a b : ℕ) : List α := (lines.drop (a - 1)).take (b + 1 - a)

/-- The lines that are printed for a change. -/
def Change.lines (opt : ℤ) (old new : List (List ℕ)) (x : Change) : List (List ℕ) :=
  if x.Idle then []
  else
    x.header opt ::
      ((if opt = 0 then
          (part old x.a x.b).map (oldMark ++ ·) ++ if x.a ≤ x.b ∧ x.c ≤ x.d then [rule] else []
        else []) ++
        (part new x.c x.d).map ((if opt = 0 then newMark else []) ++ ·) ++
        if opt ≠ 0 ∧ x.c ≤ x.d then [period] else [])

/-- The ranges of a change are in the files. -/
structure Change.Inside (m n : ℕ) (x : Change) : Prop where
  old_low : 1 ≤ x.a
  old_order : x.a ≤ x.b + 1
  old_high : x.b ≤ m
  new_low : 1 ≤ x.c
  new_order : x.c ≤ x.d + 1
  new_high : x.d ≤ n

variable {s : List ℕ} {ix : ℕ → ℕ} {lines old new : List (List ℕ)} {a b : ℕ} {x : Change}

/-- With the right places `fetch` prints whole lines. -/
theorem fetchWith_text (s : List ℕ) (places : ∀ i ≤ lines.length, ix i = lineEnd lines i)
    (low : 1 ≤ a) (high : b ≤ lines.length) :
    fetchWith s ix a b (text lines) = text ((part lines a b).map (s ++ ·)) := by
  have one : ∀ i (inside : i < lines.length),
      ((text lines).drop (ix i)).take (ix (i + 1) - ix i) = lines[i] ++ [newline] := by
    intro i inside
    have line := fetch_text places (Nat.le_add_left 1 i) inside
    rw [fetch, Nat.add_sub_cancel_left, List.range'_one, List.flatMap_singleton,
      Nat.add_sub_cancel, List.drop_eq_getElem_cons inside, List.take_succ_cons, List.take_zero,
      text_cons, text_nil] at line
    exact line
  rw [fetchWith, part]
  generalize size : b + 1 - a = k
  induction k generalizing a with
  | zero => rfl
  | succ k ih =>
      have inside : a - 1 < lines.length := by omega
      have here := one (a - 1) inside
      have rest := ih (a := a + 1) (Nat.le_add_left 1 a) (by omega)
      rw [Nat.sub_add_cancel low] at here
      rw [Nat.add_sub_cancel] at rest
      rw [List.range'_succ, List.flatMap_cons, here, rest, List.drop_eq_getElem_cons inside,
        List.take_succ_cons, List.map_cons, text_cons, Nat.sub_add_cancel low]
      simp only [List.append_assoc, List.cons_append, List.nil_append]

/-- What `change` prints is lines. -/
theorem print_eq (opt : ℤ) {s : Reading} (ixold : ∀ i ≤ old.length, s.ixold i = lineEnd old i)
    (ixnew : ∀ i ≤ new.length, s.ixnew i = lineEnd new i)
    (inside : x.Inside old.length new.length) :
    x.print opt s (text old) (text new) = text (x.lines opt old new) := by
  rw [Change.print, Change.lines]
  split
  · rfl
  · rw [fetchWith_text _ ixold inside.old_low inside.old_high,
      fetchWith_text _ ixnew inside.new_low inside.new_high, text_cons]
    congr 2
    rw [text_append, text_append]
    congr 1
    · congr 1
      split
      · rw [text_append]
        congr 1
        split
        · rw [text_cons, text_nil]
        · rfl
      · rfl
    · split
      · rw [text_cons, text_nil]
      · rfl

/-! ## The characters of a line -/

theorem newline_notMem_map {l : List Char} (free : '\n' ∉ l) : newline ∉ l.map Char.toNat := by
  intro mem
  obtain ⟨c, inside, same⟩ := List.mem_map.mp mem
  have equal : c = '\n' := by
    rw [← Char.ofNat_toNat c, same]
  exact free (equal ▸ inside)

theorem newline_notMem_decimal (n : ℕ) : newline ∉ decimal n := by
  refine newline_notMem_map fun mem => ?_
  have digit := Nat.isDigit_of_mem_toDigits (by decide) (by decide) mem
  exact absurd digit (by decide)

theorem newline_notMem_range (a b : ℕ) (free : newline ∉ s) : newline ∉ range a b s := by
  rw [range]
  split <;> simp [newline_notMem_decimal, free]

theorem newline_notMem_header (opt : ℤ) (x : Change) : newline ∉ x.header opt := by
  have kind : newline ≠ x.kind := by
    rw [Change.kind]
    split
    · decide
    · split <;> decide
  have comma := fun a b => newline_notMem_range a b (s := [','.toNat]) (by decide)
  have blank := fun a b => newline_notMem_range a b (s := [' '.toNat]) (by decide)
  rw [Change.header]
  split
  · split <;> simp [-Char.reduceToNat, comma, kind]
  · simp [-Char.reduceToNat, blank, kind]

theorem plain_part (plain : ∀ line ∈ lines, newline ∉ line) (a b : ℕ) :
    ∀ line ∈ part lines a b, newline ∉ line :=
  fun line mem => plain line (List.mem_of_mem_drop (List.mem_of_mem_take mem))

/-- No line has a newline in it. -/
theorem plain_lines (opt : ℤ) (plain : ∀ line ∈ old, newline ∉ line)
    (plain' : ∀ line ∈ new, newline ∉ line) (x : Change) :
    ∀ line ∈ x.lines opt old new, newline ∉ line := by
  have marked : ∀ mark : List ℕ, newline ∉ mark → ∀ (lines : List (List ℕ)),
      (∀ line ∈ lines, newline ∉ line) → ∀ line ∈ lines.map (mark ++ ·), newline ∉ line := by
    intro mark free lines plain line mem
    obtain ⟨l, inside, rfl⟩ := List.mem_map.mp mem
    exact fun mem => (List.mem_append.mp mem).elim free (plain l inside)
  intro line mem
  rw [Change.lines] at mem
  split at mem
  · exact absurd mem List.not_mem_nil
  · obtain rfl | mem := List.mem_cons.mp mem
    · exact newline_notMem_header opt x
    · obtain mem | mem := List.mem_append.mp mem
      · obtain mem | mem := List.mem_append.mp mem
        · split at mem
          · obtain mem | mem := List.mem_append.mp mem
            · exact marked oldMark (by decide) _ (plain_part plain _ _) line mem
            · split at mem
              · obtain rfl := List.mem_singleton.mp mem
                decide
              · exact absurd mem List.not_mem_nil
          · exact absurd mem List.not_mem_nil
        · refine marked _ ?_ _ (plain_part plain' _ _) line mem
          split <;> decide
      · split at mem
        · obtain rfl := List.mem_singleton.mp mem
          decide
        · exact absurd mem List.not_mem_nil

end Diff

end UnixV7
