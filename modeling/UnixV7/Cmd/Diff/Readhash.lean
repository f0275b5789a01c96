import Mathlib.Algebra.Group.Nat.Defs
import Mathlib.Data.Int.Notation
import Mathlib.Data.Nat.Notation
import Mathlib.Tactic.Common

/-!
# Hash values of lines

`readhash` and `prepare` of `diff.c`. A file is the list of its characters; `getc` takes the first
one, and at the end of the file there is none.
-/

namespace UnixV7

namespace Diff

/-- `'\n'` -/
abbrev newline : ℕ := 10

/-- A file of lines that each end in a newline. -/
def text (lines : List (List ℕ)) : List ℕ := lines.flatMap fun line => line ++ [newline]

@[simp]
theorem text_nil : text [] = [] := rfl

@[simp]
theorem text_cons (line : List ℕ) (lines : List (List ℕ)) :
    text (line :: lines) = line ++ newline :: text lines := by
  simp [text]

theorem text_append (lines lines' : List (List ℕ)) :
    text (lines ++ lines') = text lines ++ text lines' := by
  simp [text]

/-- `low` -/
def low (x : ℕ) : ℕ := x % 65536

/-- `high`, of an `unsigned long`. -/
def high (x : ℕ) : ℕ := x / 65536

/-- `(short)` -/
def short (x : ℕ) : ℤ := if x % 65536 < 32768 then x % 65536 else x % 65536 - 65536

/-- `sum += (long)t << shift`, in an `unsigned long`. -/
def addin (sum t shift : ℕ) : ℕ := (sum + t * 2 ^ shift) % 4294967296

/-- The loop of `readhash` without `bflag`: the sum and what is left of the file, or nothing at the
end of the file. -/
def hashAll : ℕ → ℕ → List ℕ → Option (ℕ × List ℕ)
  | _, _, [] => none
  | sum, shift, t :: f =>
      if t = newline then some (sum, f)
      else hashAll (addin sum t (shift % 16)) (shift % 16 + 7) f

/-- The loop of `readhash` with `bflag`, where a run of spaces and tabs only shifts what follows. -/
def hashBlank : ℕ → ℕ → ℕ → List ℕ → Option (ℕ × List ℕ)
  | _, _, _, [] => none
  | sum, shift, space, t :: f =>
      if t = 9 ∨ t = 32 then hashBlank sum shift (space + 1) f
      else if t = newline then some (sum, f)
      else
        let shift := if space ≠ 0 then shift + 7 else shift
        hashBlank (addin sum t (shift % 16)) (shift % 16 + 7) 0 f

/-- The two halves of the sum are added, and added again as `short`s. -/
def fold (sum : ℕ) : ℤ :=
  let sum := low sum + high sum + if sum = 0 then 1 else 0
  short (low sum) + short (high sum)

/-- `readhash`: the value of the next line, 0 at the end of the file, and what is left. -/
def readhash (bflag : Bool) (f : List ℕ) : ℤ × List ℕ :=
  match if bflag then hashBlank 1 0 0 f else hashAll 1 0 f with
  | none => (0, [])
  | some (sum, f) => (fold sum, f)

/-- The loop of `prepare`: the values of the lines. -/
def prepare (bflag : Bool) : ℕ → List ℕ → Option (List ℤ)
  | 0, _ => none
  | fuel + 1, f =>
      let (h, f) := readhash bflag f
      if h = 0 then some [] else (prepare bflag fuel f).map (h :: ·)

/-- No line has the value 0. -/
theorem fold_ne_zero {sum : ℕ} (long : sum < 4294967296) : fold sum ≠ 0 := by
  have bound : ∀ l < 65536, ∀ h ≤ 1, 65536 * h + l ≤ 131070 → 65536 * h + l ≠ 0 →
      short l + short h ≠ 0 := by
    intro l right h left most some
    rw [short, short, if_pos (by omega : h % 65536 < 32768)]
    split <;> omega
  apply bound <;> simp only [low, high] <;> split <;> omega

theorem addin_lt (sum t shift : ℕ) : addin sum t shift < 4294967296 :=
  Nat.mod_lt _ (by decide)

variable {line f : List ℕ} {sum shift space : ℕ}

/-- The loop takes one whole line. -/
theorem hashAll_line (plain : newline ∉ line) (long : sum < 4294967296) :
    ∃ sum' < 4294967296, ∀ f, hashAll sum shift (line ++ newline :: f) = some (sum', f) := by
  induction line generalizing sum shift with
  | nil => exact ⟨sum, long, fun f => if_pos rfl⟩
  | cons t line hyp =>
    obtain ⟨here, plain⟩ := not_or.mp (mt List.mem_cons.mpr plain)
    obtain ⟨sum', bound, taken⟩ := hyp plain (addin_lt sum t (shift % 16))
    exact ⟨sum', bound, fun f => (if_neg (Ne.symm here)).trans (taken f)⟩

theorem hashBlank_line (plain : newline ∉ line) (long : sum < 4294967296) :
    ∃ sum' < 4294967296, ∀ f,
      hashBlank sum shift space (line ++ newline :: f) = some (sum', f) := by
  induction line generalizing sum shift space with
  | nil => exact ⟨sum, long, fun f => rfl⟩
  | cons t line hyp =>
    obtain ⟨here, plain⟩ := not_or.mp (mt List.mem_cons.mpr plain)
    simp only [List.cons_append, hashBlank]
    split
    · exact hyp plain long
    · simp only [if_neg (Ne.symm here)]
      exact hyp plain (addin_lt _ _ _)

/-- `readhash` takes one line and gives a value that is not 0. -/
theorem readhash_line (bflag : Bool) (plain : newline ∉ line) :
    ∃ h ≠ 0, ∀ f, readhash bflag (line ++ newline :: f) = (h, f) := by
  have taken : ∃ sum < 4294967296, ∀ f,
      (if bflag then hashBlank 1 0 0 (line ++ newline :: f)
        else hashAll 1 0 (line ++ newline :: f)) = some (sum, f) := by
    cases bflag with
    | false => exact hashAll_line plain (by decide)
    | true => exact hashBlank_line plain (by decide)
  obtain ⟨sum, long, taken⟩ := taken
  exact ⟨fold sum, fold_ne_zero long, fun f => by rw [readhash, taken]⟩

/-- A line without a newline is lost. -/
theorem readhash_tail (bflag : Bool) (tail : newline ∉ f) : readhash bflag f = (0, []) := by
  have lost : ∀ sum shift, hashAll sum shift f = none := by
    induction f with
    | nil => exact fun _ _ => rfl
    | cons t f hyp =>
      obtain ⟨here, tail⟩ := not_or.mp (mt List.mem_cons.mpr tail)
      exact fun _ _ => (if_neg (Ne.symm here)).trans (hyp tail _ _)
  have lost' : ∀ sum shift space, hashBlank sum shift space f = none := by
    clear lost
    induction f with
    | nil => exact fun _ _ _ => rfl
    | cons t f hyp =>
      obtain ⟨here, tail⟩ := not_or.mp (mt List.mem_cons.mpr tail)
      intro sum shift space
      rw [hashBlank]
      split
      · exact hyp tail _ _ _
      · rw [if_neg (Ne.symm here)]
        exact hyp tail _ _ _
  cases bflag with
  | false => rw [readhash, if_neg Bool.false_ne_true, lost]
  | true => rw [readhash, if_pos rfl, lost']

/-- `prepare` finds the same values for the same lines, whatever is behind the last newline. -/
theorem prepare_lines (bflag : Bool) {lines : List (List ℕ)}
    (plain : ∀ line ∈ lines, newline ∉ line) :
    ∃ values, values.length = lines.length ∧ (∀ v ∈ values, v ≠ 0) ∧
      ∀ tail fuel, newline ∉ tail → lines.length < fuel →
        prepare bflag fuel (text lines ++ tail) = some values := by
  induction lines with
  | nil =>
    refine ⟨[], rfl, by simp, fun tail fuel lost enough => ?_⟩
    obtain ⟨fuel, rfl⟩ := Nat.exists_eq_succ_of_ne_zero (Nat.ne_of_gt enough)
    rw [prepare, text_nil, List.nil_append, readhash_tail bflag lost]
    rfl
  | cons line lines hyp =>
    obtain ⟨plain, rest⟩ := List.forall_mem_cons.mp plain
    obtain ⟨values, length, nonzero, prepared⟩ := hyp rest
    obtain ⟨h, some, read⟩ := readhash_line bflag plain
    refine ⟨h :: values, by rw [List.length_cons, length, List.length_cons],
      List.forall_mem_cons.mpr ⟨some, nonzero⟩, fun tail fuel lost enough => ?_⟩
    obtain ⟨fuel, rfl⟩ := Nat.exists_eq_succ_of_ne_zero (Nat.ne_of_gt (Nat.zero_lt_of_lt enough))
    rw [prepare, text_cons, List.append_assoc, List.cons_append, read]
    show (if h = 0 then _ else _) = _
    rw [if_neg some, prepared tail fuel lost (Nat.lt_of_succ_lt_succ enough)]
    rfl

/-- `prepare` counts every line. -/
theorem prepare_text (bflag : Bool) {lines : List (List ℕ)}
    (plain : ∀ line ∈ lines, newline ∉ line) :
    ∃ values, prepare bflag (lines.length + 1) (text lines) = some values ∧
      values.length = lines.length ∧ ∀ v ∈ values, v ≠ 0 := by
  obtain ⟨values, length, nonzero, prepared⟩ := prepare_lines bflag plain
  have all := prepared [] (lines.length + 1) List.not_mem_nil (Nat.lt_succ_self _)
  rw [List.append_nil] at all
  exact ⟨values, all, length, nonzero⟩

end Diff

end UnixV7
