import Mathlib.Data.List.Basic
import Mathlib.Order.Nat
import Mathlib.Tactic.Common

/-!
# Texts of lines

A text in which every line is followed by a separator, and the places where its lines begin.
-/

namespace UnixV7.Lines

variable {α : Type*} {a : α} {lines : List (List α)} {k m : ℕ}

/-- The lines with a separator behind each. -/
def unlines (a : α) (lines : List (List α)) : List α := lines.flatMap (· ++ [a])

/-- The pieces between the separators, without what is behind the last one. -/
def split [DecidableEq α] (a : α) : List α → List α → List (List α)
  | _, [] => []
  | line, c :: text => if c = a then line :: split a [] text else split a (line ++ [c]) text

/-- The place where the line with the number `k` begins. -/
def offset (a : α) (lines : List (List α)) (k : ℕ) : ℕ := (unlines a (lines.take k)).length

@[simp] theorem unlines_nil : unlines a [] = [] := rfl

theorem unlines_cons (a : α) (line : List α) (lines : List (List α)) :
    unlines a (line :: lines) = line ++ a :: unlines a lines := by
  rw [unlines, List.flatMap_cons, List.append_assoc]
  rfl

theorem unlines_append (a : α) (left right : List (List α)) :
    unlines a (left ++ right) = unlines a left ++ unlines a right := List.flatMap_append

@[simp] theorem offset_zero : offset a lines 0 = 0 := rfl

theorem offset_length (a : α) (lines : List (List α)) :
    offset a lines lines.length = (unlines a lines).length := by
  rw [offset, List.take_length]

theorem split_append [DecidableEq α] {line : List α} (free : a ∉ line) (before text : List α) :
    split a before (line ++ a :: text) = (before ++ line) :: split a [] text := by
  induction line generalizing before with
  | nil => rw [List.nil_append, split, if_pos rfl, List.append_nil]
  | cons c line ih =>
      obtain ⟨other, free⟩ := not_or.mp (List.mem_cons.not.mp free)
      rw [List.cons_append, split, if_neg (Ne.symm other), ih free, List.append_assoc]
      rfl

theorem split_unlines [DecidableEq α] (free : ∀ line ∈ lines, a ∉ line) :
    split a [] (unlines a lines) = lines := by
  induction lines with
  | nil => rfl
  | cons line lines ih =>
      obtain ⟨first, others⟩ := List.forall_mem_cons.mp free
      rw [unlines_cons, split_append first, List.nil_append, ih others]

/-- Every line has its separator. -/
theorem length_le (a : α) (lines : List (List α)) : lines.length ≤ (unlines a lines).length := by
  induction lines with
  | nil => exact Nat.le_refl 0
  | cons line lines ih =>
      rw [unlines_cons, List.length_append, List.length_cons, List.length_cons]
      omega

theorem offset_succ (inside : k < lines.length) :
    offset a lines (k + 1) = offset a lines k + lines[k].length + 1 := by
  rw [offset, List.take_succ_eq_append_getElem inside, unlines_append, List.length_append,
    unlines_cons, List.length_append]
  rfl

theorem offset_lt (less : k < m) (inside : m ≤ lines.length) :
    offset a lines k < offset a lines m := by
  induction m with
  | zero => exact absurd less (Nat.not_lt_zero k)
  | succ m ih =>
      have step := offset_succ (a := a) (k := m) inside
      obtain before | rfl := Nat.lt_succ_iff_lt_or_eq.mp less
      · have := ih before (by omega)
        omega
      · omega

theorem offset_le (le : k ≤ m) (inside : m ≤ lines.length) :
    offset a lines k ≤ offset a lines m := by
  obtain less | rfl := Nat.lt_or_eq_of_le le
  · exact (offset_lt less inside).le
  · exact Nat.le_refl _

theorem offset_lt_iff (left : k ≤ lines.length) (right : m ≤ lines.length) :
    offset a lines k < offset a lines m ↔ k < m := by
  constructor
  · intro less
    by_contra ge
    exact absurd (offset_le (a := a) (Nat.le_of_not_lt ge) left) (Nat.not_le_of_lt less)
  · exact fun less => offset_lt less right

theorem offset_le_iff (left : k ≤ lines.length) (right : m ≤ lines.length) :
    offset a lines k ≤ offset a lines m ↔ k ≤ m := by
  rw [← Nat.not_lt, offset_lt_iff right left, Nat.not_lt]

theorem take_offset (a : α) (lines : List (List α)) (k : ℕ) :
    (unlines a lines).take (offset a lines k) = unlines a (lines.take k) := by
  have parts := unlines_append a (lines.take k) (lines.drop k)
  rw [List.take_append_drop] at parts
  rw [parts, offset, List.take_left]

theorem drop_offset (a : α) (lines : List (List α)) (k : ℕ) :
    (unlines a lines).drop (offset a lines k) = unlines a (lines.drop k) := by
  have parts := unlines_append a (lines.take k) (lines.drop k)
  rw [List.take_append_drop] at parts
  rw [parts, offset, List.drop_left]

theorem offset_add (a : α) (lines : List (List α)) (k n : ℕ) :
    offset a lines (k + n) = offset a lines k + offset a (lines.drop k) n := by
  rw [offset, List.take_add, unlines_append, List.length_append]
  rfl

/-- The text between the beginnings of two lines. -/
theorem between_offset (a : α) (lines : List (List α)) (le : k ≤ m) :
    ((unlines a lines).drop (offset a lines k)).take (offset a lines m - offset a lines k) =
      unlines a ((lines.drop k).take (m - k)) := by
  obtain ⟨n, rfl⟩ := Nat.exists_eq_add_of_le le
  rw [drop_offset, offset_add, Nat.add_sub_cancel_left, Nat.add_sub_cancel_left, take_offset]

/-- The separator of a line is the last place before the next one. -/
theorem getElem_separator (a : α) (inside : k < lines.length) :
    (unlines a lines)[offset a lines (k + 1) - 1]? = some a := by
  have next := offset_succ (a := a) inside
  have place : offset a lines (k + 1) - 1 = offset a lines k + lines[k].length := by omega
  rw [place, ← List.getElem?_drop, drop_offset, List.drop_eq_getElem_cons inside, unlines_cons,
    List.getElem?_append_right (Nat.le_refl _), Nat.sub_self]
  rfl

/-- Inside a line there is no separator. -/
theorem getElem_inside (inside : k < lines.length) (free : a ∉ lines[k])
    (low : offset a lines k ≤ m) (high : m + 1 < offset a lines (k + 1)) :
    (unlines a lines)[m]? ≠ some a := by
  have next := offset_succ (a := a) inside
  obtain ⟨n, rfl⟩ := Nat.exists_eq_add_of_le low
  have short : n < lines[k].length := by omega
  rw [← List.getElem?_drop, drop_offset, List.drop_eq_getElem_cons inside, unlines_cons,
    List.getElem?_append_left short, List.getElem?_eq_getElem short]
  exact fun same => free (Option.some.inj same ▸ List.getElem_mem short)

/-- A text that is empty or ends in a separator is one of lines. -/
theorem exists_unlines [DecidableEq α] (text : List α) :
    ∃ lines rest, text = unlines a lines ++ rest ∧ a ∉ rest ∧ ∀ line ∈ lines, a ∉ line := by
  induction text with
  | nil => exact ⟨[], [], rfl, List.not_mem_nil, fun _ mem => absurd mem List.not_mem_nil⟩
  | cons c text ih =>
      obtain ⟨lines, rest, rfl, free, whole⟩ := ih
      by_cases ends : c = a
      · refine ⟨[] :: lines, rest, ?_, free, ?_⟩
        · rw [unlines_cons, ends]
          rfl
        · exact List.forall_mem_cons.mpr ⟨List.not_mem_nil, whole⟩
      · cases lines with
        | nil =>
            refine ⟨[], c :: rest, rfl, ?_, whole⟩
            rw [List.mem_cons, not_or]
            exact ⟨Ne.symm ends, free⟩
        | cons line lines =>
            obtain ⟨first, others⟩ := List.forall_mem_cons.mp whole
            refine ⟨(c :: line) :: lines, rest, ?_, free, List.forall_mem_cons.mpr ⟨?_, others⟩⟩
            · rw [unlines_cons, unlines_cons]
              rfl
            · rw [List.mem_cons, not_or]
              exact ⟨Ne.symm ends, first⟩

end UnixV7.Lines
