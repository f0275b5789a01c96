import Mathlib.Data.List.Infix
import Mathlib.Data.Set.Basic
import Mathlib.Tactic.Common

/-!
# Longest suffixes in a set of words

A machine that looks for the words of a dictionary keeps the longest suffix of what it read that
begins one of them. The suffix after one more character is found from the suffix before it, by
falling back to ever shorter ones, and a word of the dictionary has just ended exactly when one is
a suffix of the word kept.
-/

namespace UnixV7

namespace Suffixes

open Classical

variable {α : Type*} {P D : Set (List α)} {s u v : List α} {a c : α}

/-- The longest suffix of a text in the set, empty if there is none. -/
noncomputable def longest (P : Set (List α)) : List α → List α
  | [] => []
  | a :: s => if a :: s ∈ P then a :: s else longest P s

/-- The longest shorter suffix in the set. -/
noncomputable def fallback (P : Set (List α)) (u : List α) : List α := longest P u.tail

/-- With a word, the words that it continues are in the set. -/
def PrefixClosed (P : Set (List α)) : Prop := ∀ ⦃u : List α⦄ ⦃c : α⦄, u ++ [c] ∈ P → u ∈ P

/-- A word of the dictionary ends the text. -/
def Ends (D : Set (List α)) (s : List α) : Prop := ∃ w ∈ D, w <:+ s

@[simp] theorem longest_nil : longest P [] = [] := rfl

theorem longest_cons : longest P (a :: s) = if a :: s ∈ P then a :: s else longest P s := rfl

theorem longest_suffix : longest P s <:+ s := by
  induction s with
  | nil => exact List.suffix_rfl
  | cons a s ih =>
      rw [longest_cons]
      split
      · exact List.suffix_rfl
      · exact ih.trans (List.suffix_cons a s)

theorem longest_mem (root : [] ∈ P) : longest P s ∈ P := by
  induction s with
  | nil => exact root
  | cons a s ih =>
      rw [longest_cons]
      split
      next mem => exact mem
      next => exact ih

theorem longest_of_mem (mem : s ∈ P) : longest P s = s := by
  cases s with
  | nil => rfl
  | cons a s => rw [longest_cons, if_pos mem]

/-- A suffix in the set is one of the longest. -/
theorem suffix_longest (mem : v ∈ P) (suffix : v <:+ s) : v <:+ longest P s := by
  induction s with
  | nil => exact suffix
  | cons a s ih =>
      rw [longest_cons]
      split
      · exact suffix
      next other =>
        rcases List.suffix_cons_iff.mp suffix with rfl | shorter
        · exact absurd mem other
        · exact ih shorter

/-- One more character is read from the longest suffix alone. -/
theorem longest_append (closed : PrefixClosed P) :
    longest P (s ++ [c]) = longest P (longest P s ++ [c]) := by
  induction s with
  | nil => rfl
  | cons a s ih =>
      cases Classical.em (a :: s ∈ P) with
      | inl mem => rw [longest_of_mem mem]
      | inr other =>
          have longer : a :: (s ++ [c]) ∉ P := fun mem => other (closed (u := a :: s) mem)
          rw [List.cons_append, longest_cons, if_neg longer, ih, longest_cons, if_neg other]

/-- Where a word cannot be continued, the machine falls back. -/
theorem longest_fallback (closed : PrefixClosed P) (stuck : u ++ [c] ∉ P) (proper : u ≠ []) :
    longest P (u ++ [c]) = longest P (fallback P u ++ [c]) := by
  cases u with
  | nil => exact absurd rfl proper
  | cons a u =>
      rw [List.cons_append] at stuck
      rw [List.cons_append, longest_cons, if_neg stuck, fallback,
        List.tail_cons, ← longest_append closed]

theorem fallback_append (closed : PrefixClosed P) (proper : u ≠ []) :
    fallback P (u ++ [c]) = longest P (fallback P u ++ [c]) := by
  rw [fallback, List.tail_append_of_ne_nil proper, longest_append closed, fallback]

theorem fallback_single : fallback P [c] = [] := rfl

theorem length_fallback (proper : u ≠ []) : (fallback P u).length < u.length := by
  have le : (fallback P u).length ≤ u.tail.length := longest_suffix.length_le
  have pos := List.length_pos_iff.mpr proper
  rw [List.length_tail] at le
  omega

/-- The word kept tells which words have just ended. -/
theorem ends_longest (sub : D ⊆ P) : Ends D (longest P s) ↔ Ends D s := by
  constructor
  · rintro ⟨w, mem, suffix⟩
    exact ⟨w, mem, suffix.trans longest_suffix⟩
  · rintro ⟨w, mem, suffix⟩
    exact ⟨w, mem, suffix_longest (sub mem) suffix⟩

/-- A word of the dictionary ends a word that is one or whose fallback it ends. -/
theorem ends_iff (sub : D ⊆ P) (proper : u ≠ []) : Ends D u ↔ u ∈ D ∨ Ends D (fallback P u) := by
  rw [fallback, ends_longest sub]
  cases u with
  | nil => exact absurd rfl proper
  | cons a u =>
      constructor
      · rintro ⟨w, mem, suffix⟩
        rcases List.suffix_cons_iff.mp suffix with rfl | shorter
        · exact Or.inl mem
        · exact Or.inr ⟨w, mem, shorter⟩
      · rintro (mem | ⟨w, mem, suffix⟩)
        · exact ⟨a :: u, mem, List.suffix_rfl⟩
        · exact ⟨w, mem, suffix.trans (List.suffix_cons a u)⟩

theorem not_ends_nil (proper : [] ∉ D) : ¬Ends D [] := by
  rintro ⟨w, mem, suffix⟩
  rw [List.suffix_nil.mp suffix] at mem
  exact proper mem

/-- A word of the dictionary is in a text when one ends a beginning of it. -/
theorem exists_infix_iff : (∃ w ∈ D, w <:+: s) ↔ ∃ t, t <+: s ∧ Ends D t := by
  constructor
  · rintro ⟨w, mem, front, back, rfl⟩
    exact ⟨front ++ w, List.prefix_append _ _, w, mem, List.suffix_append _ _⟩
  · rintro ⟨t, ⟨back, rfl⟩, w, mem, front, rfl⟩
    exact ⟨w, mem, front, back, rfl⟩

end Suffixes

end UnixV7
