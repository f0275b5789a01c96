import Mathlib.Data.List.Basic
import Mathlib.Tactic.Common

/-!
# Changes along a list

How often an element of a list differs from the one before it, for the first one from a value
that is given. Leaving elements out of a list adds no changes.
-/

namespace UnixV7

variable {β : Type*} [DecidableEq β] {last other : β} {l l' : List β}

/-- The number of elements that differ from the one before. -/
def changes (last : β) : List β → ℕ
  | [] => 0
  | b :: l => (if b = last then 0 else 1) + changes b l

@[simp] theorem changes_nil (last : β) : changes last [] = 0 := rfl

theorem changes_cons (last b : β) (l : List β) :
    changes last (b :: l) = (if b = last then 0 else 1) + changes b l := rfl

/-- Another value to begin with makes a difference of one at most. -/
theorem changes_le (last other : β) (l : List β) :
    changes last l ≤ (if other = last then 0 else 1) + changes other l := by
  cases l with
  | nil => simp
  | cons b l =>
      rw [changes_cons, changes_cons]
      by_cases same : other = last
      · subst same
        simp
      · rw [if_neg same]
        split_ifs <;> omega

theorem changes_sublist (last : β) (sub : l'.Sublist l) : changes last l' ≤ changes last l := by
  induction sub generalizing last with
  | slnil => exact Nat.le_refl _
  | @cons l' l b sub ih =>
      rw [changes_cons]
      exact Nat.le_trans (changes_le last b l') (Nat.add_le_add_left (ih _) _)
  | @cons_cons l' l b sub ih =>
      rw [changes_cons, changes_cons]
      exact Nat.add_le_add_left (ih _) _

theorem changes_append (last : β) (l l' : List β) :
    changes last (l ++ l') = changes last l + changes (l.getLastD last) l' := by
  induction l generalizing last with
  | nil => simp
  | cons b l ih =>
      rw [List.cons_append, changes_cons, changes_cons, ih, Nat.add_assoc, List.getLastD_cons]

end UnixV7
