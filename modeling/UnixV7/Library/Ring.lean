import Mathlib.Data.List.Basic
import Mathlib.Logic.Function.Basic
import Mathlib.Tactic.Common

/-!
# Queues in a ring of cells

A queue lies in the cells from `front` on, with the first cell behind the last one. It never fills
the ring, so that it is empty exactly when `front` and `rear` meet.
-/

namespace UnixV7

open Function

namespace Ring

variable {α : Type*} {cells : ℕ → α} {size front rear : ℕ} {items : List α} {a : α}

/-- The cell behind a cell. -/
def next (size i : ℕ) : ℕ := if i + 1 = size then 0 else i + 1

/-- The queue `items` lies in the ring. -/
structure Holds (cells : ℕ → α) (size front rear : ℕ) (items : List α) : Prop where
  room : items.length < size
  front_lt : front < size
  rear_eq : rear = (front + items.length) % size
  cell : ∀ (i : ℕ) (h : i < items.length), cells ((front + i) % size) = items[i]

/-- Less than two turns around the ring. -/
theorem mod_of_lt_twice {n : ℕ} (less : n < 2 * size) :
    n % size = if n < size then n else n - size := by
  split
  next small => exact Nat.mod_eq_of_lt small
  next large =>
    rw [Nat.mod_eq_sub_mod (Nat.le_of_not_lt large), Nat.mod_eq_of_lt (by omega)]

theorem next_eq (less : front < size) : next size front = (front + 1) % size := by
  unfold next
  split
  next last => rw [last, Nat.mod_self]
  next inner => rw [Nat.mod_eq_of_lt (by omega)]

theorem Holds.nil (pos : 0 < size) : Holds cells size 0 0 [] where
  room := pos
  front_lt := pos
  rear_eq := by simp
  cell i h := by simp at h

theorem Holds.eq_iff (holds : Holds cells size front rear items) : rear = front ↔ items = [] := by
  have less := holds.front_lt
  have room := holds.room
  rw [holds.rear_eq, ← List.length_eq_zero_iff, mod_of_lt_twice (by omega)]
  split
  · omega
  · omega

theorem Holds.rear_lt (holds : Holds cells size front rear items) : rear < size := by
  rw [holds.rear_eq]
  exact Nat.mod_lt _ (by have := holds.room; omega)

/-- What is put at the rear is last in the queue, unless the ring is then full. -/
theorem Holds.push (holds : Holds cells size front rear items) (a : α)
    (free : next size rear ≠ front) :
    Holds (update cells rear a) size front (next size rear) (items ++ [a]) := by
  have less := holds.front_lt
  have room := holds.room
  have behind : next size rear = (front + (items.length + 1)) % size := by
    rw [next_eq holds.rear_lt, holds.rear_eq, Nat.mod_add_mod, Nat.add_assoc]
  have fits : items.length + 1 < size := by
    rcases Nat.lt_or_ge (items.length + 1) size with small | large
    · exact small
    · have full : items.length + 1 = size := by omega
      rw [behind, full, Nat.add_mod_right, Nat.mod_eq_of_lt less] at free
      exact absurd rfl free
  refine ⟨by simpa using fits, less, by simpa using behind, ?_⟩
  intro i h
  rw [List.length_append, List.length_singleton] at h
  rcases Nat.lt_or_ge i items.length with old | new
  · have other : (front + i) % size ≠ rear := by
      rw [holds.rear_eq, mod_of_lt_twice (by omega), mod_of_lt_twice (by omega)]
      split
      · split
        · omega
        · omega
      · split
        · omega
        · omega
    rw [update_of_ne other, holds.cell i old, List.getElem_append_left]
  · have last : i = items.length := by omega
    subst last
    rw [← holds.rear_eq, update_self, List.getElem_append_right (Nat.le_refl _)]
    simp

/-- What is taken from the front was first in the queue. -/
theorem Holds.pop (holds : Holds cells size front rear (a :: items)) :
    cells front = a ∧ Holds cells size (next size front) rear items := by
  have less := holds.front_lt
  have room := holds.room
  rw [List.length_cons] at room
  constructor
  · have first := holds.cell 0 (by simp)
    rwa [Nat.add_zero, Nat.mod_eq_of_lt less, List.getElem_cons_zero] at first
  · have step : ∀ n, (next size front + n) % size = (front + (n + 1)) % size := by
      intro n
      rw [next_eq less, Nat.mod_add_mod]
      congr 1
      omega
    refine ⟨by omega, ?_, ?_, ?_⟩
    · rw [next_eq less]
      exact Nat.mod_lt _ (by omega)
    · rw [step, holds.rear_eq, List.length_cons]
    · intro i h
      rw [step, holds.cell (i + 1) (by simpa using h), List.getElem_cons_succ]

end Ring

end UnixV7
