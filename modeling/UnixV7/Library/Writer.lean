import Mathlib.Data.List.Basic
import Mathlib.Order.Nat
import Mathlib.Tactic.Common

/-!
# Buffered writers

Items wait in a buffer until there are enough of them for a write.
-/

namespace UnixV7

/-- The writes that were made and the items that wait. -/
structure Writer (α : Type*) where
  writes : List (List α)
  buffer : List α

namespace Writer

variable {α : Type*} {w : Writer α} {size : ℕ}

def empty : Writer α := ⟨[], []⟩

/-- All items, written or not. -/
def text (w : Writer α) : List α := w.writes.flatten ++ w.buffer

def push (w : Writer α) (a : α) : Writer α := { w with buffer := w.buffer ++ [a] }

/-- Write what waits. -/
def flush (w : Writer α) : Writer α :=
  if w.buffer.length = 0 then w else ⟨w.writes ++ [w.buffer], []⟩

/-- Write as soon as the buffer holds a block. -/
def put (size : ℕ) (w : Writer α) (a : α) : Writer α :=
  if size ≤ (w.push a).buffer.length then (w.push a).flush else w.push a

/-- Every write was a block, and less than a block waits. -/
structure Full (size : ℕ) (w : Writer α) : Prop where
  blocks : ∀ block ∈ w.writes, block.length = size
  waiting : w.buffer.length < size

@[simp] theorem text_empty : (empty : Writer α).text = [] := rfl

@[simp] theorem text_push (w : Writer α) (a : α) : (w.push a).text = w.text ++ [a] :=
  (List.append_assoc _ _ _).symm

@[simp] theorem text_flush (w : Writer α) : w.flush.text = w.text := by
  rw [flush]
  split
  · rfl
  · simp [text]

@[simp] theorem buffer_flush (w : Writer α) : w.flush.buffer = [] := by
  rw [flush]
  split
  next none => exact List.length_eq_zero_iff.mp none
  next => rfl

theorem flush_push (w : Writer α) (a : α) :
    (w.push a).flush = ⟨w.writes ++ [w.buffer ++ [a]], []⟩ := by
  have some : (w.push a).buffer.length ≠ 0 := by simp [push]
  rw [flush, if_neg some]
  rfl

@[simp] theorem text_put (w : Writer α) (a : α) : (w.put size a).text = w.text ++ [a] := by
  rw [put]
  split <;> simp

theorem Full.empty (positive : 0 < size) : Full size (empty : Writer α) where
  blocks _ mem := absurd mem List.not_mem_nil
  waiting := positive

theorem Full.put (full : Full size w) (a : α) : Full size (w.put size a) := by
  have length : (w.push a).buffer.length = w.buffer.length + 1 := List.length_append
  have waiting := full.waiting
  rw [Writer.put]
  split
  next ready =>
    rw [flush_push]
    refine ⟨fun block mem => ?_, Nat.zero_lt_of_lt waiting⟩
    obtain old | new := List.mem_append.mp mem
    · exact full.blocks block old
    · rw [List.mem_singleton.mp new, List.length_append, List.length_singleton]
      omega
  next room => exact ⟨full.blocks, Nat.lt_of_not_le room⟩

/-- After the last write all writes but that one are blocks. -/
theorem Full.flush (full : Full size w) :
    (∀ block ∈ w.flush.writes.dropLast, block.length = size) ∧
      ∀ block ∈ w.flush.writes, block.length ≤ size := by
  rw [Writer.flush]
  split
  next =>
    exact ⟨fun block mem => full.blocks block ((List.dropLast_sublist _).mem mem),
      fun block mem => (full.blocks block mem).le⟩
  next =>
    rw [List.dropLast_concat]
    refine ⟨full.blocks, fun block mem => ?_⟩
    obtain old | new := List.mem_append.mp mem
    · exact (full.blocks block old).le
    · rw [List.mem_singleton.mp new]
      exact full.waiting.le

end Writer

end UnixV7
