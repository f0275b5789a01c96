import Mathlib.Logic.Function.Basic
import Mathlib.Tactic.Common

/-!
# Trees of addresses

A fixed number of slots, each the root of a tree whose inner nodes are tables of addresses kept
at an address themselves; the address `0` stands for a tree that is not there. A node is named by
its slot and the indices that lead to it, the last one first. The lemmas say what becomes of the
addresses of all nodes when one of them, missing so far, gets an empty table.
-/

namespace UnixV7

/-- A slot and the indices on the way down from it, the last one first. -/
abbrev Node := ℕ × List ℕ

/-- The roots of the trees and the tables of addresses. -/
structure Radix (α : Type*) where
  root : ℕ → α
  entry : α → ℕ → α

namespace Radix

/-- How many slots there are, how deep the tree of each one is and how large a table is. -/
structure Shape where
  slots : ℕ
  depth : ℕ → ℕ
  width : ℕ

/-- The nodes of the trees. -/
structure Shape.Valid (shape : Shape) (n : Node) : Prop where
  slot : n.1 < shape.slots
  depth : n.2.length ≤ shape.depth n.1
  index : ∀ i ∈ n.2, i < shape.width

variable {α : Type*} [Zero α] [DecidableEq α] {shape : Shape} {t t' : Radix α} {n : Node}
  {a b : α} {i r : ℕ} {p : List ℕ}

/-- The address that the indices lead to from a slot. -/
def below (t : Radix α) (r : ℕ) : List ℕ → α
  | [] => t.root r
  | i :: p => if t.below r p = 0 then 0 else t.entry (t.below r p) i

/-- The address of a node, `0` if it is missing. -/
def addr (t : Radix α) (n : Node) : α := t.below n.1 n.2

/-- No two nodes are at one address. -/
def Distinct (shape : Shape) (t : Radix α) : Prop :=
  ∀ n m, shape.Valid n → shape.Valid m → t.addr n = t.addr m → t.addr n ≠ 0 → n = m

/-- The address of one more node, all others where they were. -/
def Grown (shape : Shape) (t t' : Radix α) (n : Node) (b : α) : Prop :=
  ∀ m, shape.Valid m → t'.addr m = if m = n then b else t.addr m

@[simp] theorem addr_nil (t : Radix α) (r : ℕ) : t.addr (r, []) = t.root r := rfl

theorem addr_cons (t : Radix α) (r i : ℕ) (p : List ℕ) :
    t.addr (r, i :: p) = if t.addr (r, p) = 0 then 0 else t.entry (t.addr (r, p)) i := rfl

theorem addr_cons_of_ne (here : t.addr (r, p) ≠ 0) :
    t.addr (r, i :: p) = t.entry (t.addr (r, p)) i := by
  rw [addr_cons, if_neg here]

/-- Nothing is below a missing node. -/
theorem addr_cons_of_eq (missing : t.addr (r, p) = 0) : t.addr (r, i :: p) = 0 := by
  rw [addr_cons, if_pos missing]

theorem Shape.Valid.tail (valid : shape.Valid (r, i :: p)) : shape.Valid (r, p) where
  slot := valid.slot
  depth := Nat.le_of_succ_le valid.depth
  index j mem := valid.index j (List.mem_cons_of_mem i mem)

/-- The addresses depend only on the roots and on the tables above the leaves. -/
theorem addr_congr (roots : ∀ r, t'.root r = t.root r)
    (tables : ∀ m : Node, shape.Valid m → m.2.length < shape.depth m.1 → t.addr m ≠ 0 →
      ∀ i, t'.entry (t.addr m) i = t.entry (t.addr m) i)
    (valid : shape.Valid n) : t'.addr n = t.addr n := by
  obtain ⟨r, p⟩ := n
  induction p with
  | nil => simpa using roots r
  | cons i p ih =>
      rw [addr_cons, addr_cons, ih valid.tail]
      split
      · rfl
      · next here => exact tables (r, p) valid.tail valid.depth here i

/-- A missing root gets an empty table. -/
theorem grown_root (missing : t.root r = 0) (here : t'.root r = b)
    (roots : ∀ s, s ≠ r → t'.root s = t.root s) (empty : ∀ i, t'.entry b i = 0)
    (tables : ∀ m : Node, shape.Valid m → m.2.length < shape.depth m.1 → t.addr m ≠ 0 →
      ∀ i, t'.entry (t.addr m) i = t.entry (t.addr m) i) :
    Grown shape t t' (r, []) b := by
  rintro ⟨s, p⟩ valid
  induction p with
  | nil =>
      by_cases same : s = r
      · subst same
        simp [here]
      · simp [same, roots s same]
  | cons i p ih =>
      have above := ih valid.tail
      rw [if_neg (by simp), addr_cons, above]
      split
      · next same =>
          obtain ⟨rfl, rfl⟩ := Prod.mk.inj same
          rw [addr_cons_of_eq (show t.addr (s, []) = 0 from missing), empty, ite_self]
      · rw [addr_cons]
        split
        · rfl
        · next here => exact tables (s, p) valid.tail valid.depth here i

/-- A missing node below a table gets an empty table. -/
theorem grown_entry (distinct : Distinct shape t) (inner : shape.Valid (r, i :: p))
    (above : t.addr (r, p) = a) (real : a ≠ 0) (missing : t.entry a i = 0)
    (roots : ∀ s, t'.root s = t.root s) (here : t'.entry a i = b)
    (rest : ∀ j, j ≠ i → t'.entry a j = t.entry a j) (empty : ∀ j, t'.entry b j = 0)
    (tables : ∀ m : Node, shape.Valid m → m.2.length < shape.depth m.1 → t.addr m ≠ 0 →
      t.addr m ≠ a → ∀ j, t'.entry (t.addr m) j = t.entry (t.addr m) j) :
    Grown shape t t' (r, i :: p) b := by
  rintro ⟨s, q⟩ valid
  induction q with
  | nil => simp [roots s]
  | cons j q ih =>
      rw [addr_cons, ih valid.tail]
      by_cases below : (s, q) = (r, i :: p)
      · obtain ⟨rfl, rfl⟩ := Prod.mk.inj below
        have gone : t.addr (s, i :: p) = 0 := by rw [addr_cons, above, missing, ite_self]
        rw [if_pos rfl, empty, ite_self, if_neg (by simp), addr_cons_of_eq gone]
      · rw [if_neg below, addr_cons]
        by_cases none : t.addr (s, q) = 0
        · rw [if_pos none, if_pos none, if_neg]
          rintro same
          obtain ⟨rfl, rfl, rfl⟩ : s = r ∧ j = i ∧ q = p := by simpa using same
          exact real (above.symm.trans none)
        · rw [if_neg none, if_neg none]
          by_cases parent : t.addr (s, q) = a
          · obtain ⟨rfl, rfl⟩ := Prod.mk.inj
              (distinct (s, q) (r, p) valid.tail inner.tail (parent.trans above.symm) none)
            rw [parent]
            by_cases same : j = i
            · subst same
              rw [if_pos rfl, here]
            · rw [if_neg (by simp [same]), rest j same]
          · rw [if_neg, tables (s, q) valid.tail valid.depth none parent j]
            rintro same
            obtain ⟨rfl, rfl, rfl⟩ : s = r ∧ j = i ∧ q = p := by simpa using same
            exact parent above

/-- The new node keeps the addresses apart. -/
theorem Grown.distinct (grown : Grown shape t t' n b) (distinct : Distinct shape t)
    (fresh : ∀ m, shape.Valid m → t.addr m ≠ b) : Distinct shape t' := by
  intro m k left right same real
  rw [grown m left] at same real
  rw [grown k right] at same
  split at same
  · next here =>
      split at same
      · next also => rw [here, also]
      · exact absurd same.symm (fresh k right)
  · next here =>
      rw [if_neg here] at real
      split at same
      · exact absurd same (fresh m left)
      · exact distinct m k left right same real

end Radix

end UnixV7
