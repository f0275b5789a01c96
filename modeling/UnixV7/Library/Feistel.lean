import Mathlib.Data.Prod.Basic
import Mathlib.Data.Set.Operations

/-!
# Feistel networks

A round exchanges the two halves of a block and adds to one of them a value that depends on the
other and on a key. Whatever that value is, the rounds with the keys in reverse order undo it once
the halves are exchanged.
-/

namespace UnixV7.Feistel

variable {α κ : Type*} (add : α → α → α) (f : κ → α → α)

/-- One round. -/
def round (halves : α × α) (key : κ) : α × α := (halves.2, add halves.1 (f key halves.2))

/-- The rounds with a list of keys. -/
def rounds (keys : List κ) (halves : α × α) : α × α := keys.foldl (round add f) halves

/-- Adding the same value twice changes nothing, for the halves in a set that the rounds do not
leave. -/
structure Cancels (halves : Set α) : Prop where
  closed : ∀ key, ∀ x ∈ halves, ∀ y ∈ halves, add x (f key y) ∈ halves
  cancel : ∀ key, ∀ x ∈ halves, ∀ y ∈ halves, add (add x (f key y)) (f key y) = x

variable {add f} {S : Set α} {halves : α × α}

theorem round_mem (cancels : Cancels add f S) (inside : halves ∈ S ×ˢ S) (key : κ) :
    round add f halves key ∈ S ×ˢ S :=
  ⟨inside.2, cancels.closed key _ inside.1 _ inside.2⟩

/-- A round undoes itself on the exchanged halves. -/
theorem round_swap_round (cancels : Cancels add f S) (inside : halves ∈ S ×ˢ S) (key : κ) :
    round add f (round add f halves key).swap key = halves.swap :=
  Prod.ext rfl (cancels.cancel key _ inside.1 _ inside.2)

/-- The rounds in reverse order undo the rounds on the exchanged halves. -/
theorem rounds_reverse (cancels : Cancels add f S) (keys : List κ) (inside : halves ∈ S ×ˢ S) :
    rounds add f keys.reverse (rounds add f keys halves).swap = halves.swap := by
  induction keys generalizing halves with
  | nil => rfl
  | cons key keys ih =>
      have undone := ih (round_mem cancels inside key)
      rw [rounds, rounds, List.reverse_cons, List.foldl_append, List.foldl_cons, List.foldl_cons]
      rw [rounds, rounds] at undone
      rw [undone]
      exact round_swap_round cancels inside key

end UnixV7.Feistel
