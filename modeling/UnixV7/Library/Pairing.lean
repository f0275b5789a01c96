import Mathlib.Algebra.Group.Even
import Mathlib.Algebra.Ring.Parity
import Mathlib.Data.Finset.Card
import Mathlib.Tactic.Common

/-!
# Pairing the elements of a finite set

The elements that have no partner yet are even in number as long as partners are given two by two,
so that an element left over always finds another one.
-/

namespace UnixV7.Pairing

open Function

variable {α : Type*}

/-- Every element outside `free` has a partner, which is another one outside `free`. -/
structure Pairs (partner : α → α) (free : Finset α) : Prop where
  even : Even free.card
  closed : ∀ a ∉ free, partner a ∉ free
  back : ∀ a ∉ free, partner (partner a) = a
  ne : ∀ a ∉ free, partner a ≠ a

variable {partner : α → α} {free : Finset α} {a b : α}

theorem Pairs.start (all : ∀ a, a ∈ free) (even : Even free.card) (partner : α → α) :
    Pairs partner free where
  even := even
  closed a outside := absurd (all a) outside
  back a outside := absurd (all a) outside
  ne a outside := absurd (all a) outside

/-- An element without partner is never the only one. -/
theorem Pairs.exists_other (pairs : Pairs partner free) (mem : a ∈ free) : ∃ b ∈ free, b ≠ a := by
  by_contra none
  push Not at none
  have single : free = {a} := Finset.eq_singleton_iff_unique_mem.mpr ⟨mem, none⟩
  have odd := pairs.even
  rw [single, Finset.card_singleton] at odd
  exact absurd odd Nat.not_even_one

/-- Two elements without partner are made partners. -/
theorem Pairs.join [DecidableEq α] (pairs : Pairs partner free) (left : a ∈ free) (right : b ∈ free)
    (other : a ≠ b) : Pairs (update (update partner a b) b a) ((free.erase a).erase b) := by
  have value : ∀ c, c ∉ (free.erase a).erase b → c = a ∨ c = b ∨ c ∉ free ∧ c ≠ a ∧ c ≠ b := by
    intro c outside
    rw [Finset.mem_erase, Finset.mem_erase] at outside
    tauto
  have at_a : update (update partner a b) b a a = b := by
    rw [update_of_ne other, update_self]
  have at_b : update (update partner a b) b a b = a := update_self _ _ _
  have at_other : ∀ c, c ≠ a → c ≠ b → update (update partner a b) b a c = partner c := by
    intro c notA notB
    rw [update_of_ne notB, update_of_ne notA]
  have stays : ∀ c ∉ free, partner c ≠ a ∧ partner c ≠ b := by
    intro c outside
    have next := pairs.closed c outside
    exact ⟨fun same => next (same ▸ left), fun same => next (same ▸ right)⟩
  constructor
  · have count : ((free.erase a).erase b).card + 2 = free.card := by
      rw [Finset.card_erase_of_mem (Finset.mem_erase.mpr ⟨other.symm, right⟩),
        Finset.card_erase_of_mem left]
      have two : 1 < free.card := Finset.one_lt_card.mpr ⟨a, left, b, right, other⟩
      omega
    have even := pairs.even
    rw [← count] at even
    exact (Nat.even_add.mp even).mpr even_two
  · intro c outside
    rw [Finset.mem_erase, Finset.mem_erase]
    obtain rfl | rfl | ⟨outside, notA, notB⟩ := value c outside
    · rw [at_a]
      exact fun mem => mem.1 rfl
    · rw [at_b]
      exact fun mem => mem.2.1 rfl
    · rw [at_other c notA notB]
      exact fun mem => pairs.closed c outside mem.2.2
  · intro c outside
    obtain rfl | rfl | ⟨outside, notA, notB⟩ := value c outside
    · rw [at_a, at_b]
    · rw [at_b, at_a]
    · rw [at_other c notA notB, at_other _ (stays c outside).1 (stays c outside).2,
        pairs.back c outside]
  · intro c outside
    obtain rfl | rfl | ⟨outside, notA, notB⟩ := value c outside
    · rw [at_a]
      exact other.symm
    · rw [at_b]
      exact other
    · rw [at_other c notA notB]
      exact pairs.ne c outside

/-- In the end the partner of the partner is the element itself. -/
theorem Pairs.involutive (pairs : Pairs partner ∅) :
    Involutive partner ∧ ∀ a, partner a ≠ a :=
  ⟨fun a => pairs.back a (Finset.notMem_empty a), fun a => pairs.ne a (Finset.notMem_empty a)⟩

end UnixV7.Pairing
