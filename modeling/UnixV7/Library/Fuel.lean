import Mathlib.Order.Lattice
import Mathlib.Tactic.Common

/-!
# Fuelled computations

A loop or a recursion whose end no measure shows is written with a fuel argument. It returns
a value when every large enough amount of fuel gives that value, so that a result does not
depend on the amount chosen.
-/

namespace UnixV7.Fuel

universe u

/-- Every large enough amount of fuel gives the result `value`. -/
def Settles {ε α : Type*} (computation : ℕ → Except ε α) (value : α) : Prop :=
  ∃ bound, ∀ fuel, bound ≤ fuel → computation fuel = .ok value

namespace Settles

variable {ε : Type*} {α β : Type u} {computation : ℕ → Except ε α} {value : α}

theorem pure (value : α) : Settles (fun _ => (.ok value : Except ε α)) value :=
  ⟨0, fun _ _ => rfl⟩

/-- A computation settles on one value at most. -/
theorem unique {other : α} (left : Settles computation value)
    (right : Settles computation other) : value = other := by
  obtain ⟨m, left⟩ := left
  obtain ⟨n, right⟩ := right
  have agree := (left (max m n) (le_max_left m n)).symm.trans (right (max m n) (le_max_right m n))
  exact Except.ok.inj agree

/-- One unit of fuel spent on a step does not change where the computation settles. -/
theorem succ {next : ℕ → Except ε α} (settled : Settles next value)
    (spend : ∀ fuel, computation (fuel + 1) = next fuel) : Settles computation value := by
  obtain ⟨bound, settled⟩ := settled
  refine ⟨bound + 1, fun fuel enough => ?_⟩
  obtain ⟨rest, rfl⟩ : ∃ rest, fuel = rest + 1 := ⟨fuel - 1, by omega⟩
  rw [spend, settled rest (by omega)]

/-- A computation continued from its value settles where the continuation does. -/
theorem bind {result : β} (next : ℕ → α → Except ε β) (first : Settles computation value)
    (second : Settles (fun fuel => next fuel value) result) :
    Settles (fun fuel => computation fuel >>= next fuel) result := by
  obtain ⟨m, first⟩ := first
  obtain ⟨n, second⟩ := second
  refine ⟨max m n, fun fuel enough => ?_⟩
  have left := first fuel (by omega)
  have right := second fuel (by omega)
  simp only [left]
  exact right

theorem congr {other : ℕ → Except ε α} (settled : Settles computation value)
    (same : ∀ fuel, other fuel = computation fuel) : Settles other value := by
  obtain ⟨bound, settled⟩ := settled
  exact ⟨bound, fun fuel enough => (same fuel).trans (settled fuel enough)⟩

end Settles

end UnixV7.Fuel
