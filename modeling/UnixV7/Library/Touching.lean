import Mathlib.Logic.Relation
import Mathlib.Order.Lattice

/-!
# Intervals that touch

A family of closed intervals, each from `lo x` to `hi x`. Two of them are joined when a chain of
intervals of which each touches the next leads from one to the other.
-/

namespace UnixV7.Touching

open Relation

variable {ι α : Type*} [LinearOrder α] {lo hi : ι → α} {all : ι → Prop} {x y u v : ι}
  {a b a' b' : α}

/-- The intervals have a point in common. -/
def Touch (lo hi : ι → α) (x y : ι) : Prop := lo x ≤ hi y ∧ lo y ≤ hi x

/-- A chain of intervals of the family. -/
def Joined (lo hi : ι → α) (all : ι → Prop) : ι → ι → Prop :=
  ReflTransGen fun x y => all x ∧ all y ∧ Touch lo hi x y

/-- The least interval with everything that is joined with `x`. -/
structure Hull (lo hi : ι → α) (all : ι → Prop) (x : ι) (a b : α) : Prop where
  covers : ∀ y, Joined lo hi all x y → a ≤ lo y ∧ hi y ≤ b
  low : ∃ y, Joined lo hi all x y ∧ lo y = a
  high : ∃ y, Joined lo hi all x y ∧ hi y = b

theorem Touch.symm (touch : Touch lo hi x y) : Touch lo hi y x := ⟨touch.2, touch.1⟩

namespace Joined

theorem symm (joined : Joined lo hi all x y) : Joined lo hi all y x := by
  induction joined with
  | refl => exact .refl
  | tail _ step ih => exact .head ⟨step.2.1, step.1, step.2.2.symm⟩ ih

theorem trans (first : Joined lo hi all x y) (second : Joined lo hi all y u) :
    Joined lo hi all x u := ReflTransGen.trans first second

theorem of_touch (mem : all x) (mem' : all y) (touch : Touch lo hi x y) : Joined lo hi all x y :=
  .single ⟨mem, mem', touch⟩

/-- What meets the interval from one of two joined intervals to the other is joined with them. -/
theorem of_meets (joined : Joined lo hi all u v) (mem : all v) (mem' : all x)
    (proper : lo x ≤ hi x) (left : lo u ≤ hi x) (right : lo x ≤ hi v) :
    Joined lo hi all u x := by
  induction joined using ReflTransGen.head_induction_on with
  | refl => exact of_touch mem mem' ⟨left, right⟩
  | @head u w step _ ih =>
      by_cases reach : lo x ≤ hi u
      · exact of_touch step.1 mem' ⟨left, reach⟩
      · have next : lo w ≤ hi x := (step.2.2.2.trans (le_of_not_ge reach)).trans proper
        exact .head step (ih next)

/-- A chain does not leave a set that nothing else touches. -/
theorem mem_of_closed (group : ι → Prop) (joined : Joined lo hi all x y) (mem : group x)
    (closed : ∀ u v, group u → all v → Touch lo hi u v → group v) : group y := by
  induction joined with
  | refl => exact mem
  | tail _ step ih => exact closed _ _ ih step.2.1 step.2.2

end Joined

namespace Hull

theorem unique (left : Hull lo hi all x a b) (right : Hull lo hi all x a' b') :
    a = a' ∧ b = b' := by
  obtain ⟨u, first, rfl⟩ := left.low
  obtain ⟨v, last, rfl⟩ := left.high
  obtain ⟨u', first', rfl⟩ := right.low
  obtain ⟨v', last', rfl⟩ := right.high
  exact ⟨le_antisymm (left.covers _ first').1 (right.covers _ first).1,
    le_antisymm (right.covers _ last).2 (left.covers _ last').2⟩

/-- The hull of a set of joined intervals that nothing else touches. -/
theorem of_closed (group : ι → Prop) (closed : ∀ u v, group u → all v → Touch lo hi u v → group v)
    (joined : ∀ u, group u → ∀ v, group v → Joined lo hi all u v) (mem : group x)
    (covers : ∀ y, group y → a ≤ lo y ∧ hi y ≤ b) (low : ∃ y, group y ∧ lo y = a)
    (high : ∃ y, group y ∧ hi y = b) : Hull lo hi all x a b where
  covers y reached := covers y (reached.mem_of_closed group mem closed)
  low := low.imp fun y here => ⟨joined x mem y here.1, here.2⟩
  high := high.imp fun y here => ⟨joined x mem y here.1, here.2⟩

end Hull

end UnixV7.Touching
