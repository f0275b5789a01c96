import Mathlib.Tactic.Common

/-!
# Partial correctness of stateful computations

A computation over a state either returns a value and a new state or does not return at all.
`Triple P m Q` says that whenever `m` is started where `P` holds and returns, `Q` holds of the
value and of the state it leaves.
-/

namespace UnixV7

variable {σ α β : Type} {P P' R : σ → Prop} {Q Q' : α → σ → Prop} {S : β → σ → Prop}
  {m : StateT σ Option α} {f : α → StateT σ Option β} {s : σ} {a : α}

/-- Started where `P` holds, the computation returns only where `Q` holds. -/
def Triple (P : σ → Prop) (m : StateT σ Option α) (Q : α → σ → Prop) : Prop :=
  ∀ s, P s → ∀ a t, m s = some (a, t) → Q a t

namespace Triple

theorem consequence (triple : Triple P m Q) (before : ∀ s, P' s → P s)
    (after : ∀ a s, Q a s → Q' a s) : Triple P' m Q' := by
  intro s start a t returned
  exact after a t (triple s (before s start) a t returned)

theorem weaken (triple : Triple P m Q) (after : ∀ a s, Q a s → Q' a s) : Triple P m Q' :=
  triple.consequence (fun _ => id) after

theorem strengthen (triple : Triple P m Q) (before : ∀ s, P' s → P s) : Triple P' m Q :=
  triple.consequence before fun _ _ => id

theorem pure (value : α) (holds : ∀ s, P s → Q value s) :
    Triple P (Pure.pure value : StateT σ Option α) Q := by
  intro s start a t returned
  obtain ⟨rfl, rfl⟩ := Prod.mk.inj (Option.some.inj returned)
  exact holds s start

theorem bind (first : Triple P m Q) (second : ∀ a, Triple (Q a) (f a) S) :
    Triple P (m >>= f) S := by
  intro s start b t returned
  obtain ⟨⟨a, s'⟩, middle, rest⟩ := Option.bind_eq_some_iff.mp returned
  exact second a s' (first s start a s' middle) b t rest

theorem get {Q : σ → σ → Prop} (holds : ∀ s, P s → Q s s) :
    Triple P (MonadState.get : StateT σ Option σ) Q := by
  intro s start a t returned
  obtain ⟨rfl, rfl⟩ := Prod.mk.inj (Option.some.inj returned)
  exact holds s start

theorem modify {Q : Unit → σ → Prop} (change : σ → σ) (holds : ∀ s, P s → Q () (change s)) :
    Triple P (modifyThe σ change : StateT σ Option Unit) Q := by
  intro s start a t returned
  obtain ⟨-, rfl⟩ := Prod.mk.inj (Option.some.inj returned)
  exact holds s start

theorem failure : Triple P (Alternative.failure : StateT σ Option α) Q := by
  intro s _ a t returned
  cases returned

theorem ite {c : Prop} [Decidable c] {m' : StateT σ Option α} (yes : c → Triple P m Q)
    (no : ¬c → Triple P m' Q) : Triple P (if c then m else m') Q := by
  split
  · next holds => exact yes holds
  · next fails => exact no fails

/-- What does not depend on the state is assumed once. -/
theorem assume (fact : Prop) (known : ∀ s, P s → fact) (triple : fact → Triple P m Q) :
    Triple P m Q :=
  fun s start => triple (known s start) s start

end Triple

end UnixV7
