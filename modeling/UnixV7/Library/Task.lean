import Mathlib.Tactic.Common

/-!
# Tasks that may be abandoned

A task changes a state step by step. It may be given a number of steps, after which it is
abandoned; what it has changed by then stays changed. `Task.Spec P m Q R` says that `m`, started
where `P` holds, leaves `Q` when it returns and `R` when it is abandoned, and that it returns
unless it is given too few steps.
-/

namespace UnixV7

/-- A state, and the steps that are left before the task is abandoned, if it will be. -/
structure Budget (σ : Type) where
  state : σ
  ticks : Option ℕ

/-- A task returns a value or is abandoned, and leaves a state in either case. -/
abbrev Task (σ α : Type) : Type := OptionT (StateM (Budget σ)) α

namespace Task

variable {σ α β : Type} {P P' R R' : σ → Prop} {Q Q' : α → σ → Prop} {S : β → σ → Prop}
  {m : Task σ α} {f : α → Task σ β}

/-- The present state. -/
def look : Task σ σ := fun b => (some b.state, b)

/-- One step, which is done or not done. -/
def step (change : σ → σ) : Task σ Unit := fun b =>
  match b.ticks with
  | none => (some (), ⟨change b.state, none⟩)
  | some 0 => (none, b)
  | some (n + 1) => (some (), ⟨change b.state, some n⟩)

/-- A number of steps of which only the first ones may be done. -/
def steps (total : ℕ) (change : ℕ → σ → σ) : Task σ Unit := fun b =>
  match b.ticks with
  | none => (some (), ⟨change total b.state, none⟩)
  | some n =>
    if total ≤ n then (some (), ⟨change total b.state, some (n - total)⟩)
    else (none, ⟨change n b.state, some 0⟩)

/-- The task gives up. -/
def abandon : Task σ α := fun b => (none, b)

def Spec (P : σ → Prop) (m : Task σ α) (Q : α → σ → Prop) (R : σ → Prop) : Prop :=
  ∀ b, P b.state →
    match m b with
    | (some a, c) => Q a c.state ∧ (b.ticks = none → c.ticks = none)
    | (none, c) => R c.state ∧ b.ticks ≠ none

namespace Spec

theorem consequence (spec : Spec P m Q R) (before : ∀ s, P' s → P s)
    (after : ∀ a s, Q a s → Q' a s) (left : ∀ s, R s → R' s) : Spec P' m Q' R' := by
  intro b start
  have done := spec b (before b.state start)
  split at done
  · exact ⟨after _ _ done.1, done.2⟩
  · exact ⟨left _ done.1, done.2⟩

theorem strengthen (spec : Spec P m Q R) (before : ∀ s, P' s → P s) : Spec P' m Q R :=
  spec.consequence before (fun _ _ => id) fun _ => id

theorem weaken (spec : Spec P m Q R) (after : ∀ a s, Q a s → Q' a s) : Spec P m Q' R :=
  spec.consequence (fun _ => id) after fun _ => id

theorem pure (value : α) (holds : ∀ s, P s → Q value s) :
    Spec P (Pure.pure value : Task σ α) Q R := by
  intro b start
  exact ⟨holds b.state start, id⟩

theorem bind (first : Spec P m Q R) (second : ∀ a, Spec (Q a) (f a) S R) :
    Spec P (m >>= f) S R := by
  intro b start
  have done := first b start
  have rest : (m >>= f) b = match m b with
      | (some a, c) => f a c
      | (none, c) => (none, c) := by
    change (match m b with
      | (a, c) => (match a with
        | some a => f a
        | none => Pure.pure none : StateM (Budget σ) (Option β)) c) = _
    rcases m b with ⟨_ | a, c⟩
    · rfl
    · rfl
  rw [rest]
  rcases eq : m b with ⟨_ | a, c⟩
  · simpa only [eq] using done
  · simp only [eq] at done
    have done' := second a c done.1
    dsimp only
    rcases eq' : f a c with ⟨_ | a', c'⟩
    · simp only [eq'] at done'
      exact ⟨done'.1, fun free => done'.2 (done.2 free)⟩
    · simp only [eq'] at done'
      exact ⟨done'.1, fun free => done'.2 (done.2 free)⟩

/-- What follows on a look at the state may depend on that state. -/
theorem look {f : σ → Task σ β} (each : ∀ s, Spec (fun t => t = s ∧ P t) (f s) S R) :
    Spec P (look >>= f) S R := by
  intro b start
  exact each b.state b ⟨rfl, start⟩

theorem step {Q : Unit → σ → Prop} (change : σ → σ) (holds : ∀ s, P s → Q () (change s))
    (left : ∀ s, P s → R s) : Spec P (step change) Q R := by
  intro b start
  obtain ⟨s, ticks⟩ := b
  rcases ticks with _ | _ | n
  · exact ⟨holds s start, fun _ => rfl⟩
  · exact ⟨left s start, by simp⟩
  · exact ⟨holds s start, by simp⟩

theorem steps {Q : Unit → σ → Prop} {total : ℕ} (change : ℕ → σ → σ)
    (holds : ∀ s, P s → Q () (change total s)) (left : ∀ s n, n < total → P s → R (change n s)) :
    Spec P (steps total change) Q R := by
  intro b start
  obtain ⟨s, ticks⟩ := b
  cases ticks with
  | none => exact ⟨holds s start, fun _ => rfl⟩
  | some n =>
    rw [Task.steps]
    cases Nat.decLe total n with
    | isTrue enough =>
        simp only [if_pos enough]
        exact ⟨holds s start, by simp⟩
    | isFalse few =>
        simp only [if_neg few]
        exact ⟨left s n (Nat.lt_of_not_le few) start, by simp⟩

theorem abandon (never : ∀ s, ¬P s) : Spec P (abandon : Task σ α) Q R :=
  fun b start => absurd start (never b.state)

theorem ite {c : Prop} [Decidable c] {m' : Task σ α} (yes : c → Spec P m Q R)
    (no : ¬c → Spec P m' Q R) : Spec P (if c then m else m') Q R := by
  split
  next holds => exact yes holds
  next fails => exact no fails

/-- What does not depend on the state is assumed once. -/
theorem assume (fact : Prop) (known : ∀ s, P s → fact) (spec : fact → Spec P m Q R) :
    Spec P m Q R :=
  fun b start => spec (known b.state start) b start

/-- A task that nothing interrupts returns. -/
theorem returns (spec : Spec P m Q R) {s : σ} (start : P s) :
    ∃ a t, m ⟨s, none⟩ = (some a, ⟨t, none⟩) ∧ Q a t := by
  have done := spec ⟨s, none⟩ start
  rcases eq : m ⟨s, none⟩ with ⟨_ | a, t, ticks⟩
  · simp only [eq] at done
    exact absurd rfl done.2
  · simp only [eq] at done
    obtain ⟨holds, free⟩ := done
    have free : ticks = none := free trivial
    exact ⟨a, t, by rw [free], holds⟩

end Spec

end Task

end UnixV7
