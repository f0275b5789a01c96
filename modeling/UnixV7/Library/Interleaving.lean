import Mathlib.Logic.Function.Basic
import Mathlib.Tactic.Common

/-!
# Interleaved processes

Processes that share a state run one at a time, from one place where they can be suspended to
the next. What happens between two such places is one event. A run may be restricted to the
moves that satisfy a condition on the world they are made in, so that a property which holds of
the restricted runs only can be stated without changing the system.
-/

namespace UnixV7

open Function

/-- Processes that share a state `σ`. Each holds a local state `ℓ` at the place it has reached,
and an event takes it to its next place. -/
structure System (ι ε σ ℓ : Type*) where
  start : ℓ
  next : ι → ε → σ → ℓ → Option (σ × ℓ)

/-- The shared state and the place of every process. -/
@[ext]
structure World (ι σ ℓ : Type*) where
  shared : σ
  loc : ι → ℓ

namespace System

variable {ι ε σ ℓ : Type*} [DecidableEq ι] {sys : System ι ε σ ℓ} {init : σ → Prop}
  {allowed permitted : World ι σ ℓ → ι → ε → Prop} {w w' : World ι σ ℓ} {p : ι} {e : ε}

/-- One process makes one move. -/
def move (sys : System ι ε σ ℓ) (w : World ι σ ℓ) (p : ι) (e : ε) : Option (World ι σ ℓ) :=
  (sys.next p e w.shared (w.loc p)).map fun result => ⟨result.1, update w.loc p result.2⟩

/-- The world after a list of moves. -/
def exec (sys : System ι ε σ ℓ) : World ι σ ℓ → List (ι × ε) → Option (World ι σ ℓ)
  | w, [] => some w
  | w, (p, e) :: moves => (sys.move w p e).bind fun w' => sys.exec w' moves

/-- The worlds that moves satisfying `allowed` lead to from a shared state satisfying `init`. -/
inductive Run (sys : System ι ε σ ℓ) (init : σ → Prop) (allowed : World ι σ ℓ → ι → ε → Prop) :
    World ι σ ℓ → Prop
  | start {s : σ} : init s → Run sys init allowed ⟨s, fun _ => sys.start⟩
  | move {w w' : World ι σ ℓ} {p : ι} {e : ε} : Run sys init allowed w → allowed w p e →
      sys.move w p e = some w' → Run sys init allowed w'

/-- The worlds that any moves lead to. -/
def Reachable (sys : System ι ε σ ℓ) (init : σ → Prop) : World ι σ ℓ → Prop :=
  sys.Run init fun _ _ _ => True

theorem move_eq_some :
    sys.move w p e = some w' ↔ ∃ s l, sys.next p e w.shared (w.loc p) = some (s, l) ∧
      w' = ⟨s, update w.loc p l⟩ := by
  simp only [move, Option.map_eq_some_iff, Prod.exists]
  constructor
  · rintro ⟨s, l, stepped, rfl⟩
    exact ⟨s, l, stepped, rfl⟩
  · rintro ⟨s, l, stepped, rfl⟩
    exact ⟨s, l, stepped, rfl⟩

/-- What holds at the start and is kept by every allowed move holds throughout a run. -/
theorem Run.invariant (inv : World ι σ ℓ → Prop) (run : sys.Run init allowed w)
    (base : ∀ s, init s → inv ⟨s, fun _ => sys.start⟩)
    (keep : ∀ w p e s l, inv w → allowed w p e →
      sys.next p e w.shared (w.loc p) = some (s, l) → inv ⟨s, update w.loc p l⟩) : inv w := by
  induction run with
  | start here => exact base _ here
  | move run may moved ih =>
      obtain ⟨s, l, stepped, rfl⟩ := move_eq_some.mp moved
      exact keep _ _ _ s l ih may stepped

/-- A run stays a run when more moves are allowed. -/
theorem Run.mono (run : sys.Run init allowed w)
    (weaker : ∀ w p e, allowed w p e → permitted w p e) : sys.Run init permitted w := by
  induction run with
  | start here => exact .start here
  | move _ may moved ih => exact ih.move (weaker _ _ _ may) moved

/-- One more allowed move, with what it does written out. -/
theorem Run.next {s : σ} {l : ℓ} (run : sys.Run init allowed w) (may : allowed w p e)
    (stepped : sys.next p e w.shared (w.loc p) = some (s, l)) :
    sys.Run init allowed ⟨s, update w.loc p l⟩ :=
  run.move may (move_eq_some.mpr ⟨s, l, stepped, rfl⟩)

/-- A list of moves goes from reachable worlds to reachable ones. -/
theorem Reachable.exec (moves : List (ι × ε)) (reached : sys.Reachable init w)
    (moved : sys.exec w moves = some w') : sys.Reachable init w' := by
  induction moves generalizing w with
  | nil => exact Option.some.inj moved ▸ reached
  | cons first moves ih =>
      obtain ⟨middle, here, onward⟩ := Option.bind_eq_some_iff.mp moved
      exact ih (reached.move trivial here) onward

/-- A list of moves from a start reaches the world it computes. -/
theorem reachable_of_exec {s : σ} (moves : List (ι × ε)) (here : init s)
    (moved : sys.exec ⟨s, fun _ => sys.start⟩ moves = some w') : sys.Reachable init w' :=
  Reachable.exec moves (Run.start here) moved

end System

end UnixV7
