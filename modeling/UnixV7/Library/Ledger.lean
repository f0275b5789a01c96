import UnixV7.Library.Apart

/-!
# Things taken from a list and returned to it

Several parties take things from one list and return them. A thing is in the hands of a party
between the moment it leaves the list and the moment its taking is completed, and again between
the beginning of its return and the moment it is back on the list. The log has the completed
takings and returns.
-/

namespace UnixV7

open Function

/-- A completed operation. -/
inductive Entry (α : Type*)
  | taken (a : α)
  | returned (a : α)
  | refused
  deriving DecidableEq

/-- The thing has been taken and not been returned since; the last entry comes first. -/
def Outstanding {α : Type*} (a : α) : List (Entry α) → Prop
  | [] => False
  | .taken b :: log => b = a ∨ Outstanding a log
  | .returned b :: log => b ≠ a ∧ Outstanding a log
  | .refused :: log => Outstanding a log

/-- Nothing is taken twice without being returned in between. -/
def Alternates {α : Type*} : List (Entry α) → Prop
  | [] => True
  | .taken a :: log => ¬Outstanding a log ∧ Alternates log
  | .returned _ :: log => Alternates log
  | .refused :: log => Alternates log

/-- What a party has in hand: nothing, a thing it is taking, or one it is returning. -/
inductive Hand (α : Type*)
  | empty
  | taking (a : α)
  | returning (a : α)

/-- The things in a hand. -/
def Hand.things {α : Type*} : Hand α → List α
  | .empty => []
  | .taking a | .returning a => [a]

/-- The list, the hands of all parties and the log. -/
structure Ledger (κ α : Type*) where
  list : List α
  hand : κ → Hand α
  log : List (Entry α)

namespace Ledger

variable {κ α : Type*} [DecidableEq α] {initial rest : List α} {g : Ledger κ α} {x : κ} {a b : α}

/-- Everything is in one place, and the list is what it was at first with the completed takings
and returns made. -/
structure Kept (initial : List α) (g : Ledger κ α) : Prop where
  apart : Apart (fun x => (g.hand x).things) g.list
  alternates : Alternates g.log
  outside : ∀ a, Outstanding a g.log → a ∉ g.list ∧ ∀ x, g.hand x ≠ .taking a
  balance : ∀ a, (∀ x, g.hand x ≠ .taking a) →
    g.list.count a + g.log.count (.taken a) = initial.count a + g.log.count (.returned a)
  pending : ∀ a x, g.hand x = .taking a →
    g.list.count a + 1 + g.log.count (.taken a) = initial.count a + g.log.count (.returned a)

namespace Kept

/-- At first the hands are empty. -/
theorem start (distinct : initial.Nodup) :
    Kept initial (⟨initial, fun _ => .empty, []⟩ : Ledger κ α) where
  apart := ⟨distinct, fun _ => by simpa [Hand.things] using distinct,
    fun _ _ _ => by simp [Hand.things]⟩
  alternates := trivial
  outside := by simp [Outstanding]
  balance := by simp
  pending := by simp

theorem refuse (kept : Kept initial g) :
    Kept initial { g with log := .refused :: g.log } where
  apart := kept.apart
  alternates := kept.alternates
  outside := kept.outside
  balance a none := by simpa [List.count_cons] using kept.balance a none
  pending a x here := by simpa [List.count_cons] using kept.pending a x here

theorem not_listed (kept : Kept initial g) (here : a ∈ (g.hand x).things) : a ∉ g.list :=
  kept.apart.not_mem_stock here

/-- Two hands never have the same thing. -/
theorem hands_ne {y : κ} (kept : Kept initial g) (here : a ∈ (g.hand x).things)
    (also : b ∈ (g.hand y).things) (other : y ≠ x) : b ≠ a := by
  rintro rfl
  exact kept.apart.not_mem_of_ne here other also

variable [DecidableEq κ]

omit [DecidableEq α] in
/-- The hands after one party's has changed. -/
theorem taking_update {hand : κ → Hand α} {h : Hand α} {y : κ} :
    update hand x h y = .taking a ↔ (y = x ∧ h = .taking a) ∨ (y ≠ x ∧ hand y = .taking a) := by
  by_cases same : y = x
  · subst same
    simp
  · simp [same]

omit [DecidableEq α] in
theorem things_update (hand : κ → Hand α) (h : Hand α) (y : κ) (other : y ≠ x) :
    (update hand x h y).things = (hand y).things := by
  rw [update_of_ne other]

/-- The first thing on the list is taken into a hand. -/
theorem take (kept : Kept initial g) (first : g.list = a :: rest) (free : g.hand x = .empty) :
    Kept initial ⟨rest, update g.hand x (.taking a), g.log⟩ := by
  have nobody : ∀ y, g.hand y ≠ .taking a := by
    intro y here
    exact kept.not_listed (x := y) (a := a) (by simp [here, Hand.things]) (by simp [first])
  refine ⟨?_, kept.alternates, fun b out => ?_, fun b none => ?_, fun b y here => ?_⟩
  · refine kept.apart.trade (x := x) ?_ fun y other => things_update g.hand _ y other
    simp [Hand.things, free, first]
  · obtain ⟨off, untaken⟩ := kept.outside b out
    rw [first, List.mem_cons, not_or] at off
    refine ⟨off.2, fun y here => ?_⟩
    rcases taking_update.mp here with ⟨-, same⟩ | ⟨-, before⟩
    · exact off.1 (Hand.taking.inj same).symm
    · exact untaken y before
  · have other : b ≠ a := by
      rintro rfl
      exact none x (update_self _ _ _)
    have before := kept.balance b fun y here => none y (taking_update.mpr (.inr ⟨?_, here⟩))
    · rwa [first, List.count_cons_of_ne other.symm] at before
    · rintro rfl
      simp [free] at here
  · rcases taking_update.mp here with ⟨-, same⟩ | ⟨-, before⟩
    · obtain rfl := Hand.taking.inj same
      have settled := kept.balance a nobody
      rwa [first, List.count_cons_self] at settled
    · have other : b ≠ a := by
        rintro rfl
        exact nobody y before
      have pending := kept.pending b y before
      rwa [first, List.count_cons_of_ne other.symm] at pending

/-- A taking is completed. -/
theorem taken (kept : Kept initial g) (here : g.hand x = .taking a) :
    Kept initial ⟨g.list, update g.hand x .empty, .taken a :: g.log⟩ := by
  have inside : a ∈ (g.hand x).things := by simp [here, Hand.things]
  have others : ∀ b y, y ≠ x → g.hand y = .taking b → b ≠ a := fun b y other held =>
    kept.hands_ne inside (by simp [held, Hand.things]) other
  refine ⟨?_, ⟨fun out => (kept.outside a out).2 x here, kept.alternates⟩, fun b out => ?_,
    fun b none => ?_, fun b y held => ?_⟩
  · refine kept.apart.shrink (x := x) ?_ fun y other => things_update g.hand _ y other
    simp [Hand.things]
  · rcases out with rfl | out
    · refine ⟨kept.not_listed inside, fun y held => ?_⟩
      rcases taking_update.mp held with ⟨-, empty⟩ | ⟨other, before⟩
      · simp at empty
      · exact others a y other before rfl
    · obtain ⟨off, untaken⟩ := kept.outside b out
      refine ⟨off, fun y held => ?_⟩
      rcases taking_update.mp held with ⟨-, empty⟩ | ⟨-, before⟩
      · simp at empty
      · exact untaken y before
  · by_cases same : b = a
    · subst same
      have pending := kept.pending b x here
      simp only [List.count_cons_self, List.count_cons]
      simp
      omega
    · have before := kept.balance b fun y held => by
        by_cases actor : y = x
        · subst actor
          rw [here] at held
          exact same (Hand.taking.inj held).symm
        · exact none y (taking_update.mpr (.inr ⟨actor, held⟩))
      simpa [List.count_cons, Ne.symm same] using before
  · rcases taking_update.mp held with ⟨-, empty⟩ | ⟨other, before⟩
    · simp at empty
    · have pending := kept.pending b y before
      simpa [List.count_cons, (others b y other before).symm] using pending

/-- The return of a thing that nobody has begins. -/
theorem giveBack (kept : Kept initial g) (free : g.hand x = .empty) (off : a ∉ g.list)
    (nobody : ∀ y, a ∉ (g.hand y).things) :
    Kept initial ⟨g.list, update g.hand x (.returning a), g.log⟩ := by
  have before : ∀ b y, update g.hand x (.returning a) y = .taking b → g.hand y = .taking b := by
    intro b y held
    rcases taking_update.mp held with ⟨-, wrong⟩ | ⟨-, before⟩
    · simp at wrong
    · exact before
  have after : ∀ b y, g.hand y = .taking b → update g.hand x (.returning a) y = .taking b := by
    intro b y held
    refine taking_update.mpr (.inr ⟨?_, held⟩)
    rintro rfl
    simp [free] at held
  refine ⟨?_, kept.alternates, fun b out => ?_, fun b none => ?_, fun b y held => ?_⟩
  · refine kept.apart.gain (x := x) off nobody ?_ fun y other => things_update g.hand _ y other
    simp [Hand.things, free]
  · obtain ⟨unlisted, untaken⟩ := kept.outside b out
    exact ⟨unlisted, fun y held => untaken y (before b y held)⟩
  · exact kept.balance b fun y held => none y (after b y held)
  · exact kept.pending b y (before b y held)

/-- A return is completed. -/
theorem returned (kept : Kept initial g) (here : g.hand x = .returning a) :
    Kept initial ⟨a :: g.list, update g.hand x .empty, .returned a :: g.log⟩ := by
  have inside : a ∈ (g.hand x).things := by simp [here, Hand.things]
  have before : ∀ b y, update g.hand x .empty y = .taking b → b ≠ a ∧ g.hand y = .taking b := by
    intro b y held
    rcases taking_update.mp held with ⟨-, wrong⟩ | ⟨other, before⟩
    · simp at wrong
    · exact ⟨kept.hands_ne inside (by simp [before, Hand.things]) other, before⟩
  refine ⟨?_, kept.alternates, fun b out => ?_, fun b none => ?_, fun b y held => ?_⟩
  · refine kept.apart.trade (x := x) ?_ fun y other => things_update g.hand _ y other
    simp [Hand.things, here]
  · obtain ⟨other, out⟩ := out
    obtain ⟨unlisted, untaken⟩ := kept.outside b out
    refine ⟨by simp [unlisted, Ne.symm other], fun y held => untaken y (before b y held).2⟩
  · have settled := kept.balance b fun y held => by
      refine none y (taking_update.mpr (.inr ⟨?_, held⟩))
      rintro rfl
      simp [here] at held
    by_cases same : a = b
    · subst same
      simp only [List.count_cons]
      simp
      omega
    · simpa [List.count_cons, same] using settled
  · obtain ⟨other, held⟩ := before b y held
    simpa [List.count_cons, Ne.symm other] using kept.pending b y held

end Kept

end Ledger

end UnixV7
