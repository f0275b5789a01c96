import Mathlib.Data.List.Basic
import Mathlib.Data.List.Nodup
import Mathlib.Tactic.Common

/-!
# Singly linked chains

`Seg next start cells stop` says that following the links `next` from `start` visits exactly
`cells` and arrives at `stop`; a chain is a segment that ends at the null pointer. The lemmas
give the effect of the three ways a chain is edited: a push at its head, the removal of a cell
through its predecessor, and the change of a link that is not on it.
-/

namespace UnixV7

variable {ι : Type*} {next other : ι → Option ι} {start stop middle : Option ι}
  {cell : ι} {cells front back : List ι}

/-- Following `next` from `start` visits `cells` and arrives at `stop`. -/
def Seg (next : ι → Option ι) : Option ι → List ι → Option ι → Prop
  | start, [], stop => start = stop
  | start, cell :: cells, stop => start = some cell ∧ Seg next (next cell) cells stop

/-- A segment that ends at the null pointer. -/
def Chain (next : ι → Option ι) (start : Option ι) (cells : List ι) : Prop :=
  Seg next start cells none

@[simp] theorem seg_nil : Seg next start [] stop ↔ start = stop := Iff.rfl

@[simp] theorem seg_cons :
    Seg next start (cell :: cells) stop ↔ start = some cell ∧ Seg next (next cell) cells stop :=
  Iff.rfl

@[simp] theorem chain_nil : Chain next start [] ↔ start = none := Iff.rfl

@[simp] theorem chain_cons :
    Chain next start (cell :: cells) ↔ start = some cell ∧ Chain next (next cell) cells :=
  Iff.rfl

theorem seg_append :
    Seg next start (front ++ back) stop ↔
      ∃ middle, Seg next start front middle ∧ Seg next middle back stop := by
  induction front generalizing start with
  | nil => simp
  | cons cell front ih => simp [ih, and_assoc]

/-- A segment depends only on the links of the cells it visits. -/
theorem Seg.congr (seg : Seg next start cells stop)
    (same : ∀ cell ∈ cells, other cell = next cell) : Seg other start cells stop := by
  induction cells generalizing start with
  | nil => exact seg
  | cons cell cells ih =>
      obtain ⟨rfl, seg⟩ := seg
      refine ⟨rfl, ?_⟩
      rw [same cell List.mem_cons_self]
      exact ih seg fun other member => same other (List.mem_cons_of_mem cell member)

theorem Chain.congr (chain : Chain next start cells)
    (same : ∀ cell ∈ cells, other cell = next cell) : Chain other start cells :=
  Seg.congr chain same

/-- The start of a chain is its first cell. -/
theorem Chain.start_eq (chain : Chain next start cells) : start = cells.head? := by
  cases cells with
  | nil => exact chain
  | cons cell cells => exact chain.1

/-- Links lead to one chain only. -/
theorem Chain.unique {others : List ι} (chain : Chain next start cells)
    (again : Chain next start others) : cells = others := by
  induction cells generalizing start others with
  | nil =>
      cases others with
      | nil => rfl
      | cons cell others => simp_all
  | cons cell cells ih =>
      obtain ⟨rfl, chain⟩ := chain
      cases others with
      | nil => simp at again
      | cons first others =>
          obtain ⟨same, again⟩ := again
          obtain rfl := Option.some.inj same
          rw [ih chain again]

/-- The links behind a cell of a chain lead through the rest of the chain. -/
theorem Chain.tail (chain : Chain next start (front ++ cell :: back)) :
    Chain next (next cell) back := by
  obtain ⟨middle, _, seg⟩ := seg_append.mp chain
  exact seg.2

variable [DecidableEq ι]

/-- A link that is not on a chain may change. -/
theorem Chain.update (chain : Chain next start cells) (fresh : cell ∉ cells) :
    Chain (Function.update next cell stop) start cells :=
  chain.congr fun member mem =>
    Function.update_of_ne (show member ≠ cell by rintro rfl; exact fresh mem) _ _

/-- Pushing a fresh cell in front of a chain. -/
theorem Chain.push (chain : Chain next start cells) (fresh : cell ∉ cells) :
    Chain (Function.update next cell start) (some cell) (cell :: cells) := by
  refine ⟨rfl, ?_⟩
  rw [Function.update_self]
  exact chain.update fresh

/-- Redirecting the last link of a segment. -/
theorem Seg.redirect (seg : Seg next start (front ++ [cell]) middle)
    (distinct : (front ++ [cell]).Nodup) :
    Seg (Function.update next cell stop) start (front ++ [cell]) stop := by
  obtain ⟨entry, seg, last⟩ := seg_append.mp seg
  refine seg_append.mpr ⟨entry, ?_, last.1, ?_⟩
  · refine seg.congr fun member mem => Function.update_of_ne ?_ _ _
    rintro rfl
    exact (List.nodup_append.mp distinct).2.2 member mem member (by simp) rfl
  · simp

/-- Removing a cell by redirecting its predecessor's link past it. -/
theorem Chain.unlink {prev : ι} (chain : Chain next start ((front ++ [prev]) ++ cell :: back))
    (distinct : ((front ++ [prev]) ++ cell :: back).Nodup) :
    Chain (Function.update next prev (next cell)) start ((front ++ [prev]) ++ back) := by
  obtain ⟨middle, seg, rest⟩ := seg_append.mp chain
  have parts := List.nodup_append.mp distinct
  refine seg_append.mpr ⟨next cell, seg.redirect parts.1, ?_⟩
  refine Seg.congr rest.2 fun member mem => Function.update_of_ne ?_ _ _
  rintro rfl
  exact parts.2.2 member (by simp) member (List.mem_cons_of_mem cell mem) rfl

end UnixV7
