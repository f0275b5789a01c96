import UnixV7.Cmd.Tsort.Read
import Mathlib.Data.Finset.Card
import Mathlib.Dynamics.PeriodicPts.Defs
import Mathlib.Logic.Relation

/-!
# The order that is printed

A run prints the nodes one by one. A node is printed when none of its predecessors is live, and
otherwise, when every live node has a live predecessor, after a cycle of live nodes that it lies
on. The walks of `findloop` follow the first live predecessors: the first ends where it comes to a
node for the second time, the second goes once round from there.
-/

namespace UnixV7.Tsort

open Function Fuel

variable {g : Graph} {mark mark' : Live} {failure : String} {f : ℕ → ℕ} {i j k n : ℕ}

/-! ## The walks -/

/-- The first predecessor that is not dead of every node passed, whatever the marks. -/
structure Follows (g : Graph) (f : ℕ → ℕ) : Prop where
  first : ∀ i, g.live i ≠ .DEAD → g.follow i = some (f i)
  alive : ∀ i, g.live i ≠ .DEAD → g.live (f i) ≠ .DEAD

theorem follow_congr {live : ℕ → Live} (same : ∀ i, live i = .DEAD ↔ g.live i = .DEAD) (i : ℕ) :
    Graph.follow ⟨g.nodes, live⟩ i = g.follow i := by
  rw [Graph.follow, Graph.follow]
  congr 1
  funext p
  exact decide_eq_decide.mpr (not_congr (same p))

theorem Follows.congr {live : ℕ → Live} (follows : Follows g f)
    (same : ∀ i, live i = .DEAD ↔ g.live i = .DEAD) : Follows ⟨g.nodes, live⟩ f where
  first i alive := (follow_congr same i).trans (follows.first i (alive ∘ (same i).mpr))
  alive i alive := fun dead => follows.alive i (alive ∘ (same i).mpr) ((same _).mp dead)

/-- A mark put on nodes. -/
def marked (g : Graph) (passed : List ℕ) (mark : Live) : Graph :=
  ⟨g.nodes, fun i => if i ∈ passed then mark else g.live i⟩

theorem marked_cons (g : Graph) (i : ℕ) (passed : List ℕ) (mark : Live) :
    marked ⟨g.nodes, update g.live i mark⟩ passed mark = marked g (i :: passed) mark := by
  rw [marked, marked]
  congr 1
  funext j
  simp only [List.mem_cons, update_apply]
  split
  next mem => rw [if_pos (.inr mem)]
  next not => exact if_congr (or_iff_left not).symm rfl rfl

/-- The first nodes of a walk. -/
def orbit (f : ℕ → ℕ) (i n : ℕ) : List ℕ := (List.range n).map (f^[·] i)

theorem orbit_succ (f : ℕ → ℕ) (i n : ℕ) : orbit f i (n + 1) = i :: orbit f (f i) n := by
  rw [orbit, List.range_succ_eq_map, List.map_cons, List.map_map]
  rfl

theorem mem_orbit : j ∈ orbit f i n ↔ ∃ a < n, f^[a] i = j := by
  rw [orbit, List.mem_map]
  simp only [List.mem_range]

/-- A walk goes over `n` different nodes with the old mark, to a node without it or to one that it
has passed. -/
theorem walk_spec (failure : String) (follows : Follows g f) (other : mark' ≠ mark)
    (dead : mark ≠ .DEAD) (dead' : mark' ≠ .DEAD)
    (distinct : ∀ a < n, ∀ b < n, f^[a] i = f^[b] i → a = b)
    (old : ∀ a < n, g.live (f^[a] i) = mark)
    (stop : g.live (f^[n] i) ≠ mark ∨ ∃ a < n, f^[n] i = f^[a] i) :
    Settles (fun fuel => Graph.walk mark mark' failure fuel g i)
      (orbit f i n, marked g (orbit f i n) mark', f^[n] i) := by
  induction n generalizing g i with
  | zero =>
      have stop' : g.live i ≠ mark := by
        obtain stop | ⟨a, less, -⟩ := stop
        · exact stop
        · exact absurd less (Nat.not_lt_zero a)
      have run : Settles (fun _ => .ok ([], g, i) : ℕ → Except Fault (List ℕ × Graph × ℕ)) _ :=
        Settles.pure ([], g, i)
      refine run.succ fun fuel => ?_
      rw [Graph.walk, if_neg stop']
  | succ n ih =>
      have start : g.live i = mark := old 0 (Nat.succ_pos n)
      have alive : g.live i ≠ .DEAD := start ▸ dead
      have apart : ∀ a < n, f^[a] (f i) ≠ i := by
        intro a less same
        exact absurd (distinct (a + 1) (by omega) 0 (by omega) same) (Nat.succ_ne_zero a)
      have same : ∀ j, update g.live i mark' j = .DEAD ↔ g.live j = .DEAD := by
        intro j
        rw [update_apply]
        split
        next equal =>
          rw [equal]
          exact iff_of_false dead' alive
        next => rfl
      have distinct' : ∀ a < n, ∀ b < n, f^[a] (f i) = f^[b] (f i) → a = b := by
        intro a less b less' equal
        exact Nat.succ.inj (distinct (a + 1) (by omega) (b + 1) (by omega) equal)
      have old' : ∀ a < n, update g.live i mark' (f^[a] (f i)) = mark := by
        intro a less
        rw [update_of_ne (apart a less)]
        exact old (a + 1) (by omega)
      have stop' : update g.live i mark' (f^[n] (f i)) ≠ mark ∨
          ∃ a < n, f^[n] (f i) = f^[a] (f i) := by
        by_cases back : f^[n] (f i) = i
        · rw [back, update_self]
          exact .inl other
        · rw [update_of_ne back]
          refine stop.imp id ?_
          rintro ⟨a, less, equal⟩
          cases a with
          | zero => exact absurd equal back
          | succ a => exact ⟨a, by omega, equal⟩
      have rest := ih (g := ⟨g.nodes, update g.live i mark'⟩) (follows.congr same) distinct' old'
        stop'
      have run := rest.bind (fun _ passed =>
        (.ok (i :: passed.1, passed.2.1, passed.2.2) : Except Fault (List ℕ × Graph × ℕ)))
        (Settles.pure _)
      rw [orbit_succ, ← marked_cons]
      refine run.succ fun fuel => ?_
      rw [Graph.walk, if_pos start]
      dsimp only
      rw [follow_congr same, follows.first i alive]

/-- A walk through finitely many nodes comes to one of them for the second time. -/
theorem exists_return (inside : ∀ a, f^[a] i < k) :
    ∃ n, (∀ a < n, ∀ b < n, f^[a] i = f^[b] i → a = b) ∧ ∃ a < n, f^[n] i = f^[a] i := by
  have again : ∃ n, ∃ a < n, f^[n] i = f^[a] i := by
    have maps : ∀ a ∈ Finset.range (k + 1), f^[a] i ∈ Finset.range k :=
      fun a _ => Finset.mem_range.mpr (inside a)
    obtain ⟨a, -, b, -, other, same⟩ :=
      Finset.exists_ne_map_eq_of_card_lt_of_maps_to (by simp) maps
    obtain less | less := Nat.lt_or_gt_of_ne other
    · exact ⟨b, a, less, same.symm⟩
    · exact ⟨a, b, less, same⟩
  refine ⟨Nat.find again, ?_, Nat.find_spec again⟩
  have least : ∀ b < Nat.find again, ∀ a < b, f^[b] i ≠ f^[a] i :=
    fun b below a less same => Nat.find_min again below ⟨a, less, same⟩
  intro a below b below' same
  obtain less | equal | less := Nat.lt_trichotomy a b
  · exact absurd same.symm (least b below' a less)
  · exact equal
  · exact absurd same (least a below b less)

/-! ## The loop finder -/

/-- Between two passes of the last loop every node is live or dead, and the predecessors are
nodes. -/
structure Settled (g : Graph) : Prop where
  marks : ∀ i, g.live i = .LIVE ∨ g.live i = .DEAD
  inside : ∀ i, g.live i = .LIVE → i < g.nodes.length

/-- A cycle of live nodes, each one followed by a predecessor. -/
structure LiveCycle (g : Graph) (cycle : List ℕ) : Prop where
  nodup : cycle.Nodup
  live : ∀ i ∈ cycle, g.live i = .LIVE
  closed : ∃ i rest, cycle = i :: rest ∧ (cycle ++ [i]).IsChain fun i p => p ∈ g.inedges i

theorem marked_dead (g : Graph) (passed : List ℕ) (dead : mark ≠ .DEAD)
    (alive : ∀ i ∈ passed, g.live i ≠ .DEAD) (j : ℕ) :
    (marked g passed mark).live j = .DEAD ↔ g.live j = .DEAD := by
  simp only [marked]
  split
  next mem => exact iff_of_false dead (alive j mem)
  next => rfl

/-- The marks of the walks are taken away again. -/
theorem revive_eq (settled : Settled g) {live : ℕ → Live}
    (same : ∀ i, live i = .DEAD ↔ g.live i = .DEAD) : Graph.revive ⟨g.nodes, live⟩ = g := by
  have marks : (Graph.revive ⟨g.nodes, live⟩).live = g.live := by
    funext j
    obtain alive | dead := settled.marks j
    · have not : live j ≠ .DEAD := fun dead =>
        absurd (alive.symm.trans ((same j).mp dead)) (by decide)
      exact (if_pos ⟨settled.inside j alive, not⟩).trans alive.symm
    · have dead' := (same j).mpr dead
      exact (if_neg fun both => both.2 dead').trans (dead'.trans dead.symm)
  exact congrArg (Graph.mk g.nodes) marks

theorem isChain_orbit (next : ∀ a, f^[a + 1] i ∈ g.inedges (f^[a] i)) (n : ℕ) :
    (orbit f i (n + 1)).IsChain fun i p => p ∈ g.inedges i := by
  induction n generalizing i with
  | zero => exact List.isChain_singleton _
  | succ n ih =>
      rw [orbit_succ, orbit_succ, List.isChain_cons_cons, ← orbit_succ]
      exact ⟨next 0, ih fun a => next (a + 1)⟩

theorem Settled.alive_iff (settled : Settled g) (i : ℕ) : g.live i ≠ .DEAD ↔ g.live i = .LIVE := by
  obtain live | dead := settled.marks i
  · exact ⟨fun _ => live, fun _ => live ▸ by decide⟩
  · exact ⟨fun not => absurd dead not, fun live => absurd (live.symm.trans dead) (by decide)⟩

/-- Each live node is followed by a predecessor that is live. -/
theorem exists_follows (settled : Settled g)
    (stuck : ∀ i, g.live i = .LIVE → ∃ p ∈ g.inedges i, g.live p = .LIVE) :
    ∃ f, Follows g f ∧ ∀ i, g.live i = .LIVE → f i ∈ g.inedges i ∧ g.live (f i) = .LIVE := by
  have alive := settled.alive_iff
  obtain ⟨f, found⟩ : ∃ f : ℕ → ℕ, ∀ i, g.live i = .LIVE → g.follow i = .some (f i) := by
    refine ⟨fun i => (g.follow i).getD 0, fun i live => ?_⟩
    obtain ⟨p, mem, live'⟩ := stuck i live
    have there : (g.follow i).isSome := by
      rw [Graph.follow, List.find?_isSome]
      exact ⟨p, mem, decide_eq_true ((alive p).mpr live')⟩
    obtain ⟨q, same⟩ := Option.isSome_iff_exists.mp there
    dsimp only
    rw [same]
    rfl
  have pred : ∀ i, g.live i = .LIVE → f i ∈ g.inedges i ∧ g.live (f i) = .LIVE := by
    intro i live
    have first := found i live
    rw [Graph.follow] at first
    have value := List.find?_some first
    exact ⟨List.mem_of_find?_eq_some first, (alive _).mp (of_decide_eq_true value)⟩
  exact ⟨f, ⟨fun i not => found i ((alive i).mp not),
    fun i not => (alive _).mpr (pred i ((alive i).mp not)).2⟩, pred⟩

/-- The node that the first walk starts at is live. -/
theorem exists_start (settled : Settled g) (some : ∃ i, g.live i = .LIVE) :
    ∃ i, ((List.range g.nodes.length).find? (g.live · = .LIVE)).getD g.nodes.length = i ∧
      g.live i = .LIVE := by
  cases first : (List.range g.nodes.length).find? (g.live · = .LIVE) with
  | some i =>
      have value := List.find?_some first
      exact ⟨i, rfl, of_decide_eq_true value⟩
  | none =>
      obtain ⟨i, live⟩ := some
      exact absurd (decide_eq_true live)
        (List.find?_eq_none.mp first i (List.mem_range.mpr (settled.inside i live)))

/-- A node that is come back to is on a cycle of live nodes. -/
theorem liveCycle_orbit (pred : ∀ i, g.live i = .LIVE → f i ∈ g.inedges i)
    (live : ∀ a, g.live (f^[a] j) = .LIVE) (around : 0 < minimalPeriod f j) :
    LiveCycle g (orbit f j (minimalPeriod f j)) := by
  obtain ⟨k, length⟩ : ∃ k, minimalPeriod f j = k + 1 := ⟨_, (Nat.sub_add_cancel around).symm⟩
  refine ⟨?_, fun p mem => ?_, ?_⟩
  · refine List.Nodup.map_on ?_ List.nodup_range
    intro a less' b less'' equal
    exact iterate_injOn_Iio_minimalPeriod (List.mem_range.mp less') (List.mem_range.mp less'') equal
  · obtain ⟨a, -, rfl⟩ := mem_orbit.mp mem
    exact live a
  · refine ⟨j, orbit f (f j) k, by rw [length, orbit_succ], ?_⟩
    have chain := isChain_orbit (g := g) (f := f) (i := j) (fun a => ?_) (minimalPeriod f j)
    · rw [orbit, List.range_succ, List.map_append] at chain
      rwa [← orbit, List.map_singleton, iterate_minimalPeriod] at chain
    · rw [iterate_succ_apply']
      exact pred _ (live a)

/-- When every live node has a live predecessor, `findloop` reports a cycle of live nodes, leaves
the marks as they were and returns the first of the cycle. -/
theorem findloop_spec (settled : Settled g) (some : ∃ i, g.live i = .LIVE)
    (stuck : ∀ i, g.live i = .LIVE → ∃ p ∈ g.inedges i, g.live p = .LIVE) :
    ∃ i cycle, i ∈ cycle ∧ LiveCycle g cycle ∧
      Settles (fun fuel => g.findloop fuel)
        ("cycle in reverse order" :: cycle.filterMap g.name, g, i) := by
  have alive := settled.alive_iff
  obtain ⟨f, follows, pred⟩ := exists_follows settled stuck
  have lives : ∀ i, g.live i = .LIVE → ∀ a, g.live (f^[a] i) = .LIVE := by
    intro i live a
    induction a with
    | zero => exact live
    | succ a ih =>
        rw [iterate_succ_apply']
        exact (pred _ ih).2
  obtain ⟨i, start, live⟩ := exists_start settled some
  obtain ⟨n, distinct, m, less, back⟩ :=
    exists_return (f := f) (i := i) fun a => settled.inside _ (lives i live a)
  have first := walk_spec "error 1" follows (show Live.ONCE ≠ .LIVE by decide)
    (by decide) (by decide) distinct (fun a _ => lives i live a) (.inr ⟨m, less, back⟩)
  -- the second walk goes round the cycle that the first has run into
  have period : IsPeriodicPt f (n - m) (f^[m] i) := by
    rw [IsPeriodicPt, IsFixedPt, ← iterate_add_apply, Nat.sub_add_cancel less.le, back]
  have periodic : f^[m] i ∈ periodicPts f := mk_mem_periodicPts (Nat.sub_pos_of_lt less) period
  have around := minimalPeriod_pos_of_mem_periodicPts periodic
  have shorter := period.minimalPeriod_le (Nat.sub_pos_of_lt less)
  have passed : ∀ a < minimalPeriod f (f^[m] i), f^[a] (f^[m] i) ∈ orbit f i n := by
    intro a less'
    rw [← iterate_add_apply]
    exact mem_orbit.mpr ⟨a + m, by omega, rfl⟩
  have same := marked_dead g (orbit f i n) (show Live.ONCE ≠ .DEAD by decide) fun p mem => by
    obtain ⟨a, -, rfl⟩ := mem_orbit.mp mem
    exact (alive _).mpr (lives i live a)
  have second := walk_spec "error 2" (i := f^[m] i)
    (g := marked g (orbit f i n) .ONCE) (follows.congr same) (show Live.TWICE ≠ .ONCE by decide)
    (by decide) (by decide)
    (fun a less' b less'' equal => iterate_injOn_Iio_minimalPeriod less' less'' equal)
    (fun a less' => if_pos (passed a less'))
    (.inr ⟨0, around, iterate_minimalPeriod⟩)
  rw [back] at first
  rw [iterate_minimalPeriod] at second
  have live' := lives i live m
  generalize f^[m] i = j at first second live' around periodic
  have lives' : ∀ p ∈ orbit f j (minimalPeriod f j), g.live p = .LIVE := by
    intro p mem
    obtain ⟨a, -, rfl⟩ := mem_orbit.mp mem
    exact lives j live' a
  have names : ∀ g' : Graph, g'.nodes = g.nodes → g'.name = g.name := by
    intro g' equal
    funext p
    rw [Graph.name, equal, Graph.name]
  refine ⟨j, orbit f j (minimalPeriod f j), mem_orbit.mpr ⟨0, around, rfl⟩,
    liveCycle_orbit (fun i live => (pred i live).1) (lives j live') around, ?_⟩
  have revived : (marked (marked g (orbit f i n) .ONCE) (orbit f j (minimalPeriod f j))
      .TWICE).revive = g := by
    refine revive_eq settled fun p => ?_
    refine (marked_dead _ _ (by decide) (fun p mem => ?_) p).trans (same p)
    rw [Ne, same]
    exact (alive p).mpr (lives' p mem)
  have report := second.bind (fun _ passed => (.ok ("cycle in reverse order" ::
    passed.1.filterMap passed.2.1.name, passed.2.1.revive, passed.2.2) :
      Except Fault (List String × Graph × ℕ))) (Settles.pure _)
  dsimp only at report
  rw [revived, names (marked (marked g (orbit f i n) .ONCE) _ .TWICE) rfl] at report
  refine (first.bind (fun fuel passed =>
    Graph.walk .ONCE .TWICE "error 2" fuel passed.2.1 passed.2.2 >>= fun passed =>
      (.ok ("cycle in reverse order" :: passed.1.filterMap passed.2.1.name, passed.2.1.revive,
        passed.2.2) : Except Fault (List String × Graph × ℕ))) report).congr fun fuel => ?_
  rw [Graph.findloop, start]

/-! ## The run -/

theorem Settled.kill (settled : Settled g) (i : ℕ) : Settled (g.kill i) where
  marks j := by
    rw [Graph.kill]
    dsimp only
    rw [update_apply]
    split
    · exact .inr rfl
    · exact settled.marks j
  inside j live := by
    rw [Graph.kill] at live
    dsimp only at live
    rw [update_apply] at live
    split at live
    · exact absurd live (by decide)
    · exact settled.inside j live

/-- The nodes that a run prints from some state on, and its lines. -/
inductive Prints : Graph → List ℕ → List Line → Prop
  | done {g : Graph} (dead : ∀ i, g.live i ≠ .LIVE) : Prints g [] []
  | first {g : Graph} {i : ℕ} {x : String} {is : List ℕ} {lines : List Line}
      (live : g.live i = .LIVE) (named : g.name i = some x)
      (free : ∀ p ∈ g.inedges i, g.live p ≠ .LIVE) (rest : Prints (g.kill i) is lines) :
      Prints g (i :: is) (⟨[], x⟩ :: lines)
  | loop {g : Graph} {i : ℕ} {x : String} {is cycle : List ℕ} {lines : List Line}
      (named : g.name i = some x) (mem : i ∈ cycle) (cyclic : LiveCycle g cycle)
      (rest : Prints (g.kill i) is lines) :
      Prints g (i :: is) (⟨"cycle in reverse order" :: cycle.filterMap g.name, x⟩ :: lines)

/-- A pass of the last loop finds a node to print. -/
theorem sweep_spec (settled : Settled g) (some : ∃ i, g.live i = .LIVE) :
    ∃ notes i, g.live i = .LIVE ∧ Settles (fun fuel => g.sweep fuel) (notes, g, i) ∧
      (notes = [] ∧ (∀ p ∈ g.inedges i, g.live p ≠ .LIVE) ∨
        ∃ cycle, i ∈ cycle ∧ LiveCycle g cycle ∧
          notes = "cycle in reverse order" :: cycle.filterMap g.name) := by
  cases first : (List.range g.nodes.length).find? fun i => g.live i = .LIVE && !g.anypred i with
  | some i =>
      have value := List.find?_some first
      rw [Bool.and_eq_true, decide_eq_true_eq, Bool.not_eq_true'] at value
      refine ⟨[], i, value.1, (Settles.pure ([], g, i)).congr fun fuel => ?_, .inl ⟨rfl, ?_⟩⟩
      · rw [Graph.sweep, first]
      · intro p mem live
        have none := List.any_eq_false.mp value.2 p mem
        exact none (decide_eq_true live)
  | none =>
      have stuck : ∀ i, g.live i = .LIVE → ∃ p ∈ g.inedges i, g.live p = .LIVE := by
        intro i live
        have not := List.find?_eq_none.mp first i (List.mem_range.mpr (settled.inside i live))
        rw [Bool.and_eq_true, decide_eq_true_eq, Bool.not_eq_true', not_and,
          Bool.not_eq_false] at not
        obtain ⟨p, mem, live'⟩ := List.any_eq_true.mp (not live)
        exact ⟨p, mem, of_decide_eq_true live'⟩
      obtain ⟨i, cycle, mem, cyclic, settles⟩ := findloop_spec settled some stuck
      refine ⟨_, i, cyclic.live i mem, settles.congr fun fuel => ?_, .inr ⟨cycle, mem, cyclic, rfl⟩⟩
      rw [Graph.sweep, first]

/-- The last loop ends, without an internal error. -/
theorem order_spec (settled : Settled g)
    (count : ((Finset.range g.nodes.length).filter (g.live · = .LIVE)).card = n) :
    ∃ is lines, Settles (fun fuel => Graph.order fuel g) lines ∧ Prints g is lines := by
  induction n generalizing g with
  | zero =>
      have dead : ∀ i, g.live i ≠ .LIVE := by
        intro i live
        have empty := Finset.card_eq_zero.mp count
        exact Finset.notMem_empty i (empty ▸
          Finset.mem_filter.mpr ⟨Finset.mem_range.mpr (settled.inside i live), live⟩)
      have any : (List.range g.nodes.length).any (g.live · = .LIVE) = false := by
        rw [List.any_eq_false]
        exact fun i _ live => dead i (of_decide_eq_true live)
      have run : Settles (fun _ => .ok [] : ℕ → Except Fault (List Line)) _ := Settles.pure []
      refine ⟨[], [], run.succ fun fuel => ?_, .done dead⟩
      rw [Graph.order, any]
      rfl
  | succ n ih =>
      have some : ∃ i, g.live i = .LIVE := by
        obtain ⟨i, mem⟩ := Finset.card_pos.mp (by rw [count]; exact Nat.succ_pos n)
        exact ⟨i, (Finset.mem_filter.mp mem).2⟩
      obtain ⟨notes, i, live, sweep, found⟩ := sweep_spec settled some
      have inside := settled.inside i live
      have fewer : ((Finset.range (g.kill i).nodes.length).filter
          ((g.kill i).live · = .LIVE)).card = n := by
        have erased : (Finset.range (g.kill i).nodes.length).filter ((g.kill i).live · = .LIVE) =
            ((Finset.range g.nodes.length).filter (g.live · = .LIVE)).erase i := by
          ext j
          rw [Finset.mem_filter, Finset.mem_erase, Finset.mem_filter, Graph.kill]
          dsimp only
          rw [update_apply]
          split
          next same => simp [same]
          next other => simp [other]
        rw [erased, Finset.card_erase_of_mem, count]
        · rfl
        · exact Finset.mem_filter.mpr ⟨Finset.mem_range.mpr inside, live⟩
      obtain ⟨is, lines, rest, prints⟩ := ih (settled.kill i) fewer
      obtain ⟨x, named⟩ := exists_name inside
      have any : (List.range g.nodes.length).any (g.live · = .LIVE) = true :=
        List.any_eq_true.mpr ⟨i, List.mem_range.mpr inside, decide_eq_true live⟩
      have last := rest.bind (fun _ lines => (.ok (⟨notes, x⟩ :: lines) :
        Except Fault (List Line))) (Settles.pure _)
      have run := sweep.bind (fun fuel found =>
        Graph.order fuel (found.2.1.kill found.2.2) >>= fun lines =>
          (.ok (⟨found.1, (found.2.1.name found.2.2).getD ""⟩ :: lines) :
            Except Fault (List Line))) (by dsimp only; rw [named]; exact last)
      refine ⟨i :: is, ⟨notes, x⟩ :: lines, run.succ fun fuel => ?_, ?_⟩
      · rw [Graph.order, if_pos any]
      · obtain ⟨rfl, free⟩ | ⟨cycle, mem, cyclic, rfl⟩ := found
        · exact .first live named free prints
        · exact .loop named mem cyclic prints

/-! ## What is printed -/

variable {is cycle : List ℕ} {lines earlier later : List Line} {line : Line} {x y : String}
  {pairs pairs' : List (String × String)} {items cyc : List String}

theorem kill_live : (g.kill i).live j = .LIVE ↔ j ≠ i ∧ g.live j = .LIVE := by
  rw [Graph.kill]
  dsimp only
  rw [update_apply]
  split
  next same => exact iff_of_false (by decide) fun both => both.1 same
  next other => exact (and_iff_right other).symm

namespace Prints

/-- Every live node is printed. -/
theorem mem_iff (prints : Prints g is lines) (j : ℕ) : j ∈ is ↔ g.live j = .LIVE := by
  induction prints with
  | done dead => exact iff_of_false List.not_mem_nil (dead j)
  | @first g i x is lines live named free rest ih =>
      rw [List.mem_cons, ih, kill_live]
      refine ⟨fun found => found.elim (fun same => same ▸ live) And.right, fun live => ?_⟩
      exact (eq_or_ne j i).imp id fun other => ⟨other, live⟩
  | @loop g i x is cycle lines named mem cyclic rest ih =>
      rw [List.mem_cons, ih, kill_live]
      refine ⟨fun found => found.elim (fun same => same ▸ cyclic.live i mem) And.right,
        fun live => ?_⟩
      exact (eq_or_ne j i).imp id fun other => ⟨other, live⟩

/-- No node is printed twice. -/
theorem nodup (prints : Prints g is lines) : is.Nodup := by
  induction prints with
  | done dead => exact List.nodup_nil
  | first live named free rest ih =>
      exact List.nodup_cons.mpr ⟨fun mem => (kill_live.mp ((rest.mem_iff _).mp mem)).1 rfl, ih⟩
  | loop named mem cyclic rest ih =>
      exact List.nodup_cons.mpr ⟨fun mem => (kill_live.mp ((rest.mem_iff _).mp mem)).1 rfl, ih⟩

/-- The names printed are those of the nodes. -/
theorem names (prints : Prints g is lines) : lines.map Line.name = is.filterMap g.name := by
  induction prints with
  | done dead => rfl
  | first live named free rest ih =>
      rw [List.map_cons, ih, List.filterMap_cons_some named]
      rfl
  | loop named mem cyclic rest ih =>
      rw [List.map_cons, ih, List.filterMap_cons_some named]
      rfl

/-- As long as no cycle is found a node is printed after its predecessors. -/
theorem sublist (prints : Prints g is lines) (none : ∀ line ∈ lines, line.notes = []) {p : ℕ}
    (edge : p ∈ g.inedges j) (left : p ∈ is) (right : j ∈ is) (other : p ≠ j) :
    [p, j].Sublist is := by
  induction prints with
  | done dead => exact absurd left List.not_mem_nil
  | @first g i x is lines live named free rest ih =>
      obtain rfl | before := List.mem_cons.mp left
      · obtain same | behind := List.mem_cons.mp right
        · exact absurd same.symm other
        · exact (List.singleton_sublist.mpr behind).cons_cons p
      · obtain rfl | behind := List.mem_cons.mp right
        · exact absurd (kill_live.mp ((rest.mem_iff p).mp before)).2 (free p edge)
        · exact (ih (List.forall_mem_cons.mp none).2 edge before behind).cons i
  | loop named mem cyclic rest ih =>
      exact absurd (none _ List.mem_cons_self) (List.cons_ne_nil _ _)

/-- A cycle is reported of nodes that are not printed yet. -/
def Reported (g : Graph) (earlier : List Line) (line : Line) : Prop :=
  line.notes = [] ∨ ∃ cycle, LiveCycle g cycle ∧
    line.notes = "cycle in reverse order" :: cycle.filterMap g.name ∧
    ∀ x ∈ cycle.filterMap g.name, x ∉ earlier.map Line.name

theorem Reported.of_kill (reported : Reported (g.kill i) earlier line) (named : g.name i = some x)
    (nodup : (g.nodes.map Node.name).Nodup) (notes : List String) :
    Reported g (⟨notes, x⟩ :: earlier) line := by
  refine reported.imp id ?_
  rintro ⟨cycle, cyclic, report, fresh⟩
  refine ⟨cycle, ⟨cyclic.nodup, fun j mem => (kill_live.mp (cyclic.live j mem)).2, cyclic.closed⟩,
    report, fun y mem => ?_⟩
  rw [List.map_cons, List.mem_cons, not_or]
  refine ⟨?_, fresh y mem⟩
  rintro rfl
  obtain ⟨j, member, named'⟩ := List.mem_filterMap.mp mem
  exact (kill_live.mp (cyclic.live j member)).1 (name_inj nodup named' named)

theorem reported (prints : Prints g is lines) (nodup : (g.nodes.map Node.name).Nodup)
    (split : lines = earlier ++ line :: later) : Reported g earlier line := by
  induction prints generalizing earlier with
  | done dead => exact absurd split (by simp)
  | first live named free rest ih =>
      cases earlier with
      | nil =>
          obtain ⟨rfl, -⟩ := List.cons.inj split
          exact .inl rfl
      | cons before earlier =>
          obtain ⟨rfl, split'⟩ := List.cons.inj split
          exact (ih nodup split').of_kill named nodup _
  | @loop g i x is cycle lines named mem cyclic rest ih =>
      cases earlier with
      | nil =>
          obtain ⟨rfl, -⟩ := List.cons.inj split
          exact .inr ⟨cycle, cyclic, rfl, fun _ _ => List.not_mem_nil⟩
      | cons before earlier =>
          obtain ⟨rfl, split'⟩ := List.cons.inj split
          exact (ih nodup split').of_kill named nodup _

end Prints

/-- The relation of the pairs of different items. -/
def Precedes (pairs : List (String × String)) (x y : String) : Prop := (x, y) ∈ pairs ∧ x ≠ y

/-- A cycle in reverse order: every item is preceded by the next one, and the last by the first. -/
structure IsCycle (pairs : List (String × String)) (cyc : List String) : Prop where
  nodup : cyc.Nodup
  closed : ∃ x rest, cyc = x :: rest ∧ (cyc ++ [x]).IsChain fun y x => Precedes pairs x y

theorem transGen_of_isChain {R : String → String → Prop} (rest : List String)
    (chain : (x :: (rest ++ [y])).IsChain fun y x => R x y) : Relation.TransGen R y x := by
  induction rest generalizing x with
  | nil => exact .single (List.isChain_cons_cons.mp chain).1
  | cons z rest ih =>
      obtain ⟨step, chain⟩ := List.isChain_cons_cons.mp chain
      exact (ih chain).tail step

theorem IsCycle.transGen (cycle : IsCycle pairs cyc) :
    ∃ x, Relation.TransGen (Precedes pairs) x x := by
  obtain ⟨x, rest, rfl, chain⟩ := cycle.closed
  exact ⟨x, transGen_of_isChain rest chain⟩

/-- A cycle of live nodes is a cycle of items. -/
theorem LiveCycle.isCycle (cyclic : LiveCycle g cycle) (settled : Settled g)
    (reads : Reads items pairs' g) : IsCycle pairs' (cycle.filterMap g.name) := by
  have named : ∀ i ∈ cycle, g.name i = some ((g.name i).getD "") := by
    intro i mem
    obtain ⟨x, named⟩ := exists_name (settled.inside i (cyclic.live i mem))
    rw [named]
    rfl
  have names : cycle.filterMap g.name = cycle.map fun i => (g.name i).getD "" := by
    rw [List.filterMap_congr named, List.filterMap_eq_map']
  obtain ⟨i, rest, rfl, chain⟩ := cyclic.closed
  rw [names]
  constructor
  · refine List.Nodup.map_on ?_ cyclic.nodup
    intro a mem b mem' same
    have left := named a mem
    rw [same] at left
    exact name_inj reads.nodup left (named b mem')
  · refine ⟨_, _, rfl, ?_⟩
    have last : [(g.name i).getD ""] = [i].map fun i => (g.name i).getD "" := rfl
    rw [last, ← List.map_append, List.isChain_map]
    refine chain.imp fun a b edge => ?_
    obtain ⟨x, y, mem, other, left, right⟩ := (reads.edges b a).mp edge
    rw [left, right]
    exact ⟨mem, other⟩

/-- Every item is printed once. Without a cycle each comes before those that it precedes, and
nothing is noted; with cycles the run ends as well, and each cycle that is reported is one of items
not printed yet. -/
theorem main_order (pairs : List (String × String)) :
    ∃ lines, Settles (main (words pairs)) lines ∧ (lines.map Line.name).Nodup ∧
      (∀ x, x ∈ lines.map Line.name ↔ x ∈ words pairs) ∧
      ((∀ x, ¬ Relation.TransGen (Precedes pairs) x x) →
        (∀ line ∈ lines, line.notes = []) ∧
        ∀ x y, Precedes pairs x y → [x, y].Sublist (lines.map Line.name)) ∧
      ∀ earlier line later, lines = earlier ++ line :: later →
        line.notes = [] ∨ ∃ cyc, IsCycle pairs cyc ∧
          line.notes = "cycle in reverse order" :: cyc ∧ ∀ x ∈ cyc, x ∉ earlier.map Line.name := by
  obtain ⟨g, items, pairs', read, reads, sameItems, samePairs⟩ := read_words pairs
  have settled : Settled g := by
    constructor
    · intro i
      rw [reads.live]
      split
      · exact .inl rfl
      · exact .inr rfl
    · intro i live
      rw [reads.live] at live
      by_contra outside
      rw [if_neg outside] at live
      exact absurd live (by decide)
  have alive : ∀ i x, g.name i = some x → g.live i = .LIVE :=
    fun i x named => (reads.live i).trans (if_pos (lt_of_name named))
  have precedes : ∀ x y, Precedes pairs' x y ↔ Precedes pairs x y :=
    fun x y => and_congr_left' (samePairs (x, y))
  have same : Precedes pairs' = Precedes pairs := by
    funext x y
    exact propext (precedes x y)
  obtain ⟨is, lines, order, prints⟩ := order_spec settled rfl
  have run : Settles (main (words pairs)) lines :=
    order.congr fun fuel => by rw [main, read]; rfl
  have reported : ∀ earlier line later, lines = earlier ++ line :: later →
      line.notes = [] ∨ ∃ cyc, IsCycle pairs cyc ∧
        line.notes = "cycle in reverse order" :: cyc ∧ ∀ x ∈ cyc, x ∉ earlier.map Line.name := by
    intro earlier line later split
    refine (prints.reported reads.nodup split).imp id ?_
    rintro ⟨cycle, cyclic, report, fresh⟩
    obtain ⟨nodup, closed⟩ := cyclic.isCycle settled reads
    exact ⟨_, ⟨nodup, by rwa [same] at closed⟩, report, fresh⟩
  refine ⟨lines, run, ?_, ?_, ?_, reported⟩
  · rw [prints.names]
    refine prints.nodup.filterMap fun a b x left right => ?_
    exact name_inj reads.nodup left right
  · intro x
    rw [prints.names, List.mem_filterMap, ← sameItems, ← reads.names]
    exact exists_congr fun i =>
      and_iff_right_of_imp fun named => (prints.mem_iff i).mpr (alive i x named)
  · intro acyclic
    have quiet : ∀ line ∈ lines, line.notes = [] := by
      intro line mem
      obtain ⟨earlier, later, split⟩ := List.append_of_mem mem
      obtain none | ⟨cyc, cycle, -⟩ := reported earlier line later split
      · exact none
      · obtain ⟨x, around⟩ := cycle.transGen
        exact absurd around (acyclic x)
    refine ⟨quiet, fun x y edge => ?_⟩
    obtain ⟨left, right⟩ := reads.known x y ((samePairs (x, y)).mpr edge.1)
    obtain ⟨i, namedX⟩ := (reads.names x).mpr left
    obtain ⟨j, namedY⟩ := (reads.names y).mpr right
    have linked : i ∈ g.inedges j :=
      (reads.edges i j).mpr ⟨x, y, (samePairs (x, y)).mpr edge.1, edge.2, namedX, namedY⟩
    have other : i ≠ j := by
      rintro rfl
      exact edge.2 (Option.some.inj (namedX.symm.trans namedY))
    have before := prints.sublist quiet linked ((prints.mem_iff i).mpr (alive i x namedX))
      ((prints.mem_iff j).mpr (alive j y namedY)) other
    have names := before.filterMap g.name
    rw [List.filterMap_cons_some namedX, List.filterMap_cons_some namedY] at names
    rw [prints.names]
    exact names

end UnixV7.Tsort
