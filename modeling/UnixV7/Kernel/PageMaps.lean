import UnixV7.Kernel.Holdings
import UnixV7.Kernel.Maprot

/-!
# Where every page is

The page allocator with any number of maps. Whatever maps grow, shrink and are rearranged, every
page that was free at first is on the stack, in the hands of a caller of `pgalloc`, or the root, a
list page or an entry of a map, and in one of these places only.
-/

namespace UnixV7

open Function

namespace PageMaps

/-- Core, and what every party holds. -/
structure State (κ : Type*) where
  core : Core
  holding : κ → Holding

/-- The calls of the parties, and the stores to pages which are theirs. -/
inductive Call (κ : Type*)
  | pgalloc (x : κ)
  | pgfree (x : κ) (pg : Pg)
  | mapalloc (x : κ) (n1 : ℕ)
  | mapfree (x : κ) (n0 : ℕ)
  | maprot (x : κ) (a b n : ℕ)
  | data (pg : Pg) (contents : ℕ → ℕ)

/-- The places of a page; the last number counts the places of one kind. -/
inductive Place (κ : Type*)
  | free (i : ℕ)
  | single (x : κ) (i : ℕ)
  | root (x : κ)
  | list (x : κ) (i : ℕ)
  | entry (x : κ) (i : ℕ)

variable {κ : Type*} [DecidableEq κ]

/-- A page is at a place. -/
def At (s : State κ) (pg : Pg) : Place κ → Prop
  | .free i => s.core.pgstk[i]? = some pg
  | .single x i => (s.holding x).pages[i]? = some pg
  | .root x => 0 < (s.holding x).size ∧ (s.holding x).map = pg
  | .list x i => i < ((s.holding x).size + NPM - 1) / NPM ∧ s.core.page (s.holding x).map i = pg
  | .entry x i => i < (s.holding x).size ∧ s.core.mapent (s.holding x).map i = pg

/-- What a call does. -/
def State.call (s : State κ) : Call κ → State κ
  | .pgalloc x =>
      let h := s.holding x
      if s.core.pgalloc.1 = 0 then s
      else ⟨s.core.pgalloc.2, update s.holding x { h with pages := s.core.pgalloc.1 :: h.pages }⟩
  | .pgfree x pg =>
      let h := s.holding x
      ⟨s.core.pgfree pg, update s.holding x { h with pages := h.pages.erase pg }⟩
  | .mapalloc x n1 =>
      let h := s.holding x
      match s.core.mapalloc h.map h.size n1 with
      | (false, map, core) => ⟨core, update s.holding x { h with map := map }⟩
      | (true, map, core) => ⟨core, update s.holding x { h with map := map, size := n1 }⟩
  | .mapfree x n0 =>
      let h := s.holding x
      let (map, core) := s.core.mapfree h.map n0 h.size
      ⟨core, update s.holding x { h with map := map, size := n0 }⟩
  | .maprot x a b n => { s with core := s.core.maprot (s.holding x).map a b n }
  | .data pg contents => { s with core := { s.core with page := update s.core.page pg contents } }

/-- Pages are freed by those who have them, maps grow from their size, shrink to at most that and
are rearranged below it, and data are stored to pages that are not part of a map itself. -/
def Proper (s : State κ) : Call κ → Prop
  | .pgalloc _ => True
  | .pgfree x pg => pg ∈ (s.holding x).pages
  | .mapalloc x n1 => (s.holding x).size ≤ n1
  | .mapfree x n0 => n0 ≤ (s.holding x).size
  | .maprot x a b n => a ≤ b ∧ b ≤ n ∧ n ≤ (s.holding x).size
  | .data pg _ => ∃ x, pg ∈ (s.holding x).pages ∨
      pg ∈ s.core.entries (s.holding x).map (s.holding x).size

/-- The calls made so far; at first the pages of `first` are free and nobody holds any. -/
inductive Run (first : List Pg) : State κ → Prop
  | start {s : State κ} : s.core.pgstk = first → first.Nodup → 0 ∉ first →
      (∀ x, (s.holding x).pages = [] ∧ (s.holding x).size = 0) → Run first s
  | call {s : State κ} {c : Call κ} : Run first s → Proper s c → Run first (s.call c)

/-! ## The invariant -/

/-- Nothing is in two places, and everything is in one. -/
structure Whole (first : List Pg) (s : State κ) : Prop where
  held : Held s.holding s.core
  all : ∀ pg, pg ∈ first ↔ pg ∈ s.core.pgstk ∨ ∃ x, pg ∈ (s.holding x).all s.core

variable {first : List Pg} {s : State κ} {x : κ} {pg : Pg}

namespace Whole

omit [DecidableEq κ] in
theorem distinct (whole : Whole first s) (x : κ) :
    ((s.holding x).all s.core ++ s.core.pgstk).Nodup := whole.held.apart.own x

/-- A trade of one party with the stack. -/
theorem trade {c' : Core} {h : Holding} (whole : Whole first s) (x : κ)
    (exchanged : Core.Exchanged s.core c' ((s.holding x).all s.core) (h.all c')) :
    Whole first ⟨c', update s.holding x h⟩ := by
  have mine : Core.Exchanged s.core c' ((s.holding x).all s.core)
      ((update s.holding x h x).all c') := by rwa [update_self]
  have others : ∀ y, y ≠ x → (update s.holding x h y).all c' = (s.holding y).all s.core := by
    intro y other
    rw [update_of_ne other, Holding.all, Holding.all]
    congr 1
    refine Core.mappages_congr fun pg mem => exchanged.frame pg ?_
    exact whole.held.apart.not_mem_append (List.mem_append_right _ mem) other
  refine ⟨whole.held.trade x mine fun y other => update_of_ne other _ _, fun pg => ?_⟩
  rw [whole.all pg]
  exact (mem_iff_of_trade mine.perm others).symm

omit [DecidableEq κ] in
/-- A page that holds data is neither the root nor a list page of a map. -/
theorem data_outside (whole : Whole first s)
    (mine : pg ∈ (s.holding x).pages ∨ pg ∈ s.core.entries (s.holding x).map (s.holding x).size)
    (y : κ) (some : (s.holding y).size ≠ 0) :
    pg ∉ (s.holding y).map :: s.core.listpages (s.holding y).map (s.holding y).size := by
  intro inner
  have theirs : pg ∈ s.core.mappages (s.holding y).map (s.holding y).size := by
    rw [Core.mappages_of_ne some, Core.rooted, ← List.cons_append]
    exact List.mem_append_left _ inner
  have held : pg ∈ (s.holding x).all s.core := by
    rw [Holding.all]
    rcases mine with single | entry
    · exact List.mem_append_left _ single
    · have used : (s.holding x).size ≠ 0 := by
        intro none
        simp [Core.entries, none] at entry
      rw [Core.mappages_of_ne used, Core.rooted]
      exact List.mem_append_right _ (List.mem_cons_of_mem _ (List.mem_append_right _ entry))
  by_cases here : y = x
  · subst here
    have distinct := (List.nodup_append.mp (whole.distinct y)).1
    rw [Holding.all] at distinct
    rcases mine with single | entry
    · exact (List.nodup_append.mp distinct).2.2 pg single pg theirs rfl
    · have rooted := (List.nodup_append.mp distinct).2.1
      rw [Core.mappages_of_ne some, Core.rooted, ← List.cons_append] at rooted
      exact (List.nodup_append.mp rooted).2.2 pg inner pg entry rfl
  · refine whole.held.apart.not_mem_of_ne held here ?_
    rw [Holding.all]
    exact List.mem_append_right _ theirs

/-- Stores to pages that are no part of a map itself leave all maps as they were. -/
theorem data (whole : Whole first s) (contents : ℕ → ℕ) (proper : Proper s (.data pg contents)) :
    Whole first (s.call (.data pg contents)) := by
  obtain ⟨x, mine⟩ := proper
  have same : ∀ y, (s.holding y).all { s.core with page := update s.core.page pg contents } =
      (s.holding y).all s.core := by
    intro y
    rw [Holding.all, Holding.all]
    congr 1
    by_cases none : (s.holding y).size = 0
    · rw [none, Core.mappages_zero, Core.mappages_zero]
    · have outside := whole.data_outside mine y none
      rw [List.mem_cons, not_or] at outside
      rw [Core.mappages_of_ne none, Core.mappages_of_ne none]
      refine Core.rooted_congr (update_of_ne (Ne.symm outside.1) _ _) fun other mem => ?_
      refine update_of_ne ?_ _ _
      rintro rfl
      exact outside.2 mem
  refine ⟨⟨?_, fun y => ?_⟩, fun other => ?_⟩
  · simpa only [State.call, same] using whole.held.apart
  · simpa only [State.call, same] using whole.held.nonzero y
  · simpa only [State.call, same] using whole.all other

/-- Every proper call keeps the invariant. -/
theorem call {c : Call κ} (whole : Whole first s) (proper : Proper s c) :
    Whole first (s.call c) := by
  cases c with
  | pgalloc x =>
      rw [State.call]
      split
      · exact whole
      · next real =>
          have some : 0 < s.core.npgfree := by
            rw [Nat.pos_iff_ne_zero]
            intro none
            have empty : s.core.pgstk = [] := List.eq_nil_of_length_eq_zero none
            simp [Core.pgalloc, empty] at real
          exact whole.trade x ((s.holding x).pgalloc_exchanged some)
  | pgfree x pg => exact whole.trade x ((s.holding x).pgfree_exchanged proper)
  | mapalloc x n1 =>
      rw [State.call]
      split
      · next map core result =>
          -- a failing call has changed nothing
          obtain ⟨rfl, rfl⟩ := Core.mapalloc_eq_false result
          rw [update_eq_self]
          exact whole
      · next map core result =>
          exact whole.trade x ((s.holding x).mapalloc_exchanged proper (whole.distinct x) result)
  | mapfree x n0 => exact whole.trade x ((s.holding x).mapfree_exchanged proper)
  | maprot x a b n =>
      obtain ⟨low, middle, high⟩ := proper
      have distinct := (List.nodup_append.mp (whole.distinct x)).1
      have shaped := Core.shaped_of_nodup (List.nodup_append.mp distinct).2.1
      have traded := whole.trade (h := s.holding x) x
        ((Core.maprot_exchanged shaped low middle high).append_left _)
      rwa [update_eq_self] at traded
  | data pg contents => exact whole.data contents proper

omit [DecidableEq κ] in
theorem start (stack : s.core.pgstk = first) (distinct : first.Nodup) (real : 0 ∉ first)
    (empty : ∀ x, (s.holding x).pages = [] ∧ (s.holding x).size = 0) : Whole first s := by
  have none : ∀ x, (s.holding x).all s.core = [] := by
    intro x
    rw [Holding.all, (empty x).1, (empty x).2]
    rfl
  subst stack
  refine ⟨⟨⟨distinct, fun x => ?_, fun x y _ => ?_⟩, fun x pg mem => ?_⟩, fun pg => ?_⟩
  · rw [none, List.nil_append]
    exact distinct
  · rw [none]
    exact List.disjoint_nil_left _
  · rw [none, List.nil_append] at mem
    rintro rfl
    exact real mem
  · simp [none]

theorem of_run (run : Run first s) : Whole first s := by
  induction run with
  | start stack distinct real empty => exact start stack distinct real empty
  | call _ proper ih => exact ih.call proper

end Whole

/-! ## Places -/

/-- The party that a place belongs to, `none` for the stack. -/
def Place.owner : Place κ → Option κ
  | .free _ => none
  | .single x _ | .root x | .list x _ | .entry x _ => some x

/-- The pages of a party, or those on the stack. -/
def State.bag (s : State κ) : Option κ → List Pg
  | none => s.core.pgstk
  | some x => (s.holding x).all s.core

/-- Where in the bag of its owner a place is. -/
def State.index (s : State κ) : Place κ → ℕ
  | .free i | .single _ i => i
  | .root x => (s.holding x).pages.length
  | .list x i => (s.holding x).pages.length + 1 + i
  | .entry x i => (s.holding x).pages.length + 1 +
      (s.core.listpages (s.holding x).map (s.holding x).size).length + i

omit [DecidableEq κ] in
/-- The bag of a party from its root on. -/
theorem getElem?_all (some : (s.holding x).size ≠ 0) (i : ℕ) :
    ((s.holding x).all s.core)[(s.holding x).pages.length + i]? =
      (s.core.rooted (s.holding x).map (s.holding x).size)[i]? := by
  rw [Holding.all, Core.mappages_of_ne some, List.getElem?_append_right (Nat.le_add_right _ _),
    Nat.add_sub_cancel_left]

omit [DecidableEq κ] in
theorem getElem?_of_at {p : Place κ} (here : At s pg p) :
    (s.bag p.owner)[s.index p]? = some pg := by
  cases p with
  | free i => exact here
  | single x i =>
      obtain ⟨below, -⟩ := List.getElem?_eq_some_iff.mp here
      simp only [Place.owner, State.bag, State.index, Holding.all]
      rw [List.getElem?_append_left below]
      exact here
  | root x =>
      obtain ⟨some, rfl⟩ := here
      exact (getElem?_all (Nat.ne_of_gt some) 0).trans rfl
  | list x i =>
      obtain ⟨below, rfl⟩ := here
      have some : (s.holding x).size ≠ 0 := by
        intro none
        simp [none, NPM] at below
      simp only [Place.owner, State.bag, State.index, Nat.add_assoc]
      rw [getElem?_all some, Nat.add_comm 1, Core.rooted, List.getElem?_cons_succ]
      rw [List.getElem?_append_left (by simpa [Core.listpages] using below)]
      simp [Core.listpages, below]
  | entry x i =>
      obtain ⟨below, rfl⟩ := here
      simp only [Place.owner, State.bag, State.index, Nat.add_assoc]
      rw [getElem?_all (by omega), Nat.add_comm 1, Core.rooted,
        List.getElem?_cons_succ, List.getElem?_append_right (Nat.le_add_right _ _),
        Nat.add_sub_cancel_left]
      simp [Core.entries, below]

omit [DecidableEq κ] in
/-- Every page in the bag of a party is at a place. -/
theorem exists_at {o : Option κ} (mem : pg ∈ s.bag o) : ∃ p, At s pg p := by
  cases o with
  | none =>
      obtain ⟨i, here⟩ := List.getElem?_of_mem mem
      exact ⟨.free i, here⟩
  | some x =>
      rw [State.bag, Holding.all, List.mem_append] at mem
      rcases mem with single | mem
      · obtain ⟨i, here⟩ := List.getElem?_of_mem single
        exact ⟨.single x i, here⟩
      · by_cases none : (s.holding x).size = 0
        · simp [none] at mem
        · rw [Core.mappages_of_ne none, Core.rooted, List.mem_cons, List.mem_append] at mem
          rcases mem with rfl | list | entry
          · exact ⟨.root x, Nat.pos_of_ne_zero none, rfl⟩
          · obtain ⟨i, below, rfl⟩ := List.mem_map.mp list
            exact ⟨.list x i, List.mem_range.mp below, rfl⟩
          · obtain ⟨i, below, rfl⟩ := List.mem_map.mp entry
            exact ⟨.entry x i, List.mem_range.mp below, rfl⟩

omit [DecidableEq κ] in
/-- The places of one party are at different ends of its bag. -/
theorem place_eq {p q : Place κ} {pg' : Pg} (here : At s pg p) (there : At s pg' q)
    (owner : p.owner = q.owner) (index : s.index p = s.index q) : p = q := by
  have single : ∀ {x i pg}, At s pg (.single x i) → i < (s.holding x).pages.length :=
    fun here => (List.getElem?_eq_some_iff.mp here).1
  have list : ∀ {x i pg}, At s pg (.list x i) →
      i < (s.core.listpages (s.holding x).map (s.holding x).size).length := by
    intro x i pg here
    simpa [Core.listpages] using here.1
  cases p with
  | free i =>
      cases q with
      | free j => exact congrArg Place.free index
      | single | root | list | entry => simp [Place.owner] at owner
  | single x i =>
      have first := single here
      cases q with
      | free => simp [Place.owner] at owner
      | single y j | root y | list y j | entry y j =>
          obtain rfl : x = y := by simpa [Place.owner] using owner
          simp only [State.index] at index
          first
            | exact congrArg (Place.single x) index
            | omega
  | root x =>
      cases q with
      | free => simp [Place.owner] at owner
      | single y j =>
          obtain rfl : x = y := by simpa [Place.owner] using owner
          have second := single there
          simp only [State.index] at index
          omega
      | root y =>
          obtain rfl : x = y := by simpa [Place.owner] using owner
          rfl
      | list y j | entry y j =>
          obtain rfl : x = y := by simpa [Place.owner] using owner
          simp only [State.index] at index
          omega
  | list x i =>
      have first := list here
      cases q with
      | free => simp [Place.owner] at owner
      | single y j =>
          obtain rfl : x = y := by simpa [Place.owner] using owner
          have second := single there
          simp only [State.index] at index
          omega
      | root y =>
          obtain rfl : x = y := by simpa [Place.owner] using owner
          simp only [State.index] at index
          omega
      | list y j =>
          obtain rfl : x = y := by simpa [Place.owner] using owner
          simp only [State.index] at index
          exact congrArg (Place.list x) (by omega)
      | entry y j =>
          obtain rfl : x = y := by simpa [Place.owner] using owner
          simp only [State.index] at index
          omega
  | entry x i =>
      cases q with
      | free => simp [Place.owner] at owner
      | single y j =>
          obtain rfl : x = y := by simpa [Place.owner] using owner
          have second := single there
          simp only [State.index] at index
          omega
      | root y =>
          obtain rfl : x = y := by simpa [Place.owner] using owner
          simp only [State.index] at index
          omega
      | list y j =>
          obtain rfl : x = y := by simpa [Place.owner] using owner
          have second := list there
          simp only [State.index] at index
          omega
      | entry y j =>
          obtain rfl : x = y := by simpa [Place.owner] using owner
          simp only [State.index] at index
          exact congrArg (Place.entry x) (by omega)

namespace Whole

omit [DecidableEq κ] in
theorem bag_nodup (whole : Whole first s) (o : Option κ) : (s.bag o).Nodup := by
  cases o with
  | none => exact whole.held.apart.free
  | some x => exact (List.nodup_append.mp (whole.distinct x)).1

omit [DecidableEq κ] in
/-- A page is in the bag of one party only. -/
theorem owner_eq {o o' : Option κ} (whole : Whole first s) (here : pg ∈ s.bag o)
    (there : pg ∈ s.bag o') : o = o' := by
  cases o with
  | none =>
      cases o' with
      | none => rfl
      | some y => exact absurd here (whole.held.apart.not_mem_stock there)
  | some x =>
      cases o' with
      | none => exact absurd there (whole.held.apart.not_mem_stock here)
      | some y =>
          by_contra other
          have distinct : y ≠ x := fun same => other (congrArg some same.symm)
          exact whole.held.apart.not_mem_of_ne here distinct there

omit [DecidableEq κ] in
theorem existsUnique (whole : Whole first s) (mem : pg ∈ first) : ∃! p, At s pg p := by
  have bag : ∃ o, pg ∈ s.bag o := by
    rcases (whole.all pg).mp mem with free | ⟨x, held⟩
    · exact ⟨none, free⟩
    · exact ⟨some x, held⟩
  obtain ⟨o, here⟩ := bag
  obtain ⟨p, there⟩ := exists_at here
  refine ⟨p, there, fun q also => ?_⟩
  have left := getElem?_of_at also
  have right := getElem?_of_at there
  have owner : q.owner = p.owner :=
    whole.owner_eq (List.mem_of_getElem? left) (List.mem_of_getElem? right)
  rw [← owner] at right
  obtain ⟨below, -⟩ := List.getElem?_eq_some_iff.mp left
  have index := (List.getElem?_inj below (whole.bag_nodup _)).mp (left.trans right.symm)
  exact place_eq also there owner index

omit [DecidableEq κ] in
/-- No map has more entries than there are pages. -/
theorem size_le (whole : Whole first s) (x : κ) : (s.holding x).size ≤ first.length := by
  by_cases none : (s.holding x).size = 0
  · omega
  · have distinct := whole.bag_nodup (some x)
    have within : (s.holding x).all s.core ⊆ first :=
      fun pg mem => (whole.all pg).mpr (.inr ⟨x, mem⟩)
    have length : ((s.holding x).all s.core).length ≤ first.length :=
      (List.subperm_of_subset distinct within).length_le
    rw [Holding.all, List.length_append, Core.mappages_length, Core.mapsize_of_ne none] at length
    simp only [NPM] at length
    omega

end Whole

/-- Every page is in one place, `mapalloc` takes as many pages as `mapneed` says, or none, and
`mapfree` gives as many back. With no more than `NPM * NPM` pages in core every root has room for
its list pages. -/
theorem pages_conserved_of_run (run : Run first s) :
    (∀ pg ∈ first, ∃! p, At s pg p) ∧ (∀ pg p, At s pg p → pg ∈ first) ∧
    (∀ x, (s.holding x).size ≤ first.length) ∧
    (∀ x n1, (s.holding x).size ≤ n1 →
      let h := s.holding x
      let result := s.core.mapalloc h.map h.size n1
      (s.core.npgfree < Core.mapneed h.size n1 → result = (false, h.map, s.core)) ∧
      (Core.mapneed h.size n1 ≤ s.core.npgfree → result.1 = true ∧
        result.2.2.npgfree + Core.mapneed h.size n1 = s.core.npgfree)) ∧
    ∀ x n0, n0 ≤ (s.holding x).size →
      let h := s.holding x
      (s.core.mapfree h.map n0 h.size).2.npgfree =
        s.core.npgfree + Core.mapneed n0 h.size := by
  have whole := Whole.of_run run
  refine ⟨fun pg mem => whole.existsUnique mem, fun pg p here => ?_, whole.size_le,
    fun x n1 grows => ?_, fun x n0 shrinks => ?_⟩
  · have mem := List.mem_of_getElem? (getElem?_of_at here)
    refine (whole.all pg).mpr ?_
    cases owner : p.owner with
    | none => exact .inl (by rwa [owner] at mem)
    | some x => exact .inr ⟨x, by rwa [owner] at mem⟩
  · refine ⟨fun short => if_pos short, fun enough => ?_⟩
    have distinct : (s.core.mappages (s.holding x).map (s.holding x).size ++
        s.core.pgstk).Nodup := by
      have own := whole.distinct x
      rw [Holding.all, List.append_assoc] at own
      exact (List.nodup_append.mp own).2.1
    obtain ⟨root, c', result, exchanged⟩ := Core.mapalloc_exchanged _ grows distinct enough
    have length := exchanged.length
    rw [Core.mappages_length, Core.mappages_length] at length
    have sizes := Core.mapsize_add_mapneed grows
    simp only [result]
    exact ⟨trivial, by omega⟩
  · have exchanged : Core.Exchanged s.core (s.core.mapfree (s.holding x).map _ _).2 _ _ :=
      Core.mapfree_exchanged shrinks
    have length := exchanged.length
    rw [Core.mappages_length, Core.mappages_length] at length
    have sizes := Core.mapsize_add_mapneed shrinks
    simp only
    omega

/-- Party 0 has a map of two entries, turned around, and party 1 a single page. -/
theorem conserved_two_parties :
    ∃ s : State ℕ, Run [1, 2, 3, 4, 5, 6] s ∧ (s.holding 0).size = 2 ∧
      (s.holding 1).pages = [5] ∧ ∀ pg ∈ [1, 2, 3, 4, 5, 6], ∃! p, At s pg p := by
  have start : Run [1, 2, 3, 4, 5, 6]
      (⟨⟨[1, 2, 3, 4, 5, 6], fun _ _ => 0⟩, fun _ => ⟨[], 0, 0⟩⟩ : State ℕ) :=
    .start rfl (by decide) (by decide) fun _ => ⟨rfl, rfl⟩
  have grown := start.call (c := .mapalloc 0 2) (Nat.zero_le 2)
  have turned := grown.call (c := .maprot 0 0 1 2) ⟨by decide, by decide, Nat.le_refl 2⟩
  have run := turned.call (c := .pgalloc 1) trivial
  exact ⟨_, run, rfl, rfl, (pages_conserved_of_run run).1⟩

end PageMaps

end UnixV7
