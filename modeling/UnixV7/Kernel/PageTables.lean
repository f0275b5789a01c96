import Mathlib.Algebra.Group.Nat.Defs
import Mathlib.Data.List.Dedup
import UnixV7.Kernel.Segments

/-!
# What page tables mean

The tables of all processes come from one resource map and one array of first-level entries.
Whatever `sureg` and `ptfree` are called for, and in whatever order, the processor finds through
the tables of a process what its segments said when they were built, and nothing else.
-/

namespace UnixV7

open Function

namespace Ureg

variable {maxmem first q l1 a v : ℕ} {sigpage pa : Pg} {src : Source} {s s' : Tables}

/-! ## The two loops -/

/-- The state of the second loop of `ptbuild` when the `n` tables from page `a` on have been
cleared. -/
def Tables.cleared (s : Tables) (a n : ℕ) : Fill :=
  ⟨s.l1tab, fun pg i => if a ≤ pg ∧ pg < a + n ∧ i < NPTE then 0 else s.tab pg i, a, 0, 0, nowhere,
    nowhere⟩

/-- The second loop of `ptbuild`, for process `q`. -/
def Tables.filled (s : Tables) (sigpage : Pg) (src : Source) (q a : ℕ) : Fill :=
  (src.ranges sigpage).foldl (fun (s : Fill) rp => s.range src.core (4 * q) rp)
    (s.cleared a (count (src.ranges sigpage)))

/-- Every page moves the next table on by one for a new gigabyte and by one for a new block. -/
theorem Fill.page_next (l1 pg e : ℕ) (s : Fill) :
    (s.page l1 pg e).a = s.a + (if pg / 2 ^ 18 = s.gb then 0 else 1) +
        (if pg / 512 = s.blk then 0 else 1) ∧
      (s.page l1 pg e).gb = pg / 2 ^ 18 ∧ (s.page l1 pg e).blk = pg / 512 := by
  simp only [Fill.page, Fill.enter, Fill.level3, Fill.level2, shift_gb, shift_blk]
  split_ifs <;> simp_all

theorem foldl_page_next (l1 : ℕ) (l : List (ℕ × ℕ)) (s : Fill) :
    (l.foldl (fun s e => s.page l1 e.1 e.2) s).a =
      s.a + changes s.gb (gbs l) + changes s.blk (blks l) := by
  induction l generalizing s with
  | nil => rfl
  | cons e l ih =>
      obtain ⟨next, gb, blk⟩ := Fill.page_next l1 e.1 e.2 s
      rw [List.foldl_cons, ih, next, gb, blk]
      simp only [gbs, blks, List.map_cons, changes_cons]
      omega

/-- The second loop takes no more tables than the first has counted, for whatever sizes. -/
theorem filled_next (s : Tables) (sigpage : Pg) (src : Source) (q a : ℕ) :
    (s.filled sigpage src q a).a ≤ a + count (src.ranges sigpage) := by
  have most := entries_count src.core (src.ranges sigpage)
  rw [Tables.filled, fill_eq, foldl_page_next]
  simp only [Tables.cleared]
  omega

/-! ## The tables of one process -/

/-- The tables of process `q` are those that were built for `src`. -/
structure Meant (maxmem : ℕ) (sigpage : Pg) (src : Source) (q : ℕ) (s : Tables) (init f : Fill)
    (ts : List Table) : Prop where
  sound : Sound maxmem sigpage src
  filled : Filled (4 * q) (s.p_ptab q) init ts (entries src.core (src.ranges sigpage)) f
  fits : ts.length ≤ s.p_nptab q
  zero : ∀ t, s.p_ptab q ≤ t → t < s.p_ptab q + s.p_nptab q → ∀ i < NPTE, init.tab t i = 0
  none : ∀ g < 4, init.l1tab (4 * q + g) = 0
  top : ∀ g < 4, s.l1tab (4 * q + g) = f.l1tab (4 * q + g)
  same : ∀ t, s.p_ptab q ≤ t → t < s.p_ptab q + s.p_nptab q → s.tab t = f.tab t

namespace Meant

variable {init f : Fill} {ts : List Table} {g i ap : ℕ}

/-- Steps of other processes leave the tables as they are. -/
theorem congr (meant : Meant maxmem sigpage src q s init f ts)
    (ptab : s'.p_ptab q = s.p_ptab q) (nptab : s'.p_nptab q = s.p_nptab q)
    (top : ∀ g < 4, s'.l1tab (4 * q + g) = s.l1tab (4 * q + g))
    (tab : ∀ t, s.p_ptab q ≤ t → t < s.p_ptab q + s.p_nptab q → s'.tab t = s.tab t) :
    Meant maxmem sigpage src q s' init f ts where
  sound := meant.sound
  filled := ptab ▸ meant.filled
  fits := nptab ▸ meant.fits
  zero := by
    rw [ptab, nptab]
    exact meant.zero
  none := meant.none
  top g below := (top g below).trans (meant.top g below)
  same t low high := by
    rw [ptab] at low high
    rw [nptab] at high
    exact (tab t low high).trans (meant.same t low high)

theorem gb_lt (meant : Meant maxmem sigpage src q s init f ts)
    {e : ℕ × ℕ} (mem : e ∈ entries src.core (src.ranges sigpage)) : e.1 / 2 ^ 18 < 3 := by
  have below := (entries_ordered meant.sound).2 e mem
  rw [Ureg.top] at below
  omega

/-- Of the first-level entries those of the gigabytes met are valid. -/
theorem first_valid (meant : Meant maxmem sigpage src q s init f ts) (below : g < 4)
    (valid : s.l1tab (4 * q + g) ≠ 0) :
    ∃ v pa ap, Means sigpage src v pa ap ∧ v >>> gbshift = g := by
  rw [meant.top g below, meant.filled.built.l1tab] at valid
  by_cases taken : .mid g ∈ ts
  · obtain ⟨⟨v, d⟩, mem, here⟩ := (meant.filled.needed.mid g).mp taken
    obtain ⟨pa, ap, means, -⟩ := (mem_entries meant.sound.toMapped).mp mem
    exact ⟨v, pa, ap, means, (shift_gb v).trans here⟩
  · rw [refer, if_neg taken, meant.none g below] at valid
    exact absurd rfl valid

theorem top_of (meant : Meant maxmem sigpage src q s init f ts) (user : v / 2 ^ 18 < 4) :
    s.l1tab (4 * q + v / 2 ^ 18) = f.l1tab (4 * q + v / 2 ^ 18) := meant.top _ user

theorem same_of (meant : Meant maxmem sigpage src q s init f ts) {t : ℕ} (low : s.p_ptab q ≤ t)
    (high : t < s.p_ptab q + ts.length) : s.tab t = f.tab t :=
  meant.same t low (Nat.lt_of_lt_of_le high (Nat.add_le_add_left meant.fits _))

/-- The walk finds what the segments say. -/
theorem walk_iff (meant : Meant maxmem sigpage src q s init f ts)
    (small : s.p_ptab q + s.p_nptab q ≤ 2 ^ 20) (user : v < Ureg.top) :
    walk s.l1tab s.tab (4 * q) v = some (pa, ap) ↔ Means sigpage src v pa ap := by
  have gb : v / 2 ^ 18 < 4 := by
    rw [Ureg.top] at user
    omega
  have walked := meant.filled.walk (v := v)
    (Nat.le_trans (Nat.add_le_add_left meant.fits _) small) (meant.none _ gb) (meant.top_of gb)
    fun t low high => meant.same_of low high
  have ordered := (entries_ordered meant.sound).1
  have found : ∀ {pa ap}, Means sigpage src v pa ap →
      entry pa ap % 4 = 3 ∧ frame (entry pa ap) = pa ∧ entry pa ap &&& 0o300 = ap := by
    intro pa ap means
    obtain ⟨-, page, access⟩ := means.bounds meant.sound.toMapped
    have bits : PGUSER ||| ap < 2 ^ 12 := by rcases access with rfl | rfl <;> decide
    rw [entry, Nat.or_assoc, ptob_mod page bits, frame_ptob page bits, ptob_access page bits]
    rcases access with rfl | rfl <;> exact ⟨rfl, rfl, rfl⟩
  rw [walked]
  constructor
  · intro result
    obtain ⟨d, mem, valid⟩ := Option.bind_eq_some_iff.mp result
    obtain ⟨front, back, here, -⟩ := List.lookup_eq_some_iff.mp mem
    obtain ⟨pa', ap', means, rfl⟩ := (mem_entries meant.sound.toMapped).mp
      (here ▸ List.mem_append_right front List.mem_cons_self)
    obtain ⟨low, page, access⟩ := found means
    rw [low, page, access, if_neg (not_not.mpr rfl)] at valid
    obtain ⟨rfl, rfl⟩ := Prod.mk.inj (Option.some.inj valid)
    exact means
  · intro means
    obtain ⟨low, page, access⟩ := found means
    have mem := lookup_of_mem ordered ((mem_entries meant.sound.toMapped).mpr ⟨pa, ap, means, rfl⟩)
    rw [mem, Option.bind_some, low, page, access, if_neg (not_not.mpr rfl)]

/-- The tables on the way to a page of the segments are among those of the process. -/
theorem within (meant : Meant maxmem sigpage src q s init f ts)
    (small : s.p_ptab q + s.p_nptab q ≤ 2 ^ 20) (means : Means sigpage src v pa ap) :
    s.p_ptab q ≤ (second s.l1tab (4 * q) v).1 ∧
      (second s.l1tab (4 * q) v).1 < s.p_ptab q + s.p_nptab q ∧
      s.p_ptab q ≤ (third s.l1tab s.tab (4 * q) v).1 ∧
      (third s.l1tab s.tab (4 * q) v).1 < s.p_ptab q + s.p_nptab q := by
  have mem := (mem_entries meant.sound.toMapped).mpr ⟨pa, ap, means, rfl⟩
  have gb := meant.gb_lt mem
  obtain ⟨mid, leaf⟩ := meant.filled.path s.l1tab s.tab
    (Nat.le_trans (Nat.add_le_add_left meant.fits _) small) mem (meant.top_of (by omega))
    fun t low high => meant.same_of low high
  have takenMid := (meant.filled.needed.mid _).mpr ⟨_, mem, rfl⟩
  have takenLeaf := (meant.filled.needed.leaf _).mpr ⟨_, mem, rfl⟩
  have fits := meant.fits
  have first := place_lt (a := s.p_ptab q) takenMid
  have last := place_lt (a := s.p_ptab q) takenLeaf
  simp only at mid leaf
  rw [mid, leaf]
  exact ⟨first.1, Nat.lt_of_lt_of_le first.2 (Nat.add_le_add_left fits _), last.1,
    Nat.lt_of_lt_of_le last.2 (Nat.add_le_add_left fits _)⟩

/-- No entry of the tables is valid but those on the way to a page of the segments. -/
theorem reached (meant : Meant maxmem sigpage src q s init f ts)
    (small : s.p_ptab q + s.p_nptab q ≤ 2 ^ 20) {t : ℕ} (low : s.p_ptab q ≤ t)
    (high : t < s.p_ptab q + s.p_nptab q) (index : i < NPTE) (valid : s.tab t i ≠ 0) :
    ∃ v pa ap, Means sigpage src v pa ap ∧
      ((t, i) = second s.l1tab (4 * q) v ∨ (t, i) = third s.l1tab s.tab (4 * q) v) := by
  by_cases taken : t < s.p_ptab q + ts.length
  · obtain ⟨⟨v, d⟩, mem, here⟩ := meant.filled.reached s.l1tab s.tab
      (Nat.le_trans (Nat.add_le_add_left meant.fits _) small)
      (fun e mem => meant.top_of (Nat.lt_of_lt_of_le (meant.gb_lt mem) (by decide)))
      (fun t low high => meant.same_of low high) low taken index valid
    obtain ⟨pa, ap, means, -⟩ := (mem_entries meant.sound.toMapped).mp mem
    exact ⟨v, pa, ap, means, here⟩
  · -- a table that was counted and not taken is still clear
    rw [meant.same t low high, meant.filled.built.outside t (.inr (Nat.le_of_not_lt taken)),
      meant.zero t low high i index] at valid
    exact absurd rfl valid

end Meant

/-- The second loop builds the tables of a process that had none. -/
theorem meant_filled (sound : Sound maxmem sigpage src) (s : Tables) (q a : ℕ)
    (clear : ∀ g < 4, s.l1tab (4 * q + g) = 0) (ptmap : List Map) :
    ∃ init ts, Meant maxmem sigpage src q
      { l1tab := (s.filled sigpage src q a).l1tab
        tab := (s.filled sigpage src q a).tab
        ptmap := ptmap
        p_ptab := update s.p_ptab q a
        p_nptab := update s.p_nptab q (count (src.ranges sigpage)) } init
      (s.filled sigpage src q a) ts ∧
    (∀ j, j < 4 * q ∨ 4 * q + 4 ≤ j → (s.filled sigpage src q a).l1tab j = s.l1tab j) ∧
    ∀ t, t < a ∨ a + count (src.ranges sigpage) ≤ t →
      (s.filled sigpage src q a).tab t = s.tab t := by
  obtain ⟨ordered, user⟩ := entries_ordered sound
  have room := entries_count src.core (src.ranges sigpage)
  have small : ∀ e ∈ entries src.core (src.ranges sigpage), e.1 < 2 ^ 20 := fun e mem =>
    Nat.lt_trans (user e mem) (by decide)
  have zero : ∀ t, a ≤ t → t < a + count (src.ranges sigpage) → ∀ i < NPTE,
      (s.cleared a (count (src.ranges sigpage))).tab t i = 0 := fun t low high i index =>
    if_pos ⟨low, high, index⟩
  obtain ⟨ts, filled⟩ := (filled_nil s.l1tab (s.cleared a (count (src.ranges sigpage))).tab
    (4 * q) a).pages (entries src.core (src.ranges sigpage)) ordered small room zero
  rw [List.nil_append, ← fill_eq] at filled
  have fits : ts.length ≤ count (src.ranges sigpage) := filled.needed.length ▸ room
  refine ⟨s.cleared a (count (src.ranges sigpage)), ts,
    ⟨sound, ?_, ?_, ?_, clear, fun _ _ => rfl, fun _ _ _ => rfl⟩, ?_, ?_⟩
  · change Filled _ (update s.p_ptab q a q) _ _ _ _
    rw [update_self]
    exact filled
  · simpa using fits
  · simpa using zero
  · rintro j (low | high)
    · exact filled.built.below j low
    · obtain ⟨g, rfl⟩ := Nat.exists_eq_add_of_le (Nat.le_trans (Nat.le_add_right _ 4) high)
      have beyond : .mid g ∉ ts := by
        intro taken
        obtain ⟨e, mem, here⟩ := (filled.needed.mid g).mp taken
        have below := user e mem
        rw [top] at below
        omega
      have top := filled.built.l1tab g
      rwa [refer, if_neg beyond] at top
  · intro t out
    have kept : (s.filled sigpage src q a).tab t = _ :=
      filled.built.outside t (out.imp_right (Nat.le_trans (Nat.add_le_add_left fits _)))
    rw [kept]
    funext i
    exact if_neg (by omega)

/-! ## The tables of all processes -/

/-- The range of `ptmap` that is handed out to a process. -/
def Tables.handed (s : Tables) (q : ℕ) : Option Map :=
  if s.p_nptab q = 0 then none else some (Map.range (s.p_ptab q) (s.p_nptab q))

/-- The ranges of `ptmap` that are handed out. -/
def Tables.live (s : Tables) : List Map := (List.range NPROC).filterMap s.handed

/-- The tables are made and given back in any order; `seen q` is what process `q` said when its
tables were built, if there are any. -/
inductive Run (maxmem first : ℕ) (sigpage : Pg) : (ℕ → Option Source) → Tables → Prop
  | start {ptmap : List Map} (tab : ℕ → ℕ → ℕ) (p_ptab : ℕ → ℕ) : 0 < first →
      first + NPTAB ≤ 2 ^ 20 →
      Map.mfree NPTAB first (List.replicate PMAPSIZ ⟨0, 0⟩) = some ptmap →
      Run maxmem first sigpage (fun _ => none) ⟨fun _ => 0, tab, ptmap, p_ptab, fun _ => 0⟩
  | sureg {seen : ℕ → Option Source} {s s' : Tables} {src : Source} {q : ℕ} :
      Run maxmem first sigpage seen s → q < NPROC → Sound maxmem sigpage src →
      s.sureg sigpage src.core src.segs src.image q = some s' →
      Run maxmem first sigpage
        (if s'.p_nptab q = s.p_nptab q then seen else update seen q (some src)) s'
  | ptfree {seen : ℕ → Option Source} {s s' : Tables} {q : ℕ} :
      Run maxmem first sigpage seen s → q < NPROC → s.ptfree q = some s' →
      Run maxmem first sigpage (update seen q none) s'

/-- The map lists what processes do not have, and the tables of every process mean what it said. -/
structure Kept (maxmem first : ℕ) (sigpage : Pg) (seen : ℕ → Option Source) (s : Tables) :
    Prop where
  tiled : ∃ ts, Map.Tiled PMAPSIZ NPTAB first ⟨s.ptmap, s.live⟩ ts
  known : ∀ q, seen q = none ↔ s.p_nptab q = 0
  few : ∀ q, s.p_nptab q ≠ 0 → q < NPROC
  empty : ∀ q, seen q = none → ∀ g < 4, s.l1tab (4 * q + g) = 0
  meant : ∀ q src, seen q = some src → ∃ init f ts, Meant maxmem sigpage src q s init f ts

/-- One process more has tables. -/
theorem live_perm (s s' : Tables) {r : Map} (below : q < NPROC) (here : s'.handed q = some r)
    (gone : s.handed q = none) (other : ∀ x, x ≠ q → s'.handed x = s.handed x) :
    s'.live.Perm (r :: s.live) := by
  have moved := List.perm_cons_erase (List.mem_range.mpr below)
  have nodup : (List.range NPROC).Nodup := List.nodup_range
  have same : ((List.range NPROC).erase q).filterMap s'.handed =
      ((List.range NPROC).erase q).filterMap s.handed := by
    refine List.filterMap_congr fun x mem => other x ?_
    rintro rfl
    exact nodup.not_mem_erase mem
  have before := moved.filterMap s'.handed
  have after := moved.filterMap s.handed
  rw [List.filterMap_cons_some here, same] at before
  rw [List.filterMap_cons_none gone] at after
  exact before.trans (after.symm.cons r)

/-- There is room in the map for one range for each process. -/
theorem few_live (below : q < NPROC) (free : s.p_nptab q = 0) : s.live.length + 2 < PMAPSIZ := by
  have fewer : s.live.length < (List.range NPROC).length := by
    rw [Tables.live, List.length_filterMap_eq_countP, List.countP_lt_length_iff]
    exact ⟨q, List.mem_range.mpr below, by simp [Tables.handed, free]⟩
  rw [List.length_range] at fewer
  rw [PMAPSIZ]
  omega

namespace Kept

variable {seen : ℕ → Option Source}

/-- The tables of a process are pages of the map. -/
theorem inside (kept : Kept maxmem first sigpage seen s) (built : s.p_nptab q ≠ 0) :
    Map.range (s.p_ptab q) (s.p_nptab q) ∈ s.live ∧ first ≤ s.p_ptab q ∧
      s.p_ptab q + s.p_nptab q ≤ first + NPTAB := by
  obtain ⟨ts, tiled⟩ := kept.tiled
  have mem : Map.range (s.p_ptab q) (s.p_nptab q) ∈ s.live :=
    List.mem_filterMap.mpr ⟨q, List.mem_range.mpr (kept.few q built), if_neg built⟩
  obtain ⟨-, low, high⟩ := tiled.lists.inside _ mem
  exact ⟨mem, low, high⟩

theorem start {ptmap : List Map} (tab : ℕ → ℕ → ℕ) (p_ptab : ℕ → ℕ) (real : 0 < first)
    (filled : Map.mfree NPTAB first (List.replicate PMAPSIZ ⟨0, 0⟩) = some ptmap) :
    Kept maxmem first sigpage (fun _ => none) ⟨fun _ => 0, tab, ptmap, p_ptab, fun _ => 0⟩ where
  tiled := by
    have nobody : Tables.live ⟨fun _ => 0, tab, ptmap, p_ptab, fun _ => 0⟩ = [] :=
      List.filterMap_eq_nil_iff.mpr fun _ _ => rfl
    rw [nobody]
    exact Map.Tiled.start (by decide) real filled
  known _ := by simp
  few _ some := absurd rfl some
  empty _ _ _ _ := rfl
  meant q src known := nomatch known

/-- `sureg` for a process. -/
theorem sureg (kept : Kept maxmem first sigpage seen s) (real : 0 < first) (below : q < NPROC)
    (sound : Sound maxmem sigpage src)
    (called : s.sureg sigpage src.core src.segs src.image q = some s') :
    Kept maxmem first sigpage (if s'.p_nptab q = s.p_nptab q then seen
      else update seen q (some src)) s' := by
  rw [Tables.sureg] at called
  by_cases free : s.p_nptab q = 0
  · rw [if_pos free] at called
    obtain ⟨⟨a, ptmap⟩, got, result⟩ := Option.map_eq_some_iff.mp called
    obtain ⟨ts, tiled⟩ := kept.tiled
    obtain ⟨us, tiled'⟩ := tiled.malloc real (count_pos sound) (few_live below free) got
    by_cases none : a = 0
    · -- there was no room
      subst none
      obtain rfl := (if_pos rfl).symm.trans result
      rw [if_pos rfl] at tiled' ⊢
      exact ⟨⟨us, tiled'⟩, kept.known, kept.few, kept.empty, fun x y seen => by
        obtain ⟨init, f, ts, meant⟩ := kept.meant x y seen
        exact ⟨init, f, ts, meant.congr rfl rfl (fun _ _ => rfl) fun _ _ _ => rfl⟩⟩
    · obtain ⟨init, vs, meant, l1tab, tab⟩ := meant_filled sound s q a
        (kept.empty q ((kept.known q).mpr free)) ptmap
      replace result := (if_neg none).symm.trans result
      change Tables.mk (s.filled sigpage src q a).l1tab (s.filled sigpage src q a).tab ptmap
        (update s.p_ptab q a) (update s.p_nptab q (count (src.ranges sigpage))) = s' at result
      rw [if_neg none] at tiled'
      have several : count (src.ranges sigpage) ≠ 0 := Nat.ne_of_gt (count_pos sound)
      have changed : s'.p_nptab q ≠ s.p_nptab q := by
        rw [← result, free]
        simpa using several
      rw [if_neg changed]
      subst result
      let t : Tables := ⟨(s.filled sigpage src q a).l1tab, (s.filled sigpage src q a).tab, ptmap,
        update s.p_ptab q a, update s.p_nptab q (count (src.ranges sigpage))⟩
      have here : t.handed q = some (Map.range a (count (src.ranges sigpage))) := by
        simp [t, Tables.handed, several]
      have more := live_perm s t below here
        (by simp [Tables.handed, free]) fun x other => by simp [t, Tables.handed, other]
      refine ⟨⟨us, tiled'.perm more.symm⟩, fun x => ?_, fun x built => ?_,
        fun x gone g small => ?_, fun x y known => ?_⟩
      · by_cases same : x = q
        · subst same
          simpa using several
        · simpa [same] using kept.known x
      · by_cases same : x = q
        · exact same ▸ below
        · exact kept.few x (by simpa [same] using built)
      · by_cases same : x = q
        · subst same
          simp at gone
        · have before := kept.empty x (by simpa [same] using gone) g small
          exact (l1tab _ (by omega)).trans before
      · by_cases same : x = q
        · subst same
          obtain rfl : src = y := by simpa using known
          exact ⟨init, _, vs, meant⟩
        · have known' : seen x = some y := by simpa [same] using known
          obtain ⟨init, f, ts, meant⟩ := kept.meant x y known'
          have built : s.p_nptab x ≠ 0 := by
            intro zero
            rw [(kept.known x).mpr zero] at known'
            cases known'
          have apart := (List.pairwise_cons.mp tiled'.lists.disjoint).1 _ (kept.inside built).1
          refine ⟨init, f, ts, meant.congr (by simp [same]) (by simp [same])
            (fun g small => l1tab _ (by omega)) fun t low high => tab t ?_⟩
          by_contra inside
          exact apart t ⟨by simp only [Map.range]; omega, by simp only [Map.stop, Map.range]; omega⟩
            ⟨low, high⟩
  · rw [if_neg free] at called
    obtain rfl := Option.some.inj called
    rwa [if_pos rfl]

/-- The last of the four first-level entries of a process is not used. -/
theorem last (kept : Kept maxmem first sigpage seen s) (q : ℕ) : s.l1tab (4 * q + 3) = 0 := by
  cases known : seen q with
  | none => exact kept.empty q known 3 (by decide)
  | some src =>
      obtain ⟨init, f, ts, meant⟩ := kept.meant q src known
      by_contra valid
      obtain ⟨v, pa, ap, means, here⟩ := meant.first_valid (by decide) valid
      have below := meant.gb_lt ((mem_entries meant.sound.toMapped).mpr ⟨pa, ap, means, rfl⟩)
      rw [shift_gb] at here
      simp only at below
      omega

/-- `ptfree` for a process gives all its pages back. -/
theorem ptfree (kept : Kept maxmem first sigpage seen s) (below : q < NPROC) :
    ∃ s', s.ptfree q = some s' ∧ Kept maxmem first sigpage (update seen q none) s' := by
  have step : ∃ ptmap, s.ptfree q = some { s with
        l1tab := fun j => if 4 * q ≤ j ∧ j < 4 * q + 3 then 0 else s.l1tab j
        ptmap := ptmap
        p_nptab := update s.p_nptab q 0 } ∧
      ∃ ts, Map.Tiled PMAPSIZ NPTAB first ⟨ptmap,
        Tables.live { s with p_nptab := update s.p_nptab q 0 }⟩ ts := by
    obtain ⟨ts, tiled⟩ := kept.tiled
    by_cases free : s.p_nptab q = 0
    · have same : update s.p_nptab q 0 = s.p_nptab := by
        rw [← free]
        exact update_eq_self q _
      rw [same]
      refine ⟨s.ptmap, ?_, ts, tiled⟩
      simp [Tables.ptfree, free]
    · obtain ⟨mp, us, freed, tiled'⟩ := tiled.mfree (kept.inside free).1
      refine ⟨mp, ?_, us, tiled'.perm ?_⟩
      · simp only [Tables.ptfree, if_pos free]
        rw [show Map.mfree (s.p_nptab q) (s.p_ptab q) s.ptmap = some mp from freed]
        rfl
      · have moved := live_perm { s with p_nptab := update s.p_nptab q 0 } s below
          (if_neg free) (by simp [Tables.handed]) fun x other => by simp [Tables.handed, other]
        have fewer := moved.erase (Map.range (s.p_ptab q) (s.p_nptab q))
        rwa [List.erase_cons_head] at fewer
  obtain ⟨ptmap, called, tiled⟩ := step
  refine ⟨_, called, tiled, fun x => ?_, fun x built => ?_, fun x gone g small => ?_,
    fun x y known => ?_⟩
  · by_cases same : x = q
    · simp [same]
    · simpa [same] using kept.known x
  · by_cases same : x = q
    · exact same ▸ below
    · exact kept.few x (by simpa [same] using built)
  · by_cases same : x = q
    · subst same
      by_cases last : g = 3
      · subst last
        exact (if_neg (by omega)).trans (kept.last x)
      · exact if_pos (by omega)
    · have before := kept.empty x (by simpa [same] using gone) g small
      exact (if_neg (by omega)).trans before
  · by_cases same : x = q
    · subst same
      simp at known
    · obtain ⟨init, f, ts, meant⟩ := kept.meant x y (by simpa [same] using known)
      exact ⟨init, f, ts, meant.congr rfl (by simp [same]) (fun g small => if_neg (by omega))
        fun t low high => rfl⟩

theorem of_run (run : Run maxmem first sigpage seen s) :
    0 < first ∧ first + NPTAB ≤ 2 ^ 20 ∧ Kept maxmem first sigpage seen s := by
  induction run with
  | start tab p_ptab real small filled => exact ⟨real, small, start tab p_ptab real filled⟩
  | sureg _ below sound called ih =>
      obtain ⟨real, small, kept⟩ := ih
      exact ⟨real, small, kept.sureg real below sound called⟩
  | ptfree _ below called ih =>
      obtain ⟨real, small, kept⟩ := ih
      obtain ⟨s', called', kept'⟩ := kept.ptfree below
      obtain rfl := Option.some.inj (called.symm.trans called')
      exact ⟨real, small, kept'⟩

/-- `sureg` does not run past the end of the map. -/
theorem exists_sureg (kept : Kept maxmem first sigpage seen s) (sound : Sound maxmem sigpage src) :
    ∃ s', s.sureg sigpage src.core src.segs src.image q = some s' := by
  rw [Tables.sureg]
  split_ifs with free
  · obtain ⟨ts, tiled⟩ := kept.tiled
    obtain ⟨a, ptmap, got⟩ := tiled.exists_malloc (count_pos sound)
    rw [Tables.ptbuild]
    refine ⟨_, Option.map_eq_some_iff.mpr ⟨(a, ptmap), got, rfl⟩⟩
  · exact ⟨s, rfl⟩

end Kept

/-- An `estabur` that accepts the sizes frees the tables and builds them anew. -/
theorem Run.estabur {seen : ℕ → Option Source} {c : Core} {p : Image} {u : Segs}
    {ts nt ds nd ns xrw : ℕ} (run : Run maxmem first sigpage seen s) (below : q < NPROC)
    (accepted : Ureg.estabur s maxmem sigpage c p q ts nt ds nd ns xrw = some (some (u, s')))
    (mapped : Mapped sigpage ⟨c, u, p⟩) :
    u = ⟨ts, nt, ds, nd, ns, xrw⟩ ∧ ∃ seen', Run maxmem first sigpage seen' s' ∧
      (s'.p_nptab q ≠ 0 → seen' q = some ⟨c, u, p⟩) := by
  rw [Ureg.estabur] at accepted
  split_ifs at accepted with fit
  · obtain ⟨free, freed, rest⟩ := Option.bind_eq_some_iff.mp accepted
    obtain ⟨built, called, result⟩ := Option.map_eq_some_iff.mp rest
    obtain ⟨rfl, rfl⟩ := Prod.mk.inj (Option.some.inj result)
    refine ⟨rfl, _, .sureg (.ptfree run below freed) below ⟨mapped, fit⟩ called, fun some => ?_⟩
    obtain ⟨-, -, kept⟩ := Kept.of_run (.ptfree run below freed)
    have none := (kept.known q).mp (update_self q none seen)
    rw [if_neg (by rw [none]; exact some), update_self]
  · cases Option.some.inj accepted

/-- Tables mean what the segments say. A process without tables has no pages; through the tables of
a process the processor finds the pages of its text, data and stack that the maps hold, and the
trampoline, with the access of the segment. No other entry is valid, all tables are among the
`p_nptab` pages taken for them, and the second loop never takes more than the first has counted. -/
theorem means_of_run {seen : ℕ → Option Source} (run : Run maxmem first sigpage seen s) :
    (∀ q, seen q = none → ∀ v < top, walk s.l1tab s.tab (4 * q) v = none) ∧
    (∀ q src, seen q = some src →
      (∀ v < top, ∀ pa ap,
        walk s.l1tab s.tab (4 * q) v = some (pa, ap) ↔ Means sigpage src v pa ap) ∧
      (∀ v pa ap, Means sigpage src v pa ap → v < top ∧
        ∀ t ∈ [(second s.l1tab (4 * q) v).1, (third s.l1tab s.tab (4 * q) v).1],
          s.p_ptab q ≤ t ∧ t < s.p_ptab q + s.p_nptab q) ∧
      (∀ g < 4, s.l1tab (4 * q + g) ≠ 0 →
        ∃ v pa ap, Means sigpage src v pa ap ∧ v >>> gbshift = g) ∧
      (∀ t, s.p_ptab q ≤ t → t < s.p_ptab q + s.p_nptab q → ∀ i < NPTE, s.tab t i ≠ 0 →
        ∃ v pa ap, Means sigpage src v pa ap ∧
          ((t, i) = second s.l1tab (4 * q) v ∨ (t, i) = third s.l1tab s.tab (4 * q) v))) ∧
    (∀ src q a, (s.filled sigpage src q a).a ≤ a + count (src.ranges sigpage)) ∧
    ∀ q < NPROC, s.ptfree q ≠ none ∧ ∀ src, Sound maxmem sigpage src →
      s.sureg sigpage src.core src.segs src.image q ≠ none := by
  obtain ⟨real, room, kept⟩ := Kept.of_run run
  refine ⟨fun q gone v user => ?_, fun q src known => ?_, filled_next s sigpage, fun q below => ?_⟩
  · have gb : v / 2 ^ 18 < 4 := by
      rw [top] at user
      omega
    rw [walk, shift_gb, kept.empty q gone _ gb]
    rfl
  · obtain ⟨init, f, ts, meant⟩ := kept.meant q src known
    have built : s.p_nptab q ≠ 0 := by
      intro zero
      rw [(kept.known q).mpr zero] at known
      cases known
    have small : s.p_ptab q + s.p_nptab q ≤ 2 ^ 20 := by
      have inside := (kept.inside built).2.2
      omega
    refine ⟨fun v user pa ap => meant.walk_iff small user, fun v pa ap means => ⟨?_, ?_⟩,
      fun g below valid => meant.first_valid below valid,
      fun t low high i index valid => meant.reached small low high index valid⟩
    · exact (entries_ordered meant.sound).2 _
        ((mem_entries meant.sound.toMapped).mpr ⟨pa, ap, means, rfl⟩)
    · obtain ⟨low, high, low', high'⟩ := meant.within small means
      intro t mem
      rcases List.mem_cons.mp mem with rfl | mem
      · exact ⟨low, high⟩
      · obtain rfl := List.mem_singleton.mp mem
        exact ⟨low', high'⟩
  · constructor
    · obtain ⟨s', called, -⟩ := kept.ptfree below
      simp [called]
    · intro src sound
      obtain ⟨s', called⟩ := kept.exists_sureg (q := q) sound
      simp [called]

/-- One page of text, of data and of stack: the pages 10, 7 and 8 of the core. -/
def threePages : Source where
  core := ⟨[], fun pg i => match pg, i with
    | 5, _ => 6
    | 6, 0 => 7
    | 6, _ => 8
    | 12, _ => 13
    | _, _ => 10⟩
  segs := ⟨0, 1, 2, 1, 1, RO⟩
  image := ⟨5, 3, some ⟨12, 1⟩⟩

theorem threePages_sound : Sound 64 9 threePages where
  access := .inl rfl
  sigpage := by decide
  map _ := by decide
  held i small := by
    have cases : i = 0 ∨ i = 1 := by
      simp only [threePages, USIZE] at small
      omega
    rcases cases with rfl | rfl <;> decide
  text xp attached _ := by
    obtain rfl := Option.some.inj attached
    refine ⟨by decide, fun i small => ?_⟩
    obtain rfl := Nat.lt_one_iff.mp small
    decide
  fits := by decide

/-- After two processes have got their page tables and the first has given them back, the
processor finds the pages of the second one and nothing between them, and none of the first. -/
theorem means_three_pages : ∃ seen s, Run 64 100 9 seen s ∧
    walk s.l1tab s.tab (4 * 1) 0 = some (10, RO) ∧ walk s.l1tab s.tab (4 * 1) 1 = some (9, RO) ∧
    walk s.l1tab s.tab (4 * 1) 2 = some (7, RW) ∧
    walk s.l1tab s.tab (4 * 1) (top - 1) = some (8, RW) ∧
    walk s.l1tab s.tab (4 * 1) 3 = none ∧ walk s.l1tab s.tab (4 * 0) 2 = none := by
  have start : Run 64 100 9 (fun _ => none) ⟨fun _ => 0, fun _ _ => 0,
      ⟨NPTAB, 100⟩ :: List.replicate (PMAPSIZ - 1) ⟨0, 0⟩, fun _ => 0, fun _ => 0⟩ :=
    .start _ _ (by decide) (by decide) rfl
  have built := (start.sureg (q := 0) (by decide) threePages_sound rfl).sureg (q := 1) (by decide)
    threePages_sound rfl
  have run := built.ptfree (q := 0) (by decide) rfl
  obtain ⟨gone, meant, -⟩ := means_of_run run
  obtain ⟨walks, -⟩ := meant 1 threePages rfl
  refine ⟨_, _, run, (walks 0 (by decide) 10 RO).mpr ?_, (walks 1 (by decide) 9 RO).mpr ?_,
    (walks 2 (by decide) 7 RW).mpr ?_, (walks (top - 1) (by decide) 8 RW).mpr ?_, ?_,
    gone 0 rfl 2 (by decide)⟩
  · have attached : threePages.image.p_textp = some ⟨12, 1⟩ := rfl
    exact Means.text (i := 0) attached (by decide) (by decide)
  · exact .trampoline
  · exact .data (i := 0) (by decide) (by decide)
  · exact .stack (i := 0) (by decide) (by decide)
  · cases found : walk _ _ (4 * 1) 3 with
    | none => rfl
    | some result =>
        obtain ⟨pa, ap⟩ := result
        have means := (walks 3 (by decide) pa ap).mp found
        generalize here : 3 = v at means
        cases means with
        | @text xp i attached below =>
            simp only [threePages] at here below
            omega
        | @data i below =>
            simp only [threePages] at here below
            omega
        | @stack i below =>
            simp only [threePages, top] at here below
            omega
        | trampoline =>
            rw [tr] at here
            omega

end Ureg

end UnixV7
