import Mathlib.Logic.Function.Basic
import UnixV7.Library.Apart

/-!
# Pages of core

The page allocator and the page maps of `malloc.c`. Core is handed out a page at a time from a
stack of the free pages. A page map lists the pages of an image or of a text: its root page holds
the numbers of list pages, and each list page the numbers of `NPM` pages.
-/

namespace UnixV7

open Function

/-- A page number; 0 is what `pgalloc` returns when there is none. -/
abbrev Pg := ℕ

/-- The number of page numbers that a page holds. -/
def NPM : ℕ := 1024

/-- The pages that each image has besides those of its map. -/
def USIZE : ℕ := 1

/-- The free pages, the top of the stack first, and the integers in every page. -/
structure Core where
  pgstk : List Pg
  page : Pg → ℕ → Pg

namespace Core

variable {c c' : Core} {map pg : Pg} {n i k : ℕ}

def npgfree (c : Core) : ℕ := c.pgstk.length

/-- `pgalloc`: the page on top of the stack, or 0. -/
def pgalloc (c : Core) : Pg × Core :=
  match c.pgstk with
  | [] => (0, c)
  | pg :: rest => (pg, { c with pgstk := rest })

/-- `pgfree`: a page goes on top of the stack. -/
def pgfree (c : Core) (pg : Pg) : Core :=
  { c with pgstk := pg :: c.pgstk }

/-- Store an integer in a page. -/
def store (c : Core) (pg : Pg) (index value : ℕ) : Core :=
  { c with page := update c.page pg (update (c.page pg) index value) }

/-- `clearseg`: a page of zeros. -/
def clearseg (c : Core) (pg : Pg) : Core :=
  { c with page := update c.page pg fun _ => 0 }

/-- The list page that holds entry `i` of a map. -/
def listpage (c : Core) (map : Pg) (i : ℕ) : Pg := c.page map (i / NPM)

/-- `*mapent(map, i)`: entry `i` of a map. -/
def mapent (c : Core) (map : Pg) (i : ℕ) : Pg := c.page (c.listpage map i) (i % NPM)

/-- `mapneed`: the pages that growing a map from `n0` to `n1` entries takes. -/
def mapneed (n0 n1 : ℕ) : ℕ :=
  if n1 ≤ n0 then
    0
  else
    n1 - n0 + (if n0 = 0 then 1 else 0) + (n1 + NPM - 1) / NPM - (n0 + NPM - 1) / NPM

/-- A turn of the loop of `mapalloc`: entry `i` gets a new page, after a new list page where it
is the first entry of one. -/
def mapadd (c : Core) (map : Pg) (i : ℕ) : Core :=
  let listed :=
    if i % NPM = 0 then
      let (pg, c) := c.pgalloc
      c.store map (i / NPM) pg
    else c
  let (pg, c) := listed.pgalloc
  c.store (c.listpage map i) (i % NPM) pg

/-- The loop of `mapalloc`, with `k` entries to come from entry `i` on. -/
def mapgrow (c : Core) (map : Pg) (i : ℕ) : ℕ → Core
  | 0 => c
  | k + 1 => (c.mapadd map i).mapgrow map (i + 1) k

/-- `mapalloc`: grow a map from `n0` to `n1` entries; the result says whether there was enough
core, and which page is the root now. -/
def mapalloc (c : Core) (map : Pg) (n0 n1 : ℕ) : Bool × Pg × Core :=
  if c.npgfree < mapneed n0 n1 then
    (false, map, c)
  else if n0 < n1 ∧ n0 = 0 then
    let (root, c) := c.pgalloc
    (true, root, (c.clearseg root).mapgrow root n0 (n1 - n0))
  else
    (true, map, c.mapgrow map n0 (n1 - n0))

/-- A turn of the loop of `mapfree`: the page of entry `i` is freed, and its list page with the
first entry there. -/
def mapdrop (c : Core) (map : Pg) (i : ℕ) : Core :=
  let freed := c.pgfree (c.mapent map i)
  if i % NPM = 0 then
    freed.pgfree (freed.listpage map i)
  else freed

/-- The loop of `mapfree`, from the entry below `n0 + k` down to `n0`. -/
def mapshrink (c : Core) (map : Pg) (n0 : ℕ) : ℕ → Core
  | 0 => c
  | k + 1 => (c.mapdrop map (n0 + k)).mapshrink map n0 k

/-- `mapfree`: shrink a map from `n1` to `n0` entries. -/
def mapfree (c : Core) (map : Pg) (n0 n1 : ℕ) : Pg × Core :=
  let shrunk := c.mapshrink map n0 (n1 - n0)
  if n0 = 0 ∧ 0 < n1 then
    (0, shrunk.pgfree map)
  else
    (map, shrunk)

/-! ## What a map holds -/

/-- The list pages of a map of `n` entries. -/
def listpages (c : Core) (map : Pg) (n : ℕ) : List Pg :=
  (List.range ((n + NPM - 1) / NPM)).map (c.page map)

/-- The entries of a map. -/
def entries (c : Core) (map : Pg) (n : ℕ) : List Pg :=
  (List.range n).map (c.mapent map)

/-- The root of a map with all pages below it. -/
def rooted (c : Core) (map : Pg) (n : ℕ) : List Pg :=
  map :: (c.listpages map n ++ c.entries map n)

/-- All pages of a map; the map of no entries has none. -/
def mappages (c : Core) (map : Pg) (n : ℕ) : List Pg :=
  if n = 0 then [] else c.rooted map n

theorem lists_succ_of_dvd (full : i % NPM = 0) :
    (i + 1 + NPM - 1) / NPM = (i + NPM - 1) / NPM + 1 := by
  simp only [NPM] at full ⊢
  omega

theorem lists_of_dvd (full : i % NPM = 0) : (i + NPM - 1) / NPM = i / NPM := by
  simp only [NPM] at full ⊢
  omega

theorem lists_of_not_dvd (part : i % NPM ≠ 0) : (i + NPM - 1) / NPM = i / NPM + 1 := by
  simp only [NPM] at part ⊢
  omega

theorem lists_succ_of_not_dvd (part : i % NPM ≠ 0) :
    (i + 1 + NPM - 1) / NPM = (i + NPM - 1) / NPM := by
  simp only [NPM] at part ⊢
  omega

theorem div_lt_lists (below : i < n) : i / NPM < (n + NPM - 1) / NPM := by
  simp only [NPM]
  omega

/-- The list page of an entry is one of the map's. -/
theorem listpage_mem (below : i < n) : c.listpage map i ∈ c.listpages map n :=
  List.mem_map.mpr ⟨i / NPM, List.mem_range.mpr (div_lt_lists below), rfl⟩

/-- The pages of a map depend only on what its root and its list pages hold. -/
theorem rooted_congr (root : c'.page map = c.page map)
    (lists : ∀ pg ∈ c.listpages map n, c'.page pg = c.page pg) :
    c'.rooted map n = c.rooted map n := by
  have same : c'.listpages map n = c.listpages map n := by simp [listpages, root]
  have entry : c'.entries map n = c.entries map n := by
    refine List.map_congr_left fun i mem => ?_
    have here := lists _ (listpage_mem (List.mem_range.mp mem))
    simp only [mapent, listpage, root] at here ⊢
    rw [here]
  simp [rooted, same, entry]

theorem mappages_congr (same : ∀ pg ∈ c.mappages map n, c'.page pg = c.page pg) :
    c'.mappages map n = c.mappages map n := by
  by_cases none : n = 0
  · simp [mappages, none]
  · simp only [mappages, none, if_false] at same ⊢
    refine rooted_congr (same map (by simp [rooted])) fun pg mem => same pg ?_
    simp [rooted, mem]

theorem rooted_length : (c.rooted map n).length = 1 + (n + NPM - 1) / NPM + n := by
  simp [rooted, listpages, entries]
  omega

/-! ## Trades with the stack of free pages -/

/-- Pages moved between a map and the stack, and no other page has changed. -/
structure Exchanged (c c' : Core) (before after : List Pg) : Prop where
  perm : (after ++ c'.pgstk).Perm (before ++ c.pgstk)
  frame : ∀ pg, pg ∉ before ++ c.pgstk → c'.page pg = c.page pg

namespace Exchanged

variable {before middle after : List Pg} {c'' : Core}

theorem refl (c : Core) (before : List Pg) : Exchanged c c before before :=
  ⟨List.Perm.refl _, fun _ _ => rfl⟩

theorem trans (first : Exchanged c c' before middle) (second : Exchanged c' c'' middle after) :
    Exchanged c c'' before after := by
  refine ⟨second.perm.trans first.perm, fun pg outside => ?_⟩
  rw [second.frame pg fun mem => outside (first.perm.mem_iff.mp mem), first.frame pg outside]

theorem nodup (exchanged : Exchanged c c' before after)
    (distinct : (before ++ c.pgstk).Nodup) : (after ++ c'.pgstk).Nodup :=
  exchanged.perm.nodup_iff.mpr distinct

theorem length (exchanged : Exchanged c c' before after) :
    after.length + c'.npgfree = before.length + c.npgfree := by
  simpa [npgfree] using exchanged.perm.length_eq

end Exchanged

/-- What a new page written into its list page adds to a map. -/
theorem rooted_succ {e : Pg} {page : Pg → ℕ → Pg} (lists : List Pg)
    (root : (List.range ((i + 1 + NPM - 1) / NPM)).map (page map) = lists)
    (before : ∀ j, j < i → page (page map (j / NPM)) (j % NPM) = c.mapent map j)
    (here : page (page map (i / NPM)) (i % NPM) = e) (stack : List Pg) :
    (Core.mk stack page).rooted map (i + 1) = map :: (lists ++ (c.entries map i ++ [e])) := by
  have entry : (Core.mk stack page).entries map (i + 1) = c.entries map i ++ [e] := by
    simp only [entries, List.range_succ, List.map_append, List.map_cons, List.map_nil]
    congr 1
    · exact List.map_congr_left fun j mem => before j (List.mem_range.mp mem)
    · simpa [mapent, listpage] using here
  have listed : (Core.mk stack page).listpages map (i + 1) = lists := root
  rw [rooted, listed, entry]

/-- The turn of the loop at the first entry of a list page moves two pages into the map. -/
theorem mapadd_first (distinct : (c.rooted map i ++ c.pgstk).Nodup) (full : i % NPM = 0)
    (enough : 2 ≤ c.npgfree) :
    Exchanged c (c.mapadd map i) (c.rooted map i) ((c.mapadd map i).rooted map (i + 1)) := by
  obtain ⟨pg, e, rest, stack⟩ : ∃ pg e rest, c.pgstk = pg :: e :: rest := by
    match held : c.pgstk with
    | [] => simp [npgfree, held] at enough
    | [_] => simp [npgfree, held] at enough
    | pg :: e :: rest => exact ⟨pg, e, rest, rfl⟩
  rw [stack] at distinct
  have fresh : pg ∉ c.rooted map i := by
    intro mem
    exact (List.nodup_append.mp distinct).2.2 pg mem pg (by simp) rfl
  have apart : pg ≠ map := by
    rintro rfl
    simp [rooted] at fresh
  have added : c.mapadd map i = ⟨rest, update (update c.page map
      (update (c.page map) (i / NPM) pg)) pg (update (c.page pg) 0 e)⟩ := by
    simp [mapadd, full, pgalloc, stack, store, listpage, apart]
  have root : ∀ j, j < i / NPM → update (update c.page map (update (c.page map) (i / NPM) pg))
      pg (update (c.page pg) 0 e) map j = c.page map j := by
    intro j below
    simp [apart.symm, Nat.ne_of_lt below]
  rw [added, rooted_succ (c := c) (e := e) (c.listpages map i ++ [pg])]
  · refine ⟨?_, fun other outside => ?_⟩
    · rw [List.perm_iff_count]
      intro q
      simp [rooted, stack, List.count_cons]
      omega
    · rw [stack] at outside
      have off : other ≠ map ∧ other ≠ pg := by
        constructor
        · rintro rfl
          simp [rooted] at outside
        · rintro rfl
          simp at outside
      simp [off]
  · rw [lists_succ_of_dvd full, List.range_succ, List.map_append, lists_of_dvd full]
    congr 1
    · rw [listpages, lists_of_dvd full]
      exact List.map_congr_left fun j mem => root j (List.mem_range.mp mem)
    · simp [apart.symm]
  · intro j below
    have earlier : j / NPM < i / NPM := by
      simp only [NPM] at full ⊢
      omega
    have member : c.listpage map j ∈ c.listpages map i := listpage_mem below
    have off : c.listpage map j ≠ map ∧ c.listpage map j ≠ pg := by
      constructor
      · intro same
        have inner := (List.nodup_append.mp distinct).1
        rw [rooted, List.nodup_cons] at inner
        rw [same] at member
        exact inner.1 (List.mem_append_left _ member)
      · intro same
        exact fresh (by rw [rooted]; simp [← same, member])
    rw [root _ earlier]
    simp only [listpage] at off
    simp [mapent, listpage, off]
  · simp [apart.symm, full]

/-- Any other turn of the loop moves one page into the map. -/
theorem mapadd_next (distinct : (c.rooted map i ++ c.pgstk).Nodup) (full : i % NPM ≠ 0)
    (enough : 1 ≤ c.npgfree) :
    Exchanged c (c.mapadd map i) (c.rooted map i) ((c.mapadd map i).rooted map (i + 1)) := by
  obtain ⟨e, rest, stack⟩ : ∃ e rest, c.pgstk = e :: rest := by
    match held : c.pgstk with
    | [] => simp [npgfree, held] at enough
    | e :: rest => exact ⟨e, rest, rfl⟩
  rw [stack] at distinct
  have inner := (List.nodup_append.mp distinct).1
  rw [rooted, List.nodup_cons] at inner
  have lists := (List.nodup_append.mp inner.2).1
  have within : i / NPM < (i + NPM - 1) / NPM := by
    rw [lists_of_not_dvd full]
    omega
  have member : c.listpage map i ∈ c.listpages map i :=
    List.mem_map.mpr ⟨i / NPM, List.mem_range.mpr within, rfl⟩
  have apart : c.listpage map i ≠ map := by
    intro same
    rw [same] at member
    exact inner.1 (List.mem_append_left _ member)
  have added : c.mapadd map i = ⟨rest, update c.page (c.listpage map i)
      (update (c.page (c.listpage map i)) (i % NPM) e)⟩ := by
    simp [mapadd, full, pgalloc, stack, store, listpage]
  have same_root : update c.page (c.listpage map i)
      (update (c.page (c.listpage map i)) (i % NPM) e) map = c.page map := by
    simp [apart.symm]
  rw [added, rooted_succ (c := c) (e := e) (c.listpages map i)]
  · refine ⟨?_, fun other outside => ?_⟩
    · rw [List.perm_iff_count]
      intro q
      simp [rooted, stack, List.count_cons]
    · have off : other ≠ c.listpage map i := by
        rintro rfl
        exact outside (by rw [rooted]; simp [member])
      simp [off]
  · rw [lists_succ_of_not_dvd full]
    simp [listpages, apart.symm]
  · intro j below
    rw [same_root]
    change update c.page (c.listpage map i)
      (update (c.page (c.listpage map i)) (i % NPM) e) (c.listpage map j) (j % NPM) = _
    by_cases same : c.listpage map j = c.listpage map i
    · -- the same list page, hence the same block of entries and another index in it
      have block : j / NPM = i / NPM := by
        refine List.inj_on_of_nodup_map lists ?_ ?_ same
        · exact List.mem_range.mpr (div_lt_lists below)
        · exact List.mem_range.mpr within
      have index : j % NPM ≠ i % NPM := by
        simp only [NPM] at block below ⊢
        omega
      simp [mapent, same, index]
    · simp [mapent, same]
  · rw [same_root]
    simp [listpage]

/-- The loop of `mapalloc` moves the pages of `k` more entries from the stack into the map. -/
theorem mapgrow_exchanged (distinct : (c.rooted map i ++ c.pgstk).Nodup)
    (enough : (i + k + NPM - 1) / NPM + k ≤ (i + NPM - 1) / NPM + c.npgfree) :
    Exchanged c (c.mapgrow map i k) (c.rooted map i) ((c.mapgrow map i k).rooted map (i + k)) := by
  induction k generalizing c i with
  | zero => exact Exchanged.refl c _
  | succ k ih =>
      have step : Exchanged c (c.mapadd map i) (c.rooted map i)
          ((c.mapadd map i).rooted map (i + 1)) := by
        by_cases full : i % NPM = 0
        · apply mapadd_first distinct full
          simp only [NPM] at full enough
          omega
        · apply mapadd_next distinct full
          simp only [NPM] at full enough
          omega
      have room := step.length
      rw [rooted_length, rooted_length] at room
      have rest := ih (step.nodup distinct) (by
        rw [show i + 1 + k = i + (k + 1) by omega]
        omega)
      rw [show i + 1 + k = i + (k + 1) by omega] at rest
      exact step.trans rest

/-- The number of pages that a map of `n` entries has. -/
def mapsize (n : ℕ) : ℕ := if n = 0 then 0 else 1 + (n + NPM - 1) / NPM + n

@[simp] theorem mapsize_zero : mapsize 0 = 0 := rfl

theorem mapsize_of_ne (some : n ≠ 0) : mapsize n = 1 + (n + NPM - 1) / NPM + n := if_neg some

@[simp] theorem mappages_zero : c.mappages map 0 = [] := rfl

theorem mappages_of_ne (some : n ≠ 0) : c.mappages map n = c.rooted map n := if_neg some

theorem mappages_length : (c.mappages map n).length = mapsize n := by
  by_cases none : n = 0
  · simp [mappages, mapsize, none]
  · rw [mappages, if_neg none, rooted_length, mapsize, if_neg none]

/-- `mapneed` counts the pages by which the map grows. -/
theorem mapsize_add_mapneed {n0 n1 : ℕ} (grows : n0 ≤ n1) :
    mapsize n0 + mapneed n0 n1 = mapsize n1 := by
  simp only [mapsize, mapneed, NPM]
  split_ifs <;> omega

/-- With enough core `mapalloc` succeeds, and moves the pages it needs from the stack into the
map. -/
theorem mapalloc_exchanged (map : Pg) {n0 n1 : ℕ} (grows : n0 ≤ n1)
    (distinct : (c.mappages map n0 ++ c.pgstk).Nodup) (enough : mapneed n0 n1 ≤ c.npgfree) :
    ∃ root c', c.mapalloc map n0 n1 = (true, root, c') ∧
      Exchanged c c' (c.mappages map n0) (c'.mappages root n1) := by
  have room : ¬c.npgfree < mapneed n0 n1 := by omega
  have sizes := mapsize_add_mapneed grows
  by_cases fresh : n0 < n1 ∧ n0 = 0
  · obtain ⟨some, rfl⟩ := fresh
    have pos : n1 ≠ 0 := by omega
    rw [mapsize_of_ne pos, mapsize_zero] at sizes
    obtain ⟨root, rest, stack⟩ : ∃ root rest, c.pgstk = root :: rest := by
      match held : c.pgstk with
      | [] =>
          simp only [npgfree, held, List.length_nil, Nat.le_zero] at enough
          simp only [enough, NPM] at sizes
          omega
      | root :: rest => exact ⟨root, rest, rfl⟩
    let cleared : Core := Core.clearseg { c with pgstk := rest } root
    have alone : cleared.rooted root 0 = [root] := by
      simp [rooted, listpages, entries, NPM]
    have start : Exchanged c cleared [] (cleared.rooted root 0) := by
      constructor
      · rw [alone, stack]
        exact List.Perm.refl _
      · intro pg outside
        have off : pg ≠ root := by
          rintro rfl
          simp [stack] at outside
        simp [cleared, clearseg, off]
    have grown := mapgrow_exchanged (start.nodup (by simpa [mappages] using distinct)) (k := n1) (by
      have length := start.length
      rw [alone] at length
      simp only [List.length_nil, List.length_singleton] at length
      simp only [NPM, Nat.zero_add] at sizes ⊢
      omega)
    refine ⟨root, cleared.mapgrow root 0 n1, ?_, ?_⟩
    · simp [mapalloc, room, some, pgalloc, stack, cleared]
    · have whole := start.trans grown
      rw [Nat.zero_add, ← mappages_of_ne pos] at whole
      exact whole
  · refine ⟨map, c.mapgrow map n0 (n1 - n0), by simp only [mapalloc, if_neg room, if_neg fresh], ?_⟩
    by_cases none : n0 = 0
    · obtain rfl : n1 = 0 := by omega
      simpa [none, mapgrow] using Exchanged.refl c (c.mappages map 0)
    · rw [mapsize_of_ne none, mapsize_of_ne (by omega)] at sizes
      rw [mappages_of_ne none] at distinct ⊢
      rw [mappages_of_ne (by omega)]
      have grown := mapgrow_exchanged (k := n1 - n0) distinct (by
        rw [show n0 + (n1 - n0) = n1 by omega]
        omega)
      rwa [show n0 + (n1 - n0) = n1 by omega] at grown

/-- Without enough core `mapalloc` changes nothing. -/
theorem mapalloc_eq_false {n0 n1 : ℕ} {root : Pg}
    (result : c.mapalloc map n0 n1 = (false, root, c')) :
    root = map ∧ c' = c := by
  rw [mapalloc] at result
  split at result
  · simp_all
  · split at result <;> simp at result

/-- A turn of the loop of `mapfree` moves the pages of the last entry back to the stack. -/
theorem mapdrop_exchanged :
    Exchanged c (c.mapdrop map i) (c.rooted map (i + 1)) ((c.mapdrop map i).rooted map i) := by
  have page : (c.mapdrop map i).page = c.page := by
    simp only [mapdrop, pgfree]
    split <;> rfl
  have last : c.entries map (i + 1) = c.entries map i ++ [c.mapent map i] := by
    simp [entries, List.range_succ]
  have below : (c.mapdrop map i).rooted map i = c.rooted map i :=
    rooted_congr (by rw [page]) fun pg _ => by rw [page]
  refine ⟨?_, fun pg _ => by rw [page]⟩
  rw [below, List.perm_iff_count]
  intro q
  by_cases full : i % NPM = 0
  · have lists : c.listpages map (i + 1) = c.listpages map i ++ [c.listpage map i] := by
      rw [listpages, lists_succ_of_dvd full, List.range_succ, List.map_append, listpages]
      simp [lists_of_dvd full, listpage]
    have stack : (c.mapdrop map i).pgstk = c.listpage map i :: c.mapent map i :: c.pgstk := by
      simp [mapdrop, full, pgfree, listpage]
    simp only [stack, rooted, last, lists, List.count_append, List.count_cons, List.count_nil]
    omega
  · have lists : c.listpages map (i + 1) = c.listpages map i := by
      rw [listpages, lists_succ_of_not_dvd full, listpages]
    have stack : (c.mapdrop map i).pgstk = c.mapent map i :: c.pgstk := by
      simp [mapdrop, full, pgfree]
    simp only [stack, rooted, last, lists, List.count_append, List.count_cons, List.count_nil]
    omega

theorem mapshrink_exchanged (c : Core) (map : Pg) (n0 k : ℕ) :
    Exchanged c (c.mapshrink map n0 k) (c.rooted map (n0 + k))
      ((c.mapshrink map n0 k).rooted map n0) := by
  induction k generalizing c with
  | zero => exact Exchanged.refl c _
  | succ k ih => exact mapdrop_exchanged.trans (ih _)

/-- `mapfree` moves the pages above the new size back to the stack. -/
theorem mapfree_exchanged {n0 n1 : ℕ} (shrinks : n0 ≤ n1) :
    Exchanged c (c.mapfree map n0 n1).2 (c.mappages map n1)
      ((c.mapfree map n0 n1).2.mappages (c.mapfree map n0 n1).1 n0) := by
  have shrunk := mapshrink_exchanged c map n0 (n1 - n0)
  rw [show n0 + (n1 - n0) = n1 by omega] at shrunk
  by_cases none : n0 = 0
  · subst none
    by_cases some : n1 = 0
    · subst some
      exact Exchanged.refl c _
    · have alone : (c.mapshrink map 0 n1).rooted map 0 = [map] := by
        simp [rooted, listpages, entries, NPM]
      rw [mappages_of_ne some]
      simp only [Nat.sub_zero] at shrunk
      rw [alone] at shrunk
      refine shrunk.trans ⟨?_, ?_⟩
      · simp [mapfree, mappages, pgfree, Nat.pos_of_ne_zero some]
      · simp [mapfree, pgfree, Nat.pos_of_ne_zero some]
  · rw [mappages_of_ne none, mappages_of_ne (by omega)]
    simpa [mapfree, none] using shrunk

end Core

end UnixV7
