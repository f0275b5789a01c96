import UnixV7.Kernel.Maprot

/-!
# Maps that grow and shrink

`mapalloc` leaves the entries that a map has, and what is in their pages, as they are; `mapfree`
changes no page, and the pages of the entries it drops are free.
-/

namespace UnixV7

open Function

namespace Core

variable {c c' : Core} {map root : Pg} {n n0 n1 i j k : ℕ}

/-- The first `n` entries of a map are as they were, and so is what is in their pages. -/
structure Keeps (n : ℕ) (map map' : Pg) (c c' : Core) : Prop where
  mapent : ∀ j, j < n → c'.mapent map' j = c.mapent map j
  page : ∀ j, j < n → c'.page (c.mapent map j) = c.page (c.mapent map j)

theorem Keeps.refl (n : ℕ) (map : Pg) (c : Core) : Keeps n map map c c :=
  ⟨fun _ _ => rfl, fun _ _ => rfl⟩

theorem Keeps.trans {c'' : Core} {map' map'' : Pg} (first : Keeps n map map' c c')
    (second : Keeps k map' map'' c' c'') (fewer : n ≤ k) : Keeps n map map'' c c'' where
  mapent j below := (second.mapent j (by omega)).trans (first.mapent j below)
  page j below := by
    rw [← first.page j below, ← first.mapent j below]
    exact second.page j (by omega)

theorem mapent_mem_entries (below : j < n) : c.mapent map j ∈ c.entries map n :=
  List.mem_map_of_mem (List.mem_range.mpr below)

/-- In a map whose pages are distinct an entry is neither the root nor a list page. -/
theorem mapent_ne (distinct : (c.rooted map n).Nodup) (below : j < n) :
    c.mapent map j ≠ map ∧ c.mapent map j ∉ c.listpages map n := by
  obtain ⟨rootless, rest⟩ := List.nodup_cons.mp distinct
  have mem : c.mapent map j ∈ c.entries map n := mapent_mem_entries below
  constructor
  · intro same
    rw [same] at mem
    exact rootless (List.mem_append_right _ mem)
  · intro listed
    exact (List.nodup_append.mp rest).2.2 _ listed _ mem rfl

theorem mapent_inj (distinct : (c.rooted map n).Nodup) (left : i < n) (right : j < n)
    (same : c.mapent map i = c.mapent map j) : i = j := by
  have entries := (List.nodup_append.mp (List.nodup_cons.mp distinct).2).2.1
  exact List.inj_on_of_nodup_map entries (List.mem_range.mpr left) (List.mem_range.mpr right) same

/-- One turn of the loop of `mapalloc`. -/
theorem mapadd_keeps (distinct : (c.rooted map i ++ c.pgstk).Nodup)
    (enough : (if i % NPM = 0 then 2 else 1) ≤ c.npgfree) :
    Keeps i map map c (c.mapadd map i) := by
  obtain ⟨mine, stack, apart⟩ := List.nodup_append.mp distinct
  have listed : ∀ {j}, j < i → c.listpage map j ∈ c.rooted map i := fun below =>
    List.mem_cons_of_mem _ (List.mem_append_left _ (listpage_mem below))
  have entry : ∀ {j}, j < i → c.mapent map j ∈ c.rooted map i := fun below =>
    List.mem_cons_of_mem _ (List.mem_append_right _ (mapent_mem_entries below))
  have rootless : ∀ {j}, j < i → c.listpage map j ≠ map := by
    intro j below same
    have mem : c.listpage map j ∈ c.listpages map i := listpage_mem below
    rw [same] at mem
    exact (List.nodup_cons.mp mine).1 (List.mem_append_left _ mem)
  by_cases full : i % NPM = 0
  · rw [if_pos full] at enough
    obtain ⟨pg, e, rest, top⟩ : ∃ pg e rest, c.pgstk = pg :: e :: rest := by
      cases held : c.pgstk with
      | nil => simp [npgfree, held] at enough
      | cons pg more =>
          cases more with
          | nil => simp [npgfree, held] at enough
          | cons e rest => exact ⟨pg, e, rest, rfl⟩
    have fresh : ∀ {p}, p ∈ c.rooted map i → p ≠ pg := fun mem =>
      apart _ mem _ (by simp [top])
    have other : pg ≠ map := (fresh List.mem_cons_self).symm
    have added : (c.mapadd map i).page = update (update c.page map
        (update (c.page map) (i / NPM) pg)) pg (update (c.page pg) 0 e) := by
      simp [mapadd, full, pgalloc, top, store, listpage, other]
    refine ⟨fun j below => ?_, fun j below => ?_⟩
    · have before : j / NPM ≠ i / NPM := by
        simp only [NPM] at full ⊢
        omega
      have list : (c.mapadd map i).listpage map j = c.listpage map j := by
        simp [listpage, added, other.symm, before]
      rw [mapent, list, added, update_of_ne (fresh (listed below)), update_of_ne (rootless below),
        mapent]
    · rw [added, update_of_ne (fresh (entry below)), update_of_ne (mapent_ne mine below).1]
  · rw [if_neg full] at enough
    obtain ⟨e, rest, top⟩ : ∃ e rest, c.pgstk = e :: rest := by
      cases held : c.pgstk with
      | nil => simp [npgfree, held] at enough
      | cons e rest => exact ⟨e, rest, rfl⟩
    have here : c.listpage map i ∈ c.listpages map i := by
      refine List.mem_map.mpr ⟨i / NPM, List.mem_range.mpr ?_, rfl⟩
      rw [lists_of_not_dvd full]
      omega
    have apart' : c.listpage map i ≠ map := by
      intro same
      rw [same] at here
      exact (List.nodup_cons.mp mine).1 (List.mem_append_left _ here)
    have added : (c.mapadd map i).page = update c.page (c.listpage map i)
        (update (c.page (c.listpage map i)) (i % NPM) e) := by
      simp [mapadd, full, pgalloc, top, store, listpage]
    refine ⟨fun j below => ?_, fun j below => ?_⟩
    · have list : (c.mapadd map i).listpage map j = c.listpage map j := by
        rw [listpage, added, update_of_ne apart'.symm, listpage]
      rw [mapent, list, added]
      by_cases same : c.listpage map j = c.listpage map i
      · -- the same list page, hence the same block of entries and another index in it
        have block : j / NPM = i / NPM := by
          refine List.inj_on_of_nodup_map
            (List.nodup_append.mp (List.nodup_cons.mp mine).2).1 ?_ ?_ same
          · exact List.mem_range.mpr (div_lt_lists below)
          · rw [lists_of_not_dvd full]
            exact List.mem_range.mpr (Nat.lt_succ_self _)
        have index : j % NPM ≠ i % NPM := by
          simp only [NPM] at block below ⊢
          omega
        rw [same, update_self, update_of_ne index, mapent, same]
      · rw [update_of_ne same, mapent]
    · have other : c.mapent map j ≠ c.listpage map i := by
        intro same
        exact (mapent_ne mine below).2 (same ▸ here)
      rw [added, update_of_ne other]

/-- The loop of `mapalloc`. -/
theorem mapgrow_keeps (distinct : (c.rooted map i ++ c.pgstk).Nodup)
    (enough : (i + k + NPM - 1) / NPM + k ≤ (i + NPM - 1) / NPM + c.npgfree) :
    Keeps i map map c (c.mapgrow map i k) := by
  induction k generalizing c i with
  | zero => exact .refl i map c
  | succ k ih =>
      have room : (if i % NPM = 0 then 2 else 1) ≤ c.npgfree := by
        split_ifs with full
        · simp only [NPM] at full enough
          omega
        · simp only [NPM] at full enough
          omega
      have step : Exchanged c (c.mapadd map i) (c.rooted map i)
          ((c.mapadd map i).rooted map (i + 1)) := by
        by_cases full : i % NPM = 0
        · rw [if_pos full] at room
          exact mapadd_first distinct full room
        · rw [if_neg full] at room
          exact mapadd_next distinct full room
      have length := step.length
      rw [rooted_length, rooted_length] at length
      have rest := ih (step.nodup distinct) (by
        rw [show i + 1 + k = i + (k + 1) by omega]
        omega)
      exact (mapadd_keeps distinct room).trans rest (Nat.le_succ i)

/-- `mapalloc` keeps the entries of the map. -/
theorem mapalloc_keeps (grows : n0 ≤ n1) (distinct : (c.mappages map n0 ++ c.pgstk).Nodup)
    (result : c.mapalloc map n0 n1 = (true, root, c')) : Keeps n0 map root c c' := by
  rw [mapalloc] at result
  split_ifs at result with short fresh
  · cases (Prod.mk.inj result).1
  · obtain ⟨-, rfl⟩ := fresh
    exact ⟨fun j below => absurd below (Nat.not_lt_zero j),
      fun j below => absurd below (Nat.not_lt_zero j)⟩
  · obtain ⟨rfl, rfl⟩ := Prod.mk.inj (Prod.mk.inj result).2
    by_cases none : n0 = 0
    · subst none
      exact ⟨fun j below => absurd below (Nat.not_lt_zero j),
        fun j below => absurd below (Nat.not_lt_zero j)⟩
    · rw [mappages_of_ne none] at distinct
      refine mapgrow_keeps distinct ?_
      rw [mapneed] at short
      simp only [NPM] at short ⊢
      split_ifs at short <;> omega

theorem mapdrop_page (c : Core) (map : Pg) (i : ℕ) : (c.mapdrop map i).page = c.page := by
  rw [mapdrop]
  split_ifs <;> rfl

theorem mapshrink_page (c : Core) (map : Pg) (n0 k : ℕ) : (c.mapshrink map n0 k).page = c.page := by
  induction k generalizing c with
  | zero => rfl
  | succ k ih => rw [mapshrink, ih, mapdrop_page]

/-- `mapfree` changes no page. -/
theorem mapfree_page (c : Core) (map : Pg) (n0 n1 : ℕ) : (c.mapfree map n0 n1).2.page = c.page := by
  rw [mapfree]
  split_ifs <;> exact mapshrink_page c map n0 _

theorem mapfree_keeps (c : Core) (map : Pg) (n0 n1 : ℕ) :
    Keeps n0 map (c.mapfree map n0 n1).1 c (c.mapfree map n0 n1).2 := by
  have page := mapfree_page c map n0 n1
  refine ⟨fun j below => ?_, fun j _ => by rw [page]⟩
  have root : (c.mapfree map n0 n1).1 = map := by
    rw [mapfree, if_neg (by omega)]
  rw [root, mapent, listpage, page]
  rfl

/-- The pages of the entries dropped are free. -/
theorem mapfree_free (distinct : (c.mappages map n1 ++ c.pgstk).Nodup) (kept : n0 ≤ j)
    (dropped : j < n1) : c.mapent map j ∈ (c.mapfree map n0 n1).2.pgstk := by
  have some : n1 ≠ 0 := by omega
  have exchanged : Exchanged c (c.mapfree map n0 n1).2 (c.mappages map n1) _ :=
    mapfree_exchanged (by omega)
  have mine := (List.nodup_append.mp distinct).1
  rw [mappages_of_ne some] at mine
  have mem : c.mapent map j ∈ c.mappages map n1 ++ c.pgstk := by
    rw [mappages_of_ne some]
    exact List.mem_append_left _
      (List.mem_cons_of_mem _ (List.mem_append_right _ (mapent_mem_entries dropped)))
  rcases List.mem_append.mp (exchanged.perm.mem_iff.mpr mem) with held | free
  · -- the map still has other pages only
    exfalso
    by_cases none : n0 = 0
    · simp [mappages, none] at held
    · have page := mapfree_page c map n0 n1
      have root : (c.mapfree map n0 n1).1 = map := by
        rw [mapfree, if_neg (by omega)]
      have ent : (c.mapfree map n0 n1).2.mapent map = c.mapent map := by
        funext x
        rw [mapent, listpage, page]
        rfl
      have same : (c.mapfree map n0 n1).2.rooted map n0 = c.rooted map n0 := by
        simp only [rooted, listpages, entries, ent, page]
      rw [mappages_of_ne none, root, same, rooted, List.mem_cons, List.mem_append] at held
      rcases held with rootpage | listed | entry
      · exact (mapent_ne mine dropped).1 rootpage
      · refine (mapent_ne mine dropped).2 ?_
        obtain ⟨x, inside, here⟩ := List.mem_map.mp listed
        refine List.mem_map.mpr ⟨x, List.mem_range.mpr ?_, here⟩
        have below := List.mem_range.mp inside
        simp only [NPM] at below ⊢
        omega
      · obtain ⟨x, inside, here⟩ := List.mem_map.mp entry
        have below := List.mem_range.mp inside
        have same := mapent_inj mine (by omega) dropped here
        omega
  · exact free

end Core

end UnixV7
