import Mathlib.Data.Nat.Init
import UnixV7.Kernel.Pages

/-!
# Turning a part of a page map around

`maprev` and `maprot` of `malloc.c`, which move pages within an image without copying them. Three
reversals make the entries from `b` to `c` change places with those from `a` to `b`.
-/

namespace UnixV7

open Function

namespace Core

variable {c : Core} {map pg : Pg} {a b i j k m n : ℕ}

/-- A turn of the loop of `maprev`, which exchanges two entries. -/
def mapswap (c : Core) (map : Pg) (i j : ℕ) : Core :=
  let t := c.mapent map i
  let first := c.store (c.listpage map i) (i % NPM) (c.mapent map j)
  first.store (c.listpage map j) (j % NPM) t

/-- `maprev` of the `k` entries from `a` on. -/
def maprev (c : Core) (map : Pg) (a : ℕ) : ℕ → Core
  | 0 | 1 => c
  | k + 2 => (c.mapswap map a (a + k + 1)).maprev map (a + 1) k

/-- `maprot`. -/
def maprot (c : Core) (map : Pg) (a b n : ℕ) : Core :=
  ((c.maprev map a (b - a)).maprev map b (n - b)).maprev map a (n - a)

/-! ## Storing to an entry -/

/-- The root and the list pages of a map are different pages. -/
def Shaped (c : Core) (map : Pg) (n : ℕ) : Prop := (map :: c.listpages map n).Nodup

theorem shaped_of_nodup (distinct : (c.mappages map n).Nodup) : c.Shaped map n := by
  by_cases none : n = 0
  · subst none
    simp [Shaped, listpages, NPM]
  · rw [mappages_of_ne none, rooted, ← List.cons_append] at distinct
    exact (List.nodup_append.mp distinct).1

/-- Two entries have one list page only if they are in one block of entries. -/
theorem Shaped.listpage_inj (shaped : c.Shaped map n) (left : i < n) (right : j < n)
    (same : c.listpage map i = c.listpage map j) : i / NPM = j / NPM :=
  List.inj_on_of_nodup_map (List.nodup_cons.mp shaped).2 (List.mem_range.mpr (div_lt_lists left))
    (List.mem_range.mpr (div_lt_lists right)) same

theorem Shaped.listpage_ne (shaped : c.Shaped map n) (inside : i < n) :
    c.listpage map i ≠ map := by
  intro same
  have mem : c.listpage map i ∈ c.listpages map n := listpage_mem inside
  rw [same] at mem
  exact (List.nodup_cons.mp shaped).1 mem

/-- A store to an entry leaves the root as it was. -/
theorem Shaped.store_root (shaped : c.Shaped map n) (inside : i < n) (v : Pg) :
    (c.store (c.listpage map i) (i % NPM) v).page map = c.page map :=
  update_of_ne (shaped.listpage_ne inside).symm _ _

theorem Shaped.store_listpage (shaped : c.Shaped map n) (inside : i < n) (v : Pg) (j : ℕ) :
    (c.store (c.listpage map i) (i % NPM) v).listpage map j = c.listpage map j :=
  congrFun (shaped.store_root inside v) _

theorem Shaped.store_listpages (shaped : c.Shaped map n) (inside : i < n) (v : Pg) :
    (c.store (c.listpage map i) (i % NPM) v).listpages map n = c.listpages map n := by
  simp only [listpages, shaped.store_root inside]

/-- It changes that entry and no other. -/
theorem Shaped.store_mapent (shaped : c.Shaped map n) (inside : i < n) (v : Pg) (there : j < n) :
    (c.store (c.listpage map i) (i % NPM) v).mapent map j =
      if j = i then v else c.mapent map j := by
  rw [mapent, shaped.store_listpage inside, mapent]
  simp only [store]
  by_cases same : c.listpage map j = c.listpage map i
  · rw [same, update_self]
    by_cases entry : j = i
    · rw [entry, update_self, if_pos rfl]
    · have block := shaped.listpage_inj there inside same
      have index : j % NPM ≠ i % NPM := by
        simp only [NPM] at block ⊢
        omega
      rw [update_of_ne index, if_neg entry]
  · have entry : j ≠ i := by
      rintro rfl
      exact same rfl
    rw [update_of_ne same, if_neg entry]

theorem Shaped.store_frame (inside : i < n) (v : Pg) (other : pg ∉ c.listpages map n) :
    (c.store (c.listpage map i) (i % NPM) v).page pg = c.page pg := by
  refine update_of_ne ?_ _ _
  rintro rfl
  exact other (listpage_mem inside)

/-! ## Rearranging entries -/

/-- The entries of a map are in other places; nothing else has changed. -/
structure Rearranged (map : Pg) (n : ℕ) (place : ℕ → ℕ) (c c' : Core) : Prop where
  pgstk : c'.pgstk = c.pgstk
  listpages : c'.listpages map n = c.listpages map n
  mapent : ∀ j, j < n → c'.mapent map j = c.mapent map (place j)
  frame : ∀ pg, pg ∉ c.listpages map n → c'.page pg = c.page pg

theorem Rearranged.refl (c : Core) (map : Pg) (n : ℕ) : Rearranged map n id c c :=
  ⟨rfl, rfl, fun _ _ => rfl, fun _ _ => rfl⟩

theorem Rearranged.trans {c' c'' : Core} {first second : ℕ → ℕ}
    (one : Rearranged map n first c c') (two : Rearranged map n second c' c'')
    (within : ∀ j, j < n → second j < n) : Rearranged map n (first ∘ second) c c'' where
  pgstk := two.pgstk.trans one.pgstk
  listpages := two.listpages.trans one.listpages
  mapent j inside := by rw [two.mapent j inside, one.mapent _ (within j inside)]; rfl
  frame pg other := by rw [two.frame pg (one.listpages ▸ other), one.frame pg other]

theorem Rearranged.congr {c' : Core} {place other : ℕ → ℕ} (moved : Rearranged map n place c c')
    (same : ∀ j, j < n → other j = place j) : Rearranged map n other c c' :=
  { moved with mapent := fun j inside => by rw [same j inside, moved.mapent j inside] }

theorem Rearranged.shaped {c' : Core} {place : ℕ → ℕ} (moved : Rearranged map n place c c')
    (shaped : c.Shaped map n) : c'.Shaped map n := by
  rw [Shaped, moved.listpages]
  exact shaped

/-- The pages of the map are the same if every entry goes to one place. -/
theorem Rearranged.exchanged {c' : Core} {place : ℕ → ℕ} (moved : Rearranged map n place c c')
    (onto : ((List.range n).map place).Perm (List.range n)) :
    Exchanged c c' (c.mappages map n) (c'.mappages map n) := by
  by_cases none : n = 0
  · subst none
    refine ⟨by simp [moved.pgstk], fun pg _ => moved.frame pg ?_⟩
    simp [Core.listpages, NPM]
  · rw [mappages_of_ne none, mappages_of_ne none]
    refine ⟨?_, fun pg outside => moved.frame pg fun mem => outside ?_⟩
    · have entries : c'.entries map n = ((List.range n).map place).map (c.mapent map) := by
        rw [Core.entries, List.map_map]
        exact List.map_congr_left fun j mem => moved.mapent j (List.mem_range.mp mem)
      have perm : (c'.entries map n).Perm (c.entries map n) := entries ▸ onto.map _
      rw [moved.pgstk, rooted, rooted, moved.listpages]
      exact ((perm.append_left _).cons _).append_right _
    · rw [rooted]
      simp [mem]

theorem mapswap_spec (shaped : c.Shaped map n) (left : i < n) (right : j < n) :
    Rearranged map n (fun m => if m = i then j else if m = j then i else m) c
      (c.mapswap map i j) := by
  have lists := shaped.store_listpages left (c.mapent map j)
  have again : (c.store (c.listpage map i) (i % NPM) (c.mapent map j)).Shaped map n := by
    rw [Shaped, lists]
    exact shaped
  have second : (c.store (c.listpage map i) (i % NPM) (c.mapent map j)).listpage map j =
      c.listpage map j := shaped.store_listpage left _ j
  rw [mapswap, ← second]
  refine ⟨rfl, ?_, fun m inside => ?_, fun pg other => ?_⟩
  · rw [again.store_listpages right, lists]
  · rw [again.store_mapent right _ inside, shaped.store_mapent left _ inside]
    by_cases first : m = i
    · subst first
      by_cases also : m = j
      · subst also
        simp
      · simp [also]
    · simp only [if_neg first]
      split <;> rfl
  · rw [Shaped.store_frame right _ (lists ▸ other), Shaped.store_frame left _ other]

/-- Where an entry of a part that is turned around was before. -/
def mirror (a k j : ℕ) : ℕ := if a ≤ j ∧ j < a + k then a + (a + k - 1 - j) else j

theorem mirror_lt (inside : a + k ≤ n) (here : j < n) : mirror a k j < n := by
  rw [mirror]
  split <;> omega

theorem maprev_spec (shaped : c.Shaped map n) (inside : a + k ≤ n) :
    Rearranged map n (mirror a k) c (c.maprev map a k) := by
  induction k using Nat.twoStepInduction generalizing a c with
  | zero =>
      refine (Rearranged.refl c map n).congr fun j _ => ?_
      rw [mirror, if_neg (by omega), id]
  | one =>
      refine (Rearranged.refl c map n).congr fun j _ => ?_
      rw [mirror, id]
      split <;> omega
  | more k ih _ =>
      have swapped := mapswap_spec shaped (i := a) (j := a + k + 1) (by omega) (by omega)
      have rest := ih (swapped.shaped shaped) (a := a + 1) (by omega)
      rw [maprev]
      refine (swapped.trans rest fun j here => mirror_lt (by omega) here).congr fun j _ => ?_
      simp only [mirror, comp]
      split_ifs <;> omega

/-- Every place below `n` is the mirror image of one. -/
theorem mirror_perm (inside : a + k ≤ n) :
    ((List.range n).map (mirror a k)).Perm (List.range n) := by
  have involutive : ∀ j, j < n → mirror a k (mirror a k j) = j := by
    intro j here
    simp only [mirror]
    split_ifs <;> omega
  have distinct : ((List.range n).map (mirror a k)).Nodup := by
    refine List.nodup_range.map_on fun i left j right same => ?_
    rw [← involutive i (List.mem_range.mp left), same, involutive j (List.mem_range.mp right)]
  refine (List.perm_ext_iff_of_nodup distinct List.nodup_range).mpr fun j => ?_
  simp only [List.mem_map, List.mem_range]
  constructor
  · rintro ⟨i, here, rfl⟩
    exact mirror_lt inside here
  · intro here
    exact ⟨mirror a k j, mirror_lt inside here, involutive j here⟩

theorem maprev_exchanged (shaped : c.Shaped map n) (inside : a + k ≤ n) :
    Exchanged c (c.maprev map a k) (c.mappages map n) ((c.maprev map a k).mappages map n) :=
  (maprev_spec shaped inside).exchanged (mirror_perm inside)

/-- Where an entry was before the parts from `a` to `b` and from `b` to `m` changed places. -/
def rotated (a b m j : ℕ) : ℕ :=
  if a ≤ j ∧ j < a + (m - b) then j + (b - a)
  else if a + (m - b) ≤ j ∧ j < m then j - (m - b)
  else j

/-- `maprot` makes the entries from `b` on come first. -/
theorem maprot_spec (shaped : c.Shaped map n) (low : a ≤ b) (middle : b ≤ m) (high : m ≤ n) :
    Rearranged map n (rotated a b m) c (c.maprot map a b m) := by
  have one := maprev_spec shaped (a := a) (k := b - a) (by omega)
  have two := maprev_spec (one.shaped shaped) (a := b) (k := m - b) (by omega)
  have three := maprev_spec (two.shaped (one.shaped shaped)) (a := a) (k := m - a) (by omega)
  rw [maprot]
  have whole := (one.trans two fun j here => mirror_lt (by omega) here).trans three
    fun j here => mirror_lt (by omega) here
  refine whole.congr fun j _ => ?_
  simp only [mirror, rotated, comp]
  split_ifs <;> omega

theorem maprot_exchanged (shaped : c.Shaped map n) (low : a ≤ b) (middle : b ≤ m) (high : m ≤ n) :
    Exchanged c (c.maprot map a b m) (c.mappages map n) ((c.maprot map a b m).mappages map n) := by
  have one := maprev_spec shaped (a := a) (k := b - a) (by omega)
  have two := maprev_spec (one.shaped shaped) (a := b) (k := m - b) (by omega)
  exact ((maprev_exchanged shaped (by omega)).trans
    (maprev_exchanged (one.shaped shaped) (by omega))).trans
    (maprev_exchanged (two.shaped (one.shaped shaped)) (by omega))

end Core

end UnixV7
