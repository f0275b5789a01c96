import UnixV7.Kernel.Holdings
import UnixV7.Kernel.Swap
import UnixV7.Kernel.Ureg

/-!
# Images that change their size

`expand` takes the pages for a larger image, or writes the image to the swap area for `swapin` to
read it into an image of the new size. Other processes run whenever the process sleeps in between.
They leave its pages and its part of the swap area alone, and may do anything else.
-/

namespace UnixV7

open Function

/-- A process with its image, and the core and the swap area that all processes share. The image
has the page or, on the swap area, the block `p_addr`. -/
structure Space where
  mem : Memory
  swapmap : List Map
  u : Ureg.Segs
  p_addr : ℕ
  p_map : Pg
  p_size : ℕ

namespace Space

/-- What the process holds in core, when its map has `n` entries. -/
def holding (s : Space) (n : ℕ) : Holding := ⟨[s.p_addr], s.p_map, n⟩

/-- The page of entry `i` of the image. -/
def content (s : Space) (i : ℕ) : ℕ → ℕ := s.mem.core.page (s.mem.core.mapent s.p_map i)

/-- The moments at which the process sleeps: while its `n` pages are written, while it is away,
and while they are read. -/
inductive Moment
  | writing (n : ℕ)
  | away
  | reading (n : ℕ)

/-- The pages that are the process's own. -/
def Moment.mine (s : Space) : Moment → List Pg
  | .writing n | .reading n => (s.holding n).all s.mem.core
  | .away => []

/-- The blocks of the swap area that are. -/
def Moment.Reserved (s : Space) (b : ℕ) : Moment → Prop
  | .away => s.p_addr ≤ b ∧ b < s.p_addr + ptod s.p_size
  | _ => False

/-- Others have left alone what is the process's own. -/
structure Left (m : Moment) (s s' : Space) : Prop where
  u : s'.u = s.u
  p_addr : s'.p_addr = s.p_addr
  p_map : s'.p_map = s.p_map
  p_size : s'.p_size = s.p_size
  page : ∀ pg ∈ m.mine s, s'.mem.core.page pg = s.mem.core.page pg
  apart : (m.mine s ++ s'.mem.core.pgstk).Nodup
  area : ∀ b, m.Reserved s b → s'.mem.area b = s.mem.area b

/-- What others do while the process sleeps leaves alone what is its own. -/
def Fair (others : Moment → Space → Space) : Prop :=
  ∀ m s, (m.mine s ++ s.mem.core.pgstk).Nodup → Left m s (others m s)

/-- `swapfits` -/
def swapfits (n : ℕ) : List Map → Bool
  | [] => false
  | mp :: rest =>
      if mp.m_size = 0 then false
      else if ptod n ≤ mp.m_size then true
      else swapfits n rest

/-- `roomfor` -/
def roomfor (s : Space) (newsize tn : ℕ) : Bool :=
  if newsize ≤ s.p_size then true
  else if Core.mapneed (s.p_size - USIZE) (newsize - USIZE) + tn ≤ s.mem.core.npgfree then true
  else swapfits newsize s.swapmap

/-- `xswap`, with the image `os` pages large; `none` stands for the panic "out of swap space". The
text, of which `xccdec` takes leave, is the matter of others. -/
def xswap (others : Moment → Space → Space) (s : Space) (os : ℕ) : Option Space :=
  let os := if os = 0 then s.p_size else os
  (Map.malloc (ptod s.p_size) s.swapmap).bind fun (a, swapmap) =>
    if a = 0 then none
    else
      let s := others (.writing (os - USIZE)) { s with swapmap := swapmap }
      let mem := Memory.swap false a s.p_addr USIZE s.mem
      let mem := Memory.mapswap false (a + ptod USIZE) s.p_map (os - USIZE) mem
      let core := (mem.core.mapfree s.p_map 0 (os - USIZE)).2.pgfree s.p_addr
      some { s with
        mem := { mem with core := core }
        p_map := 0
        p_addr := a }

/-- The part of `swapin` behind the text. Page 0 is not in core, nor the map 0 that is left if there
is no core for one: the machine stops then. -/
def swapin (s : Space) : Option Space :=
  let a := s.p_addr
  let (pg, core) := s.mem.core.pgalloc
  let (ok, map, core) := core.mapalloc s.p_map 0 (s.p_size - USIZE)
  if pg = 0 ∨ ok = false then none
  else
    let mem := Memory.swap true a pg USIZE { s.mem with core := core }
    let mem := Memory.mapswap true (a + ptod USIZE) map (s.p_size - USIZE) mem
    (Map.mfree (ptod s.p_size) a s.swapmap).map fun swapmap =>
      { s with mem := mem, swapmap := swapmap, p_addr := pg, p_map := map }

/-- `expand`; without core for the larger image the process is swapped out and waits to be swapped
in. -/
def expand (others : Moment → Space → Space) (s : Space) (newsize : ℕ) : Option Space :=
  let n := s.p_size
  if newsize ≤ n then
    let (map, core) := s.mem.core.mapfree s.p_map (newsize - USIZE) (n - USIZE)
    some { s with mem := { s.mem with core := core }, p_map := map, p_size := newsize }
  else
    match s.mem.core.mapalloc s.p_map (n - USIZE) (newsize - USIZE) with
    | (true, map, core) =>
        some { s with mem := { s.mem with core := core }, p_map := map, p_size := newsize }
    | (false, _, _) =>
        (xswap others { s with p_size := newsize } n).bind fun s =>
          (others .away s).swapin.map fun s => others (.reading (newsize - USIZE)) s

/-! ## The entries of the image -/

variable {s s' : Space} {others : Moment → Space → Space} {n newsize i : ℕ} {m : Moment}

/-- The pages of the process and the free ones are distinct. -/
def Distinct (s : Space) (n : ℕ) : Prop :=
  ((s.holding n).all s.mem.core ++ s.mem.core.pgstk).Nodup

theorem Distinct.map (distinct : s.Distinct n) :
    (s.mem.core.mappages s.p_map n ++ s.mem.core.pgstk).Nodup :=
  (List.nodup_cons.mp distinct).2

theorem Distinct.rooted (distinct : s.Distinct n) (some : n ≠ 0) :
    (s.mem.core.rooted s.p_map n).Nodup := by
  have mine := (List.nodup_append.mp distinct.map).1
  rwa [Core.mappages_of_ne some] at mine

/-- The map of a process that others have left alone. -/
theorem Left.keeps (s s' : Space) {mine : List Pg} (whole : mine = (s.holding n).all s.mem.core)
    (p_map : s'.p_map = s.p_map)
    (page : ∀ pg ∈ mine, s'.mem.core.page pg = s.mem.core.page pg) :
    Core.Keeps n s.p_map s'.p_map s.mem.core s'.mem.core ∧
      s'.mem.core.mappages s.p_map n = s.mem.core.mappages s.p_map n := by
  have pages : ∀ pg ∈ s.mem.core.mappages s.p_map n, s'.mem.core.page pg = s.mem.core.page pg :=
    fun pg mem => page pg (whole ▸ List.mem_cons_of_mem _ mem)
  refine ⟨⟨fun j below => ?_, fun j below => pages _ ?_⟩, Core.mappages_congr pages⟩
  · have some : n ≠ 0 := Nat.ne_zero_of_lt below
    rw [Core.mappages_of_ne some] at pages
    have list : s'.mem.core.listpage s.p_map j = s.mem.core.listpage s.p_map j := by
      rw [Core.listpage, pages _ List.mem_cons_self, Core.listpage]
    rw [p_map, Core.mapent, list,
      pages _ (List.mem_cons_of_mem _ (List.mem_append_left _ (Core.listpage_mem below))),
        Core.mapent]
  · rw [Core.mappages_of_ne (Nat.ne_zero_of_lt below)]
    exact List.mem_cons_of_mem _ (List.mem_append_right _ (Core.mapent_mem_entries below))

theorem rooted_nodup {c : Core} {map : Pg} (distinct : (c.mappages map n).Nodup) :
    (c.rooted map n).Nodup := by
  by_cases none : n = 0
  · subst none
    simp [Core.rooted, Core.listpages, Core.entries, NPM]
  · rwa [Core.mappages_of_ne none] at distinct

/-- A page that is no page of a map is written without changing the map. -/
theorem mappages_update {c : Core} {map pg : Pg} (other : pg ∉ c.mappages map n) (f : ℕ → ℕ) :
    (Core.mk c.pgstk (update c.page pg f)).mappages map n = c.mappages map n := by
  refine Core.mappages_congr fun q mem => update_of_ne ?_ _ _
  rintro rfl
  exact other mem

/-- The image is in the swap area, and nothing of it in core. -/
theorem xswap_spec (fair : Fair others) (distinct : s.Distinct n)
    (called : s.xswap others (n + USIZE) = some s') :
    s'.u = s.u ∧ s'.p_size = s.p_size ∧ s'.p_map = 0 ∧ s'.mem.core.pgstk.Nodup ∧
      ∀ i < n, Memory.Alike (Memory.getpage s'.mem.area (s'.p_addr + ptod USIZE + ptod i))
        (s.content i) := by
  rw [xswap, if_neg (by rw [USIZE]; omega), Nat.add_sub_cancel] at called
  obtain ⟨⟨a, swapmap⟩, -, rest⟩ := Option.bind_eq_some_iff.mp called
  by_cases full : a = 0
  · simp [full] at rest
  replace rest := (if_neg full).symm.trans rest
  have left := fair (.writing n) { s with swapmap := swapmap } distinct
  generalize others (.writing n) { s with swapmap := swapmap } = t at left rest
  obtain ⟨keeps, pages⟩ := Left.keeps { s with swapmap := swapmap } t rfl left.p_map
    left.page
  obtain ⟨core, -, -⟩ := Memory.swap_write a t.p_addr USIZE t.mem
  obtain ⟨core', written, -⟩ := Memory.mapswap_write (a + ptod USIZE) t.p_map n
    (Memory.swap false a t.p_addr USIZE t.mem)
  rw [core] at core' written
  simp only [core'] at rest
  obtain rfl := Option.some.inj rest
  refine ⟨left.u, left.p_size, rfl, ?_, fun i below k small => ?_⟩
  · -- the pages of the map and the page of the user structure are free
    have mine : (Holding.all ⟨[t.p_addr], t.p_map, n⟩ t.mem.core ++ t.mem.core.pgstk).Nodup := by
      have same : t.mem.core.mappages t.p_map n = s.mem.core.mappages s.p_map n := by
        rw [left.p_map]
        exact pages
      rw [Holding.all, same, left.p_addr]
      exact left.apart
    have freed := (Holding.mapfree_exchanged (n := 0) ⟨[t.p_addr], t.p_map, n⟩
      (Nat.zero_le n)).nodup mine
    exact freed
  · refine (written i below k small).trans ?_
    rw [keeps.mapent i below, keeps.page i below]
    rfl

/-- The image is in core again, as large as `p_size` says. -/
theorem swapin_spec (away : s.mem.core.pgstk.Nodup) (called : s.swapin = some s') :
    s'.u = s.u ∧ s'.p_size = s.p_size ∧ s'.Distinct (s.p_size - USIZE) ∧
      ∀ i < s.p_size - USIZE, s'.content i =
        Memory.getpage s.mem.area (s.p_addr + ptod USIZE + ptod i) := by
  rw [swapin] at called
  simp only at called
  by_cases none : s.mem.core.pgalloc.1 = 0
  · simp [none] at called
  have some : 0 < s.mem.core.npgfree := by
    rw [Core.npgfree]
    refine List.length_pos_iff.mpr fun empty => none ?_
    simp [Core.pgalloc, empty]
  have taken := (Core.pgalloc_exchanged some []).2
  generalize s.mem.core.pgalloc = result at called none taken
  obtain ⟨pg, core⟩ := result
  obtain ⟨ok, map, core', allocated⟩ :
      ∃ ok map core', core.mapalloc s.p_map 0 (s.p_size - USIZE) = (ok, map, core') :=
        ⟨_, _, _, rfl⟩
  simp only at called none taken
  rw [allocated] at called
  simp only at called
  cases ok with
  | false => simp at called
  | true =>
      rw [if_neg (by simp [none])] at called
      obtain ⟨swapmap, -, rfl⟩ := Option.map_eq_some_iff.mp called
      have mine := taken.nodup (by simpa using away)
      have grown := Holding.mapalloc_exchanged ⟨[pg], s.p_map, 0⟩ (Nat.zero_le _) mine allocated
      have distinct := grown.nodup mine
      have pages : (core'.mappages map (s.p_size - USIZE)).Nodup :=
        (List.nodup_cons.mp (List.nodup_append.mp distinct).1).2
      have other : pg ∉ core'.mappages map (s.p_size - USIZE) :=
        (List.nodup_cons.mp (List.nodup_append.mp distinct).1).1
      -- the page of the user structure is read first
      have first : Memory.swap true s.p_addr pg USIZE { s.mem with core := core' } =
          ⟨⟨core'.pgstk, update core'.page pg (Memory.getpage s.mem.area s.p_addr)⟩, s.mem.area⟩ :=
            rfl
      rw [first]
      have same := mappages_update other (Memory.getpage s.mem.area s.p_addr)
      have nodup := rooted_nodup (by rwa [same])
      obtain ⟨-, pgstk, done, -⟩ := Memory.mapswap_read nodup (s.p_addr + ptod USIZE)
        (s := ⟨⟨core'.pgstk, update core'.page pg (Memory.getpage s.mem.area s.p_addr)⟩,
          s.mem.area⟩)
      obtain ⟨pages', entries⟩ := Memory.mapswap_read_map nodup (s.p_addr + ptod USIZE)
        (s := ⟨⟨core'.pgstk, update core'.page pg (Memory.getpage s.mem.area s.p_addr)⟩,
          s.mem.area⟩)
      refine ⟨rfl, rfl, ?_, fun i below => ?_⟩
      · rw [Distinct, holding, Holding.all]
        simp only
        rw [pages', same, pgstk]
        exact distinct
      · rw [content]
        simp only
        rw [entries i below]
        exact done i below

/-- A smaller image keeps its first entries; the others are free. -/
theorem expand_less (distinct : s.Distinct (s.p_size - USIZE)) (less : newsize ≤ s.p_size)
    (called : s.expand others newsize = some s') :
    s'.u = s.u ∧ s'.p_size = newsize ∧ s'.Distinct (newsize - USIZE) ∧
      Core.Keeps (newsize - USIZE) s.p_map s'.p_map s.mem.core s'.mem.core ∧
      ∀ i, newsize - USIZE ≤ i → i < s.p_size - USIZE →
        s.mem.core.mapent s.p_map i ∈ s'.mem.core.pgstk := by
  rw [expand, if_pos less] at called
  obtain rfl := Option.some.inj called
  refine ⟨rfl, rfl, ?_, ?_, fun i low high => ?_⟩
  · have freed := (Holding.mapfree_exchanged (n := newsize - USIZE) (s.holding (s.p_size - USIZE))
      (Nat.sub_le_sub_right less USIZE)).nodup distinct
    exact freed
  · exact Core.mapfree_keeps _ _ _ _
  · exact Core.mapfree_free distinct.map low high

/-- A larger image, wherever it has been, keeps what is in its entries. -/
theorem expand_more (fair : Fair others) (distinct : s.Distinct (s.p_size - USIZE))
    (several : USIZE ≤ s.p_size) (more : s.p_size < newsize)
    (called : s.expand others newsize = some s') :
    s'.u = s.u ∧ s'.p_size = newsize ∧ s'.Distinct (newsize - USIZE) ∧
      ∀ i < s.p_size - USIZE, Memory.Alike (s'.content i) (s.content i) := by
  rw [expand, if_neg (Nat.not_le.mpr more)] at called
  obtain ⟨ok, map, core, allocated⟩ :
      ∃ ok map core, s.mem.core.mapalloc s.p_map (s.p_size - USIZE) (newsize - USIZE) =
        (ok, map, core) := ⟨_, _, _, rfl⟩
  rw [allocated] at called
  cases ok with
  | true =>
      obtain rfl := Option.some.inj called
      have grows : s.p_size - USIZE ≤ newsize - USIZE := by omega
      have grown := (Holding.mapalloc_exchanged (s.holding (s.p_size - USIZE)) grows distinct
        allocated).nodup distinct
      have keeps := Core.mapalloc_keeps grows distinct.map allocated
      refine ⟨rfl, rfl, grown, fun i below k _ => ?_⟩
      rw [content, content]
      simp only
      rw [keeps.mapent i below, keeps.page i below]
  | false =>
      obtain ⟨t, swapped, rest⟩ := Option.bind_eq_some_iff.mp called
      obtain ⟨r, read, rfl⟩ := Option.map_eq_some_iff.mp rest
      obtain ⟨n, size⟩ := Nat.exists_eq_add_of_le' several
      have entries : s.p_size - USIZE = n := by omega
      rw [entries] at distinct ⊢
      rw [size] at swapped
      obtain ⟨u, p_size, p_map, free, written⟩ :=
        xswap_spec (s := { s with p_size := newsize }) fair distinct swapped
      have away := fair .away t (by simpa [Moment.mine] using free)
      obtain ⟨u', p_size', distinct', content⟩ :=
        swapin_spec (by simpa [Moment.mine] using away.apart) read
      rw [away.p_size, p_size] at p_size' distinct' content
      have back := fair (.reading (newsize - USIZE)) r distinct'
      obtain ⟨keeps, pages⟩ := Left.keeps _ _ rfl back.p_map back.page
      refine ⟨?_, ?_, ?_, fun i below k small => ?_⟩
      · rw [back.u, u', away.u, u]
      · rw [back.p_size, p_size']
      · rw [Distinct, holding, Holding.all, back.p_addr, back.p_map, pages]
        exact back.apart
      · have inside : i < newsize - USIZE := by omega
        rw [Space.content, keeps.mapent i inside, keeps.page i inside]
        refine (congrFun (content i inside) k).trans ?_
        rw [away.p_addr]
        refine (Memory.getpage_congr (fun b low high => away.area b ?_) k small).trans
          (written i below k small)
        rw [Moment.Reserved, p_size]
        simp only [ptod, USIZE] at low high inside ⊢
        omega

end Space

end UnixV7
