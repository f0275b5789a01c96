import Mathlib.Algebra.Group.Nat.Defs
import Mathlib.Data.List.Sort
import UnixV7.Kernel.Ptbuild

/-!
# The pages of the segments

The first loop of `ptbuild` counts the tables of the ranges from block to block, the second one
takes them as it goes from page to page, and never more than were counted. The pages it enters are
those that the segments and the maps name, in the order of their addresses.
-/

namespace UnixV7

open Function

namespace Ureg

/-! ## The first loop -/

theorem Count.page_eq (s : Count) (pg : ℕ) :
    s.page pg = ⟨pg / 2 ^ 18, pg / 512,
      s.n + (if pg / 2 ^ 18 = s.gb then 0 else 1) + if pg / 512 = s.blk then 0 else 1⟩ := by
  simp only [Count.page, shift_gb, shift_blk]
  split_ifs <;> simp_all

/-- Counting page by page. -/
theorem Count.foldl_page (l : List ℕ) (s : Count) :
    (l.foldl Count.page s).n = s.n + changes s.gb (l.map (· / 2 ^ 18)) +
      changes s.blk (l.map (· / 512)) := by
  induction l generalizing s with
  | nil => rfl
  | cons pg l ih =>
      rw [List.foldl_cons, ih, Count.page_eq, List.map_cons, List.map_cons, changes_cons,
        changes_cons]
      simp only
      omega

/-- The other pages of a block add nothing. -/
theorem Count.foldl_block (pg k : ℕ) (s : Count) (inside : pg % 512 + k < 512) :
    (List.range' pg (k + 1)).foldl Count.page s = s.page pg := by
  induction k with
  | zero => rfl
  | succ k ih =>
      rw [List.range'_1_concat, List.foldl_append, ih (by omega), List.foldl_cons, List.foldl_nil,
        Count.page_eq (s.page pg)]
      rw [Count.page_eq]
      have gb : (pg + (k + 1)) / 2 ^ 18 = pg / 2 ^ 18 := by omega
      have blk : (pg + (k + 1)) / 512 = pg / 512 := by omega
      rw [gb, blk]
      simp

/-- The last page of a block. -/
theorem or_npte (pg : ℕ) : pg ||| (NPTE - 1) = pg / 512 * 512 + 511 := by
  have block : (pg ||| (NPTE - 1)) / 512 = pg / 512 := by
    have shifted : (pg ||| (NPTE - 1)) >>> 9 = pg >>> 9 ||| (NPTE - 1) >>> 9 :=
      Nat.shiftRight_or_distrib
    rw [Nat.shiftRight_eq_div_pow, Nat.shiftRight_eq_div_pow] at shifted
    simpa [NPTE] using shifted
  have last : (pg ||| (NPTE - 1)) % 512 = 511 := by
    have low : (pg ||| (NPTE - 1)) % 512 = pg % 512 ||| 511 :=
      Nat.or_mod_two_pow (n := 9)
    have least : 511 ≤ pg % 512 ||| 511 := Nat.right_le_or
    have most : pg % 512 ||| 511 < 2 ^ 9 :=
      Nat.or_lt_two_pow (Nat.mod_lt _ (by decide)) (by decide)
    rw [low]
    omega
  omega

/-- The first loop counts what a walk through all pages would. -/
theorem Count.range_eq (stop steps pg : ℕ) (s : Count) (enough : stop - pg ≤ steps) :
    Count.range stop steps pg s = (List.range' pg (stop - pg)).foldl Count.page s := by
  induction steps generalizing pg s with
  | zero =>
      rw [Nat.le_zero.mp enough]
      rfl
  | succ steps ih =>
      rw [Count.range]
      split_ifs with more
      · obtain ⟨k, first⟩ : ∃ k, min (pg / 512 * 512 + 512) stop - pg = k + 1 :=
          ⟨min (pg / 512 * 512 + 512) stop - pg - 1, by omega⟩
        have split : List.range' pg (stop - pg) = List.range' pg (k + 1) ++
            List.range' (pg / 512 * 512 + 512) (stop - (pg / 512 * 512 + 512)) := by
          by_cases last : stop ≤ pg / 512 * 512 + 512
          · rw [show stop - (pg / 512 * 512 + 512) = 0 by omega,
              show stop - pg = k + 1 by omega]
            simp
          · rw [show stop - pg = (k + 1) + (stop - (pg / 512 * 512 + 512)) by omega,
              ← List.range'_append_1, show pg + (k + 1) = pg / 512 * 512 + 512 by omega]
        rw [or_npte, ih _ _ (by omega), split, List.foldl_append,
          Count.foldl_block pg k s (by omega)]
      · rw [show stop - pg = 0 by omega]
        rfl

/-- The pages of ranges, whether they are held or not. -/
def allPages (r : List Urange) : List ℕ := r.flatMap fun rp => List.range' rp.va rp.n

/-- The count is that of the gigabytes and blocks along all pages. -/
theorem count_eq (r : List Urange) :
    count r = changes nowhere ((allPages r).map (· / 2 ^ 18)) +
      changes nowhere ((allPages r).map (· / 512)) := by
  have loop : ∀ s : Count, r.foldl (fun s rp => Count.range (rp.va + rp.n) rp.n rp.va s) s =
      (allPages r).foldl Count.page s := by
    intro s
    rw [allPages, List.foldl_flatMap]
    congr 1
    funext s rp
    rw [Count.range_eq _ _ _ _ (by omega), Nat.add_sub_cancel_left]
  rw [count, loop, Count.foldl_page]
  simp

/-! ## The second loop -/

variable {c : Core} {rp : Urange} {r : List Urange} {v d l1 a : ℕ}

/-- The pages of a range that its map holds, with their entries. -/
def held (c : Core) (rp : Urange) : List (ℕ × ℕ) :=
  (List.range rp.n).filterMap fun i =>
    if upage c rp i = 0 then none else some (rp.va + i, ptob (upage c rp i) ||| PGUSER ||| rp.ap)

/-- The pages of ranges that are held. -/
def entries (c : Core) (r : List Urange) : List (ℕ × ℕ) := r.flatMap (held c)

theorem mem_held : (v, d) ∈ held c rp ↔ ∃ i < rp.n, upage c rp i ≠ 0 ∧ v = rp.va + i ∧
    d = (ptob (upage c rp i) ||| PGUSER ||| rp.ap) := by
  simp only [held, List.mem_filterMap, List.mem_range, Option.ite_none_left_eq_some,
    Option.some.injEq, Prod.mk.injEq]
  constructor
  · rintro ⟨i, small, real, rfl, rfl⟩
    exact ⟨i, small, real, rfl, rfl⟩
  · rintro ⟨i, small, real, rfl, rfl⟩
    exact ⟨i, small, real, rfl, rfl⟩

/-- The second loop enters the pages that are held. -/
theorem fill_eq (c : Core) (l1 : ℕ) (r : List Urange) (s : Fill) :
    r.foldl (fun (s : Fill) rp => s.range c l1 rp) s =
      (entries c r).foldl (fun s e => s.page l1 e.1 e.2) s := by
  rw [entries, List.foldl_flatMap]
  congr 1
  funext s rp
  rw [Fill.range, held, List.foldl_filterMap]
  congr 1
  funext s i
  by_cases missing : upage c rp i = 0
  · simp [missing]
  · simp [missing]

/-- The pages that are held are some of all pages, in the same order. -/
theorem entries_sublist (c : Core) (r : List Urange) :
    ((entries c r).map Prod.fst).Sublist (allPages r) := by
  induction r with
  | nil => exact .slnil
  | cons rp r ih =>
      have part : ((held c rp).map Prod.fst).Sublist (List.range' rp.va rp.n) := by
        have all : List.range' rp.va rp.n = (List.range rp.n).map (rp.va + ·) :=
          List.range'_eq_map_range
        rw [all, held, List.map_filterMap]
        generalize List.range rp.n = l
        induction l with
        | nil => exact .slnil
        | cons i l ih =>
            rw [List.filterMap_cons, List.map_cons]
            split
            · exact ih.cons _
            · next found =>
                split_ifs at found
                · simp at found
                · obtain rfl := by simpa using found
                  exact ih.cons_cons _
      simp only [entries, allPages, List.flatMap_cons, List.map_append] at ih ⊢
      exact part.append ih

/-- The second loop takes no more tables than the first one has counted. -/
theorem entries_count (c : Core) (r : List Urange) :
    changes nowhere (gbs (entries c r)) + changes nowhere (blks (entries c r)) ≤ count r := by
  rw [count_eq]
  have sub := entries_sublist c r
  have gb := changes_sublist nowhere (sub.map (· / 2 ^ 18))
  have blk := changes_sublist nowhere (sub.map (· / 512))
  rw [List.map_map] at gb blk
  exact Nat.add_le_add gb blk

/-! ## The ranges in order -/

/-- The inner loop of the sort inserts a range in its place. -/
theorem exchange_eq (t : Urange) (before : List Urange) :
    exchange t before = before.orderedInsert (fun a b => b.va ≤ a.va) t := by
  induction before with
  | nil => rfl
  | cons r before ih =>
      rw [exchange, List.orderedInsert_cons, ih]
      split_ifs <;> first | rfl | omega

theorem sort_spec (r : List Urange) :
    (sort r).Perm r ∧ (sort r).Pairwise fun a b => a.va ≤ b.va := by
  have total : Std.Total fun a b : Urange => b.va ≤ a.va := ⟨fun a b => Nat.le_total _ _⟩
  have trans : IsTrans Urange fun a b : Urange => b.va ≤ a.va :=
    ⟨fun a b c first second => Nat.le_trans second first⟩
  have loop : ∀ l before : List Urange, before.Pairwise (fun a b => b.va ≤ a.va) →
      (l.foldl (fun before t => exchange t before) before).Perm (l ++ before) ∧
      (l.foldl (fun before t => exchange t before) before).Pairwise fun a b => b.va ≤ a.va := by
    intro l
    induction l with
    | nil => exact fun before sorted => ⟨.refl _, sorted⟩
    | cons t l ih =>
        intro before sorted
        have next : (exchange t before).Pairwise fun a b => b.va ≤ a.va := by
          rw [exchange_eq]
          exact sorted.orderedInsert t before
        obtain ⟨perm, sorted'⟩ := ih _ next
        refine ⟨perm.trans ?_, sorted'⟩
        rw [exchange_eq]
        exact ((List.perm_orderedInsert _ t before).append_left l).trans List.perm_middle
  obtain ⟨perm, sorted⟩ := loop r [] .nil
  rw [List.append_nil] at perm
  refine ⟨(List.reverse_perm _).trans perm, ?_⟩
  rw [sort, List.pairwise_reverse]
  exact sorted

/-- Two ranges have no page in common. -/
def Clear (a b : Urange) : Prop := a.va + a.n ≤ b.va ∨ b.va + b.n ≤ a.va

theorem apart_iff {a n b m : ℕ} :
    apart a n b m = true ↔ n = 0 ∨ m = 0 ∨ a + n ≤ b ∨ b + m ≤ a := by
  simp [apart, or_assoc]

variable {maxmem : ℕ} {sigpage : Pg} {u : Segs} {p : Image} {xp : Text}

theorem mem_ranges : rp ∈ ranges sigpage u p ↔
    (∃ xp, p.p_textp = some xp ∧ u.u_tsize ≠ 0 ∧
      rp = ⟨u.u_ptstart, u.u_tsize, xp.x_map, 0, u.u_pxrw, xp.x_size⟩) ∨
    (u.u_dsize ≠ 0 ∧ rp = ⟨u.u_pdstart, u.u_dsize, p.p_map, 0, RW, p.p_size - USIZE⟩) ∨
    (u.u_ssize ≠ 0 ∧
      rp = ⟨top - u.u_ssize, u.u_ssize, p.p_map, u.u_dsize, RW, p.p_size - USIZE⟩) ∨
    rp = ⟨tr, 1, 0, sigpage, RO, 1⟩ := by
  rw [ranges]
  cases p.p_textp with
  | none => simp [List.mem_append]
  | some xp => simp [List.mem_append]

theorem clear_of_apart {a b : Urange} (separate : Ureg.apart a.va a.n b.va b.n = true)
    (some : a.n ≠ 0) (some' : b.n ≠ 0) : Clear a b := by
  rcases apart_iff.mp separate with none | none | low | high
  · exact absurd none some
  · exact absurd none some'
  · exact .inl low
  · exact .inr high

/-- Ranges that `estabur` accepts are apart, and lie in the user's space. -/
theorem ranges_clear (sigpage : Pg) (p : Image)
    (fit : fits maxmem u.u_ptstart u.u_tsize u.u_pdstart u.u_dsize u.u_ssize = true) :
    (ranges sigpage u p).Pairwise Clear ∧
      ∀ rp ∈ ranges sigpage u p, 0 < rp.n ∧ rp.va + rp.n ≤ top := by
  simp only [fits, Bool.and_eq_true, Bool.not_eq_true', Bool.or_eq_false_iff,
    decide_eq_false_iff_not, Bool.not_eq_false', Nat.not_lt] at fit
  obtain ⟨⟨⟨⟨⟨⟨nt, ts⟩, nd⟩, ds⟩, ns⟩, ⟨⟨⟨⟨td, tS⟩, dS⟩, tT⟩, dT⟩, sT⟩, -⟩ := fit
  constructor
  · have one : (1 : ℕ) ≠ 0 := Nat.one_ne_zero
    rw [ranges]
    cases p.p_textp with
    | none =>
        by_cases data : u.u_dsize = 0 <;> by_cases stack : u.u_ssize = 0 <;>
          simp [data, stack, clear_of_apart, dS, dT, sT]
    | some xp =>
        by_cases text : u.u_tsize = 0 <;> by_cases data : u.u_dsize = 0 <;>
          by_cases stack : u.u_ssize = 0 <;>
          simp [text, data, stack, clear_of_apart, td, tS, dS, tT, dT, sT]
  · intro rp mem
    have tr_lt : tr + 1 ≤ top := by decide
    rcases mem_ranges.mp mem with ⟨xp, -, some, rfl⟩ | ⟨some, rfl⟩ | ⟨some, rfl⟩ | rfl
    · exact ⟨Nat.pos_of_ne_zero some, by simp only; omega⟩
    · exact ⟨Nat.pos_of_ne_zero some, by simp only; omega⟩
    · exact ⟨Nat.pos_of_ne_zero some, by simp only; omega⟩
    · exact ⟨Nat.one_pos, tr_lt⟩

/-- Pages of ranges in order, no two of which meet, are in order. -/
theorem allPages_sorted (clear : r.Pairwise Clear) (sorted : r.Pairwise fun a b => a.va ≤ b.va)
    (pos : ∀ rp ∈ r, 0 < rp.n) : (allPages r).Pairwise (· < ·) := by
  rw [allPages, List.pairwise_flatMap]
  refine ⟨fun rp _ => List.pairwise_lt_range', ?_⟩
  have both := (List.pairwise_and_iff.mpr ⟨clear, sorted⟩)
  refine both.imp_of_mem fun {a b} memA memB ⟨apart, before⟩ x hx y hy => ?_
  have posA := pos a memA
  have posB := pos b memB
  rw [List.mem_range'_1] at hx hy
  rcases apart with low | high
  · omega
  · omega

theorem lookup_of_mem {l : List (ℕ × ℕ)} (ordered : l.Pairwise fun e f => e.1 < f.1)
    (mem : (v, d) ∈ l) : l.lookup v = some d := by
  induction l with
  | nil => simp at mem
  | cons e l ih =>
      obtain ⟨first, rest⟩ := List.pairwise_cons.mp ordered
      rcases List.mem_cons.mp mem with rfl | mem
      · exact List.lookup_cons_self
      · have other : (v == e.1) = false := by
          rw [beq_eq_false_iff_ne]
          exact Nat.ne_of_gt (first _ mem)
        rw [List.lookup_cons, other]
        exact ih rest mem

/-! ## What the segments say -/

/-- What a process says about its pages: its core, its sizes and its maps. -/
structure Source where
  core : Core
  segs : Segs
  image : Image

/-- The ranges in order. -/
def Source.ranges (sigpage : Pg) (src : Source) : List Urange :=
  sort (Ureg.ranges sigpage src.segs src.image)

/-- The pages and access bits of text, data and stack, at the indices their maps hold, and of the
trampoline. -/
inductive Means (sigpage : Pg) (src : Source) : ℕ → Pg → ℕ → Prop
  | text {xp : Text} {i : ℕ} : src.image.p_textp = some xp → i < src.segs.u_tsize →
      i < xp.x_size →
      Means sigpage src (src.segs.u_ptstart + i) (src.core.mapent xp.x_map i) src.segs.u_pxrw
  | data {i : ℕ} : i < src.segs.u_dsize → i < src.image.p_size - USIZE →
      Means sigpage src (src.segs.u_pdstart + i) (src.core.mapent src.image.p_map i) RW
  | stack {i : ℕ} : i < src.segs.u_ssize → src.segs.u_dsize + i < src.image.p_size - USIZE →
      Means sigpage src (top - src.segs.u_ssize + i)
        (src.core.mapent src.image.p_map (src.segs.u_dsize + i)) RW
  | trampoline : Means sigpage src tr sigpage RO

/-- Maps whose entries are pages. A map is there as soon as there is a page of data, of stack or of
text; callers of `estabur` say read-only or read-write. -/
structure Mapped (sigpage : Pg) (src : Source) : Prop where
  access : src.segs.u_pxrw = RO ∨ src.segs.u_pxrw = RW
  sigpage : sigpage ≠ 0 ∧ sigpage < 2 ^ 20
  map : src.segs.u_dsize ≠ 0 ∨ src.segs.u_ssize ≠ 0 → src.image.p_map ≠ 0
  held : ∀ i < src.image.p_size - USIZE, src.core.mapent src.image.p_map i ≠ 0 ∧
    src.core.mapent src.image.p_map i < 2 ^ 20
  text : ∀ xp, src.image.p_textp = some xp → src.segs.u_tsize ≠ 0 → xp.x_map ≠ 0 ∧
    ∀ i < xp.x_size, src.core.mapent xp.x_map i ≠ 0 ∧ src.core.mapent xp.x_map i < 2 ^ 20

/-- Moreover `estabur` has accepted the sizes. -/
structure Sound (maxmem : ℕ) (sigpage : Pg) (src : Source) : Prop extends Mapped sigpage src where
  fits : fits maxmem src.segs.u_ptstart src.segs.u_tsize src.segs.u_pdstart src.segs.u_dsize
    src.segs.u_ssize = true

/-- The entry of a page. -/
def entry (pa : Pg) (ap : ℕ) : ℕ := ptob pa ||| PGUSER ||| ap

variable {src : Source} {pa ap : ℕ}

theorem upage_of_map (real : rp.map ≠ 0) (i : ℕ) :
    upage c rp i = if rp.nent ≤ rp.first + i then 0 else c.mapent rp.map (rp.first + i) :=
  if_neg real

theorem Means.bounds (sound : Mapped sigpage src) (means : Means sigpage src v pa ap) :
    pa ≠ 0 ∧ pa < 2 ^ 20 ∧ (ap = RO ∨ ap = RW) := by
  cases means with
  | @text xp i attached inside below =>
      obtain ⟨real, small⟩ := (sound.text xp attached (Nat.ne_zero_of_lt inside)).2 i below
      exact ⟨real, small, sound.access⟩
  | @data i _ below =>
      obtain ⟨real, small⟩ := sound.held i below
      exact ⟨real, small, .inr rfl⟩
  | @stack i _ below =>
      obtain ⟨real, small⟩ := sound.held _ below
      exact ⟨real, small, .inr rfl⟩
  | trampoline => exact ⟨sound.sigpage.1, sound.sigpage.2, .inl rfl⟩

/-- The pages that are entered are those of the segments. -/
theorem mem_entries (sound : Mapped sigpage src) :
    (v, d) ∈ entries src.core (src.ranges sigpage) ↔
      ∃ pa ap, Means sigpage src v pa ap ∧ d = entry pa ap := by
  have perm := (sort_spec (Ureg.ranges sigpage src.segs src.image)).1
  simp only [entries, List.mem_flatMap, Source.ranges, perm.mem_iff, mem_held]
  constructor
  · rintro ⟨rp, mem, i, below, there, rfl, rfl⟩
    rcases mem_ranges.mp mem with ⟨xp, attached, some, rfl⟩ | ⟨some, rfl⟩ | ⟨some, rfl⟩ | rfl
    · obtain ⟨real, pages⟩ := sound.text xp attached some
      rw [upage_of_map real] at there ⊢
      simp only [Nat.zero_add] at there ⊢
      split_ifs at there ⊢ with beyond
      · exact absurd rfl there
      · exact ⟨_, _, .text attached below (Nat.not_le.mp beyond), rfl⟩
    · rw [upage_of_map (sound.map (.inl some))] at there ⊢
      simp only [Nat.zero_add] at there ⊢
      split_ifs at there ⊢ with beyond
      · exact absurd rfl there
      · exact ⟨_, _, .data below (Nat.not_le.mp beyond), rfl⟩
    · rw [upage_of_map (sound.map (.inr some))] at there ⊢
      simp only at there ⊢
      split_ifs at there ⊢ with beyond
      · exact absurd rfl there
      · exact ⟨_, _, .stack below (Nat.not_le.mp beyond), rfl⟩
    · obtain rfl := Nat.lt_one_iff.mp below
      exact ⟨_, _, .trampoline, rfl⟩
  · rintro ⟨pa, ap, means, rfl⟩
    have real := (means.bounds sound).1
    cases means with
    | @text xp i attached below some =>
        have held : upage src.core ⟨src.segs.u_ptstart, src.segs.u_tsize, xp.x_map, 0,
            src.segs.u_pxrw, xp.x_size⟩ i = src.core.mapent xp.x_map i := by
          rw [upage_of_map (sound.text xp attached (Nat.ne_zero_of_lt below)).1]
          simp [Nat.not_le.mpr some]
        refine ⟨_, mem_ranges.mpr (.inl ⟨xp, attached, by omega, rfl⟩), i, below, ?_⟩
        rw [held]
        exact ⟨real, rfl, rfl⟩
    | @data i below some =>
        have held : upage src.core ⟨src.segs.u_pdstart, src.segs.u_dsize, src.image.p_map, 0, RW,
            src.image.p_size - USIZE⟩ i = src.core.mapent src.image.p_map i := by
          rw [upage_of_map (sound.map (.inl (by omega)))]
          simp [Nat.not_le.mpr some]
        refine ⟨_, mem_ranges.mpr (.inr (.inl ⟨by omega, rfl⟩)), i, below, ?_⟩
        rw [held]
        exact ⟨real, rfl, rfl⟩
    | @stack i below some =>
        have held : upage src.core ⟨top - src.segs.u_ssize, src.segs.u_ssize, src.image.p_map,
            src.segs.u_dsize, RW, src.image.p_size - USIZE⟩ i =
              src.core.mapent src.image.p_map (src.segs.u_dsize + i) := by
          rw [upage_of_map (sound.map (.inr (by omega)))]
          simp [Nat.not_le.mpr some]
        refine ⟨_, mem_ranges.mpr (.inr (.inr (.inl ⟨by omega, rfl⟩))), i, below, ?_⟩
        rw [held]
        exact ⟨real, rfl, rfl⟩
    | trampoline =>
        exact ⟨_, mem_ranges.mpr (.inr (.inr (.inr rfl))), 0, Nat.one_pos, real, rfl, rfl⟩

/-- The pages are entered in order, and all of them lie in the user's space. -/
theorem entries_ordered (sound : Sound maxmem sigpage src) :
    (entries src.core (src.ranges sigpage)).Pairwise (fun e f => e.1 < f.1) ∧
      ∀ e ∈ entries src.core (src.ranges sigpage), e.1 < top := by
  obtain ⟨clear, inside⟩ := ranges_clear sigpage src.image sound.fits
  obtain ⟨perm, sorted⟩ := sort_spec (Ureg.ranges sigpage src.segs src.image)
  constructor
  · have pages := allPages_sorted (perm.symm.pairwise clear fun apart => apart.symm) sorted
      fun rp mem => (inside rp (perm.mem_iff.mp mem)).1
    have fewer := pages.sublist (entries_sublist src.core (src.ranges sigpage))
    rwa [List.pairwise_map] at fewer
  · intro e mem
    obtain ⟨rp, mem, held⟩ := List.mem_flatMap.mp mem
    obtain ⟨i, below, -, here, -⟩ := mem_held.mp held
    have high := (inside rp (perm.mem_iff.mp mem)).2
    omega

/-- There is always a table to build. -/
theorem count_pos (sound : Sound maxmem sigpage src) : 0 < count (src.ranges sigpage) := by
  have tramp : (tr, entry sigpage RO) ∈ entries src.core (src.ranges sigpage) :=
    (mem_entries sound.toMapped).mpr ⟨_, _, .trampoline, rfl⟩
  refine Nat.lt_of_lt_of_le ?_ (entries_count src.core (src.ranges sigpage))
  have user := (entries_ordered sound).2
  revert tramp user
  cases entries src.core (src.ranges sigpage) with
  | nil => simp
  | cons e l =>
      intro _ user
      have below := user e List.mem_cons_self
      have change : e.1 / 2 ^ 18 ≠ nowhere := by
        rw [top] at below
        rw [nowhere]
        omega
      rw [gbs, List.map_cons, changes_cons, if_neg change]
      omega

end Ureg

end UnixV7
