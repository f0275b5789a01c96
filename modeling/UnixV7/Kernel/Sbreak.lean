import Mathlib.Algebra.Group.Nat.Defs
import UnixV7.Kernel.Expand
import UnixV7.Kernel.Segments

/-!
# Changing the size of a process

`sbreak` changes the size of the data and `grow` that of the stack. The map lists data and then
stack, so the entries that a process gains or loses are moved past its stack, and a gap that is
opened is cleared.
-/

namespace UnixV7

open Function

namespace Core

/-- The loops that clear `d` pages of a map, from the entry below `a` downwards. -/
def clear (c : Core) (map : Pg) (a : ℕ) : ℕ → Core
  | 0 => c
  | d + 1 => (c.clearseg (c.mapent map (a - 1))).clear map (a - 1) d

end Core

namespace Space

open Ureg

def SINCR : ℕ := 1

def USRSIZE : ℕ := 0xC0000000

/-- `btop`, in unsigned arithmetic. -/
def btop (x : ℕ) : ℕ := ((x + 4095) % 2 ^ 32) >>> 12

/-- `sbreak`: whether it succeeds, and the process after it. The page tables, which are built anew,
follow from the sizes and the map. -/
def sbreak (others : Moment → Space → Space) (maxmem : ℕ) (s : Space) (nsiz : ℕ) :
    Option (Bool × Space) :=
  let n : ℤ := btop nsiz - s.u.u_pdstart
  let n := if n < 0 then 0 else n
  let d := n - s.u.u_dsize
  let n := n + (USIZE + s.u.u_ssize)
  if !s.roomfor n.toNat 0 then some (false, s)
  else if !fits maxmem s.u.u_ptstart s.u.u_tsize s.u.u_pdstart (s.u.u_dsize + d).toNat
      s.u.u_ssize then
    some (false, s)
  else
    let s := { s with u := { s.u with u_dsize := (s.u.u_dsize + d).toNat, u_pxrw := RO } }
    let a := n - s.u.u_ssize - USIZE
    if 0 < d then
      (s.expand others n.toNat).map fun s =>
        let core := s.mem.core.maprot s.p_map (a - d).toNat (n - d - USIZE).toNat (n - USIZE).toNat
        (true, { s with mem := { s.mem with core := core.clear s.p_map a.toNat d.toNat } })
    else
      let core := s.mem.core.maprot s.p_map a.toNat (a - d).toNat (n - d - USIZE).toNat
      (Space.expand others { s with mem := { s.mem with core := core } } n.toNat).map fun s =>
        (true, s)

/-- `grow` -/
def grow (others : Moment → Space → Space) (maxmem : ℕ) (s : Space) (sp : ℕ) :
    Option (Bool × Space) :=
  if USRSIZE - ptob s.u.u_ssize ≤ sp then some (false, s)
  else
    let si : ℤ := ((USRSIZE - sp) / ptob 1 : ℕ) - s.u.u_ssize + SINCR
    if si ≤ 0 then some (false, s)
    else
      let si := si.toNat
      let ss := s.u.u_ssize
      if !s.roomfor (s.p_size + si) 0 then some (false, s)
      else if !fits maxmem s.u.u_ptstart s.u.u_tsize s.u.u_pdstart s.u.u_dsize (ss + si) then
        some (false, s)
      else
        let s := { s with u := { s.u with u_ssize := ss + si, u_pxrw := RO } }
        (s.expand others (s.p_size + si)).map fun s =>
          let a := s.p_size - USIZE
          let core := s.mem.core.maprot s.p_map (a - si - ss) (a - si) a
          let a := a - ss
          (true, { s with mem := { s.mem with core := core.clear s.p_map a si } })

/-- The entry of the map for a page of data or stack. -/
def place (u : Segs) (v : ℕ) : Option ℕ :=
  if u.u_pdstart ≤ v ∧ v < u.u_pdstart + u.u_dsize then some (v - u.u_pdstart)
  else if top - u.u_ssize ≤ v ∧ v < top then some (u.u_dsize + (v - (top - u.u_ssize)))
  else none

/-- The map lists the data and the stack, in sizes that `estabur` has accepted, and all pages are
distinct. -/
structure Whole (maxmem : ℕ) (s : Space) : Prop where
  size : s.p_size = USIZE + (s.u.u_dsize + s.u.u_ssize)
  distinct : s.Distinct (s.u.u_dsize + s.u.u_ssize)
  fits : fits maxmem s.u.u_ptstart s.u.u_tsize s.u.u_pdstart s.u.u_dsize s.u.u_ssize = true

/-- What addresses name after the size has changed. -/
structure Resized (maxmem : ℕ) (s s' : Space) : Prop where
  whole : Whole maxmem s'
  kept : ∀ v i j, place s.u v = some i → place s'.u v = some j →
    Memory.Alike (s'.content j) (s.content i)
  zero : ∀ v j, place s.u v = none → place s'.u v = some j → Memory.Alike (s'.content j) fun _ => 0
  free : ∀ v i, place s.u v = some i → place s'.u v = none →
    s.mem.core.mapent s.p_map i ∈ s'.mem.core.pgstk

variable {s s' : Space} {others : Moment → Space → Space} {maxmem a d n v i j k : ℕ} {map : Pg}
  {c : Core}

/-- The pages of data and stack that the page tables of such a process hold. -/
theorem Whole.means (whole : Whole maxmem s) (sigpage : Pg) (p_textp : Option Text)
    (here : place s.u v = some i) :
    Means sigpage ⟨s.mem.core, s.u, s.p_map, s.p_size, p_textp⟩ v
      (s.mem.core.mapent s.p_map i) RW := by
  have size := whole.size
  rw [place] at here
  split_ifs at here with data stack
  · obtain rfl := Option.some.inj here
    have mean : Means sigpage ⟨s.mem.core, s.u, s.p_map, s.p_size, p_textp⟩
        (s.u.u_pdstart + (v - s.u.u_pdstart)) (s.mem.core.mapent s.p_map (v - s.u.u_pdstart)) RW :=
      Means.data (by simp only; omega) (by simp only; omega)
    rwa [show s.u.u_pdstart + (v - s.u.u_pdstart) = v by omega] at mean
  · obtain rfl := Option.some.inj here
    have mean : Means sigpage ⟨s.mem.core, s.u, s.p_map, s.p_size, p_textp⟩
        (top - s.u.u_ssize + (v - (top - s.u.u_ssize)))
        (s.mem.core.mapent s.p_map (s.u.u_dsize + (v - (top - s.u.u_ssize)))) RW :=
      Means.stack (by simp only; omega) (by simp only; omega)
    rwa [show top - s.u.u_ssize + (v - (top - s.u.u_ssize)) = v by omega] at mean

/-! ## Opening a gap -/

/-- Pages are cleared, and the map stays as it is. -/
theorem clear_spec (distinct : (c.rooted map n).Nodup) (inside : a ≤ n) (enough : d ≤ a) :
    (c.clear map a d).pgstk = c.pgstk ∧
    (c.clear map a d).page map = c.page map ∧
    (∀ pg ∈ c.listpages map n, (c.clear map a d).page pg = c.page pg) ∧
    ∀ i < n, (c.clear map a d).page (c.mapent map i) =
      if a - d ≤ i ∧ i < a then fun _ => 0 else c.page (c.mapent map i) := by
  induction d generalizing c a with
  | zero => exact ⟨rfl, rfl, fun _ _ => rfl, fun i _ => by rw [if_neg (by omega)]; rfl⟩
  | succ d ih =>
      have last : a - 1 < n := by omega
      obtain ⟨root, list⟩ := Core.mapent_ne distinct last
      have rootKept : (c.clearseg (c.mapent map (a - 1))).page map = c.page map :=
        update_of_ne root.symm _ _
      have listsKept : ∀ pg ∈ c.listpages map n,
          (c.clearseg (c.mapent map (a - 1))).page pg = c.page pg := by
        intro pg mem
        refine update_of_ne ?_ _ _
        rintro rfl
        exact list mem
      have same := Core.rooted_congr rootKept listsKept
      have entry : ∀ i < n, (c.clearseg (c.mapent map (a - 1))).mapent map i = c.mapent map i := by
        intro i below
        have here := listsKept _ (Core.listpage_mem below)
        rw [Core.listpage] at here
        rw [Core.mapent, Core.listpage, rootKept, here, Core.mapent, Core.listpage]
      obtain ⟨pgstk, root', lists', pages⟩ := ih (c := c.clearseg (c.mapent map (a - 1)))
        (a := a - 1) (by rwa [same]) (by omega) (by omega)
      have listed : (c.clearseg (c.mapent map (a - 1))).listpages map n = c.listpages map n := by
        rw [Core.listpages, rootKept, Core.listpages]
      rw [Core.clear]
      refine ⟨pgstk, root'.trans rootKept, fun pg mem => ?_, fun i below => ?_⟩
      · exact (lists' pg (listed ▸ mem)).trans (listsKept pg mem)
      · have page := pages i below
        rw [entry i below] at page
        rw [page]
        by_cases here : i = a - 1
        · subst here
          rw [if_neg (by omega), if_pos (by omega)]
          exact update_self _ _ _
        · have other : c.mapent map i ≠ c.mapent map (a - 1) := fun same =>
            here (Core.mapent_inj distinct below last same)
          have untouched : (c.clearseg (c.mapent map (a - 1))).page (c.mapent map i) =
              c.page (c.mapent map i) := update_of_ne other _ _
          rw [untouched]
          congr 1
          rw [eq_iff_iff]
          omega

/-- Behind the first `a` entries `d` new ones from the end of the map come in, and are cleared. -/
def gap (s : Space) (a k d : ℕ) : Space :=
  { s with mem := { s.mem with
      core := (s.mem.core.maprot s.p_map a (a + k) (a + k + d)).clear s.p_map (a + d) d } }

theorem gap_spec (distinct : s.Distinct (a + k + d)) :
    (s.gap a k d).Distinct (a + k + d) ∧
    (∀ j < a, (s.gap a k d).content j = s.content j) ∧
    (∀ j, a ≤ j → j < a + d → (s.gap a k d).content j = fun _ => 0) ∧
    ∀ j, a + d ≤ j → j < a + k + d → (s.gap a k d).content j = s.content (j - d) := by
  by_cases none : a + k + d = 0
  · refine ⟨?_, fun j below => by omega, fun j low high => by omega, fun j low high => by omega⟩
    have zero : a = 0 ∧ k = 0 ∧ d = 0 := by omega
    obtain ⟨rfl, rfl, rfl⟩ := zero
    exact distinct
  have nodup := distinct.rooted none
  have shaped := Core.shaped_of_nodup (List.nodup_append.mp distinct.map).1
  have moved := Core.maprot_spec shaped (a := a) (b := a + k) (m := a + k + d) (by omega) (by omega)
    (Nat.le_refl _)
  have exchanged := (Core.maprot_exchanged shaped (a := a) (b := a + k) (m := a + k + d) (by omega)
    (by omega) (Nat.le_refl _)).append_left [s.p_addr]
  have distinct' := exchanged.nodup distinct
  have nodup' : ((s.mem.core.maprot s.p_map a (a + k) (a + k + d)).rooted s.p_map
      (a + k + d)).Nodup := by
    have mine := (List.nodup_cons.mp (List.nodup_append.mp distinct').1).2
    rwa [Core.mappages_of_ne none] at mine
  obtain ⟨pgstk, root, lists, pages⟩ := clear_spec (a := a + d) (d := d) nodup' (by omega)
    (by omega)
  have entry : ∀ i < a + k + d, (s.gap a k d).mem.core.mapent s.p_map i =
      s.mem.core.mapent s.p_map (Core.rotated a (a + k) (a + k + d) i) := by
    intro i below
    have list := lists _ (Core.listpage_mem below)
    rw [Core.listpage] at list
    rw [← moved.mapent i below, gap]
    simp only
    rw [Core.mapent, Core.listpage, root, list, Core.mapent, Core.listpage]
  have content : ∀ i < a + k + d, (s.gap a k d).content i =
      if a ≤ i ∧ i < a + d then fun _ => 0
      else s.content (Core.rotated a (a + k) (a + k + d) i) := by
    intro i below
    have inside : Core.rotated a (a + k) (a + k + d) i < a + k + d := by
      rw [Core.rotated]
      split_ifs <;> omega
    have page := pages i below
    rw [moved.mapent i below, Nat.add_sub_cancel] at page
    rw [Space.content]
    change (s.gap a k d).mem.core.page ((s.gap a k d).mem.core.mapent s.p_map i) = _
    rw [entry i below]
    refine page.trans ?_
    rw [moved.frame _ (Core.mapent_ne nodup inside).2]
    rfl
  refine ⟨?_, fun j below => ?_, fun j low high => ?_, fun j low high => ?_⟩
  · have same : (s.gap a k d).mem.core.mappages s.p_map (a + k + d) =
        (s.mem.core.maprot s.p_map a (a + k) (a + k + d)).mappages s.p_map (a + k + d) := by
      rw [Core.mappages_of_ne none, Core.mappages_of_ne none]
      exact Core.rooted_congr root lists
    rw [Distinct, holding, Holding.all]
    change ([s.p_addr] ++ (s.gap a k d).mem.core.mappages s.p_map (a + k + d) ++
      ((s.mem.core.maprot s.p_map a (a + k) (a + k + d)).clear s.p_map (a + d) d).pgstk).Nodup
    rw [same, pgstk]
    exact distinct'
  · rw [content j (by omega), if_neg (by omega), Core.rotated, if_neg (by omega), if_neg (by omega)]
  · rw [content j (by omega), if_pos ⟨low, high⟩]
  · rw [content j high, if_neg (by omega), Core.rotated, if_neg (by omega), if_pos (by omega)]
    congr 1
    omega

/-! ## The calls -/

/-- Data and stack do not meet. -/
theorem fits_apart {ts nt ds nd ns : ℕ} (fit : fits maxmem ts nt ds nd ns = true) :
    ns ≤ top ∧ (nd = 0 ∨ ns = 0 ∨ ds + nd ≤ top - ns ∨ top - ns + ns ≤ ds) := by
  simp only [fits, Bool.and_eq_true, Bool.not_eq_true', Bool.or_eq_false_iff,
    decide_eq_false_iff_not, Bool.not_eq_false', Nat.not_lt] at fit
  obtain ⟨⟨⟨-, ns⟩, ⟨⟨⟨-, dS⟩, -⟩, -⟩, -⟩, -⟩ := fit
  exact ⟨ns, apart_iff.mp dS⟩

/-- An image that has grown, with a gap between data and stack. -/
theorem enlarged {u : Segs} {t : Space} (fair : Fair others) (whole : Whole maxmem s) (pos : 0 < d)
    (called : Space.expand others { s with u := u } (s.p_size + d) = some t) :
    (t.gap s.u.u_dsize s.u.u_ssize d).u = u ∧
    (t.gap s.u.u_dsize s.u.u_ssize d).p_size = s.p_size + d ∧
    (t.gap s.u.u_dsize s.u.u_ssize d).Distinct (s.u.u_dsize + s.u.u_ssize + d) ∧
    (∀ j < s.u.u_dsize,
      Memory.Alike ((t.gap s.u.u_dsize s.u.u_ssize d).content j) (s.content j)) ∧
    (∀ j, s.u.u_dsize ≤ j → j < s.u.u_dsize + d →
      (t.gap s.u.u_dsize s.u.u_ssize d).content j = fun _ => 0) ∧
    ∀ j, s.u.u_dsize + d ≤ j → j < s.u.u_dsize + s.u.u_ssize + d →
      Memory.Alike ((t.gap s.u.u_dsize s.u.u_ssize d).content j) (s.content (j - d)) := by
  have size := whole.size
  have entries : s.p_size - USIZE = s.u.u_dsize + s.u.u_ssize := by omega
  obtain ⟨sizes, p_size, distinct, kept⟩ := expand_more (s := { s with u := u }) fair
    (entries ▸ whole.distinct) (by simp only; omega) (by simp only; omega) called
  rw [show s.p_size + d - USIZE = s.u.u_dsize + s.u.u_ssize + d by omega] at distinct
  obtain ⟨distinct', low, middle, high⟩ := gap_spec distinct
  refine ⟨sizes, p_size, distinct', fun j below => ?_, middle, fun j above below => ?_⟩
  · rw [low j below]
    exact kept j (by simp only; omega)
  · rw [high j above below]
    exact kept (j - d) (by simp only; omega)

/-- More data. -/
theorem more_data {t : Space} (fair : Fair others) (whole : Whole maxmem s) (pos : 0 < d)
    (fit : fits maxmem s.u.u_ptstart s.u.u_tsize s.u.u_pdstart (s.u.u_dsize + d) s.u.u_ssize = true)
    (called : Space.expand others { s with
      u := { s.u with u_dsize := s.u.u_dsize + d, u_pxrw := RO } } (s.p_size + d) = some t) :
    Resized maxmem s (t.gap s.u.u_dsize s.u.u_ssize d) ∧
      (t.gap s.u.u_dsize s.u.u_ssize d).u =
      { s.u with u_dsize := s.u.u_dsize + d, u_pxrw := RO } := by
  obtain ⟨u, p_size, distinct, low, middle, high⟩ := enlarged fair whole pos called
  have size := whole.size
  have apart := fits_apart fit
  refine ⟨⟨⟨?_, ?_, ?_⟩, fun v i j before after => ?_, fun v j before after => ?_,
    fun v i before after => ?_⟩, u⟩
  · rw [p_size, u, size]
    simp only
    omega
  · rw [u]
    simp only
    rwa [show s.u.u_dsize + d + s.u.u_ssize = s.u.u_dsize + s.u.u_ssize + d by omega]
  · rw [u]
    exact fit
  · rw [place] at before
    rw [u, place] at after
    simp only at after
    split_ifs at before after with data stack data' stack'
    · obtain rfl := Option.some.inj before
      obtain rfl := Option.some.inj after
      exact low _ (by omega)
    · omega
    · omega
    · obtain rfl := Option.some.inj before
      obtain rfl := Option.some.inj after
      have same := high (s.u.u_dsize + d + (v - (top - s.u.u_ssize))) (by omega) (by omega)
      rwa [show s.u.u_dsize + d + (v - (top - s.u.u_ssize)) - d =
        s.u.u_dsize + (v - (top - s.u.u_ssize)) by omega] at same
  · rw [place] at before
    rw [u, place] at after
    simp only at after
    split_ifs at before after with data stack data'
    · obtain rfl := Option.some.inj after
      rw [middle _ (by omega) (by omega)]
      exact fun _ _ => rfl
  · rw [place] at before
    rw [u, place] at after
    simp only at after
    split_ifs at before after with data stack data' stack'
    · omega

/-- More stack. -/
theorem more_stack {t : Space} (fair : Fair others) (whole : Whole maxmem s) (pos : 0 < d)
    (fit : fits maxmem s.u.u_ptstart s.u.u_tsize s.u.u_pdstart s.u.u_dsize (s.u.u_ssize + d) = true)
    (called : Space.expand others { s with
      u := { s.u with u_ssize := s.u.u_ssize + d, u_pxrw := RO } } (s.p_size + d) = some t) :
    Resized maxmem s (t.gap s.u.u_dsize s.u.u_ssize d) ∧
      (t.gap s.u.u_dsize s.u.u_ssize d).u =
      { s.u with u_ssize := s.u.u_ssize + d, u_pxrw := RO } := by
  obtain ⟨u, p_size, distinct, low, middle, high⟩ := enlarged fair whole pos called
  have size := whole.size
  have apart := fits_apart fit
  refine ⟨⟨⟨?_, ?_, ?_⟩, fun v i j before after => ?_, fun v j before after => ?_,
    fun v i before after => ?_⟩, u⟩
  · rw [p_size, u, size]
    simp only
    omega
  · rw [u]
    simp only
    rwa [← Nat.add_assoc]
  · rw [u]
    exact fit
  · rw [place] at before
    rw [u, place] at after
    simp only at after
    split_ifs at before after with data stack stack'
    · obtain rfl := Option.some.inj before
      obtain rfl := Option.some.inj after
      exact low _ (by omega)
    · obtain rfl := Option.some.inj before
      obtain rfl := Option.some.inj after
      have same := high (s.u.u_dsize + (v - (top - (s.u.u_ssize + d)))) (by omega) (by omega)
      rwa [show s.u.u_dsize + (v - (top - (s.u.u_ssize + d))) - d =
        s.u.u_dsize + (v - (top - s.u.u_ssize)) by omega] at same
  · rw [place] at before
    rw [u, place] at after
    simp only at after
    split_ifs at before after with data stack stack'
    · obtain rfl := Option.some.inj after
      rw [middle _ (by omega) (by omega)]
      exact fun _ _ => rfl
  · rw [place] at before
    rw [u, place] at after
    simp only at after
    split_ifs at before after with data stack stack'
    · omega

/-- Less data: the stack has changed places with the pages that are dropped. -/
theorem less_data {t : Space} (whole : Whole maxmem s) (less : n ≤ s.u.u_dsize)
    (fit : fits maxmem s.u.u_ptstart s.u.u_tsize s.u.u_pdstart n s.u.u_ssize = true)
    (called : Space.expand others { s with
      u := { s.u with u_dsize := n, u_pxrw := RO }
      mem := { s.mem with
        core := s.mem.core.maprot s.p_map n s.u.u_dsize (s.u.u_dsize + s.u.u_ssize) } }
      (n + (USIZE + s.u.u_ssize)) = some t) :
    Resized maxmem s t ∧ t.u = { s.u with u_dsize := n, u_pxrw := RO } := by
  have size := whole.size
  have entries : s.p_size - USIZE = s.u.u_dsize + s.u.u_ssize := by omega
  have shaped := Core.shaped_of_nodup (List.nodup_append.mp whole.distinct.map).1
  have moved := Core.maprot_spec shaped less (Nat.le_add_right _ s.u.u_ssize) (Nat.le_refl _)
  have turned := ((Core.maprot_exchanged shaped less (Nat.le_add_right _ s.u.u_ssize)
    (Nat.le_refl _)).append_left [s.p_addr]).nodup whole.distinct
  obtain ⟨u, p_size, distinct, keeps, free⟩ := expand_less (s := { s with
      u := { s.u with u_dsize := n, u_pxrw := RO }
      mem := { s.mem with
        core := s.mem.core.maprot s.p_map n s.u.u_dsize (s.u.u_dsize + s.u.u_ssize) } })
    (by simp only [entries]; exact turned) (by simp only; omega) called
  simp only at u keeps free
  rw [show n + (USIZE + s.u.u_ssize) - USIZE = n + s.u.u_ssize by omega] at distinct keeps free
  rw [entries] at free
  have content : ∀ j < n + s.u.u_ssize, t.content j = s.content
      (Core.rotated n s.u.u_dsize (s.u.u_dsize + s.u.u_ssize) j) := by
    intro j below
    have inside : Core.rotated n s.u.u_dsize (s.u.u_dsize + s.u.u_ssize) j <
        s.u.u_dsize + s.u.u_ssize := by
      rw [Core.rotated]
      split_ifs <;> omega
    have nodup := whole.distinct.rooted (by omega)
    rw [Space.content, keeps.mapent j below, keeps.page j below, moved.mapent j (by omega),
      moved.frame _ (Core.mapent_ne nodup inside).2]
    rfl
  have apart := fits_apart whole.fits
  refine ⟨⟨⟨?_, ?_, ?_⟩, fun v i j before after => ?_, fun v j before after => ?_,
    fun v i before after => ?_⟩, u⟩
  · rw [p_size, u]
    simp only
    omega
  · rw [u]
    exact distinct
  · rw [u]
    exact fit
  · rw [place] at before
    rw [u, place] at after
    simp only at after
    split_ifs at before after with data data' stack stack'
    · obtain rfl := Option.some.inj before
      obtain rfl := Option.some.inj after
      rw [content _ (by omega), Core.rotated, if_neg (by omega), if_neg (by omega)]
      exact fun _ _ => rfl
    · omega
    · omega
    · obtain rfl := Option.some.inj before
      obtain rfl := Option.some.inj after
      rw [content _ (by omega), Core.rotated, if_pos (by omega)]
      rw [show n + (v - (top - s.u.u_ssize)) + (s.u.u_dsize - n) =
        s.u.u_dsize + (v - (top - s.u.u_ssize)) by omega]
      exact fun _ _ => rfl
  · rw [place] at before
    rw [u, place] at after
    simp only at after
    split_ifs at before after with data stack data'
    · omega
  · rw [place] at before
    rw [u, place] at after
    simp only at after
    split_ifs at before after with data stack data' stack'
    · obtain rfl := Option.some.inj before
      have there := free (v - s.u.u_pdstart + s.u.u_ssize) (by omega) (by omega)
      rwa [moved.mapent _ (by omega), Core.rotated, if_neg (by omega), if_pos (by omega),
        show v - s.u.u_pdstart + s.u.u_ssize - (s.u.u_dsize + s.u.u_ssize - s.u.u_dsize) =
          v - s.u.u_pdstart by omega] at there

theorem sbreak_resized {nsiz : ℕ} {ok : Bool} (fair : Fair others) (whole : Whole maxmem s)
    (called : s.sbreak others maxmem nsiz = some (ok, s')) :
    if ok then Resized maxmem s s' ∧
      s'.u = { s.u with u_dsize := btop nsiz - s.u.u_pdstart, u_pxrw := RO }
    else s' = s := by
  have size := whole.size
  rw [sbreak] at called
  obtain ⟨n, clamped, new⟩ : ∃ n : ℕ, (if (btop nsiz : ℤ) - s.u.u_pdstart < 0 then (0 : ℤ)
      else (btop nsiz : ℤ) - s.u.u_pdstart) = n ∧ n = btop nsiz - s.u.u_pdstart :=
    ⟨btop nsiz - s.u.u_pdstart, by split_ifs <;> omega, rfl⟩
  simp only [clamped] at called
  rw [← new]
  by_cases room : s.roomfor (n + (USIZE + s.u.u_ssize) : ℤ).toNat 0 = true
  · rw [if_neg (by simp [room])] at called
    rw [show ((s.u.u_dsize : ℤ) + ((n : ℤ) - s.u.u_dsize)).toNat = n by omega] at called
    by_cases fit : fits maxmem s.u.u_ptstart s.u.u_tsize s.u.u_pdstart n s.u.u_ssize = true
    · rw [if_neg (by simp [fit])] at called
      rw [show ((n : ℤ) + (USIZE + s.u.u_ssize)).toNat = n + (USIZE + s.u.u_ssize) by
        omega] at called
      by_cases more : (0 : ℤ) < n - s.u.u_dsize
      · obtain ⟨d, rfl⟩ := Nat.exists_eq_add_of_lt (show s.u.u_dsize < n by omega)
        rw [if_pos more, show s.u.u_dsize + d + 1 + (USIZE + s.u.u_ssize) = s.p_size + (d + 1) by
          omega]
          at called
        obtain ⟨t, expanded, result⟩ := Option.map_eq_some_iff.mp called
        obtain ⟨resized, u⟩ := more_data fair whole (Nat.succ_pos d) fit expanded
        obtain ⟨rfl, rfl⟩ := Prod.mk.inj result
        rw [if_pos rfl]
        rw [show (((s.u.u_dsize + d + 1 : ℕ) : ℤ) + (USIZE + s.u.u_ssize) - s.u.u_ssize - USIZE -
            ((s.u.u_dsize + d + 1 : ℕ) - s.u.u_dsize)).toNat = s.u.u_dsize by omega,
          show (((s.u.u_dsize + d + 1 : ℕ) : ℤ) + (USIZE + s.u.u_ssize) -
            ((s.u.u_dsize + d + 1 : ℕ) - s.u.u_dsize) - USIZE).toNat =
            s.u.u_dsize + s.u.u_ssize by omega,
          show (((s.u.u_dsize + d + 1 : ℕ) : ℤ) + (USIZE + s.u.u_ssize) - USIZE).toNat =
            s.u.u_dsize + s.u.u_ssize + (d + 1) by omega,
          show (((s.u.u_dsize + d + 1 : ℕ) : ℤ) + (USIZE + s.u.u_ssize) - s.u.u_ssize -
            USIZE).toNat = s.u.u_dsize + (d + 1) by omega,
          show (((s.u.u_dsize + d + 1 : ℕ) : ℤ) - s.u.u_dsize).toNat = d + 1 by omega]
        exact ⟨resized, u⟩
      · rw [if_neg more] at called
        obtain ⟨t, expanded, result⟩ := Option.map_eq_some_iff.mp called
        obtain ⟨rfl, rfl⟩ := Prod.mk.inj result
        rw [if_pos rfl]
        rw [show ((n : ℤ) + (USIZE + s.u.u_ssize) - s.u.u_ssize - USIZE).toNat = n by omega,
          show ((n : ℤ) + (USIZE + s.u.u_ssize) - s.u.u_ssize - USIZE - (n - s.u.u_dsize)).toNat =
            s.u.u_dsize by omega,
          show ((n : ℤ) + (USIZE + s.u.u_ssize) - (n - s.u.u_dsize) - USIZE).toNat =
            s.u.u_dsize + s.u.u_ssize by omega] at expanded
        exact less_data whole (by omega) fit expanded
    · rw [if_pos (by simp [fit])] at called
      obtain ⟨rfl, rfl⟩ := Prod.mk.inj (Option.some.inj called)
      rfl
  · rw [if_pos (by simp [room])] at called
    obtain ⟨rfl, rfl⟩ := Prod.mk.inj (Option.some.inj called)
    rfl

theorem grow_resized {sp : ℕ} {ok : Bool} (fair : Fair others) (whole : Whole maxmem s)
    (called : s.grow others maxmem sp = some (ok, s')) :
    if ok then Resized maxmem s s' ∧ ∃ si : ℕ, 0 < si ∧
      (si : ℤ) = ((USRSIZE - sp) / ptob 1 : ℕ) - s.u.u_ssize + SINCR ∧
        s'.u = { s.u with u_ssize := s.u.u_ssize + si, u_pxrw := RO }
    else s' = s := by
  simp only [grow] at called
  split_ifs at called with high none room fit
  · obtain ⟨rfl, rfl⟩ := Prod.mk.inj (Option.some.inj called)
    rfl
  · obtain ⟨rfl, rfl⟩ := Prod.mk.inj (Option.some.inj called)
    rfl
  · obtain ⟨rfl, rfl⟩ := Prod.mk.inj (Option.some.inj called)
    rfl
  · obtain ⟨rfl, rfl⟩ := Prod.mk.inj (Option.some.inj called)
    rfl
  · obtain ⟨si, pos, grows, same⟩ : ∃ si : ℕ, 0 < si ∧
        (((USRSIZE - sp) / ptob 1 : ℕ) - s.u.u_ssize + SINCR : ℤ).toNat = si ∧
        (si : ℤ) = ((USRSIZE - sp) / ptob 1 : ℕ) - s.u.u_ssize + SINCR :=
      ⟨_, by omega, rfl, by omega⟩
    simp only [grows] at called fit
    obtain ⟨t, expanded, result⟩ := Option.map_eq_some_iff.mp called
    obtain ⟨resized, u⟩ := more_stack fair whole pos (by simpa using fit) expanded
    obtain ⟨rfl, rfl⟩ := Prod.mk.inj result
    have size := resized.whole.size
    have before := whole.size
    rw [u] at size
    have p_size : t.p_size = s.p_size + si := by
      have same : (t.gap s.u.u_dsize s.u.u_ssize si).p_size = t.p_size := rfl
      rw [← same, size, before]
      simp only
      omega
    rw [if_pos rfl]
    rw [show t.p_size - USIZE - si - s.u.u_ssize = s.u.u_dsize by omega,
      show t.p_size - USIZE - si = s.u.u_dsize + s.u.u_ssize by omega,
      show t.p_size - USIZE - s.u.u_ssize = s.u.u_dsize + si by omega,
      show t.p_size - USIZE = s.u.u_dsize + s.u.u_ssize + si by omega]
    exact ⟨resized, si, pos, same, u⟩

/-- Changing the size keeps the memory. Whatever others do while the process is swapped out, an
address of data or stack before and after names a page with the same contents, a new one a page of
zeros, and pages that are dropped are free; the page tables built after it name these pages. A call
that fails changes nothing. -/
theorem resized_of_calls (fair : Fair others) (whole : Whole maxmem s) :
    (∀ nsiz ok s', s.sbreak others maxmem nsiz = some (ok, s') →
      if ok then Resized maxmem s s' ∧
        s'.u = { s.u with u_dsize := btop nsiz - s.u.u_pdstart, u_pxrw := RO }
      else s' = s) ∧
    (∀ sp ok s', s.grow others maxmem sp = some (ok, s') →
      if ok then Resized maxmem s s' ∧ ∃ si : ℕ, 0 < si ∧
        (si : ℤ) = ((USRSIZE - sp) / ptob 1 : ℕ) - s.u.u_ssize + SINCR ∧
          s'.u = { s.u with u_ssize := s.u.u_ssize + si, u_pxrw := RO }
      else s' = s) ∧
    ∀ s', Resized maxmem s s' → ∀ sigpage p_textp v i, place s'.u v = some i →
      Means sigpage ⟨s'.mem.core, s'.u, s'.p_map, s'.p_size, p_textp⟩ v
        (s'.mem.core.mapent s'.p_map i) RW :=
  ⟨fun _ _ _ called => sbreak_resized fair whole called,
    fun _ _ _ called => grow_resized fair whole called,
    fun _ resized sigpage p_textp _ _ here => resized.whole.means sigpage p_textp here⟩

/-- A page of data at page 2, which holds 77 everywhere, and one of stack. -/
def twoPages : Space where
  mem := ⟨⟨[10, 11, 12], fun pg k => match pg, k with
    | 3, 0 => 4
    | 4, 0 => 5
    | 4, 1 => 6
    | 5, _ => 77
    | _, _ => 88⟩, fun _ _ => 0⟩
  swapmap := []
  u := ⟨0, 0, 2, 1, 1, RO⟩
  p_addr := 2
  p_map := 3
  p_size := 3

theorem twoPages_whole : Whole 64 twoPages where
  size := rfl
  distinct := by
    change List.Nodup [2, 3, 4, 5, 6, 10, 11, 12]
    decide
  fits := by decide

/-- The data becomes two pages large: the first one is as it was and the second one zero, where
the stack was in the map. The stack becomes two pages large in the same way. -/
theorem resized_two_pages :
    (∃ s', twoPages.sbreak (fun _ s => s) 64 16384 = some (true, s') ∧
      Memory.Alike (s'.content 0) (fun _ => 77) ∧ Memory.Alike (s'.content 1) (fun _ => 0) ∧
      Memory.Alike (s'.content 2) fun _ => 88) ∧
    ∃ s', twoPages.grow (fun _ s => s) 64 (USRSIZE - 8000) = some (true, s') ∧
      Memory.Alike (s'.content 0) (fun _ => 77) ∧ Memory.Alike (s'.content 1) (fun _ => 0) ∧
      Memory.Alike (s'.content 2) fun _ => 88 := by
  have fair : Fair fun _ s => s := fun _ _ distinct =>
    ⟨rfl, rfl, rfl, rfl, fun _ _ => rfl, distinct, fun _ _ => rfl⟩
  constructor
  · have called : twoPages.sbreak (fun _ s => s) 64 16384 = some (true, _) := rfl
    obtain ⟨resized, -⟩ := (resized_of_calls fair twoPages_whole).1 16384 true _ called
    refine ⟨_, called, ?_, ?_, ?_⟩
    · exact resized.kept 2 0 0 (by decide) (by decide)
    · exact resized.zero 3 1 (by decide) (by decide)
    · exact resized.kept (top - 1) 1 2 (by decide) (by decide)
  · have called : twoPages.grow (fun _ s => s) 64 (USRSIZE - 8000) = some (true, _) := rfl
    obtain ⟨resized, -⟩ := (resized_of_calls fair twoPages_whole).2.1 _ true _ called
    refine ⟨_, called, ?_, ?_, ?_⟩
    · exact resized.kept 2 0 0 (by decide) (by decide)
    · exact resized.zero (top - 2) 1 (by decide) (by decide)
    · exact resized.kept (top - 1) 1 2 (by decide) (by decide)

/-! ## The address asked for -/

/-- An address that lies in the data. -/
def InData (u : Segs) (a : ℕ) : Prop := ptob u.u_pdstart ≤ a ∧ a < ptob (u.u_pdstart + u.u_dsize)

/-- A break that succeeds covers the addresses up to the one asked for, and one above the space of
the user fails. -/
structure Breaks (others : Moment → Space → Space) (maxmem : ℕ) (s : Space) (nsiz : ℕ) : Prop where
  covers : ∀ s', s.sbreak others maxmem nsiz = some (true, s') →
    ∀ a, ptob s.u.u_pdstart ≤ a → a < nsiz → InData s'.u a
  fails : USRSIZE < nsiz → s.sbreak others maxmem nsiz = some (false, s)

theorem btop_of_le {nsiz : ℕ} (small : nsiz ≤ 2 ^ 32 - 4096) :
    btop nsiz = (nsiz + 4095) / 4096 := by
  rw [btop, Nat.mod_eq_of_lt (by omega), Nat.shiftRight_eq_div_pow]

/-- The last page of the address range wraps around. -/
theorem btop_of_lt {nsiz : ℕ} (large : 2 ^ 32 - 4096 < nsiz) (word : nsiz < 2 ^ 32) :
    btop nsiz = 0 := by
  rw [btop, Nat.shiftRight_eq_div_pow]
  omega

/-- Data that ends above the space of the user does not fit. -/
theorem not_fits {ts nt ds nd ns : ℕ} (above : top < ds + nd) :
    fits maxmem ts nt ds nd ns = false := by
  have large : nd > top ∨ ds > top - nd := by omega
  rcases large with large | large
  · simp [fits, large]
  · simp [fits, large]

/-- What fits fits without data. -/
theorem fits_zero {ts nt ds nd ns : ℕ} (fit : fits maxmem ts nt ds nd ns = true) :
    fits maxmem ts nt ds 0 ns = true := by
  simp only [fits, Bool.and_eq_true, Bool.not_eq_true', Bool.or_eq_false_iff,
    decide_eq_false_iff_not, Bool.not_eq_false', Nat.not_lt] at fit ⊢
  obtain ⟨⟨⟨⟨⟨⟨text, start⟩, -⟩, data⟩, stack⟩, ⟨⟨⟨⟨⟨-, tS⟩, -⟩, tR⟩, -⟩, sR⟩⟩, memory⟩ := fit
  have fewer : Core.mapneed 0 (0 + ns) ≤ Core.mapneed 0 (nd + ns) := by
    have pages : (0 + ns + NPM - 1) / NPM ≤ (nd + ns + NPM - 1) / NPM :=
      Nat.div_le_div_right (by omega)
    simp only [Core.mapneed]
    split_ifs <;> omega
  refine ⟨⟨⟨⟨⟨⟨text, start⟩, Nat.zero_le _⟩,
      Nat.le_trans data (Nat.sub_le_sub_left (Nat.zero_le _) _)⟩, stack⟩,
    ⟨⟨⟨⟨⟨?_, tS⟩, ?_⟩, tR⟩, ?_⟩, sR⟩⟩, by omega⟩
  · exact apart_iff.mpr (.inr (.inl rfl))
  · exact apart_iff.mpr (.inl rfl)
  · exact apart_iff.mpr (.inl rfl)

/-- A break to an address in the last page succeeds, and drops the data. -/
theorem sbreak_last_page (others : Moment → Space → Space) {nsiz : ℕ} (whole : Whole maxmem s)
    (zero : btop nsiz = 0) :
    ∃ s', s.sbreak others maxmem nsiz = some (true, s') ∧ s'.u.u_dsize = 0 := by
  have size := whole.size
  have clamped : (if ((0 : ℕ) : ℤ) - s.u.u_pdstart < 0 then (0 : ℤ)
      else ((0 : ℕ) : ℤ) - s.u.u_pdstart) = 0 := by
    split_ifs <;> omega
  have room : s.roomfor (0 + (USIZE + s.u.u_ssize) : ℤ).toNat 0 = true := by
    rw [roomfor, if_pos (by omega)]
  have none : ((s.u.u_dsize : ℤ) + (0 - s.u.u_dsize)).toNat = 0 := by omega
  have fit := fits_zero whole.fits
  rw [sbreak]
  simp only [zero, clamped, room, none, fit]
  rw [if_neg (by simp), if_neg (by simp), if_neg (by omega), expand, if_pos (by simp only; omega)]
  exact ⟨_, rfl, rfl⟩

/-- The break covers the address asked for, or fails above the space of the user, exactly when the
address is not in the last page of the 32-bit range. -/
theorem breaks_iff {nsiz : ℕ} (fair : Fair others) (whole : Whole maxmem s) (word : nsiz < 2 ^ 32) :
    Breaks others maxmem s nsiz ↔ nsiz ≤ 2 ^ 32 - 4096 := by
  constructor
  · intro breaks
    by_contra large
    obtain ⟨s', called, -⟩ := sbreak_last_page others whole
      (btop_of_lt (Nat.lt_of_not_le large) word)
    have failed := breaks.fails (Nat.lt_trans (by decide) (Nat.lt_of_not_le large))
    rw [called] at failed
    exact absurd (Prod.mk.inj (Option.some.inj failed)).1 (by decide)
  · intro small
    have pages := btop_of_le small
    refine ⟨fun s' called a low high => ?_, fun above => ?_⟩
    · have resized := sbreak_resized fair whole called
      rw [if_pos rfl] at resized
      rw [resized.2]
      have fit := resized.1.whole.fits
      rw [resized.2] at fit
      refine ⟨low, ?_⟩
      have below : s.u.u_pdstart + (btop nsiz - s.u.u_pdstart) ≤ top := by
        by_contra beyond
        rw [not_fits (Nat.lt_of_not_le beyond)] at fit
        cases fit
      have ptob_eq : ∀ k ≤ top, ptob k = k * 4096 := by
        intro k le
        rw [top] at le
        rw [ptob, Nat.shiftLeft_eq]
        omega
      simp only
      rw [ptob_eq _ below, pages]
      rw [ptob_eq _ (by omega)] at low
      omega
    · have beyond : top < btop nsiz := by
        rw [USRSIZE] at above
        rw [pages, top]
        omega
      rw [sbreak]
      obtain ⟨n, clamped, far⟩ : ∃ n : ℕ, (if (btop nsiz : ℤ) - s.u.u_pdstart < 0 then (0 : ℤ)
          else (btop nsiz : ℤ) - s.u.u_pdstart) = n ∧ top < s.u.u_pdstart + n :=
        ⟨btop nsiz - s.u.u_pdstart, by split_ifs <;> omega, by omega⟩
      have size : ((s.u.u_dsize : ℤ) + ((n : ℤ) - s.u.u_dsize)).toNat = n := by omega
      simp only [clamped, size, not_fits far, Bool.not_false, if_true, ite_self]

/-- A break to address 16384. -/
theorem breaks_two_pages : Breaks (fun _ s => s) 64 twoPages 16384 ↔ 16384 ≤ 2 ^ 32 - 4096 :=
  breaks_iff (fun _ _ distinct => ⟨rfl, rfl, rfl, rfl, fun _ _ => rfl, distinct, fun _ _ => rfl⟩)
    twoPages_whole (by decide)

/-- A break to the last address drops the data. -/
theorem last_address_breaks : ¬Breaks (fun _ s => s) 64 twoPages (2 ^ 32 - 1) := by
  intro breaks
  obtain ⟨s', called, -⟩ := sbreak_last_page (fun _ s => s) twoPages_whole
    (show btop (2 ^ 32 - 1) = 0 by decide)
  have failed := breaks.fails (by decide)
  rw [called] at failed
  cases failed

end Space

end UnixV7
