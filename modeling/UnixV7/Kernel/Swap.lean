import UnixV7.Kernel.Resize

/-!
# The swap area

`swap` moves consecutive pages between core and the swap area, `mapswap` the pages that a map
lists, a run of consecutive ones at a time. What has been written from the pages of one map is read
back into the pages of another, entry by entry.
-/

namespace UnixV7

open Function

/-- `ptod`: the blocks of a number of pages. -/
def ptod (n : ℕ) : ℕ := n * 8

/-- Core and the integers in the blocks of the swap area. -/
structure Memory where
  core : Core
  area : ℕ → ℕ → ℕ

namespace Memory

/-- The integers of a block. -/
def NBLK : ℕ := 128

/-- The page that begins at a block. -/
def getpage (area : ℕ → ℕ → ℕ) (blkno : ℕ) : ℕ → ℕ := fun k => area (blkno + k / NBLK) (k % NBLK)

def putpage (area : ℕ → ℕ → ℕ) (blkno : ℕ) (page : ℕ → ℕ) : ℕ → ℕ → ℕ :=
  fun b => if blkno ≤ b ∧ b < blkno + ptod 1 then fun k => page ((b - blkno) * NBLK + k) else area b

/-- One page is read from the swap area, or written to it. -/
def move (s : Memory) (read : Bool) (blkno : ℕ) (pg : ℕ) : Memory :=
  if read then
    { s with core := { s.core with page := update s.core.page pg (getpage s.area blkno) } }
  else { s with area := putpage s.area blkno (s.core.page pg) }

/-- `swap` -/
def swap (read : Bool) : ℕ → ℕ → ℕ → Memory → Memory
  | _, _, 0, s => s
  | blkno, coreaddr, count + 1, s =>
      swap read (blkno + ptod 1) (coreaddr + 1) count (s.move read blkno coreaddr)

/-- The inner loop of `mapswap`: the end of the run of consecutive pages that begins with page `pg`
at entry `i`, with entries `j` to `j + rest` to look at. -/
def runEnd (c : Core) (map : Pg) (pg i : ℕ) : ℕ → ℕ → ℕ
  | 0, j => j
  | rest + 1, j => if c.mapent map j = pg + (j - i) then runEnd c map pg i rest (j + 1) else j

/-- The outer loop of `mapswap`, which takes fewer than `steps` turns. -/
def mapswapFrom (read : Bool) (blkno : ℕ) (map : Pg) (n : ℕ) : ℕ → ℕ → Memory → Memory
  | 0, _, s => s
  | steps + 1, i, s =>
      if i < n then
        let pg := s.core.mapent map i
        let j := runEnd s.core map pg i (n - (i + 1)) (i + 1)
        mapswapFrom read blkno map n steps j (swap read (blkno + ptod i) pg (j - i) s)
      else s

/-- `mapswap` -/
def mapswap (read : Bool) (blkno : ℕ) (map : Pg) (n : ℕ) (s : Memory) : Memory :=
  mapswapFrom read blkno map n n 0 s

/-! ## One run -/

variable {s : Memory} {c : Core} {map : Pg} {pg blkno count n i j k rest t steps : ℕ}

/-- Two pages have the same integers. -/
def Alike (p q : ℕ → ℕ) : Prop := ∀ k < NPM, p k = q k

theorem getpage_putpage (area : ℕ → ℕ → ℕ) (blkno : ℕ) (page : ℕ → ℕ) :
    Alike (getpage (putpage area blkno page) blkno) page := by
  intro k below
  rw [NPM] at below
  have inside : blkno ≤ blkno + k / NBLK ∧ blkno + k / NBLK < blkno + ptod 1 := by
    rw [NBLK, ptod]
    omega
  have index : (blkno + k / NBLK - blkno) * NBLK + k % NBLK = k := by
    rw [NBLK]
    omega
  rw [getpage, putpage, if_pos inside, index]

theorem getpage_congr {area area' : ℕ → ℕ → ℕ}
    (same : ∀ b, blkno ≤ b → b < blkno + ptod 1 → area' b = area b) :
    Alike (getpage area' blkno) (getpage area blkno) := by
  intro k below
  rw [NPM] at below
  rw [getpage, getpage, same _ (Nat.le_add_right _ _) (by rw [NBLK, ptod]; omega)]

/-- Pages are written. -/
theorem swap_write (blkno pg count : ℕ) (s : Memory) :
    (swap false blkno pg count s).core = s.core ∧
    (∀ t < count, Alike (getpage (swap false blkno pg count s).area (blkno + ptod t))
      (s.core.page (pg + t))) ∧
    ∀ b, b < blkno ∨ blkno + ptod count ≤ b → (swap false blkno pg count s).area b = s.area b := by
  induction count generalizing blkno pg s with
  | zero => exact ⟨rfl, fun t none => absurd none (Nat.not_lt_zero t), fun _ _ => rfl⟩
  | succ count ih =>
      obtain ⟨core, written, frame⟩ := ih (blkno + ptod 1) (pg + 1) (s.move false blkno pg)
      have moved : (s.move false blkno pg).core = s.core := rfl
      rw [swap]
      refine ⟨core, fun t below => ?_, fun b out => ?_⟩
      · cases t with
        | zero =>
            intro k small
            have same : ∀ b, blkno ≤ b → b < blkno + ptod 1 → _ :=
              fun b _ high => frame b (.inl high)
            have kept := getpage_congr same k small
            exact kept.trans (getpage_putpage s.area blkno (s.core.page pg) k small)
        | succ t =>
            have there := written t (by omega)
            rw [moved] at there
            rw [show blkno + ptod (t + 1) = blkno + ptod 1 + ptod t by simp only [ptod]; omega,
              show pg + (t + 1) = pg + 1 + t by omega]
            exact there
      · simp only [ptod] at out
        rw [frame b (by simp only [ptod]; omega)]
        exact if_neg (by simp only [ptod]; omega)

/-- Pages are read. -/
theorem swap_read (blkno pg count : ℕ) (s : Memory) :
    (swap true blkno pg count s).area = s.area ∧
    (swap true blkno pg count s).core.pgstk = s.core.pgstk ∧
    (∀ t < count, (swap true blkno pg count s).core.page (pg + t) =
      getpage s.area (blkno + ptod t)) ∧
    ∀ q : ℕ, q < pg ∨ pg + count ≤ q →
      (swap true blkno pg count s).core.page q = s.core.page q := by
  induction count generalizing blkno pg s with
  | zero => exact ⟨rfl, rfl, fun t none => absurd none (Nat.not_lt_zero t), fun _ _ => rfl⟩
  | succ count ih =>
      obtain ⟨area, pgstk, done, frame⟩ := ih (blkno + ptod 1) (pg + 1) (s.move true blkno pg)
      have moved : (s.move true blkno pg).core.page =
          update s.core.page pg (getpage s.area blkno) :=
        rfl
      rw [swap]
      refine ⟨area, pgstk, fun t below => ?_, fun q out => ?_⟩
      · cases t with
        | zero =>
            refine (frame pg (.inl (Nat.lt_succ_self pg))).trans ?_
            rw [moved, update_self]
            simp [ptod]
        | succ t =>
            have there := done t (by omega)
            rw [show blkno + ptod (t + 1) = blkno + ptod 1 + ptod t by simp only [ptod]; omega,
              show pg + (t + 1) = pg + 1 + t by omega]
            exact there
      · have other : q ≠ pg := by omega
        rw [frame q (by omega), moved, update_of_ne other]

/-- The end of a run lies behind its first entry, and its pages are consecutive. -/
theorem runEnd_spec (c : Core) (map : Pg) (pg i rest j : ℕ) (later : i < j)
    (so : ∀ t, i ≤ t → t < j → c.mapent map t = pg + (t - i)) :
    j ≤ runEnd c map pg i rest j ∧ runEnd c map pg i rest j ≤ j + rest ∧
      ∀ t, i ≤ t → t < runEnd c map pg i rest j → c.mapent map t = pg + (t - i) := by
  induction rest generalizing j with
  | zero => exact ⟨Nat.le_refl j, Nat.le_refl j, so⟩
  | succ rest ih =>
      rw [runEnd]
      split_ifs with next
      · obtain ⟨low, high, all⟩ := ih (j + 1) (by omega) fun t low high => by
          rcases Nat.lt_succ_iff_lt_or_eq.mp high with before | rfl
          · exact so t low before
          · exact next
        exact ⟨by omega, by omega, all⟩
      · exact ⟨Nat.le_refl j, Nat.le_add_right j _, so⟩

/-- The run from entry `i` on. -/
theorem run_spec (c : Core) (map : Pg) (inside : i < n) :
    let j := runEnd c map (c.mapent map i) i (n - (i + 1)) (i + 1)
    i < j ∧ j ≤ n ∧ ∀ t, i ≤ t → t < j → c.mapent map t = c.mapent map i + (t - i) := by
  obtain ⟨low, high, all⟩ := runEnd_spec c map (c.mapent map i) i (n - (i + 1)) (i + 1)
    (Nat.lt_succ_self i) fun t low high => by
      obtain rfl : t = i := by omega
      simp
  exact ⟨by omega, by omega, all⟩

/-! ## A map -/

/-- The pages of a map are written. -/
theorem mapswap_write (blkno : ℕ) (map : Pg) (n : ℕ) (s : Memory) :
    (mapswap false blkno map n s).core = s.core ∧
    (∀ t < n, Alike (getpage (mapswap false blkno map n s).area (blkno + ptod t))
      (s.core.page (s.core.mapent map t))) ∧
    ∀ b, b < blkno ∨ blkno + ptod n ≤ b → (mapswap false blkno map n s).area b = s.area b := by
  have loop : ∀ steps i (s : Memory), n ≤ i + steps →
      (mapswapFrom false blkno map n steps i s).core = s.core ∧
      (∀ t, i ≤ t → t < n →
        Alike (getpage (mapswapFrom false blkno map n steps i s).area (blkno + ptod t))
          (s.core.page (s.core.mapent map t))) ∧
      ∀ b, b < blkno + ptod i ∨ blkno + ptod n ≤ b →
        (mapswapFrom false blkno map n steps i s).area b = s.area b := by
    intro steps
    induction steps with
    | zero =>
        intro i s enough
        exact ⟨rfl, fun t low high => by omega, fun _ _ => rfl⟩
    | succ steps ih =>
        intro i s enough
        rw [mapswapFrom]
        split_ifs with more
        · obtain ⟨later, within, run⟩ := run_spec s.core map more
          simp only
          generalize runEnd s.core map (s.core.mapent map i) i (n - (i + 1))
            (i + 1) = j at later within run ⊢
          obtain ⟨core, written, frame⟩ := swap_write (blkno + ptod i) (s.core.mapent map i)
            (j - i) s
          obtain ⟨core', written', frame'⟩ := ih j
            (swap false (blkno + ptod i) (s.core.mapent map i) (j - i) s) (by omega)
          rw [core] at core' written'
          refine ⟨core', fun t low high => ?_, fun b out => ?_⟩
          · by_cases mine : t < j
            · intro k small
              have here := written (t - i) (by omega) k small
              rw [← run t low mine, show blkno + ptod i + ptod (t - i) = blkno + ptod t by
                simp only [ptod]; omega] at here
              rw [← here]
              refine getpage_congr (fun b _ below => frame' b (.inl ?_)) k small
              simp only [ptod] at below ⊢
              omega
            · exact written' t (Nat.le_of_not_lt mine) high
          · rw [frame' b (by simp only [ptod] at out ⊢; omega),
              frame b (by simp only [ptod] at out ⊢; omega)]
        · exact ⟨rfl, fun t low high => by omega, fun _ _ => rfl⟩
  obtain ⟨core, written, frame⟩ := loop n 0 s (by omega)
  exact ⟨core, fun t below => written t (Nat.zero_le t) below,
    fun b out => frame b (by simpa [ptod] using out)⟩

/-- The pages of a map are read; the map itself stays as it is. -/
theorem mapswap_read (distinct : (s.core.rooted map n).Nodup) (blkno : ℕ) :
    (mapswap true blkno map n s).area = s.area ∧
    (mapswap true blkno map n s).core.pgstk = s.core.pgstk ∧
    (∀ t < n, (mapswap true blkno map n s).core.page (s.core.mapent map t) =
      getpage s.area (blkno + ptod t)) ∧
    ∀ q : ℕ, (∀ t < n, q ≠ s.core.mapent map t) →
      (mapswap true blkno map n s).core.page q = s.core.page q := by
  have loop : ∀ steps i (s' : Memory), n ≤ i + steps → s'.core.page map = s.core.page map →
      (∀ pg ∈ s.core.listpages map n, s'.core.page pg = s.core.page pg) →
      (mapswapFrom true blkno map n steps i s').area = s'.area ∧
      (mapswapFrom true blkno map n steps i s').core.pgstk = s'.core.pgstk ∧
      (∀ t, i ≤ t → t < n →
        (mapswapFrom true blkno map n steps i s').core.page (s.core.mapent map t) =
          getpage s'.area (blkno + ptod t)) ∧
      ∀ q : ℕ, (∀ t, i ≤ t → t < n → q ≠ s.core.mapent map t) →
        (mapswapFrom true blkno map n steps i s').core.page q = s'.core.page q := by
    intro steps
    induction steps with
    | zero =>
        intro i s' enough _ _
        exact ⟨rfl, rfl, fun t low high => by omega, fun _ _ => rfl⟩
    | succ steps ih =>
        intro i s' enough root lists
        have same : ∀ t < n, s'.core.mapent map t = s.core.mapent map t := by
          intro t below
          have list : s'.core.listpage map t = s.core.listpage map t := by
            rw [Core.listpage, root, Core.listpage]
          rw [Core.mapent, list, lists _ (Core.listpage_mem below), Core.mapent]
        rw [mapswapFrom]
        split_ifs with more
        · obtain ⟨later, within, run⟩ := run_spec s'.core map more
          simp only
          generalize runEnd s'.core map (s'.core.mapent map i) i (n - (i + 1))
            (i + 1) = j at later within run ⊢
          obtain ⟨area, pgstk, done, frame⟩ :=
            swap_read (blkno + ptod i) (s'.core.mapent map i) (j - i) s'
          have consecutive : ∀ t, i ≤ t → t < j →
              s.core.mapent map t = s'.core.mapent map i + (t - i) := fun t low high => by
            rw [← same t (by omega)]
            exact run t low high
          have other : ∀ q : ℕ, (∀ t, i ≤ t → t < j → q ≠ s.core.mapent map t) →
              (swap true (blkno + ptod i) (s'.core.mapent map i) (j - i) s').core.page q =
                s'.core.page q := by
            intro q away
            refine frame q ?_
            by_contra inside
            refine away (i + (q - s'.core.mapent map i)) (by omega) (by omega) ?_
            rw [consecutive _ (by omega) (by omega)]
            omega
          have keeps : ∀ q : ℕ, (∀ t < n, q ≠ s.core.mapent map t) →
              (swap true (blkno + ptod i) (s'.core.mapent map i) (j - i) s').core.page q =
                s'.core.page q := fun q away => other q fun t _ high => away t (by omega)
          obtain ⟨area', pgstk', done', frame'⟩ := ih j _ (by omega)
            ((keeps map fun t below => (Core.mapent_ne distinct below).1.symm).trans root)
            fun pg mem => (keeps pg fun t below here =>
              (Core.mapent_ne distinct below).2 (here ▸ mem)).trans (lists pg mem)
          rw [area] at area' done'
          rw [pgstk] at pgstk'
          refine ⟨area', pgstk', fun t low high => ?_, fun q away => ?_⟩
          · by_cases mine : t < j
            · rw [frame' _ fun t' low' high' here => by
                have index := Core.mapent_inj distinct high high' here
                omega]
              have here := done (t - i) (by omega)
              rw [← consecutive t low mine] at here
              rw [here]
              congr 1
              simp only [ptod]
              omega
            · exact done' t (Nat.le_of_not_lt mine) high
          · rw [frame' q fun t low high => away t (by omega) high]
            exact other q fun t low high => away t low (by omega)
        · exact ⟨rfl, rfl, fun t low high => by omega, fun _ _ => rfl⟩
  obtain ⟨area, pgstk, done, frame⟩ := loop n 0 s (by omega) rfl fun _ _ => rfl
  exact ⟨area, pgstk, fun t below => done t (Nat.zero_le t) below,
    fun q away => frame q fun t _ below => away t below⟩

/-- Reading the pages of a map leaves its root and its list pages alone. -/
theorem mapswap_read_map (distinct : (s.core.rooted map n).Nodup) (blkno : ℕ) :
    (mapswap true blkno map n s).core.mappages map n = s.core.mappages map n ∧
      ∀ t < n, (mapswap true blkno map n s).core.mapent map t = s.core.mapent map t := by
  obtain ⟨-, -, -, frame⟩ := mapswap_read distinct blkno
  have root : (mapswap true blkno map n s).core.page map = s.core.page map :=
    frame map fun t below => (Core.mapent_ne distinct below).1.symm
  have lists : ∀ pg ∈ s.core.listpages map n,
      (mapswap true blkno map n s).core.page pg = s.core.page pg := by
    intro pg mem
    refine frame pg fun t below here => (Core.mapent_ne distinct below).2 ?_
    rwa [← here]
  constructor
  · rw [Core.mappages, Core.mappages, Core.rooted_congr root lists]
  · intro t below
    have list := lists _ (Core.listpage_mem below)
    rw [Core.listpage] at list
    rw [Core.mapent, Core.listpage, root, list, Core.mapent, Core.listpage]

end Memory

end UnixV7
