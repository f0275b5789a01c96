import UnixV7.Kernel.Sbreak

/-!
# Words of a process

The memory of a process by the words at its addresses. Data and stack are in the pages of its map,
and may be written; the text and the trampoline for signals may only be read. `copyout` and
`copyin` of `mch.s` move words.
-/

namespace UnixV7

open Function

/-- A word of the processor. -/
abbrev Word := BitVec 32

namespace Space

variable {s s' : Space} {maxmem a i j k n v : ℕ} {w : Word}

/-- The word with index `i`, which is at address `4 * i`, of data or stack. -/
def own (s : Space) (i : ℕ) : Option Word :=
  (place s.u (i / NPM)).map fun k => BitVec.ofNat 32 (s.content k (i % NPM))

/-- The word with index `i`; those that may only be read are `fixed`. -/
def word (fixed : ℕ → Option Word) (s : Space) (i : ℕ) : Option Word :=
  (s.own i).orElse fun _ => fixed i

/-- A store by the user, where it may write. -/
def setWord (s : Space) (i : ℕ) (w : Word) : Option Space :=
  (place s.u (i / NPM)).map fun k =>
    { s with mem := { s.mem with
      core := s.mem.core.store (s.mem.core.mapent s.p_map k) (i % NPM) w.toNat } }

/-- `fubyte`, for a byte that can be read. -/
def byte (fixed : ℕ → Option Word) (s : Space) (a : ℕ) : Option (BitVec 8) :=
  (s.word fixed (a / 4)).map fun w => w.extractLsb' (8 * (a % 4)) 8

/-- Four bytes from an address on. -/
def fetch (fixed : ℕ → Option Word) (s : Space) (a : ℕ) : Option Word :=
  if a % 4 = 0 then
    s.word fixed (a / 4)
  else do
    let b ← s.byte fixed a
    let c ← s.byte fixed (a + 1)
    let d ← s.byte fixed (a + 2)
    let e ← s.byte fixed (a + 3)
    some (e ++ d ++ c ++ b)

/-- `copyout` of `n` words to an address that is a multiple of 4, which stops at the first it cannot
store. -/
def copyout : ℕ → (ℕ → Word) → ℕ → Space → Bool × Space
  | 0, _, _, s => (true, s)
  | n + 1, src, a, s =>
      match s.setWord (a / 4) (src 0) with
      | none => (false, s)
      | some s => copyout n (fun i => src (i + 1)) (a + 4) s

/-- `copyin` of `n` words into `dst` from number `i` on, which stops at the first it cannot read. -/
def copyin (fixed : ℕ → Option Word) (s : Space) : ℕ → ℕ → ℕ → (ℕ → Word) → Bool × (ℕ → Word)
  | 0, _, _, dst => (true, dst)
  | n + 1, a, i, dst =>
      match s.fetch fixed a with
      | none => (false, dst)
      | some w => copyin fixed s n (a + 4) (i + 1) (update dst i w)

/-! ## Places -/

theorem place_lt {u : Ureg.Segs} (here : place u v = some k) : k < u.u_dsize + u.u_ssize := by
  rw [place] at here
  split_ifs at here with data stack
  · obtain rfl := Option.some.inj here
    omega
  · obtain rfl := Option.some.inj here
    omega

theorem place_inj {u : Ureg.Segs} {v' : ℕ} (here : place u v = some k)
    (here' : place u v' = some k) : v = v' := by
  rw [place] at here here'
  split_ifs at here here' <;> simp only [Option.some.injEq] at here here' <;> omega

/-- An address of data or stack stays one when the stack grows. -/
theorem place_grown {u : Ureg.Segs} (si pxrw : ℕ) (here : place u v = some k) :
    ∃ k', place { u with u_ssize := u.u_ssize + si, u_pxrw := pxrw } v = some k' := by
  rw [place] at here ⊢
  dsimp only
  split_ifs at here with data stack
  · exact ⟨_, if_pos data⟩
  · rw [if_neg data, if_pos ⟨by omega, stack.2⟩]
    exact ⟨_, rfl⟩

/-! ## Stores -/

/-- A store changes its word and no other. -/
theorem setWord_spec (whole : Whole maxmem s) (set : s.setWord i w = some s') :
    Whole maxmem s' ∧ s'.u = s.u ∧ ∀ j, s'.own j = if j = i then some w else s.own j := by
  obtain ⟨k, here, rfl⟩ := Option.map_eq_some_iff.mp set
  have below := place_lt here
  have distinct := whole.distinct.rooted (Nat.ne_zero_of_lt below)
  obtain ⟨root, list⟩ := Core.mapent_ne distinct below
  have rootKept : (s.mem.core.store (s.mem.core.mapent s.p_map k) (i % NPM) w.toNat).page s.p_map =
      s.mem.core.page s.p_map := update_of_ne root.symm _ _
  have listsKept : ∀ pg ∈ s.mem.core.listpages s.p_map (s.u.u_dsize + s.u.u_ssize),
      (s.mem.core.store (s.mem.core.mapent s.p_map k) (i % NPM) w.toNat).page pg =
        s.mem.core.page pg := by
    intro pg mem
    refine update_of_ne ?_ _ _
    rintro rfl
    exact list mem
  have entry : ∀ k' < s.u.u_dsize + s.u.u_ssize,
      (s.mem.core.store (s.mem.core.mapent s.p_map k) (i % NPM) w.toNat).mapent s.p_map k' =
        s.mem.core.mapent s.p_map k' := by
    intro k' below'
    have page := listsKept _ (Core.listpage_mem below')
    rw [Core.listpage] at page
    rw [Core.mapent, Core.listpage, rootKept, page, Core.mapent, Core.listpage]
  have rooted := Core.rooted_congr rootKept listsKept
  refine ⟨⟨whole.size, ?_, whole.fits⟩, rfl, fun j => ?_⟩
  · have before := whole.distinct
    have some := Nat.ne_zero_of_lt below
    rw [Distinct, holding, Holding.all, Core.mappages_of_ne some] at before ⊢
    dsimp only
    rw [rooted]
    exact before
  · simp only [own, content]
    cases there : place s.u (j / NPM) with
    | none =>
        rw [if_neg]
        · rfl
        · rintro rfl
          rw [here] at there
          cases there
    | some k' =>
        have below' := place_lt there
        simp only [Option.map_some]
        rw [entry k' below']
        by_cases same : k' = k
        · subst same
          have page := place_inj here there
          rw [Core.store]
          dsimp only
          rw [update_self]
          by_cases word : j = i
          · subst word
            rw [if_pos rfl, update_self, BitVec.ofNat_toNat, BitVec.setWidth_eq]
          · rw [if_neg word, update_of_ne]
            have left := Nat.div_add_mod j NPM
            have right := Nat.div_add_mod i NPM
            rw [← page] at left
            omega
        · have other : s.mem.core.mapent s.p_map k' ≠ s.mem.core.mapent s.p_map k := fun eq =>
            same (Core.mapent_inj distinct below' below eq)
          rw [Core.store]
          dsimp only
          rw [update_of_ne other, if_neg]
          rintro rfl
          rw [here] at there
          exact same (Option.some.inj there).symm

/-- `copyout` changes the words it names and no others. -/
theorem copyout_spec {src : ℕ → Word} (whole : Whole maxmem s)
    (copied : copyout n src a s = (true, s')) :
    Whole maxmem s' ∧ s'.u = s.u ∧ ∀ j, s'.own j =
      if a / 4 ≤ j ∧ j < a / 4 + n then some (src (j - a / 4)) else s.own j := by
  induction n generalizing src a s with
  | zero =>
      obtain ⟨-, rfl⟩ := Prod.mk.inj copied
      refine ⟨whole, rfl, fun j => ?_⟩
      rw [if_neg (by omega)]
  | succ n ih =>
      rw [copyout] at copied
      split at copied
      next => cases copied
      next s₁ set =>
        obtain ⟨whole₁, u₁, own₁⟩ := setWord_spec whole set
        obtain ⟨whole₂, u₂, own₂⟩ := ih whole₁ copied
        refine ⟨whole₂, u₂.trans u₁, fun j => ?_⟩
        rw [own₂, own₁]
        by_cases first : j = a / 4
        · rw [if_neg (by omega), if_pos first, if_pos (by omega), first, Nat.sub_self]
        · by_cases inside : a / 4 ≤ j ∧ j < a / 4 + (n + 1)
          · rw [if_pos inside, if_pos (by omega)]
            congr 2
            omega
          · rw [if_neg inside, if_neg (by omega), if_neg first]

/-- `copyout` succeeds where the process has data or stack. -/
theorem copyout_true (src : ℕ → Word)
    (mapped : ∀ i < n, place s.u ((a / 4 + i) / NPM) ≠ none) :
    ∃ s', copyout n src a s = (true, s') := by
  induction n generalizing src a s with
  | zero => exact ⟨s, rfl⟩
  | succ n ih =>
      obtain ⟨k, here⟩ := Option.ne_none_iff_exists'.mp (mapped 0 (Nat.succ_pos n))
      rw [Nat.add_zero] at here
      simp only [copyout, setWord, here, Option.map_some]
      apply ih
      intro i less
      have next := mapped (i + 1) (Nat.succ_lt_succ less)
      rwa [show (a + 4) / 4 + i = a / 4 + (i + 1) by omega]

/-- `copyin` of words of data or stack. -/
theorem copyin_own (fixed : ℕ → Option Word) (src : ℕ → Word) (dst : ℕ → Word) (aligned : a % 4 = 0)
    (held : ∀ k < n, s.own (a / 4 + k) = some (src k)) :
    ∃ dst', s.copyin fixed n a i dst = (true, dst') ∧ (∀ k < n, dst' (i + k) = src k) ∧
      ∀ k < i, dst' k = dst k := by
  induction n generalizing src a i dst with
  | zero =>
      refine ⟨dst, rfl, ?_, fun _ _ => rfl⟩
      intro k less
      omega
  | succ n ih =>
      have first := held 0 (Nat.succ_pos n)
      rw [Nat.add_zero] at first
      have fetched : s.fetch fixed a = some (src 0) := by
        rw [fetch, if_pos aligned, word, first, Option.orElse_some]
      have rest : ∀ k < n, s.own ((a + 4) / 4 + k) = some (src (k + 1)) := by
        intro k less
        rw [show (a + 4) / 4 + k = a / 4 + (k + 1) by omega]
        exact held (k + 1) (Nat.succ_lt_succ less)
      obtain ⟨dst', copied, words, before⟩ :=
        ih (a := a + 4) (i := i + 1) (fun k => src (k + 1)) (update dst i (src 0)) (by omega) rest
      refine ⟨dst', ?_, ?_, ?_⟩
      · rw [copyin, fetched]
        exact copied
      · intro k less
        cases k with
        | zero => rw [Nat.add_zero, before i (Nat.lt_succ_self i), update_self]
        | succ k =>
            have word := words k (Nat.lt_of_succ_lt_succ less)
            rwa [Nat.add_assoc, Nat.add_comm 1] at word
      · intro k less
        rw [before k (by omega), update_of_ne (by omega)]

/-- The words of a process stay when its stack grows. -/
theorem grow_own {others : Moment → Space → Space} {sp : ℕ} {ok : Bool} (fair : Fair others)
    (whole : Whole maxmem s) (called : s.grow others maxmem sp = some (ok, s'))
    (word : s.own i = some w) : s'.own i = some w := by
  have resized := grow_resized fair whole called
  cases ok with
  | false =>
      rw [if_neg Bool.false_ne_true] at resized
      rwa [resized]
  | true =>
      obtain ⟨resized, si, -, -, u⟩ := resized
      obtain ⟨k, here, same⟩ := Option.map_eq_some_iff.mp word
      obtain ⟨k', there⟩ := place_grown si Ureg.RO here
      rw [← u] at there
      rw [own, there, Option.map_some]
      have alike := resized.kept (i / NPM) k k' here there (i % NPM) (Nat.mod_lt _ (by decide))
      rw [alike, same]

theorem grow_whole {others : Moment → Space → Space} {sp : ℕ} {ok : Bool} (fair : Fair others)
    (whole : Whole maxmem s) (called : s.grow others maxmem sp = some (ok, s')) :
    Whole maxmem s' := by
  have resized := grow_resized fair whole called
  cases ok with
  | false =>
      rw [if_neg Bool.false_ne_true] at resized
      rwa [resized]
  | true => exact resized.1.whole

end Space

end UnixV7
