import Mathlib.Algebra.GroupWithZero.Nat
import UnixV7.Kernel.BlockMap
import UnixV7.Library.Walk

/-!
# Truncation

`itrunc` and `tloop` (`iget.c`) with `free` (`alloc.c`), as one process runs them over the block
buffers. Every call of `free` is noted. A tree of indirect blocks is taken down from the last
address to the first, children before parents.
-/

namespace UnixV7

open Function

/-- What `free` writes to a block: `df_nfree` and `df_free` of `struct fblk`. -/
def Bytes.setFblk (m : Bytes) (fp : Filsys) : Bytes := fun a =>
  if a / 4 = 0 then UInt8.ofNat (fp.s_nfree / 256 ^ (a % 4))
  else if a / 4 ≤ NICFREE then UInt8.ofNat (fp.s_free (a / 4 - 1) / 256 ^ (a % 4))
  else m a

namespace Sys

/-- `bwrite` with the `geterror` of `iowait`. -/
def bwrite (s : Sys) (bp : BufId) : Sys :=
  ({ s with cache := s.cache.write bp }.geterror bp).brelse bp

/-- The part of `free` that writes the numbers of the superblock to the block `bno`. Nobody sees
the lock, which is held meanwhile. -/
def spill (s : Sys) (dev : Dev) (bno : Daddr) : Option Sys := do
  let (bp, c) ← s.cache.getblk dev bno
  let c := c.modify bp fun b => { b with b_addr := b.b_addr.setFblk s.fp }
  some ({ s with cache := c, fp := { s.fp with s_nfree := 0, s_flock := 0 } }.bwrite bp)

/-- `free`. It sleeps for ever if the list is locked, as nobody else runs. -/
def free (dev : Dev) (bno : Daddr) (s : Sys) : Option Sys :=
  let s := { s with fp := { s.fp.getfs with s_fmod := 1 } }
  if s.fp.s_flock ≠ 0 then
    none
  else if s.fp.badblock bno then
    some s
  else do
    let s :=
      if s.fp.s_nfree = 0 then
        { s with fp := { s.fp with s_nfree := 1, s_free := update s.fp.s_free 0 0 } }
      else
        s
    let s ← if NICFREE ≤ s.fp.s_nfree then s.spill dev bno else some s
    some { s with fp := s.fp.push bno }

/-- A call of `free`, noted behind those so far. -/
def call (dev : Dev) (bno : Daddr) : Sys × List Daddr → Option (Sys × List Daddr)
  | (s, freed) => (s.free dev bno).map fun s => (s, freed ++ [bno])

/-- The buffer of the indirect block `bn`, which is read again if it is not held; nothing if the
block cannot be read. -/
def hold (dev : Dev) (bn : Daddr) : Option BufId → Sys → Option (Option BufId × Sys)
  | some bp, s => some (some bp, s)
  | none, s => do
      let (bp, s) ← s.bread dev bn
      if (s.cache.buf bp).b_error then some (none, s.brelse bp) else some (some bp, s)

/-- The loop of `tloop` over `k` addresses, the last one first, with the buffer that is held at
the end. Nothing is returned in its place if the block cannot be read. -/
def tloopFrom (dev : Dev) (bn : Daddr) (f1 : Bool)
    (each : Daddr → Sys × List Daddr → Option (Sys × List Daddr)) :
    ℕ → Option BufId → Sys × List Daddr → Option (Option (Option BufId) × Sys × List Daddr)
  | 0, bp, (s, freed) => some (some bp, s, freed)
  | i + 1, bp, (s, freed) => do
      let (held, s) ← hold dev bn bp s
      match held with
      | none => some (none, s, freed)
      | some bp =>
          let nb := (s.cache.buf bp).b_addr.word i
          if nb = 0 then
            tloopFrom dev bn f1 each i (some bp) (s, freed)
          else if f1 then do
            let (s, freed) ← each nb (s.brelse bp, freed)
            tloopFrom dev bn f1 each i none (s, freed)
          else do
            let (s, freed) ← each nb (s, freed)
            tloopFrom dev bn f1 each i (some bp) (s, freed)

/-- The end of `tloop`, unless the block could not be read. -/
def tloopEnd (dev : Dev) (bn : Daddr) : Option (Option BufId) × Sys × List Daddr →
    Option (Sys × List Daddr)
  | (none, s, freed) => some (s, freed)
  | (some none, s, freed) => call dev bn (s, freed)
  | (some (some bp), s, freed) => call dev bn (s.brelse bp, freed)

/-- `tloop`, with as many of the flags `f1` and `f2` set as `levels` says. -/
def tloop (dev : Dev) : ℕ → Daddr → Sys × List Daddr → Option (Sys × List Daddr)
  | 0, bn, t => (tloopFrom dev bn false (call dev) NINDIR none t).bind (tloopEnd dev bn)
  | levels + 1, bn, t =>
      (tloopFrom dev bn true (tloop dev levels) NINDIR none t).bind (tloopEnd dev bn)

/-- The `switch` of `itrunc`. -/
def freeFrom (dev : Dev) (i : ℕ) (bn : Daddr) (t : Sys × List Daddr) :
    Option (Sys × List Daddr) :=
  if i < NADDR - 3 then call dev bn t else tloop dev (i - (NADDR - 3)) bn t

/-- The loop of `itrunc`, the last address first. -/
def itruncFrom (dev : Dev) : ℕ → Sys × List Daddr → Option (Sys × List Daddr)
  | 0, t => some t
  | i + 1, (s, freed) =>
      let bn := s.ip.i_addr i
      if bn = 0 then
        itruncFrom dev i (s, freed)
      else
        let s := { s with ip := { s.ip with i_addr := update s.ip.i_addr i 0 } }
        (freeFrom dev i bn (s, freed)).bind (itruncFrom dev i)

/-- `itrunc`, with the blocks that `free` was called for, in order. -/
def itrunc (s : Sys) : Option (Sys × List Daddr) :=
  let i := s.ip.i_mode &&& IFMT
  if i ≠ IFREG ∧ i ≠ IFDIR then
    some (s, [])
  else
    (itruncFrom s.ip.i_dev NADDR (s, [])).map fun (s, freed) =>
      ({ s with ip := { s.ip with i_size := 0, i_flag := s.ip.i_flag ||| (ICHG ||| IUPD) } }, freed)

end Sys

/-! ## free -/

namespace Cache

variable {c : Cache} {held : List BufId} {bp : BufId} {dev : Dev} {change : Buf → Buf}

/-- A buffer is written with other contents, and put back. -/
theorem Good.bwrite (good : c.Good (bp :: held)) (change : Buf → Buf) (inside : bp < NBUF)
    (fresh : bp ∉ held)
    (here : (c.buf bp).b_dev = some dev) (devs : (change (c.buf bp)).b_dev = (c.buf bp).b_dev)
    (blknos : (change (c.buf bp)).b_blkno = (c.buf bp).b_blkno)
    (errorless : (change (c.buf bp)).b_error = false)
    (resid : (change (c.buf bp)).b_resid = 0) :
    (((c.modify bp change).write bp).brelse bp).Good held ∧
      (((c.modify bp change).write bp).brelse bp).view = fun d n =>
        if d = dev ∧ n = (c.buf bp).b_blkno then (change (c.buf bp)).b_addr else c.view d n := by
  obtain ⟨good', view⟩ := good.bdwrite change inside fresh here devs blknos errorless resid
  have dirty : (((c.modify bp change).bdwrite bp).buf bp).b_delwri = true := by
    simp [Cache.bdwrite, Cache.brelse]
  have named : (((c.modify bp change).bdwrite bp).buf bp).b_dev = some dev := by
    simp [Cache.bdwrite, Cache.brelse, errorless, devs, here]
  have whole : ((c.modify bp change).write bp).brelse bp =
      ((c.modify bp change).bdwrite bp).flushed bp dev := by
    have reliable := good.reliable
    apply Cache.ext
    · funext i
      by_cases same : i = bp
      · subst same
        ext <;> simp [Cache.write, Cache.brelse, Cache.bdwrite, Cache.flushed, devs, here, reliable,
          errorless, resid]
      · simp [Cache.brelse, Cache.bdwrite, Cache.flushed, modify_of_ne same, write_of_ne same]
    all_goals simp [Cache.write, Cache.brelse, Cache.bdwrite, Cache.flushed, devs, here, reliable]
  rw [whole]
  exact ⟨good'.flush inside named, (good'.view_flush inside dirty named).trans view⟩

end Cache

namespace Sys

variable {s s' s₀ : Sys} {held : List BufId} {b : Daddr} {bp : BufId} {gone freed : List Daddr}
  {n : Node} {l k : ℕ}

/-- Some blocks of the device have been freed: the others are as they were. -/
structure Freed (gone : List Daddr) (s s' : Sys) : Prop where
  view : ∀ d a, d ≠ s.ip.i_dev ∨ a ∉ gone → s'.cache.view d a = s.cache.view d a
  ip : s'.ip = s.ip
  u : s'.u = s.u
  unlocked : s'.fp.s_flock = 0

theorem Freed.refl (unlocked : s.fp.s_flock = 0) :
    Freed [] s s := ⟨fun _ _ _ => rfl, rfl, rfl, unlocked⟩

theorem Freed.trans {s'' : Sys} {gone' : List Daddr} (first : Freed gone s s')
    (second : Freed gone' s' s'') : Freed (gone ++ gone') s s'' where
  view d a out := by
    rw [second.view d a
      (first.ip ▸ out.imp_right fun away mem => away (List.mem_append_right _ mem)),
      first.view d a (out.imp_right fun away mem => away (List.mem_append_left _ mem))]
  ip := second.ip.trans first.ip
  u := second.u.trans first.u
  unlocked := second.unlocked

theorem bwrite_eq (quiet : ((s.cache.write bp).buf bp).b_error = false) :
    s.bwrite bp = { s with cache := (s.cache.write bp).brelse bp } := by
  rw [bwrite, geterror, if_neg (by rw [quiet]; decide)]
  rfl

/-- The numbers in the superblock are written to the block that is freed. -/
theorem spill_spec (good : s.cache.Good held) (few : held.length < NBUF)
    (apart : s.cache.Apart held (some (s.ip.i_dev, b))) :
    ∃ s', s.spill s.ip.i_dev b = some s' ∧ s'.cache.Good held ∧ Freed [b] s s' ∧
      ∀ i ∈ held, s'.cache.buf i = s.cache.buf i := by
  obtain ⟨bp, c, taken, handed⟩ := good.take _ few apart
  have here : (c.buf bp).b_dev = some s.ip.i_dev := handed.b_dev
  have also : (c.buf bp).b_blkno = b := handed.b_blkno _ rfl
  have errorless := handed.good.errorless bp handed.inside
  obtain ⟨good', view⟩ := handed.good.bwrite (fun b => { b with b_addr := b.b_addr.setFblk s.fp })
    handed.inside handed.fresh here rfl rfl errorless (handed.good.resid bp handed.inside)
  have quiet : (((c.modify bp fun b => { b with b_addr := b.b_addr.setFblk s.fp }).write bp).buf
      bp).b_error = false := by
    simp [Cache.write, here, handed.good.reliable]
  let c' := (c.modify bp fun b => { b with b_addr := b.b_addr.setFblk s.fp }).write bp
  refine ⟨{ s with cache := c'.brelse bp, fp := { s.fp with s_nfree := 0, s_flock := 0 } }, ?_,
    good', ⟨fun d a out => ?_, rfl, rfl, rfl⟩, fun i mem => ?_⟩
  · rw [spill, Cache.getblk, taken, Option.bind_eq_bind, Option.bind_some]
    exact congrArg some (bwrite_eq quiet)
  · rw [show (c'.brelse bp).view = _ from view, also]
    refine (if_neg ?_).trans (by rw [handed.view])
    exact fun both => out.elim (fun no => no both.1) fun no => no (List.mem_singleton.mpr both.2)
  · have other : i ≠ bp := by
      rintro rfl
      exact handed.fresh mem
    rw [Cache.brelse, Cache.modify_of_ne other, show c'.buf i = _ from Cache.write_of_ne other,
      Cache.modify_of_ne other, handed.kept i mem]

/-- `free` returns, and no block but the one that is freed has changed. -/
theorem free_spec (good : s.cache.Good held) (few : held.length < NBUF)
    (apart : s.cache.Apart held (some (s.ip.i_dev, b))) (unlocked : s.fp.s_flock = 0) :
    ∃ s', s.free s.ip.i_dev b = some s' ∧ s'.cache.Good held ∧ Freed [b] s s' ∧
      ∀ i ∈ held, s'.cache.buf i = s.cache.buf i := by
  have getfs : s.fp.getfs.s_flock = 0 := by
    rw [Filsys.getfs]
    split
    · exact unlocked
    · exact unlocked
  have still : ∀ fp : Filsys, fp.s_flock = 0 → Freed [b] s { s with fp := fp } :=
    fun fp open' => ⟨fun _ _ _ => rfl, rfl, rfl, open'⟩
  have pushed : ∀ s₁ : Sys, s₁.cache.Good held → Freed [b] s s₁ →
      (∀ i ∈ held, s₁.cache.buf i = s.cache.buf i) →
      ∃ s', some { s₁ with fp := s₁.fp.push b } = some s' ∧ s'.cache.Good held ∧ Freed [b] s s' ∧
        ∀ i ∈ held, s'.cache.buf i = s.cache.buf i :=
    fun s₁ good freed kept =>
      ⟨_, rfl, good, ⟨freed.view, freed.ip, freed.u, freed.unlocked⟩, kept⟩
  simp only [free]
  rw [if_neg (by simp [getfs])]
  split
  · exact ⟨_, rfl, good, still _ getfs, fun _ _ => rfl⟩
  · generalize start : (if _ = 0 then _ else _ : Sys) = s₁
    have same : s₁.cache = s.cache ∧ s₁.ip = s.ip ∧ s₁.u = s.u ∧ s₁.fp.s_flock = 0 := by
      rw [← start]
      split
      · exact ⟨rfl, rfl, rfl, getfs⟩
      · exact ⟨rfl, rfl, rfl, getfs⟩
    obtain ⟨cache, ip, u, open'⟩ := same
    have freed₁ : Freed [b] s s₁ := ⟨fun d a _ => by rw [cache], ip, u, open'⟩
    split
    · obtain ⟨s₂, spilled, good₂, freed₂, kept⟩ := spill_spec (s := s₁) (b := b) (cache ▸ good) few
        (by rw [cache, ip]; exact apart)
      rw [ip] at spilled
      simp only [spilled, Option.bind_eq_bind, Option.bind_some]
      refine pushed s₂ good₂ ⟨fun d a out => ?_, freed₂.ip.trans ip, freed₂.u.trans u,
        freed₂.unlocked⟩ fun i mem => (kept i mem).trans (by rw [cache])
      rw [freed₂.view d a (by rwa [ip]), cache]
    · simp only [Option.bind_eq_bind, Option.bind_some]
      exact pushed s₁ (cache ▸ good) freed₁ fun i _ => by rw [cache]

/-! ## tloop -/

/-- The blocks of some nodes of a file. -/
def blocks (s : Sys) (nodes : List Node) : List Daddr := nodes.map s.tree.addr

/-- The blocks of some nodes are as they were in the beginning. -/
structure Shows (s₀ s : Sys) (nodes : List Node) : Prop where
  dev : s.ip.i_dev = s₀.ip.i_dev
  view : ∀ b ∈ s₀.blocks nodes, s.cache.view s₀.ip.i_dev b = s₀.cache.view s₀.ip.i_dev b

/-- No more than the buffer of the indirect block is held. -/
def Holding (s : Sys) (a : Daddr) : Option BufId → Prop
  | none => s.cache.Good []
  | some bp => s.cache.Good [bp] ∧ s.InHand bp a

/-- What is called for the address of a node frees the blocks of the tree from there on. Unless
`f1` is set a buffer may be held meanwhile. -/
def Takes (s₀ : Sys) (f1 : Bool)
    (each : Daddr → Sys × List Daddr → Option (Sys × List Daddr)) (l : ℕ) : Prop :=
  ∀ held s freed n, (f1 = true → held = []) → held.length ≤ 1 → s.cache.Good held →
    s.fp.s_flock = 0 → s₀.tree.addr n ≠ 0 → Shows s₀ s (s₀.tree.walk NINDIR l n) →
    (s₀.blocks (s₀.tree.walk NINDIR l n)).Nodup →
    (∀ b ∈ s₀.blocks (s₀.tree.walk NINDIR l n), s.cache.Apart held (some (s₀.ip.i_dev, b))) →
    ∃ s', each (s₀.tree.addr n) (s, freed) =
        some (s', freed ++ s₀.blocks (s₀.tree.walk NINDIR l n)) ∧
      s'.cache.Good held ∧ Freed (s₀.blocks (s₀.tree.walk NINDIR l n)) s s' ∧
      ∀ i ∈ held, s'.cache.buf i = s.cache.buf i

theorem takes_call (s₀ : Sys) (f1 : Bool) : Takes s₀ f1 (call s₀.ip.i_dev) 0 := by
  intro held s freed n _ few good unlocked there shows nodup apart
  obtain ⟨s', ran, good', freed', kept⟩ := free_spec (b := s₀.tree.addr n) good
    (Nat.lt_of_le_of_lt few (by decide)) (shows.dev ▸ apart _ (List.mem_singleton_self _)) unlocked
  rw [shows.dev] at ran
  refine ⟨s', ?_, good', freed', kept⟩
  rw [call, ran]
  rfl

theorem Shows.keep {nodes : List Node} (shows : Shows s₀ s nodes) (freed : Freed gone s s')
    (away : ∀ b ∈ s₀.blocks nodes, b ∉ gone) : Shows s₀ s' nodes where
  dev := by rw [freed.ip, shows.dev]
  view b mem := by rw [freed.view _ _ (.inr (away b mem)), shows.view b mem]

theorem Shows.mono {nodes more : List Node} (shows : Shows s₀ s more)
    (subset : ∀ n ∈ nodes, n ∈ more) : Shows s₀ s nodes where
  dev := shows.dev
  view b mem := by
    obtain ⟨n, inside, rfl⟩ := List.mem_map.mp mem
    exact shows.view _ (List.mem_map_of_mem (subset n inside))

/-- The indirect block is read, unless its buffer is held. -/
theorem hold_spec {a : Daddr} {bp : Option BufId} (holding : s.Holding a bp)
    (unlocked : s.fp.s_flock = 0) :
    ∃ p s', hold s.ip.i_dev a bp s = some (some p, s') ∧ s'.Holding a (some p) ∧
      Freed [] s s' := by
  cases bp with
  | some p => exact ⟨p, s, rfl, holding, .refl unlocked⟩
  | none =>
      have good : s.cache.Good [] := holding
      obtain ⟨p, c, read, handed, -, data⟩ :=
        good.bread s.ip.i_dev a (by decide) (by simp [Cache.Apart])
      have errorless := handed.good.errorless p handed.inside
      refine ⟨p, { s with cache := c }, ?_, ⟨handed.good, handed.inside, handed.b_dev,
        handed.b_blkno _ rfl, ?_⟩, ⟨fun d a _ => ?_, rfl, rfl, unlocked⟩⟩
      · simp [hold, bread, read, geterror, errorless]
      · rw [data, handed.view]
      · rw [handed.view]

theorem Holding.brelse {a : Daddr} (holding : s.Holding a (some bp)) (unlocked : s.fp.s_flock = 0) :
    (s.brelse bp).Holding a none ∧ Freed [] s (s.brelse bp) := by
  obtain ⟨good, view⟩ := holding.1.brelse holding.2.inside (by simp)
  exact ⟨good, fun d a _ => congrFun (congrFun view d) a, rfl, rfl, unlocked⟩

/-- The loop over the addresses in a block frees the trees behind them. -/
theorem tloopFrom_spec {f1 : Bool} {each : Daddr → Sys × List Daddr → Option (Sys × List Daddr)}
    (bp : Option BufId) (freed : List Daddr) (takes : Takes s₀ f1 each l)
    (there : s₀.tree.addr n ≠ 0)
    (holding : s.Holding (s₀.tree.addr n) bp) (unlocked : s.fp.s_flock = 0)
    (shows : Shows s₀ s (s₀.tree.children (s₀.tree.walk NINDIR l) n k ++ [n]))
    (nodup : (s₀.blocks (s₀.tree.children (s₀.tree.walk NINDIR l) n k ++ [n])).Nodup) :
    ∃ bp' s', tloopFrom s₀.ip.i_dev (s₀.tree.addr n) f1 each k bp (s, freed) =
        some (some bp', s',
          freed ++ s₀.blocks (s₀.tree.children (s₀.tree.walk NINDIR l) n k)) ∧
      s'.Holding (s₀.tree.addr n) bp' ∧
      Freed (s₀.blocks (s₀.tree.children (s₀.tree.walk NINDIR l) n k)) s s' := by
  induction k generalizing s freed bp with
  | zero => exact ⟨bp, s, by rw [tloopFrom]; simp [Radix.children, blocks], holding, .refl unlocked⟩
  | succ i ih =>
      obtain ⟨p, s₁, held, holding₁, freed₁⟩ := hold_spec holding unlocked
      rw [shows.dev] at held
      have shows₁ := shows.keep freed₁ fun _ _ => List.not_mem_nil
      have word : (s₁.cache.buf p).b_addr.word i = s₀.tree.addr (n.1, i :: n.2) := by
        rw [Radix.addr_cons_of_ne (p := n.2) there, holding₁.2.data, shows₁.dev,
          shows₁.view _ (List.mem_map_of_mem (List.mem_append_right _ (List.mem_singleton_self n)))]
        rfl
      rw [tloopFrom, held]
      simp only [Option.bind_eq_bind, Option.bind_some, word]
      rw [Radix.children_succ] at shows₁ nodup ⊢
      by_cases none : s₀.tree.addr (n.1, i :: n.2) = 0
      · rw [if_pos none, List.nil_append] at shows₁ nodup
        rw [if_pos none, if_pos none, List.nil_append]
        obtain ⟨bp', s', ran, holding', freed'⟩ :=
          ih (some p) freed holding₁ freed₁.unlocked shows₁ nodup
        exact ⟨bp', s', ran, holding', freed₁.trans freed'⟩
      · rw [if_neg none, List.append_assoc] at shows₁ nodup
        rw [if_neg none, if_neg none]
        have here : ∀ m ∈ s₀.tree.walk NINDIR l (n.1, i :: n.2), m ∈
            s₀.tree.walk NINDIR l (n.1, i :: n.2) ++
              (s₀.tree.children (s₀.tree.walk NINDIR l) n i ++ [n]) :=
          fun m mem => List.mem_append_left _ mem
        have later : ∀ m ∈ s₀.tree.children (s₀.tree.walk NINDIR l) n i ++ [n], m ∈
            s₀.tree.walk NINDIR l (n.1, i :: n.2) ++
              (s₀.tree.children (s₀.tree.walk NINDIR l) n i ++ [n]) :=
          fun m mem => List.mem_append_right _ mem
        rw [blocks, List.map_append] at nodup
        obtain ⟨mine, rest, apart⟩ := List.nodup_append.mp nodup
        have away : ∀ b ∈ s₀.blocks (s₀.tree.children (s₀.tree.walk NINDIR l) n i ++ [n]),
            b ∉ s₀.blocks (s₀.tree.walk NINDIR l (n.1, i :: n.2)) :=
          fun b mem gone => apart b gone b mem rfl
        have last : s₀.tree.addr n ∈
            s₀.blocks (s₀.tree.children (s₀.tree.walk NINDIR l) n i ++ [n]) :=
          List.mem_map_of_mem (List.mem_append_right _ (List.mem_singleton_self n))
        have total : ∀ freed : List Daddr, freed ++ s₀.blocks (s₀.tree.walk NINDIR l
              (n.1, i :: n.2) ++ s₀.tree.children (s₀.tree.walk NINDIR l) n i) =
            freed ++ s₀.blocks (s₀.tree.walk NINDIR l (n.1, i :: n.2)) ++
              s₀.blocks (s₀.tree.children (s₀.tree.walk NINDIR l) n i) := by
          intro freed
          rw [blocks, List.map_append, List.append_assoc]
          rfl
        cases f1 with
        | true =>
            obtain ⟨released, freed₂⟩ := holding₁.brelse freed₁.unlocked
            have shows₂ := shows₁.keep freed₂ fun _ _ => List.not_mem_nil
            obtain ⟨s₃, took, good₃, freed₃, -⟩ := takes [] (s₁.brelse p) freed (n.1, i :: n.2)
              (fun _ => rfl) (Nat.zero_le _) released freed₂.unlocked none (shows₂.mono here) mine
              (fun _ _ => by simp [Cache.Apart])
            obtain ⟨bp', s', ran, holding', freed'⟩ := ih (s := s₃) Option.none
              (freed ++ s₀.blocks (s₀.tree.walk NINDIR l (n.1, i :: n.2))) good₃
              freed₃.unlocked ((shows₂.mono later).keep freed₃ away) rest
            refine ⟨bp', s', ?_, holding', ?_⟩
            · simp only [if_true, took, Option.bind_some, ran, total]
            · rw [blocks, List.map_append]
              exact (freed₁.trans freed₂).trans (freed₃.trans freed')
        | false =>
            have held : ∀ b ∈ s₀.blocks (s₀.tree.walk NINDIR l (n.1, i :: n.2)),
                s₁.cache.Apart [p] (some (s₀.ip.i_dev, b)) := by
              intro b mem j hand d a same named
              obtain rfl := List.mem_singleton.mp hand
              obtain ⟨rfl, rfl⟩ := Prod.mk.inj (Option.some.inj same)
              exact away _ last (holding₁.2.blkno.symm.trans named.2 ▸ mem)
            obtain ⟨s₃, took, good₃, freed₃, kept⟩ := takes [p] s₁ freed (n.1, i :: n.2)
              (fun set => by cases set) (Nat.le_refl _) holding₁.1 freed₁.unlocked none
              (shows₁.mono here) mine held
            have kept := kept p (List.mem_singleton_self p)
            have hand : s₃.InHand p (s₀.tree.addr n) :=
              { inside := holding₁.2.inside
                dev := by rw [kept, holding₁.2.dev, freed₃.ip]
                blkno := by rw [kept, holding₁.2.blkno]
                data := by
                  rw [kept, holding₁.2.data, freed₃.ip, freed₃.view _ _ (.inr (away _ last))] }
            obtain ⟨bp', s', ran, holding', freed'⟩ := ih (s := s₃) (some p)
              (freed ++ s₀.blocks (s₀.tree.walk NINDIR l (n.1, i :: n.2))) ⟨good₃, hand⟩
              freed₃.unlocked ((shows₁.mono later).keep freed₃ away) rest
            refine ⟨bp', s', ?_, holding', ?_⟩
            · simp only [Bool.false_eq_true, if_false, took, Option.bind_some, ran, total]
            · rw [blocks, List.map_append]
              exact freed₁.trans (freed₃.trans freed')

/-- The block itself is freed in the end. -/
theorem tloopEnd_spec {a : Daddr} {bp : Option BufId} (freed : List Daddr)
    (holding : s.Holding a bp) (unlocked : s.fp.s_flock = 0) :
    ∃ s', tloopEnd s.ip.i_dev a (some bp, s, freed) = some (s', freed ++ [a]) ∧
      s'.cache.Good [] ∧ Freed [a] s s' := by
  have called : ∀ s₁ : Sys, s₁.cache.Good [] → Freed [] s s₁ →
      ∃ s', call s.ip.i_dev a (s₁, freed) = some (s', freed ++ [a]) ∧ s'.cache.Good [] ∧
        Freed [a] s s' := by
    intro s₁ good freed₁
    obtain ⟨s', ran, good', freed', -⟩ := free_spec (b := a) good (by decide)
      (by simp [Cache.Apart]) freed₁.unlocked
    rw [freed₁.ip] at ran
    refine ⟨s', ?_, good', freed₁.trans freed'⟩
    rw [call, ran]
    rfl
  cases bp with
  | none => exact called s holding (.refl unlocked)
  | some p =>
      obtain ⟨released, freed₁⟩ := holding.brelse unlocked
      exact called _ released freed₁

theorem tloop_bind {f1 : Bool} {each : Daddr → Sys × List Daddr → Option (Sys × List Daddr)}
    (freed : List Daddr) (takes : Takes s₀ f1 each l) (good : s.cache.Good [])
    (unlocked : s.fp.s_flock = 0)
    (there : s₀.tree.addr n ≠ 0) (shows : Shows s₀ s (s₀.tree.walk NINDIR (l + 1) n))
    (nodup : (s₀.blocks (s₀.tree.walk NINDIR (l + 1) n)).Nodup) :
    ∃ s', (tloopFrom s₀.ip.i_dev (s₀.tree.addr n) f1 each NINDIR none (s, freed)).bind
        (tloopEnd s₀.ip.i_dev (s₀.tree.addr n)) =
          some (s', freed ++ s₀.blocks (s₀.tree.walk NINDIR (l + 1) n)) ∧
      s'.cache.Good [] ∧ Freed (s₀.blocks (s₀.tree.walk NINDIR (l + 1) n)) s s' := by
  obtain ⟨bp, s₁, ran, holding, freed₁⟩ := tloopFrom_spec none freed takes there
    good unlocked shows nodup
  obtain ⟨s', ended, good', freed'⟩ := tloopEnd_spec (freed ++ s₀.blocks
    (s₀.tree.children (s₀.tree.walk NINDIR l) n NINDIR)) holding freed₁.unlocked
  rw [freed₁.ip, shows.dev] at ended
  refine ⟨s', ?_, good', ?_⟩
  · rw [ran, Option.bind_some, ended, Radix.walk, blocks, blocks, List.map_append,
      List.map_singleton, List.append_assoc]
  · rw [Radix.walk, blocks, List.map_append, List.map_singleton]
    exact freed₁.trans freed'

/-- `tloop` frees the blocks of a tree. -/
theorem takes_tloop (s₀ : Sys) (levels : ℕ) :
    Takes s₀ true (tloop s₀.ip.i_dev levels) (levels + 1) := by
  induction levels with
  | zero =>
      intro held s freed n none _ good unlocked there shows nodup _
      obtain rfl := none rfl
      obtain ⟨s', ran, good', freed'⟩ := tloop_bind freed (takes_call s₀ false) good
        unlocked there shows nodup
      exact ⟨s', ran, good', freed', by simp⟩
  | succ levels ih =>
      intro held s freed n none _ good unlocked there shows nodup _
      obtain rfl := none rfl
      obtain ⟨s', ran, good', freed'⟩ := tloop_bind freed ih good unlocked there shows
        nodup
      exact ⟨s', ran, good', freed', by simp⟩

/-! ## itrunc -/

/-- Behind an address in the inode are the blocks of its tree. -/
theorem freeFrom_spec {i : ℕ} (freed : List Daddr) (good : s.cache.Good [])
    (unlocked : s.fp.s_flock = 0) (there : s₀.tree.addr (i, []) ≠ 0)
    (shows : Shows s₀ s (s₀.tree.walk NINDIR (fileShape.depth i) (i, [])))
    (nodup : (s₀.blocks (s₀.tree.walk NINDIR (fileShape.depth i) (i, []))).Nodup) :
    ∃ s', freeFrom s₀.ip.i_dev i (s₀.tree.addr (i, [])) (s, freed) =
        some (s', freed ++ s₀.blocks (s₀.tree.walk NINDIR (fileShape.depth i) (i, []))) ∧
      s'.cache.Good [] ∧
      Freed (s₀.blocks (s₀.tree.walk NINDIR (fileShape.depth i) (i, []))) s s' := by
  rw [freeFrom]
  split
  next direct =>
    have depth : fileShape.depth i = 0 := by
      simp only [NADDR] at direct
      simp only [fileShape, NADDR]
      omega
    rw [depth] at shows nodup ⊢
    obtain ⟨s', ran, good', freed', -⟩ := takes_call s₀ true [] s freed (i, []) (fun _ => rfl)
      (Nat.zero_le _) good unlocked there shows nodup (by simp [Cache.Apart])
    exact ⟨s', ran, good', freed'⟩
  next far =>
    have depth : fileShape.depth i = i - (NADDR - 3) + 1 := by
      simp only [NADDR] at far
      simp only [fileShape, NADDR]
      omega
    rw [depth] at shows nodup ⊢
    obtain ⟨s', ran, good', freed', -⟩ := takes_tloop s₀ (i - (NADDR - 3)) [] s freed (i, [])
      (fun _ => rfl) (Nat.zero_le _) good unlocked there shows nodup (by simp [Cache.Apart])
    exact ⟨s', ran, good', freed'⟩

/-- The loop over the addresses in the inode. -/
theorem itruncFrom_spec (freed : List Daddr) (good : s.cache.Good []) (unlocked : s.fp.s_flock = 0)
    (same : ∀ i < k, s.ip.i_addr i = s₀.ip.i_addr i)
    (shows : Shows s₀ s (s₀.tree.walks fileShape k))
    (nodup : (s₀.blocks (s₀.tree.walks fileShape k)).Nodup) :
    ∃ s', itruncFrom s₀.ip.i_dev k (s, freed) =
        some (s', freed ++ s₀.blocks (s₀.tree.walks fileShape k)) ∧
      (∀ i < k, s'.ip.i_addr i = 0) ∧ ∀ i, k ≤ i → s'.ip.i_addr i = s.ip.i_addr i := by
  induction k generalizing s freed with
  | zero =>
      exact ⟨s, by rw [itruncFrom]; simp [Radix.walks, blocks], by simp, fun _ _ => rfl⟩
  | succ k ih =>
      have root : s.ip.i_addr k = s₀.tree.addr (k, []) := same k (Nat.lt_succ_self k)
      have below : ∀ i < k, s.ip.i_addr i = s₀.ip.i_addr i :=
        fun i less => same i (Nat.lt_succ_of_lt less)
      rw [itruncFrom]
      simp only [root]
      rw [Radix.walks_succ] at shows nodup ⊢
      by_cases none : s₀.tree.addr (k, []) = 0
      · have none' : s₀.tree.root k = 0 := none
        rw [if_pos none', List.nil_append] at shows nodup
        rw [if_pos none, if_pos none', List.nil_append]
        obtain ⟨s', ran, zero, kept⟩ := ih freed good unlocked below shows nodup
        refine ⟨s', ran, fun i less => ?_, fun i above => kept i (Nat.le_of_succ_le above)⟩
        cases Nat.lt_or_eq_of_le (Nat.le_of_lt_succ less) with
        | inl less => exact zero i less
        | inr here => rw [here, kept k (Nat.le_refl k), root, none]
      · have there : s₀.tree.root k ≠ 0 := none
        rw [if_neg there] at shows nodup
        rw [if_neg none, if_neg there]
        rw [blocks, List.map_append] at nodup
        obtain ⟨mine, rest, apart⟩ := List.nodup_append.mp nodup
        obtain ⟨s₁, ran₁, good₁, freed₁⟩ := freeFrom_spec
          (s := { s with ip := { s.ip with i_addr := update s.ip.i_addr k 0 } }) freed
          good unlocked none
          ⟨shows.dev, (shows.mono fun m mem => List.mem_append_left _ mem).view⟩ mine
        have addr : s₁.ip.i_addr = update s.ip.i_addr k 0 := by rw [freed₁.ip]
        have shows₁ : Shows s₀ s₁ (s₀.tree.walks fileShape k) := by
          have before : Shows s₀ { s with ip := { s.ip with i_addr := update s.ip.i_addr k 0 } }
              (s₀.tree.walks fileShape k) :=
            ⟨shows.dev, (shows.mono fun m mem => List.mem_append_right _ mem).view⟩
          exact before.keep freed₁ fun b mem gone => apart b gone b mem rfl
        obtain ⟨s', ran, zero, kept⟩ := ih (s := s₁) (freed ++
          s₀.blocks (s₀.tree.walk NINDIR (fileShape.depth k) (k, []))) good₁
          freed₁.unlocked (fun i less => by
            rw [addr, update_of_ne (by omega), below i less]) shows₁ rest
        refine ⟨s', ?_, fun i less => ?_, fun i above => ?_⟩
        · rw [ran₁, Option.bind_some, ran, blocks, blocks, blocks, List.map_append,
            List.append_assoc]
          rfl
        · cases Nat.lt_or_eq_of_le (Nat.le_of_lt_succ less) with
          | inl less => exact zero i less
          | inr here => rw [here, kept k (Nat.le_refl k), addr, update_self]
        · rw [kept i (Nat.le_of_succ_le above), addr, update_of_ne (by omega)]

end Sys

open Sys

/-- Truncation frees exactly the file: `free` is called once for each of its blocks, and for no
other block, and the inode is left without blocks. -/
theorem freed_of_itrunc {s : Sys} (good : s.cache.Good []) (unlocked : s.fp.s_flock = 0)
    (kind : s.ip.i_mode &&& IFMT = IFREG ∨ s.ip.i_mode &&& IFMT = IFDIR)
    (distinct : Radix.Distinct fileShape s.tree) :
    ∃ s' freed, s.itrunc = some (s', freed) ∧ freed.Nodup ∧ (∀ b, b ∈ freed ↔ s.Owns b) ∧
      (∀ i < NADDR, s'.ip.i_addr i = 0) ∧ s'.ip.i_size = 0 := by
  have nodup : (s.blocks (s.tree.walks fileShape NADDR)).Nodup := by
    refine (Radix.walks_nodup _ _ _).map_on fun n left m right same => ?_
    obtain ⟨valid, there⟩ := Radix.mem_walks.mp left
    exact distinct n m valid (Radix.mem_walks.mp right).1 same there
  obtain ⟨s', ran, zero, -⟩ := itruncFrom_spec [] (k := NADDR) good unlocked
    (fun _ _ => rfl) (show Shows s s _ from ⟨rfl, fun _ _ => rfl⟩) nodup
  refine ⟨{ s' with ip := { s'.ip with i_size := 0, i_flag := s'.ip.i_flag ||| (ICHG ||| IUPD) } },
    s.blocks (s.tree.walks fileShape NADDR), ?_, nodup, fun b => ?_, zero, rfl⟩
  · rw [itrunc]
    simp only
    rw [if_neg (by tauto), ran]
    rfl
  · constructor
    · intro mem
      obtain ⟨n, listed, rfl⟩ := List.mem_map.mp mem
      obtain ⟨valid, there⟩ := Radix.mem_walks.mp listed
      exact ⟨n, valid, there, rfl⟩
    · rintro ⟨n, valid, there, rfl⟩
      exact List.mem_map_of_mem (Radix.mem_walks.mpr ⟨valid, there⟩)

/-- A file that has just got two blocks behind the direct ones, with an indirect block for
them. -/
theorem freed_two_blocks : ∃ nbs s, mapAll [10, 11] emptyFile = some (nbs, s) ∧
    s.tree.addr (10, []) ≠ 0 ∧ s.tree.addr (10, [1]) ≠ 0 ∧
    ∃ s' freed, s.itrunc = some (s', freed) ∧ freed.Nodup ∧ (∀ b, b ∈ freed ↔ s.Owns b) ∧
      (∀ i < NADDR, s'.ip.i_addr i = 0) ∧ s'.ip.i_size = 0 := by
  have few : ∀ bn ∈ [10, 11], bn < maxBlocks := by decide
  obtain ⟨nbs, s, free', ran, sound, extended, -, real⟩ := mapAll_spec emptyFile_sound few
    (waysTo_valid few) (fun bn mem q onWay => mem_waysTo.mpr ⟨bn, mem, q, onWay, rfl⟩)
    emptyFile_room
  have leaf : s.tree.addr (10, [1]) ≠ 0 := real 11 (by decide)
  have kind : s.ip.i_mode &&& IFMT = IFREG := by
    rw [extended.mode]
    decide
  exact ⟨nbs, s, ran, fun none => leaf (Radix.addr_cons_of_eq none), leaf,
    freed_of_itrunc sound.good sound.stocked.unlocked (.inl kind) sound.distinct⟩

end UnixV7
