import Mathlib.Algebra.GroupWithZero.Nat
import UnixV7.Kernel.Cache
import UnixV7.Kernel.FileNode
import UnixV7.Kernel.FreeList

/-!
# The blocks of a file

What `bmap` does to the blocks of a file: it follows the addresses that lead to one of them and,
to write, puts a block of zeros from the free list wherever one is missing on the way.
-/

namespace UnixV7

open Rw

namespace Sys

variable {s s' : Sys} {held : List BufId} {free rest : List Daddr} {b : Daddr} {bp : BufId}

/-- The addresses in the inode and in indirect blocks. -/
def tree (s : Sys) : Radix Daddr where
  root := s.ip.i_addr
  entry a i := (s.cache.view s.ip.i_dev a).word i

/-- The free list that the superblock in core and the blocks on the device name. -/
structure Stocked (s : Sys) (free : List Daddr) : Prop where
  listed : Alloc.Listed (fun b => (s.cache.view s.ip.i_dev b).fblk) s.fp.s_nfree s.fp.s_free free
  nodup : free.Nodup
  range : ∀ b ∈ free, Alloc.InRange s.fp b
  nfree : s.fp.s_nfree ≤ NICFREE
  ninode : s.fp.s_ninode ≤ NICINOD
  unlocked : s.fp.s_flock = 0

/-- The buffers in hand are of no free block. -/
def HeldApart (s : Sys) (held : List BufId) (free : List Daddr) : Prop :=
  ∀ i ∈ held, ∀ b ∈ free,
    ¬((s.cache.buf i).b_dev = some s.ip.i_dev ∧ (s.cache.buf i).b_blkno = b)

/-- A block has been taken off the free list and cleared. -/
structure Taken (held : List BufId) (s : Sys) (b : Daddr) (rest : List Daddr) (s' : Sys) :
    Prop where
  good : s'.cache.Good held
  view : s'.cache.view = fun d n => if d = s.ip.i_dev ∧ n = b then fun _ => 0 else s.cache.view d n
  kept : ∀ i ∈ held, s'.cache.buf i = s.cache.buf i
  stocked : s'.Stocked rest
  ip : s'.ip = s.ip
  u : s'.u = s.u
  user : s'.user = s.user
  kernel : s'.kernel = s.kernel
  isize : s'.fp.s_isize = s.fp.s_isize
  fsize : s'.fp.s_fsize = s.fp.s_fsize

theorem Stocked.getfs (stocked : s.Stocked free) : s.fp.getfs = s.fp := by
  have nfree := stocked.nfree
  have ninode := stocked.ninode
  simp only [Filsys.getfs]
  rw [if_neg (by omega)]

/-- No block that a buffer in hand is of is asked for. -/
theorem HeldApart.apart (apart : s.HeldApart held free) (mem : b ∈ free) :
    s.cache.Apart held (some (s.ip.i_dev, b)) := by
  rintro i hand dev blkno same here
  obtain ⟨rfl, rfl⟩ := Prod.mk.inj (Option.some.inj same)
  exact apart i hand _ mem here

/-- `alloc` reads the block which lists more. -/
theorem refill_spec (good : s.cache.Good held) (few : held.length < NBUF)
    (apart : s.cache.Apart held (some (s.ip.i_dev, b))) :
    ∃ c, s.refill s.ip.i_dev b = some { s with
        cache := c
        fp := { s.fp with
          s_nfree := (s.cache.view s.ip.i_dev b).fblk.df_nfree
          s_free := (s.cache.view s.ip.i_dev b).fblk.df_free } } ∧
      c.Good held ∧ c.view = s.cache.view ∧ ∀ i ∈ held, c.buf i = s.cache.buf i := by
  obtain ⟨bp, c, read, handed, -, data⟩ := good.bread _ _ few apart
  have errorless := handed.good.errorless bp handed.inside
  obtain ⟨good', view⟩ := handed.good.brelse handed.inside handed.fresh
  refine ⟨c.brelse bp, ?_, good', view.trans handed.view, fun i mem => ?_⟩
  · simp [refill, bread, read, geterror, errorless, data, brelse]
  · rw [Cache.brelse, Cache.modify_of_ne, handed.kept i mem]
    rintro rfl
    exact handed.fresh mem

/-- The buffer of a block is filled with zeros and released. -/
theorem clear_spec {c : Cache} {dev : Dev} (good : c.Good held) (few : held.length < NBUF)
    (apart : c.Apart held (some (dev, b))) :
    ∃ bp c', c.getblk dev b = some (bp, c') ∧ ((c'.clrbuf bp).buf bp).b_blkno = b ∧
      ((c'.clrbuf bp).bdwrite bp).Good held ∧
      ((c'.clrbuf bp).bdwrite bp).view =
        (fun d n => if d = dev ∧ n = b then fun _ => 0 else c.view d n) ∧
      ∀ i ∈ held, ((c'.clrbuf bp).bdwrite bp).buf i = c.buf i := by
  obtain ⟨bp, c', taken, handed⟩ := good.take _ few apart
  have here : (c'.buf bp).b_dev = some dev := handed.b_dev
  have also : (c'.buf bp).b_blkno = b := handed.b_blkno _ rfl
  obtain ⟨good', view⟩ := handed.good.bdwrite
    (fun b => { b with b_addr := fun _ => 0, b_resid := 0 }) handed.inside handed.fresh
    here rfl rfl (handed.good.errorless bp handed.inside) rfl
  rw [also, handed.view] at view
  refine ⟨bp, c', taken, by simpa [Cache.clrbuf] using also, good', view, fun i mem => ?_⟩
  have other : i ≠ bp := by
    rintro rfl
    exact handed.fresh mem
  rw [Cache.bdwrite, Cache.brelse, Cache.modify_of_ne other, Cache.modify_of_ne other,
    Cache.clrbuf, Cache.modify_of_ne other, handed.kept i mem]

/-- What `alloc` does with a number once it has one, and perhaps more of them. -/
theorem Stocked.take {c : Cache} (stocked : s.Stocked (b :: rest)) (fp : Filsys)
    (free : s.cache.Apart held (some (s.ip.i_dev, b))) (few : held.length < NBUF)
    (good : c.Good held) (view : c.view = s.cache.view)
    (kept : ∀ i ∈ held, c.buf i = s.cache.buf i) (bound : fp.s_nfree ≤ NICFREE)
    (listed : Alloc.Listed (fun b => (s.cache.view s.ip.i_dev b).fblk) fp.s_nfree fp.s_free rest)
    (isize : fp.s_isize = s.fp.s_isize) (fsize : fp.s_fsize = s.fp.s_fsize)
    (ninode : fp.s_ninode = s.fp.s_ninode) (flock : fp.s_flock = s.fp.s_flock) :
    ∃ bp c', c.getblk s.ip.i_dev b = some (bp, c') ∧ ((c'.clrbuf bp).buf bp).b_blkno = b ∧
      Taken held s b rest
        ({ s with cache := c'.clrbuf bp, fp := { fp with s_fmod := 1 } }.bdwrite bp) := by
  have apart : c.Apart held (some (s.ip.i_dev, b)) := by
    intro i mem
    rw [kept i mem]
    exact free i mem
  have off : b ∉ rest := (List.nodup_cons.mp stocked.nodup).1
  obtain ⟨bp, c', taken, blkno, good', view', kept'⟩ := clear_spec good few apart
  refine ⟨bp, c', taken, blkno, ?_⟩
  rw [view] at view'
  exact
    { good := good'
      view := view'
      kept := fun i mem => (kept' i mem).trans (kept i mem)
      stocked :=
        { listed := listed.congr (fun _ _ => rfl) fun n mem => by
            have other : n ≠ b := by
              rintro rfl
              exact off mem
            simp [Sys.bdwrite, view', other]
          nodup := (List.nodup_cons.mp stocked.nodup).2
          range := fun n mem => (stocked.range n (List.mem_cons_of_mem b mem)).congr isize fsize
          nfree := bound
          ninode := ninode ▸ stocked.ninode
          unlocked := flock.trans stocked.unlocked }
      ip := rfl
      u := rfl
      user := rfl
      kernel := rfl
      isize := isize
      fsize := fsize }

/-- `alloc` takes the first block of the list, which `bmap` releases with zeros in it. -/
theorem newBlock_spec (good : s.cache.Good held) (few : held.length < NBUF)
    (stocked : s.Stocked (b :: rest)) (apart : s.HeldApart held (b :: rest)) :
    ∃ s', s.newBlock s.ip.i_dev B_WRITE = some (some b, s') ∧ Taken held s b rest s' := by
  have free := apart.apart List.mem_cons_self
  rcases Alloc.pop_spec stocked.listed stocked.nfree stocked.range with
    ⟨empty, -⟩ | ⟨bno, more, n, list, bound, popped, still, last⟩
  · simp at empty
  obtain ⟨rfl, rfl⟩ := List.cons.inj list
  have flock : ¬s.fp.s_flock ≠ 0 := not_not.mpr stocked.unlocked
  simp only [newBlock, alloc, stocked.getfs, if_neg flock, popped, Option.bind_eq_bind,
    reduceCtorEq, if_false]
  by_cases empty : n = 0
  · subst empty
    obtain ⟨some, few', listed⟩ := last rfl
    obtain ⟨c, refilled, good₁, view₁, kept₁⟩ :=
      refill_spec (s := { s with fp := { s.fp with s_nfree := 0 } }) good few free
    simp only at refilled
    have more : ¬(s.cache.view s.ip.i_dev b).fblk.df_nfree = 0 := by omega
    obtain ⟨bp, c', taken, blkno, result⟩ := stocked.take { s.fp with
        s_nfree := (s.cache.view s.ip.i_dev b).fblk.df_nfree
        s_free := (s.cache.view s.ip.i_dev b).fblk.df_free }
      free few good₁ view₁ kept₁ few' listed rfl rfl rfl rfl
    refine ⟨_, ?_, result⟩
    simp only [if_true, refilled, Option.bind_some, if_neg more, taken, blkno]
  · obtain ⟨bp, c', taken, blkno, result⟩ := stocked.take { s.fp with s_nfree := n }
      free few good rfl (fun _ _ => rfl) bound (still empty) rfl rfl rfl rfl
    refine ⟨_, ?_, result⟩
    simp only [if_neg empty, Option.bind_some, taken, blkno]

/-- `alloc` has no block to give. -/
theorem newBlock_none (stocked : s.Stocked []) (dev : Dev) :
    s.newBlock dev B_WRITE = some (none, s.nospace) := by
  have flock : ¬s.fp.s_flock ≠ 0 := not_not.mpr stocked.unlocked
  rcases Alloc.pop_spec stocked.listed stocked.nfree stocked.range with
    ⟨-, popped⟩ | ⟨bno, more, n, list, -⟩
  · simp [newBlock, alloc, stocked.getfs, flock, popped]
  · simp at list

/-! ## Files that keep to their own blocks -/

/-- The blocks of the file are blocks of the device, one for each node, and none of them is
free. -/
structure Sound (held : List BufId) (s : Sys) (free : List Daddr) : Prop where
  good : s.cache.Good held
  stocked : s.Stocked free
  long : s.fp.s_fsize ≤ 2 ^ 31
  nodes : ∀ n, fileShape.Valid n → s.tree.addr n ≠ 0 →
    Alloc.InRange s.fp (s.tree.addr n) ∧ s.tree.addr n ∉ free
  distinct : Radix.Distinct fileShape s.tree

/-- What is in the block of a node, zeros if there is none. -/
def block (s : Sys) (n : Node) : Bytes :=
  if s.tree.addr n = 0 then fun _ => 0 else s.cache.view s.ip.i_dev (s.tree.addr n)

/-- The block is one of the file's. -/
def Owns (s : Sys) (b : Daddr) : Prop :=
  ∃ n, fileShape.Valid n ∧ s.tree.addr n ≠ 0 ∧ s.tree.addr n = b

/-- A block of the device has a number that a word holds. -/
theorem word_of_inRange (long : s.fp.s_fsize ≤ 2 ^ 31) (range : Alloc.InRange s.fp b) :
    b < 2 ^ 32 := by
  have inRange := range.2
  simp only [Filsys.badblock, Bool.or_eq_false_iff, decide_eq_false_iff_not] at inRange
  exact lt_of_lt_of_le (Nat.lt_of_not_le inRange.2) (long.trans (by decide))

/-- How many of the nodes are missing. -/
def missing (s : Sys) (needed : Finset Node) : ℕ :=
  (needed.filter fun n => s.tree.addr n = 0).card

/-- Some of the nodes that are needed have got a block from the free list; no block that is
neither the file's nor free has changed, and none that is still free. -/
structure Grown (needed : Finset Node) (s : Sys) (free : List Daddr) (s' : Sys)
    (free' : List Daddr) : Prop where
  dev : s'.ip.i_dev = s.ip.i_dev
  mode : s'.ip.i_mode = s.ip.i_mode
  user : s'.user = s.user
  kernel : s'.kernel = s.kernel
  addr : ∀ n, fileShape.Valid n → s.tree.addr n ≠ 0 → s'.tree.addr n = s.tree.addr n
  outside : ∀ d b, d ≠ s.ip.i_dev ∨ b ∉ free ∧ ¬s.Owns b →
    s'.cache.view d b = s.cache.view d b
  suffix : free' <:+ free
  unused : ∀ b ∈ free', s'.cache.view s.ip.i_dev b = s.cache.view s.ip.i_dev b
  blocks : ∀ n, fileShape.Valid n → s'.tree.addr n ≠ 0 → s'.tree.addr n ∈ free ∨
    s'.tree.addr n = s.tree.addr n
  count : s'.missing needed + free.length = s.missing needed + free'.length

/-- The file has grown, and what can be read in it is the same. -/
structure Extended (needed : Finset Node) (s : Sys) (free : List Daddr) (s' : Sys)
    (free' : List Daddr) : Prop extends Grown needed s free s' free' where
  size : s'.ip.i_size = s.ip.i_size
  u : s'.u = s.u
  block : ∀ n, fileShape.Valid n → Leaf n → s'.block n = s.block n

variable {needed : Finset Node} {free' : List Daddr} {n : Node}

theorem tree_congr (view : s'.cache.view = s.cache.view) (dev : s'.ip.i_dev = s.ip.i_dev)
    (addr : s'.ip.i_addr = s.ip.i_addr) : s'.tree = s.tree := by
  simp only [tree, view, dev, addr]

/-- The blocks of the file and of the free list are where they were and as they were. -/
structure SameBlocks (s s' : Sys) : Prop where
  view : s'.cache.view = s.cache.view
  fp : s'.fp = s.fp
  dev : s'.ip.i_dev = s.ip.i_dev
  mode : s'.ip.i_mode = s.ip.i_mode
  addr : s'.ip.i_addr = s.ip.i_addr

/-- Nothing but buffers and the block to read ahead has changed. -/
structure Alike (s s' : Sys) : Prop extends SameBlocks s s' where
  size : s'.ip.i_size = s.ip.i_size
  u : s'.u = s.u
  user : s'.user = s.user
  kernel : s'.kernel = s.kernel

namespace SameBlocks

theorem tree (same : SameBlocks s s') : s'.tree = s.tree :=
  tree_congr same.view same.dev same.addr

theorem block (same : SameBlocks s s') (n : Node) : s'.block n = s.block n := by
  simp only [Sys.block, same.tree, same.view, same.dev]

theorem sound (same : SameBlocks s s') (sound : Sound held s free) {held' : List BufId}
    (good : s'.cache.Good held') : Sound held' s' free where
  good := good
  stocked :=
    { listed := by simpa only [same.view, same.fp, same.dev] using sound.stocked.listed
      nodup := sound.stocked.nodup
      range := by simpa only [same.fp] using sound.stocked.range
      nfree := by simpa only [same.fp] using sound.stocked.nfree
      ninode := by simpa only [same.fp] using sound.stocked.ninode
      unlocked := by simpa only [same.fp] using sound.stocked.unlocked }
  long := by simpa only [same.fp] using sound.long
  nodes := by simpa only [same.tree, same.fp] using sound.nodes
  distinct := by simpa only [same.tree] using sound.distinct

theorem grown (same : SameBlocks s s') (user : s'.user = s.user) (kernel : s'.kernel = s.kernel) :
    Grown needed s free s' free where
  dev := same.dev
  mode := same.mode
  user := user
  kernel := kernel
  addr n _ _ := by rw [same.tree]
  outside d b _ := by rw [same.view]
  suffix := List.suffix_rfl
  unused b _ := by rw [same.view]
  blocks n _ _ := by
    rw [same.tree]
    exact .inr rfl
  count := by simp only [missing, same.tree]

theorem trans {s'' : Sys} (first : SameBlocks s s') (second : SameBlocks s' s'') :
    SameBlocks s s'' where
  view := second.view.trans first.view
  fp := second.fp.trans first.fp
  dev := second.dev.trans first.dev
  mode := second.mode.trans first.mode
  addr := second.addr.trans first.addr

end SameBlocks

namespace Alike

theorem extended (alike : Alike s s') : Extended needed s free s' free where
  toGrown := alike.grown alike.user alike.kernel
  size := alike.size
  u := alike.u
  block n _ _ := alike.block n

theorem refl (s : Sys) : Alike s s := ⟨⟨rfl, rfl, rfl, rfl, rfl⟩, rfl, rfl, rfl, rfl⟩

theorem trans {s'' : Sys} (first : Alike s s') (second : Alike s' s'') : Alike s s'' where
  toSameBlocks := first.toSameBlocks.trans second.toSameBlocks
  size := second.size.trans first.size
  u := second.u.trans first.u
  user := second.user.trans first.user
  kernel := second.kernel.trans first.kernel

end Alike

theorem Grown.trans {s'' : Sys} {free'' : List Daddr}
    (first : Grown needed s free s' free') (second : Grown needed s' free' s'' free'') :
    Grown needed s free s'' free'' where
  dev := second.dev.trans first.dev
  mode := second.mode.trans first.mode
  user := second.user.trans first.user
  kernel := second.kernel.trans first.kernel
  addr n valid real := by
    have same := first.addr n valid real
    rw [second.addr n valid (by rwa [same]), same]
  outside d b away := by
    rw [second.outside d b ?_, first.outside d b away]
    rw [first.dev]
    refine away.imp_right fun away => ⟨fun mem => away.1 (first.suffix.subset mem), ?_⟩
    rintro ⟨n, valid, real, rfl⟩
    rcases first.blocks n valid real with mem | same
    · exact away.1 mem
    · exact away.2 ⟨n, valid, same ▸ real, same.symm⟩
  suffix := second.suffix.trans first.suffix
  unused b mem := by
    have earlier := first.unused b (second.suffix.subset mem)
    have later := second.unused b mem
    rw [first.dev] at later
    rw [later, earlier]
  blocks n valid real := by
    rcases second.blocks n valid real with mem | same
    · exact .inl (first.suffix.subset mem)
    · rcases first.blocks n valid (same ▸ real) with mem | same'
      · exact .inl (same ▸ mem)
      · exact .inr (same.trans same')
  count := by
    have one := first.count
    have two := second.count
    omega

theorem Extended.trans {s'' : Sys} {free'' : List Daddr}
    (first : Extended needed s free s' free') (second : Extended needed s' free' s'' free'') :
    Extended needed s free s'' free'' where
  toGrown := first.toGrown.trans second.toGrown
  size := second.size.trans first.size
  u := second.u.trans first.u
  block n valid leaf := (second.block n valid leaf).trans (first.block n valid leaf)

/-- The parts of the state that a new block leaves alone. -/
structure Frame (s s' : Sys) : Prop where
  dev : s'.ip.i_dev = s.ip.i_dev
  mode : s'.ip.i_mode = s.ip.i_mode
  size : s'.ip.i_size = s.ip.i_size
  u : s'.u = s.u
  user : s'.user = s.user
  kernel : s'.kernel = s.kernel
  isize : s'.fp.s_isize = s.fp.s_isize
  fsize : s'.fp.s_fsize = s.fp.s_fsize

variable {held' : List BufId}

/-- The first free block is nowhere in the file yet. -/
theorem Sound.fresh (sound : Sound held s (b :: rest)) (valid : fileShape.Valid n) :
    s.tree.addr n ≠ b := by
  rintro rfl
  have real := (sound.stocked.range _ List.mem_cons_self).1
  exact (sound.nodes n valid real).2 List.mem_cons_self

/-- A missing node has got the first free block. -/
theorem Sound.grow (sound : Sound held s (b :: rest)) (inside : fileShape.Valid n)
    (all : ∀ m ∈ needed, fileShape.Valid m) (mem : n ∈ needed) (gone : s.tree.addr n = 0)
    (good : s'.cache.Good held') (frame : Frame s s') (stocked : s'.Stocked rest)
    (grown : Radix.Grown fileShape s.tree s'.tree n b)
    (data : ∀ m, fileShape.Valid m → Leaf m → s.tree.addr m ≠ 0 →
      s'.cache.view s.ip.i_dev (s.tree.addr m) = s.cache.view s.ip.i_dev (s.tree.addr m))
    (blank : s'.cache.view s.ip.i_dev b = fun _ => 0)
    (outside : ∀ d a, d ≠ s.ip.i_dev ∨ a ≠ b ∧ ¬s.Owns a →
      s'.cache.view d a = s.cache.view d a) :
    Sound held' s' rest ∧ Extended needed s (b :: rest) s' rest := by
  have range := sound.stocked.range b List.mem_cons_self
  have off := (List.nodup_cons.mp sound.stocked.nodup).1
  have here : s'.tree.addr n = b := by rw [grown n inside, if_pos rfl]
  have there : ∀ m, fileShape.Valid m → m ≠ n → s'.tree.addr m = s.tree.addr m := by
    intro m valid other
    rw [grown m valid, if_neg other]
  constructor
  · refine ⟨good, stocked, frame.fsize ▸ sound.long, fun m valid real => ?_,
      grown.distinct sound.distinct fun m valid => sound.fresh valid⟩
    by_cases same : m = n
    · subst same
      rw [here]
      exact ⟨range.congr frame.isize frame.fsize, off⟩
    · rw [there m valid same] at real ⊢
      obtain ⟨range, away⟩ := sound.nodes m valid real
      exact ⟨range.congr frame.isize frame.fsize, fun mem => away (List.mem_cons_of_mem b mem)⟩
  · refine
      { dev := frame.dev, mode := frame.mode, user := frame.user, kernel := frame.kernel
        addr := fun m valid real => there m valid ?_
        outside := fun d a away => outside d a ?_
        suffix := List.suffix_cons b rest
        unused := fun a mem => outside s.ip.i_dev a (.inr ⟨?_, ?_⟩)
        blocks := fun m valid real => ?_
        count := ?_
        size := frame.size, u := frame.u
        block := fun m valid leaf => ?_ }
    · rintro rfl
      exact real gone
    · exact away.imp_right fun away => ⟨fun same => away.1 (same ▸ List.mem_cons_self), away.2⟩
    · rintro rfl
      exact off mem
    · rintro ⟨m, valid, real, rfl⟩
      exact (sound.nodes m valid real).2 (List.mem_cons_of_mem b mem)
    · by_cases same : m = n
      · subst same
        exact .inl (here ▸ List.mem_cons_self)
      · exact .inr (there m valid same)
    · have fewer : (needed.filter fun m => s'.tree.addr m = 0) =
          (needed.filter fun m => s.tree.addr m = 0).erase n := by
        ext m
        simp only [Finset.mem_filter, Finset.mem_erase]
        by_cases same : m = n
        · subst same
          simp [here, range.1]
        · constructor
          · rintro ⟨mem, zero⟩
            exact ⟨same, mem, there m (all m mem) same ▸ zero⟩
          · rintro ⟨-, mem, zero⟩
            exact ⟨mem, (there m (all m mem) same).trans zero⟩
      have one := Finset.card_erase_add_one
        (show n ∈ needed.filter fun m => s.tree.addr m = 0 by simp [mem, gone])
      simp only [missing, fewer, List.length_cons]
      omega
    · simp only [Sys.block, frame.dev]
      by_cases same : m = n
      · subst same
        rw [here, if_neg range.1, if_pos gone, blank]
      · rw [there m valid same]
        split
        · rfl
        · next real => exact data m valid leaf real

theorem missing_pos (mem : n ∈ needed) (gone : s.tree.addr n = 0) : 0 < s.missing needed :=
  Finset.card_pos.mpr ⟨n, Finset.mem_filter.mpr ⟨mem, gone⟩⟩

/-- There have been fewer free blocks than nodes that were needed and missing, and the call has
failed for that. -/
structure OutOfSpace (needed : Finset Node) (s : Sys) (free : List Daddr) (s' : Sys) : Prop where
  few : free.length < s.missing needed
  error : s'.u.u_error = some .ENOSPC
  mode : s'.ip.i_mode = s.ip.i_mode

theorem Grown.outOfSpace {t : Sys} (grown : Grown needed s free s' free')
    (out : OutOfSpace needed s' free' t) : OutOfSpace needed s free t where
  few := by
    have count := grown.count
    have few := out.few
    omega
  error := out.error
  mode := out.mode.trans grown.mode

theorem Grown.room (grown : Grown needed s free s' free')
    (room : s.missing needed ≤ free.length) : s'.missing needed ≤ free'.length := by
  have count := grown.count
  omega

/-- `bmap` finds a block at an address in the inode, or puts one there if any is free. -/
theorem slot_spec {r : ℕ} (sound : Sound [] s free) (inside : fileShape.Valid (r, []))
    (all : ∀ m ∈ needed, fileShape.Valid m) (mem : (r, []) ∈ needed) :
    (∃ nb s' free', s.slot r B_WRITE = some (some nb, s') ∧ Sound [] s' free' ∧
      Extended needed s free s' free' ∧ s'.tree.addr (r, []) = nb ∧ nb ≠ 0) ∨
    ∃ s', s.slot r B_WRITE = some (none, s') ∧ OutOfSpace needed s free s' := by
  rw [slot]
  split
  · next here =>
      exact .inl ⟨_, s, free, rfl, sound, (Alike.refl s).extended, rfl, here⟩
  · next gone =>
      have gone : s.tree.addr (r, []) = 0 := not_not.mp gone
      rcases free with _ | ⟨b, rest⟩
      · exact .inr ⟨s.nospace, by simp [newBlock_none sound.stocked],
          missing_pos mem gone, rfl, rfl⟩
      obtain ⟨s₁, found, taken⟩ := newBlock_spec sound.good (by decide) sound.stocked
        (by simp [HeldApart])
      have range := sound.stocked.range b List.mem_cons_self
      simp only [found, Option.bind_eq_bind, Option.bind_some]
      have view : ∀ d a, a ≠ b → s₁.cache.view d a = s.cache.view d a := by
        intro d a other
        rw [taken.view]
        exact if_neg fun same => other same.2
      have blank : s₁.cache.view s.ip.i_dev b = fun _ => 0 := by
        rw [taken.view]
        exact if_pos ⟨rfl, rfl⟩
      have tables : ∀ m : Node, fileShape.Valid m → s.tree.addr m ≠ 0 →
          s₁.cache.view s.ip.i_dev (s.tree.addr m) = s.cache.view s.ip.i_dev (s.tree.addr m) :=
        fun m valid _ => view _ _ (sound.fresh valid)
      have grown : Radix.Grown fileShape s.tree (s₁.setAddr r b).tree (r, []) b := by
        apply Radix.grown_root gone
        · simp [tree, setAddr]
        · intro k other
          simp [tree, setAddr, other, taken.ip]
        · intro i
          simp [tree, setAddr, taken.ip, blank]
        · intro m valid _ real i
          simp only [tree, setAddr, taken.ip]
          exact congrArg (fun m => Bytes.word m i) (tables m valid real)
      have frame : Frame s (s₁.setAddr r b) :=
        { dev := by rw [setAddr, taken.ip], mode := by rw [setAddr, taken.ip]
          size := by rw [setAddr, taken.ip], u := taken.u, user := taken.user
          kernel := taken.kernel, isize := taken.isize, fsize := taken.fsize }
      have stocked : (s₁.setAddr r b).Stocked rest := { taken.stocked with }
      have good : (s₁.setAddr r b).cache.Good [] := taken.good
      obtain ⟨sound', extended⟩ := sound.grow inside all mem gone good frame stocked grown
        (fun m valid _ real => tables m valid real) blank fun d a away => by
          by_cases same : a = b
          · subst same
            simp only [setAddr, taken.view]
            exact if_neg fun both => away.elim (fun other => other both.1) fun other => other.1 rfl
          · exact view d a same
      refine .inl ⟨b, _, rest, rfl, sound', extended, ?_, range.1⟩
      rw [grown _ inside, if_pos rfl]

/-- A buffer in hand that holds a block of the file's device. -/
structure InHand (s : Sys) (bp : BufId) (a : Daddr) : Prop where
  inside : bp < NBUF
  dev : (s.cache.buf bp).b_dev = some s.ip.i_dev
  blkno : (s.cache.buf bp).b_blkno = a
  data : (s.cache.buf bp).b_addr = s.cache.view s.ip.i_dev a

variable {a : Daddr} {r i : ℕ} {p : List ℕ}

/-- An address in an indirect block is set, and the block is released. -/
theorem link_spec {s₁ : Sys} (good : s₁.cache.Good [bp]) (hand : s₁.InHand bp a) (v : ℕ) :
    ((s₁.edit bp fun m => m.setWord i v).bdwrite bp).cache.Good [] ∧
      ((s₁.edit bp fun m => m.setWord i v).bdwrite bp).cache.view = fun d n =>
        if d = s₁.ip.i_dev ∧ n = a then (s₁.cache.view s₁.ip.i_dev a).setWord i v
        else s₁.cache.view d n := by
  have errorless := good.errorless bp hand.inside
  have resid := good.resid bp hand.inside
  obtain ⟨good', view⟩ := good.bdwrite
    (fun b => { b with b_addr := b.b_addr.setWord i v }) hand.inside (by simp) hand.dev
    rfl rfl errorless resid
  rw [hand.blkno, hand.data] at view
  exact ⟨good', view⟩

/-- The new block `b` is at an address in the indirect block `a`, and the rest is as before. -/
structure Entered (s : Sys) (a i b : ℕ) (s' : Sys) : Prop where
  ip : s'.ip = s.ip
  here : s'.cache.view s.ip.i_dev a = (s.cache.view s.ip.i_dev a).setWord i b
  blank : s'.cache.view s.ip.i_dev b = fun _ => 0
  there : ∀ d n, d ≠ s.ip.i_dev ∨ n ≠ a → d ≠ s.ip.i_dev ∨ n ≠ b →
    s'.cache.view d n = s.cache.view d n

/-- A new block is entered in the indirect block in hand. -/
theorem Taken.entered {b : Daddr} {rest : List Daddr} {s₁ : Sys} (taken : Taken [bp] s b rest s₁)
    (hand : s.InHand bp a) (other : a ≠ b) (i : ℕ) :
    ((s₁.edit bp fun m => m.setWord i b).bdwrite bp).cache.Good [] ∧
      Entered s a i b ((s₁.edit bp fun m => m.setWord i b).bdwrite bp) := by
  have same := taken.kept bp List.mem_cons_self
  have view : s₁.cache.view s.ip.i_dev a = s.cache.view s.ip.i_dev a := by
    rw [taken.view]
    exact if_neg fun both => other both.2
  have hand₁ : s₁.InHand bp a :=
    { inside := hand.inside
      dev := by rw [same, taken.ip, hand.dev]
      blkno := by rw [same, hand.blkno]
      data := by rw [same, hand.data, taken.ip, view] }
  obtain ⟨good, view'⟩ := link_spec (i := i) taken.good hand₁ b
  refine ⟨good, taken.ip, ?_, ?_, fun d n one two => ?_⟩
  · rw [view', taken.ip]
    simp only [and_self, if_true]
    rw [view]
  · rw [view', taken.ip]
    simp only
    rw [if_neg fun both => other both.2.symm, taken.view]
    exact if_pos ⟨rfl, rfl⟩
  · rw [view', taken.ip]
    simp only
    rw [if_neg fun both => one.elim (fun no => no both.1) fun no => no both.2, taken.view]
    exact if_neg fun both => two.elim (fun no => no both.1) fun no => no both.2

theorem Taken.frame {b : Daddr} {rest : List Daddr} {s₁ : Sys} (taken : Taken [bp] s b rest s₁)
    (f : Bytes → Bytes) : Frame s ((s₁.edit bp f).bdwrite bp) where
  dev := congrArg Inode.i_dev taken.ip
  mode := congrArg Inode.i_mode taken.ip
  size := congrArg Inode.i_size taken.ip
  u := taken.u
  user := taken.user
  kernel := taken.kernel
  isize := taken.isize
  fsize := taken.fsize

/-- The tree has grown by the node of the new block. -/
theorem Entered.grown {b : Daddr} {rest : List Daddr} {s₂ : Sys} {held : List BufId}
    (entered : Entered s a i b s₂) (sound : Sound held s (b :: rest))
    (above : s.tree.addr (r, p) = a) (real : a ≠ 0) (inside : fileShape.Valid (r, i :: p))
    (missing : s.tree.addr (r, i :: p) = 0) :
    Radix.Grown fileShape s.tree s₂.tree (r, i :: p) b := by
  have small : b < 2 ^ 32 :=
    word_of_inRange sound.long (sound.stocked.range b List.mem_cons_self)
  apply Radix.grown_entry sound.distinct inside above real
  · rw [← missing, Radix.addr_cons_of_ne (above ▸ real), above]
  · simp [tree, entered.ip]
  · simp only [tree, entered.ip, entered.here]
    exact Bytes.word_setWord_self small
  · intro j different
    simp only [tree, entered.ip, entered.here]
    exact Bytes.word_setWord_of_ne different
  · intro j
    simp only [tree, entered.ip, entered.blank]
    rfl
  · intro m valid _ _ different j
    simp only [tree, entered.ip]
    exact congrArg (fun m => Bytes.word m j)
      (entered.there _ _ (.inr different) (.inr (sound.fresh valid)))

/-- The free list is what the new block has left of it. -/
theorem Entered.stocked {b : Daddr} {rest : List Daddr} {s₁ s₂ : Sys}
    (entered : Entered s a i b s₂) (taken : Taken [bp] s b rest s₁) (fp : s₂.fp = s₁.fp)
    (distinct : (b :: rest).Nodup) (away : a ∉ b :: rest) : s₂.Stocked rest where
  listed := by
    rw [fp]
    refine taken.stocked.listed.congr (fun _ _ => rfl) fun n mem => ?_
    have listed : n ≠ a := by
      rintro rfl
      exact away (List.mem_cons_of_mem b mem)
    have fresh : n ≠ b := by
      rintro rfl
      exact (List.nodup_cons.mp distinct).1 mem
    rw [entered.ip, taken.ip, entered.there _ n (.inr listed) (.inr fresh), taken.view]
    exact congrArg Bytes.fblk (if_neg fun both => fresh both.2).symm
  nodup := taken.stocked.nodup
  range := by rw [fp]; exact taken.stocked.range
  nfree := by rw [fp]; exact taken.stocked.nfree
  ninode := by rw [fp]; exact taken.stocked.ninode
  unlocked := by rw [fp]; exact taken.stocked.unlocked

/-- A block of data is not the indirect block. -/
theorem Entered.data {b : Daddr} {rest : List Daddr} {s₂ : Sys} {held : List BufId}
    (entered : Entered s a i b s₂) (sound : Sound held s (b :: rest))
    (above : s.tree.addr (r, p) = a) (inside : fileShape.Valid (r, i :: p)) {m : Node}
    (valid : fileShape.Valid m) (leaf : Leaf m) (real : s.tree.addr m ≠ 0) :
    s₂.cache.view s.ip.i_dev (s.tree.addr m) = s.cache.view s.ip.i_dev (s.tree.addr m) := by
  refine entered.there _ _ (.inr fun same => ?_) (.inr (sound.fresh valid))
  have node := sound.distinct m (r, p) valid inside.tail (same.trans above.symm) real
  subst node
  have deep : (i :: p).length ≤ fileShape.depth r := inside.depth
  have flat : p.length = fileShape.depth r := leaf
  simp only [List.length_cons] at deep
  omega

/-- `bmap` finds a block at an address in an indirect block, or puts one there if any is free. -/
theorem indirect_spec (sound : Sound [bp] s free) (hand : s.InHand bp a)
    (above : s.tree.addr (r, p) = a) (real : a ≠ 0) (inside : fileShape.Valid (r, i :: p))
    (all : ∀ m ∈ needed, fileShape.Valid m) (mem : (r, i :: p) ∈ needed) :
    (∃ nb s' free', s.indirect bp i B_WRITE = some (some nb, s') ∧ Sound [] s' free' ∧
      Extended needed s free s' free' ∧ s'.tree.addr (r, i :: p) = nb ∧ nb ≠ 0) ∨
    ∃ s', s.indirect bp i B_WRITE = some (none, s') ∧ OutOfSpace needed s free s' := by
  have entry : s.tree.addr (r, i :: p) = (s.cache.buf bp).b_addr.word i := by
    rw [Radix.addr_cons_of_ne (above ▸ real), above, hand.data]
    rfl
  rw [indirect]
  split
  · next here =>
      obtain ⟨good, view⟩ := sound.good.brelse hand.inside (by simp)
      have alike : Alike s (s.brelse bp) := ⟨⟨view, rfl, rfl, rfl, rfl⟩, rfl, rfl, rfl, rfl⟩
      refine .inl ⟨_, _, free, rfl, alike.sound sound good, alike.extended, ?_, here⟩
      rw [alike.tree, entry]
  · next gone =>
      have gone : (s.cache.buf bp).b_addr.word i = 0 := not_not.mp gone
      have missing : s.tree.addr (r, i :: p) = 0 := entry.trans gone
      rcases free with _ | ⟨b, rest⟩
      · exact .inr ⟨s.nospace.brelse bp, by simp [newBlock_none sound.stocked],
          missing_pos mem missing, rfl, rfl⟩
      have away : a ∉ b :: rest := above ▸ (sound.nodes _ inside.tail (above ▸ real)).2
      have apart : s.HeldApart [bp] (b :: rest) := by
        rintro j hand' n listed ⟨-, same⟩
        obtain rfl := List.mem_singleton.mp hand'
        rw [hand.blkno] at same
        exact away (same ▸ listed)
      obtain ⟨s₁, found, taken⟩ :=
        newBlock_spec sound.good (by simp [NBUF]) sound.stocked apart
      have range := sound.stocked.range b List.mem_cons_self
      have other : a ≠ b := fun same => away (same ▸ List.mem_cons_self)
      obtain ⟨good, entered⟩ := taken.entered hand other i
      have grown := entered.grown sound above real inside missing
      have outside : ∀ d n, d ≠ s.ip.i_dev ∨ n ≠ b ∧ ¬s.Owns n →
          ((s₁.edit bp fun m => m.setWord i b).bdwrite bp).cache.view d n =
            s.cache.view d n := by
        intro d n out
        refine entered.there d n (out.imp_right fun out same => ?_) (out.imp_right And.left)
        exact out.2 ⟨(r, p), inside.tail, above ▸ real, above.trans same.symm⟩
      simp only [found, Option.bind_eq_bind, Option.bind_some]
      obtain ⟨sound', extended⟩ := sound.grow inside all mem missing good (taken.frame _)
        (entered.stocked taken rfl sound.stocked.nodup away) grown
        (fun m valid leaf real => entered.data sound above inside valid leaf real) entered.blank
        outside
      refine .inl ⟨b, _, rest, rfl, sound', extended, ?_, range.1⟩
      rw [grown _ inside, if_pos rfl]

/-- The block at an address is read. -/
theorem bread_spec (sound : Sound [] s free) (a : Daddr) :
    ∃ bp c, s.bread s.ip.i_dev a = some (bp, { s with cache := c }) ∧
      Sound [bp] { s with cache := c } free ∧ Alike s { s with cache := c } ∧
      InHand { s with cache := c } bp a := by
  obtain ⟨bp, c, read, handed, -, data⟩ :=
    sound.good.bread s.ip.i_dev a (by decide) (by simp [Cache.Apart])
  have errorless := handed.good.errorless bp handed.inside
  have alike : Alike s { s with cache := c } :=
    ⟨⟨handed.view, rfl, rfl, rfl, rfl⟩, rfl, rfl, rfl, rfl⟩
  refine ⟨bp, c, ?_, alike.sound sound handed.good, alike, ?_⟩
  · simp [bread, read, geterror, errorless]
  · exact
      { inside := handed.inside
        dev := handed.b_dev
        blkno := handed.b_blkno _ rfl
        data := by rw [data, handed.view] }

theorem ahead_alike (s : Sys) (bp : BufId) (i levels : ℕ) : Alike s (s.ahead bp i levels) := by
  rw [ahead]
  split
  · exact ⟨⟨rfl, rfl, rfl, rfl, rfl⟩, rfl, rfl, rfl, rfl⟩
  · exact Alike.refl s

theorem ahead_cache (s : Sys) (bp : BufId) (i levels : ℕ) :
    (s.ahead bp i levels).cache = s.cache := by
  rw [ahead]
  split <;> rfl

/-- `bmap` goes through the indirect blocks, and puts one wherever there is none. -/
theorem descend_spec {bn levels : ℕ} (sound : Sound [] s free) (above : s.tree.addr (r, p) = a)
    (real : a ≠ 0) (inside : fileShape.Valid (r, below bn levels p))
    (all : ∀ m ∈ needed, fileShape.Valid m)
    (mem : ∀ q, q <:+ below bn levels p → (r, q) ∈ needed) :
    (∃ (nb : Daddr) (s' : Sys) (free' : List Daddr),
      descend B_WRITE bn levels (NSHIFT * levels) a s = some ((nb : ℤ), s') ∧
      Sound [] s' free' ∧ Extended needed s free s' free' ∧
      s'.tree.addr (r, below bn levels p) = nb ∧ nb ≠ 0) ∨
    ∃ s', descend B_WRITE bn levels (NSHIFT * levels) a s = some (-1, s') ∧
      OutOfSpace needed s free s' := by
  induction levels generalizing p a s free with
  | zero => exact .inl ⟨a, s, free, rfl, sound, (Alike.refl s).extended, above, real⟩
  | succ levels ih =>
      obtain ⟨bp, c, read, sound₁, alike, hand⟩ := bread_spec sound a
      have errorless : (c.buf bp).b_error = false := sound₁.good.errorless bp hand.inside
      have step := suffix_below bn levels (bn / NINDIR ^ levels % NINDIR :: p)
      simp only [descend, read, Option.bind_eq_bind, Option.bind_some, errorless,
        Bool.false_eq_true, if_false, index_eq]
      rcases indirect_spec sound₁ hand (by rw [alike.tree, above]) real (valid_suffix inside step)
          all (mem _ step) with ⟨nb, s₂, free₂, found, sound₂, extended₂, here, real₂⟩ |
          ⟨s', found, out⟩
      · have extended := alike.extended.trans extended₂
        have alike₃ := ahead_alike s₂ bp (bn / NINDIR ^ levels % NINDIR) levels
        have cache₃ := ahead_cache s₂ bp (bn / NINDIR ^ levels % NINDIR) levels
        have sound₃ := alike₃.sound sound₂ (cache₃ ▸ sound₂.good)
        have extended₃ := extended.trans alike₃.extended
        simp only [found, Option.bind_some]
        rw [show NSHIFT * (levels + 1) - NSHIFT = NSHIFT * levels by
          rw [Nat.mul_succ]
          omega]
        rcases ih sound₃ (by rw [alike₃.tree, here]) real₂ inside mem with
          ⟨nb', s', free', ran, sound', extended', there, real'⟩ | ⟨s', ran, out⟩
        · exact .inl ⟨nb', s', free', ran, sound', extended₃.trans extended', there, real'⟩
        · exact .inr ⟨s', ran, extended₃.outOfSpace out⟩
      · refine .inr ⟨s', by simp only [found, Option.bind_some], ?_⟩
        exact (show Extended needed s free _ free from alike.extended).outOfSpace out

/-- `bmap` for writing finds a block and puts the blocks there that are missing, or there are too
few free ones. -/
theorem bmap_write_cases {bn : ℕ} (sound : Sound [] s free) (few : bn < maxBlocks)
    (all : ∀ m ∈ needed, fileShape.Valid m)
    (mem : ∀ q, q <:+ (fileNode bn).2 → ((fileNode bn).1, q) ∈ needed) :
    (∃ (nb : Daddr) (s' : Sys) (free' : List Daddr), s.bmap bn B_WRITE = some ((nb : ℤ), s') ∧
      Sound [] s' free' ∧ Extended needed s free s' free' ∧
      s'.tree.addr (fileNode bn) = nb ∧ nb ≠ 0) ∨
    ∃ s', s.bmap bn B_WRITE = some (-1, s') ∧ OutOfSpace needed s free s' := by
  have alike : Alike s { s with rablock := 0 } := ⟨⟨rfl, rfl, rfl, rfl, rfl⟩, rfl, rfl, rfl, rfl⟩
  have sound₀ := alike.sound sound sound.good
  have inside := fileNode_valid few
  rw [bmap, if_neg (by omega)]
  simp only [Int.toNat_natCast]
  rcases fileNode_cases few with ⟨direct, node⟩ | ⟨j, rest, far, low, high, level, -, -, node⟩
  · rw [node] at inside mem ⊢
    rcases slot_spec sound₀ inside all (mem [] List.suffix_rfl) with
      ⟨nb, s₁, free₁, found, sound₁, extended, here, real⟩ | ⟨s', found, out⟩
    · simp only [if_pos direct, found, Option.bind_eq_bind, Option.bind_some]
      split
      · have ahead : Alike s₁ { s₁ with rablock := s₁.ip.i_addr (bn + 1) } :=
          ⟨⟨rfl, rfl, rfl, rfl, rfl⟩, rfl, rfl, rfl, rfl⟩
        exact .inl ⟨nb, _, free₁, rfl, ahead.sound sound₁ sound₁.good,
          (alike.extended.trans extended).trans ahead.extended, here, real⟩
      · exact .inl ⟨nb, s₁, free₁, rfl, sound₁, alike.extended.trans extended, here, real⟩
    · simp only [if_pos direct, found, Option.bind_eq_bind, Option.bind_some]
      exact .inr ⟨s', rfl, alike.extended.outOfSpace out⟩
  · rw [node] at inside mem ⊢
    have empty : [] <:+ below rest (4 - j) [] := List.nil_suffix
    simp only [if_neg (Nat.not_lt.mpr far), level, Option.bind_eq_bind]
    rcases slot_spec sound₀ (valid_suffix inside empty) all (mem [] empty) with
      ⟨nb, s₁, free₁, found, sound₁, extended, here, real⟩ | ⟨s', found, out⟩
    · have extended₁ := alike.extended.trans extended
      simp only [found, Option.bind_some]
      rcases descend_spec sound₁ here real inside all mem with
        ⟨nb', s₂, free₂, ran, sound₂, extended₂, there, real'⟩ | ⟨s', ran, out⟩
      · exact .inl ⟨nb', s₂, free₂, ran, sound₂, extended₁.trans extended₂, there, real'⟩
      · exact .inr ⟨s', ran, extended₁.outOfSpace out⟩
    · simp only [found, Option.bind_some]
      exact .inr ⟨s', rfl, alike.extended.outOfSpace out⟩

/-- `bmap` for writing finds a block, or puts the blocks there that are missing. -/
theorem bmap_write_spec {bn : ℕ} (sound : Sound [] s free) (few : bn < maxBlocks)
    (all : ∀ m ∈ needed, fileShape.Valid m)
    (mem : ∀ q, q <:+ (fileNode bn).2 → ((fileNode bn).1, q) ∈ needed)
    (room : s.missing needed ≤ free.length) :
    ∃ (nb : Daddr) (s' : Sys) (free' : List Daddr), s.bmap bn B_WRITE = some ((nb : ℤ), s') ∧
      Sound [] s' free' ∧ Extended needed s free s' free' ∧
      s'.tree.addr (fileNode bn) = nb ∧ nb ≠ 0 := by
  refine (bmap_write_cases sound few all mem).resolve_right ?_
  rintro ⟨s', -, out⟩
  exact absurd room (Nat.not_le.mpr out.few)

/-- What `bmap` returns for a node: -1 where there is no block. -/
def found (s : Sys) (n : Node) : ℤ := if s.tree.addr n = 0 then -1 else s.tree.addr n

/-- Below a node that is missing all are. -/
theorem missing_below (bn levels : ℕ) (gone : s.tree.addr (r, p) = 0) :
    s.tree.addr (r, below bn levels p) = 0 := by
  induction levels generalizing p with
  | zero => exact gone
  | succ levels ih => exact ih (Radix.addr_cons_of_eq gone)

/-- `bmap` for reading goes through the indirect blocks there are. -/
theorem descend_read_spec (bn levels : ℕ) (sound : Sound [] s free)
    (above : s.tree.addr (r, p) = a) (real : a ≠ 0) :
    ∃ s', descend B_READ bn levels (NSHIFT * levels) a s =
        some (s.found (r, below bn levels p), s') ∧ Sound [] s' free ∧ Alike s s' := by
  induction levels generalizing p a s with
  | zero =>
      refine ⟨s, ?_, sound, Alike.refl s⟩
      rw [descend, below, found, above, if_neg real]
  | succ levels ih =>
      obtain ⟨bp, c, read, sound₁, alike, hand⟩ := bread_spec sound a
      have errorless : (c.buf bp).b_error = false := sound₁.good.errorless bp hand.inside
      obtain ⟨good, view⟩ := sound₁.good.brelse hand.inside (by simp)
      have release : Alike s ({ s with cache := c }.brelse bp) :=
        alike.trans ⟨⟨view, rfl, rfl, rfl, rfl⟩, rfl, rfl, rfl, rfl⟩
      have sound₂ := release.sound sound good
      have entry : s.tree.addr (r, bn / NINDIR ^ levels % NINDIR :: p) =
          (c.buf bp).b_addr.word (bn / NINDIR ^ levels % NINDIR) := by
        rw [Radix.addr_cons_of_ne (above ▸ real), above, hand.data, alike.view]
        rfl
      simp only [descend, read, Option.bind_eq_bind, Option.bind_some, errorless,
        Bool.false_eq_true, if_false, index_eq, indirect, newBlock, if_true]
      by_cases here : (c.buf bp).b_addr.word (bn / NINDIR ^ levels % NINDIR) = 0
      · refine ⟨_, ?_, sound₂, release⟩
        rw [found, below, missing_below bn levels (entry.trans here), if_pos rfl]
        simp [here]
      · have alike₂ := release.trans
          (ahead_alike ({ s with cache := c }.brelse bp) bp (bn / NINDIR ^ levels % NINDIR) levels)
        have sound₃ := alike₂.sound sound (by rw [ahead_cache]; exact good)
        obtain ⟨s', ran, sound', alike'⟩ := ih sound₃ (by rw [alike₂.tree, entry]) here
        refine ⟨s', ?_, sound', alike₂.trans alike'⟩
        rw [found, alike₂.tree] at ran
        rw [if_pos here, Option.bind_some, found, below, ← ran, Nat.mul_succ,
          Nat.add_sub_cancel]

/-- `bmap` for reading finds the block there is. -/
theorem bmap_read_spec {bn : ℕ} (sound : Sound [] s free) (few : bn < maxBlocks) :
    ∃ s', s.bmap bn B_READ = some (s.found (fileNode bn), s') ∧ Sound [] s' free ∧
      Alike s s' := by
  have alike : Alike s { s with rablock := 0 } := ⟨⟨rfl, rfl, rfl, rfl, rfl⟩, rfl, rfl, rfl, rfl⟩
  have sound₀ := alike.sound sound sound.good
  rw [bmap, if_neg (by omega)]
  simp only [Int.toNat_natCast, slot, newBlock, if_true]
  rcases fileNode_cases few with ⟨direct, node⟩ | ⟨j, rest, far, low, high, level, -, -, node⟩
  · simp only [if_pos direct, node]
    by_cases here : s.ip.i_addr bn = 0
    · refine ⟨_, ?_, sound₀, alike⟩
      have gone : s.tree.addr (bn, []) = 0 := here
      simp [found, here, gone]
    · have real : s.tree.addr (bn, []) ≠ 0 := here
      simp only [found, if_neg real, ne_eq, here, not_false_eq_true, if_true,
        Option.bind_eq_bind, Option.bind_some]
      split
      · have ahead : Alike s { s with rablock := s.ip.i_addr (bn + 1) } :=
          ⟨⟨rfl, rfl, rfl, rfl, rfl⟩, rfl, rfl, rfl, rfl⟩
        exact ⟨_, rfl, ahead.sound sound sound.good, ahead⟩
      · exact ⟨_, rfl, sound₀, alike⟩
  · simp only [if_neg (Nat.not_lt.mpr far), level, node]
    by_cases here : s.ip.i_addr (NADDR - j) = 0
    · refine ⟨_, ?_, sound₀, alike⟩
      have gone : s.tree.addr (NADDR - j, []) = 0 := here
      have gone' := missing_below rest (4 - j) gone
      simp [found, here, gone']
    · obtain ⟨s', ran, sound', alike'⟩ := descend_read_spec rest (4 - j) sound₀
        (show Radix.addr _ (NADDR - j, []) = s.ip.i_addr (NADDR - j) from rfl) here
      refine ⟨s', ?_, sound', alike.trans alike'⟩
      rw [found, alike.tree] at ran
      simp only [ne_eq, here, not_false_eq_true, if_true, Option.bind_eq_bind, Option.bind_some]
      exact ran

end Sys

end UnixV7
