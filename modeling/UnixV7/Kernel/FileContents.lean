import Mathlib.Algebra.Group.Int.Defs
import Mathlib.Algebra.GroupWithZero.Nat
import UnixV7.Kernel.FileData

/-!
# What is read after a write

After a `writei` without an error every `readi` returns the old contents of the file with the new
bytes in them, whatever other calls do to the buffers and to blocks that are not the file's. A
`writei` of no bytes does not change the size; the bytes between the old end of the file and the
new ones are those in the file's blocks, zeros unless something has been left behind the end.
-/

namespace UnixV7

open Rw

namespace Sys

variable {s s' t t' : Sys} {contents : ℕ → UInt8} {size : ℕ}

/-- What other calls do between two calls on a file: they read, write and evict any blocks, take
some from the free list and free others, and leave the inode and the file's own blocks. -/
structure Meanwhile (s t : Sys) : Prop where
  dev : t.ip.i_dev = s.ip.i_dev
  mode : t.ip.i_mode = s.ip.i_mode
  size : t.ip.i_size = s.ip.i_size
  addr : t.ip.i_addr = s.ip.i_addr
  blocks : ∀ b, s.Owns b → t.cache.view s.ip.i_dev b = s.cache.view s.ip.i_dev b
  sound : ∃ free, Sound [] t free

/-- A request to read without a fault. -/
structure Asks (t : Sys) : Prop where
  quiet : t.u.u_error = none
  low : 0 ≤ t.u.u_offset
  high : t.u.u_offset < 2 ^ 31
  receives : t.Receives (min t.u.u_count (t.ip.i_size - t.u.u_offset).toNat)

/-- The bytes that are wanted and there are in blocks that an address of the inode leads to. -/
def Within (t : Sys) : Prop :=
  t.u.u_offset < t.ip.i_size →
    t.u.u_offset + min t.u.u_count (t.ip.i_size - t.u.u_offset).toNat ≤ maxBlocks * BSIZE

/-- The states before a call of `readi`, after any others, from `s` on. -/
inductive ReadAfter (d_read : Dev → Sys → Option Sys) (s : Sys) : Sys → Prop
  | start {t : Sys} : s.Meanwhile t → ReadAfter d_read s t
  | next {t t' t'' : Sys} : ReadAfter d_read s t → t.Asks → t.Within →
      t.readi d_read = some t' → t'.Meanwhile t'' → ReadAfter d_read s t''

/-- Of `contents`, as long as `size`, as much as was wanted has been read. -/
structure Returns (contents : ℕ → UInt8) (size : ℕ) (t t' : Sys) : Prop where
  u : t'.u = t.u.advance (min t.u.u_count (size - t.u.u_offset.toNat))
  user : t'.user = (t.store t.u.u_base (min t.u.u_count (size - t.u.u_offset.toNat))
    fun i => contents (t.u.u_offset.toNat + i)).user
  kernel : t'.kernel = (t.store t.u.u_base (min t.u.u_count (size - t.u.u_offset.toNat))
    fun i => contents (t.u.u_offset.toNat + i)).kernel

/-- A write of the bytes of `source` at `o` into a regular file of this size, below the limit that
the addresses of an inode set, with enough free blocks and no fault. -/
structure Writes (s : Sys) (free : List Daddr) (size o : ℕ) (source : ℕ → UInt8) : Prop where
  sound : Sound [] s free
  regular : s.ip.i_mode &&& IFMT = IFREG
  quiet : s.u.u_error = none
  length : s.ip.i_size = size
  offset : s.u.u_offset = o
  small : o + s.u.u_count ≤ maxBlocks * BSIZE
  sends : s.Sends s.u.u_count source
  room : s.missing (nodesFor o s.u.u_count) ≤ free.length

/-- After `writei` the file has this size, and this is what `readi` returns, now and later. -/
def ReadsBack (d_read d_write : Dev → Sys → Option Sys) (asks : Sys → Prop) (s : Sys)
    (contents : ℕ → UInt8) (size : ℕ) : Prop :=
  ∃ s', s.writei d_write = some s' ∧ s'.ip.i_size = size ∧
    ∀ t, ReadAfter d_read s' t → t.Asks → asks t →
      ∃ t', t.readi d_read = some t' ∧ Returns contents size t t'

/-! ## The file between the calls -/

/-- A file as it was, on a device that is in order. -/
structure Kept (s t : Sys) : Prop where
  mode : t.ip.i_mode = s.ip.i_mode
  size : t.ip.i_size = s.ip.i_size
  block : ∀ n, fileShape.Valid n → t.block n = s.block n
  sound : ∃ free, Sound [] t free

/-- The blocks of the file are where they were. -/
theorem Meanwhile.addr_eq (meanwhile : s.Meanwhile t) {n : Node} (valid : fileShape.Valid n) :
    t.tree.addr n = s.tree.addr n := by
  refine Radix.addr_congr (fun r => congrFun meanwhile.addr r) (fun m inside _ there i => ?_) valid
  have same := meanwhile.blocks (s.tree.addr m) ⟨m, inside, there, rfl⟩
  simp only [tree, meanwhile.dev]
  exact congrArg (fun b => Bytes.word b i) same

theorem Meanwhile.kept (meanwhile : s.Meanwhile t) : s.Kept t where
  mode := meanwhile.mode
  size := meanwhile.size
  block n valid := by
    rw [block, block, meanwhile.addr_eq valid, meanwhile.dev]
    split
    · rfl
    · next there => exact meanwhile.blocks _ ⟨n, valid, there, rfl⟩
  sound := meanwhile.sound

theorem Kept.trans {t'' : Sys} (first : s.Kept t) (second : t.Kept t'') : s.Kept t'' where
  mode := second.mode.trans first.mode
  size := second.size.trans first.size
  block n valid := (second.block n valid).trans (first.block n valid)
  sound := second.sound

theorem Kept.byte (kept : s.Kept t) {x : ℕ} (below : x < maxBlocks * BSIZE) :
    t.byte x = s.byte x :=
  congrFun (kept.block _ (fileNode_valid (Nat.div_lt_of_lt_mul (Nat.mul_comm _ _ ▸ below)))) _

/-- One call of `readi`: it returns what is in the file and leaves the file as it was. -/
theorem readi_kept (d_read : Dev → Sys → Option Sys) (kept : s.Kept t)
    (regular : s.ip.i_mode &&& IFMT = IFREG) (length : s.ip.i_size = size)
    (data : ∀ x, x < maxBlocks * BSIZE → s.byte x = contents x) (asks : t.Asks)
    (within : t.Within) :
    ∃ t', t.readi d_read = some t' ∧ s.Kept t' ∧ Returns contents size t t' := by
  obtain ⟨free, sound⟩ := kept.sound
  obtain ⟨quiet, low, high, receives⟩ := asks
  obtain ⟨o, offset⟩ := Int.eq_ofNat_of_zero_le low
  have length' : t.ip.i_size = size := kept.size.trans length
  have left : (t.ip.i_size - t.u.u_offset).toNat = size - o := by omega
  rw [left] at receives
  have within' : o < size → o + min t.u.u_count (size - o) ≤ maxBlocks * BSIZE := by
    intro before
    have fits := within (by omega)
    rw [left, offset] at fits
    exact_mod_cast fits
  obtain ⟨t', ran, read⟩ := readi_spec d_read sound (by rw [kept.mode, regular]) quiet offset
    (by omega) length' within' receives
  have same : Read t free (min t.u.u_count (size - o)) (fun i => contents (o + i)) t' := by
    refine read.congr fun i below => ?_
    have fits := within' (by omega)
    have inside : o + i < maxBlocks * BSIZE := by omega
    rw [kept.byte inside, data _ inside]
  have start : t.u.u_offset.toNat = o := by omega
  refine ⟨t', ran, kept.trans ⟨read.mode, read.size, fun n _ => read.block n, free, read.sound⟩, ?_⟩
  constructor
  · rw [start]
    exact same.u
  · rw [start]
    exact same.user
  · rw [start]
    exact same.kernel

/-- Whatever is read and whatever happens between the calls, the file stays as it was. -/
theorem ReadAfter.kept {d_read : Dev → Sys → Option Sys} (after : ReadAfter d_read s t)
    (regular : s.ip.i_mode &&& IFMT = IFREG) (length : s.ip.i_size = size) : s.Kept t := by
  induction after with
  | start meanwhile => exact meanwhile.kept
  | next _ asks within ran meanwhile ih =>
      obtain ⟨t', ran', kept, -⟩ := readi_kept d_read ih regular length
        (fun _ _ => rfl) asks within
      obtain rfl := Option.some.inj (ran.symm.trans ran')
      exact kept.trans meanwhile.kept

end Sys

open Sys

/-- `writei` makes the file read back with the bytes spliced in; it changes no block that is
neither the file's nor free and none that is free still, and leaves zeros behind the end of the
file where there were. -/
theorem readsBack_of_writei (d_read d_write : Dev → Sys → Option Sys) (s : Sys)
    (free : List Daddr) (size o : ℕ) (source : ℕ → UInt8)
    (writes : s.Writes free size o source) (some : 0 < s.u.u_count) :
    ReadsBack d_read d_write Within s (Bytes.splice s.byte o s.u.u_count source)
        (max size (o + s.u.u_count)) ∧
      ∃ s' free', s.writei d_write = Option.some s' ∧ s'.u = s.u.advance s.u.u_count ∧
        Sound [] s' free' ∧ free' <:+ free ∧
        (∀ d b, d ≠ s.ip.i_dev ∨ b ∈ free' ∨ b ∉ free ∧ ¬s.Owns b →
          s'.cache.view d b = s.cache.view d b) ∧
        ((∀ x, size ≤ x → x < maxBlocks * BSIZE → s.byte x = 0) →
          ∀ x, max size (o + s.u.u_count) ≤ x → x < maxBlocks * BSIZE → s'.byte x = 0) := by
  obtain ⟨s', free', ran, wrote⟩ :=
    writei_spec d_write writes.sound writes.regular writes.quiet writes.offset writes.small some
      writes.sends writes.room
  have length' : s'.ip.i_size = (max size (o + s.u.u_count) : ℕ) := by
    rw [wrote.size, writes.length]
    omega
  have regular' : s'.ip.i_mode &&& IFMT = IFREG := by
    rw [wrote.mode, writes.regular]
  constructor
  · refine ⟨s', ran, length', fun t after asks within => ?_⟩
    have kept := after.kept regular' length'
    obtain ⟨t', ran', -, returns⟩ :=
      readi_kept d_read kept regular' length' wrote.byte asks within
    exact ⟨t', ran', returns⟩
  · refine ⟨s', free', ran, wrote.u, wrote.sound, wrote.suffix, fun d b away => ?_,
      fun zeros x behind below => ?_⟩
    · by_cases same : d = s.ip.i_dev
      · subst same
        rcases away with other | unused | outside
        · exact absurd rfl other
        · exact wrote.unused b unused
        · exact wrote.outside _ b (.inr outside)
      · exact wrote.outside d b (.inl same)
    · rw [wrote.byte x below, if_neg (by omega)]
      exact zeros x (by omega) below

/-- A superblock with block 9 free, and no other one. -/
def oneFree : Filsys := ⟨2, 10, 2, fun i => if i = 1 then 9 else 0, 0, fun _ => 0, 0, 0, 0, 0⟩

/-- A write of one or more bytes 7 into a file of one block or none, with block 9 free and the
byte `fill` all over the device. -/
def smallFile (block : Daddr) (size o : ℤ) (count : ℕ) (fill : UInt8) : Sys where
  cache :=
    { buf := fun _ => ⟨none, 0, false, false, false, false, 0, fun _ => 0⟩
      disk := fun _ _ _ => fill
      bad := fun _ _ => false
      rounds := [] }
  fp := oneFree
  ip := ⟨0, 0, IFREG, size, fun i => if i = 0 then block else 0, 0⟩
  u := ⟨1, 0, count, o, none⟩
  user := fun _ => none
  kernel := fun _ => 7
  rablock := 0

/-- The next request is for one byte. -/
def Sys.oneByte (s : Sys) (o : ℤ) : Sys := { s with u := ⟨1, 0, 1, o, none⟩ }

theorem smallFile_addr {block : ℕ} {size o : ℤ} {count : ℕ} {fill : UInt8} {n : Node}
    (valid : fileShape.Valid n) :
    (smallFile block size o count fill).tree.addr n = if n = (0, []) then block else 0 := by
  obtain ⟨r, p⟩ := n
  have far : ∀ r q, r ≠ 0 → (smallFile block size o count fill).tree.addr (r, q) = 0 := by
    intro r q away
    induction q with
    | nil => exact if_neg away
    | cons i q ih => exact Radix.addr_cons_of_eq ih
  by_cases first : r = 0
  · subst first
    obtain rfl : p = [] := List.eq_nil_of_length_eq_zero (Nat.le_zero.mp valid.depth)
    rfl
  · rw [far r p first, if_neg (by simp [first])]

theorem smallFile_sound {block : ℕ} {size o : ℤ} {count : ℕ} {fill : UInt8}
    (range : block = 0 ∨ 2 ≤ block ∧ block < 9) :
    Sound [] (smallFile block size o count fill) [9] where
  good :=
    { reliable := fun _ _ => rfl
      distinct := fun _ _ _ _ _ named => by simp [smallFile] at named
      clean := fun _ _ _ named => by simp [smallFile] at named
      dirty := fun _ _ late => by simp [smallFile] at late
      errorless := fun _ _ => rfl
      resid := fun _ _ => rfl
      busy := fun _ _ => by simp [smallFile] }
  stocked :=
    { listed := .next (show oneFree.s_free 1 ≠ 0 by decide) (.last rfl)
      nodup := List.nodup_singleton 9
      range := fun b mem => by
        obtain rfl := List.mem_singleton.mp mem
        exact ⟨by decide, rfl⟩
      nfree := show oneFree.s_nfree ≤ NICFREE by decide
      ninode := show oneFree.s_ninode ≤ NICINOD by decide
      unlocked := rfl }
  long := show oneFree.s_fsize ≤ 2 ^ 31 by decide
  nodes n valid there := by
    rw [smallFile_addr valid] at there ⊢
    by_cases root : n = (0, [])
    · rw [if_pos root] at there ⊢
      obtain ⟨low, high⟩ := range.resolve_left there
      have inside : oneFree.badblock block = false := by
        show (decide (block < 2) || decide (10 ≤ block)) = false
        rw [Bool.or_eq_false_iff, decide_eq_false_iff_not, decide_eq_false_iff_not]
        omega
      exact ⟨⟨there, inside⟩, fun mem => Nat.ne_of_lt high (List.mem_singleton.mp mem)⟩
    · exact absurd (if_neg root) there
  distinct n m left right same there := by
    rw [smallFile_addr left] at same there
    rw [smallFile_addr right] at same
    by_cases first : n = (0, [])
    · rw [if_pos first] at same there
      by_cases second : m = (0, [])
      · exact first.trans second.symm
      · exact absurd (same.trans (if_neg second)) there
    · exact absurd (if_neg first) there

theorem smallFile_writes {block size o count : ℕ} {fill : UInt8}
    (range : block = 0 ∨ 2 ≤ block ∧ block < 9) (first : o + count ≤ BSIZE) :
    (smallFile block size o count fill).Writes [9] size o fun _ => 7 where
  sound := smallFile_sound range
  regular := show IFREG &&& IFMT = IFREG by decide
  quiet := rfl
  length := rfl
  offset := rfl
  small := Nat.le_trans first (by decide)
  sends _ _ := rfl
  room := by
    refine (Finset.card_filter_le _ _).trans ?_
    show (nodesFor o count).card ≤ 1
    have only : ∀ n ∈ nodesFor o count, n = (0, []) := by
      intro n mem
      obtain ⟨bn, ⟨-, last⟩, q, onWay, rfl⟩ := mem_nodesFor.mp mem
      have size : BSIZE = 512 := rfl
      rw [size] at last first
      obtain rfl : bn = 0 := by omega
      obtain rfl := List.suffix_nil.mp onWay
      rfl
    exact Finset.card_le_one.mpr fun n left m right => (only n left).trans (only m right).symm

theorem readsBack_smallFile :
    (smallFile 0 0 3 2 0).Writes [9] (0 : ℕ) (3 : ℕ) (fun _ => 7) ∧ 0 < 2 ∧
      ReadsBack (fun _ _ => none) (fun _ _ => none) Within (smallFile 0 0 3 2 0)
        (Bytes.splice (smallFile 0 0 3 2 0).byte 3 2 fun _ => 7) 5 :=
  ⟨smallFile_writes (.inl rfl) (by decide), by decide,
    (readsBack_of_writei (fun _ _ => none) (fun _ _ => none) (smallFile 0 0 3 2 0) [9] 0 3
      (fun _ => 7) (smallFile_writes (.inl rfl) (by decide)) (by decide)).1⟩

/-- A request for one byte may follow a write. -/
theorem oneByte_returns {d_read d_write : Dev → Sys → Option Sys} {asks : Sys → Prop}
    {s s' t' : Sys} {free : List Daddr} {size length o x : ℕ} {source contents : ℕ → UInt8}
    (writes : s.Writes free size o source) (some : 0 < s.u.u_count)
    (back : ReadsBack d_read d_write asks s contents length)
    (ran : s.writei d_write = Option.some s')
    (read : (s'.oneByte x).readi d_read = Option.some t') (small : x < 2 ^ 31)
    (asked : asks (s'.oneByte x)) : Returns contents length (s'.oneByte x) t' := by
  obtain ⟨s₁, free', ran₁, wrote⟩ := writei_spec d_write writes.sound writes.regular writes.quiet
    writes.offset writes.small some writes.sends writes.room
  obtain rfl := Option.some.inj (ran.symm.trans ran₁)
  obtain ⟨s₂, ran₂, -, reads⟩ := back
  obtain rfl := Option.some.inj (ran.symm.trans ran₂)
  have same : SameBlocks s' (s'.oneByte x) := ⟨rfl, rfl, rfl, rfl, rfl⟩
  have sound := same.sound wrote.sound wrote.sound.good
  have high : (x : ℤ) < 2 ^ 31 := by omega
  obtain ⟨t'', read', returns⟩ := reads (s'.oneByte x)
    (.start ⟨rfl, rfl, rfl, rfl, fun _ _ => rfl, free', sound⟩)
    ⟨rfl, Int.natCast_nonneg x, high, .inl rfl⟩ asked
  obtain rfl := Option.some.inj (read.symm.trans read')
  exact returns

/-- A write of no bytes leaves the size; what is behind the end of the file is not made zeros;
and no `readi` goes beyond the limit, even in a file that is longer. -/
theorem not_forall_readsBack :
    (¬∀ s free size o source, s.Writes free size o source →
      ReadsBack (fun _ _ => none) (fun _ _ => none) (fun _ => True) s
        (Bytes.splice (fun x => if x < size then s.byte x else 0) o s.u.u_count source)
        (max size (o + s.u.u_count))) ∧
    (¬∀ s free size o source, s.Writes free size o source → 0 < s.u.u_count →
      ReadsBack (fun _ _ => none) (fun _ _ => none) Within s
        (Bytes.splice (fun x => if x < size then s.byte x else 0) o s.u.u_count source)
        (max size (o + s.u.u_count))) ∧
    ¬∀ s free size o source, s.Writes free size o source → 0 < s.u.u_count →
      ReadsBack (fun _ _ => none) (fun _ _ => none) (fun _ => True) s
        (Bytes.splice s.byte o s.u.u_count source) (max size (o + s.u.u_count)) := by
  refine ⟨fun all => ?_, fun all => ?_, fun all => ?_⟩
  · obtain ⟨s', ran, size, -⟩ := all (smallFile 0 0 5 0 0) [9] 0 5 (fun _ => 7)
      (smallFile_writes (.inl rfl) (by decide))
    obtain rfl : smallFile 0 0 5 0 0 = s' := Option.some.inj ran
    exact absurd size (by decide)
  · have writes : (smallFile 5 0 3 1 8).Writes [9] (0 : ℕ) (3 : ℕ) fun _ => 7 :=
      smallFile_writes (.inr (by decide)) (by decide)
    have run : ∃ s' t', (smallFile 5 0 3 1 8).writei (fun _ _ => none) = some s' ∧
        (s'.oneByte 0).readi (fun _ _ => none) = some t' ∧ t'.kernel 0 = 8 :=
      ⟨_, _, rfl, rfl, rfl⟩
    obtain ⟨s', t', wrote, read, byte⟩ := run
    have within : (s'.oneByte 0).Within := by
      intro _
      have limit : (maxBlocks : ℤ) * BSIZE = 1082201088 := by decide
      show (0 : ℤ) + (min 1 (s'.ip.i_size - 0).toNat : ℕ) ≤ (maxBlocks : ℤ) * BSIZE
      omega
    have returns := oneByte_returns writes (by decide) (all _ _ _ _ _ writes (by decide)) wrote
      read (by decide) within
    have zero : t'.kernel 0 = 0 := congrFun returns.kernel 0
    exact absurd (byte.symm.trans zero) (by decide)
  · have writes : (smallFile 5 (1082201089 : ℕ) 0 1 0).Writes [9] (1082201089 : ℕ) (0 : ℕ)
        fun _ => 7 := smallFile_writes (.inr (by decide)) (by decide)
    have run : ∃ s' t', (smallFile 5 (1082201089 : ℕ) 0 1 0).writei (fun _ _ => none) = some s' ∧
        (s'.oneByte 1082201088).readi (fun _ _ => none) = some t' ∧ t'.u.u_count = 1 :=
      ⟨_, _, rfl, rfl, rfl⟩
    obtain ⟨s', t', wrote, read, count⟩ := run
    have returns := oneByte_returns writes (by decide) (all _ _ _ _ _ writes (by decide)) wrote
      read (by decide) trivial
    have zero : t'.u.u_count = 0 := congrArg User.u_count returns.u
    exact absurd (count.symm.trans zero) (by decide)

end UnixV7
