import Mathlib.Algebra.GroupWithZero.Nat
import UnixV7.Kernel.Bmap
import UnixV7.Kernel.Iomove

/-!
# The contents of a file

The bytes of a file are those in the blocks of its nodes, zeros where there is no block. `writei`
replaces the bytes it is given and no others, and `readi` returns what is there.
-/

namespace UnixV7

open Rw

namespace Sys

variable {s s' : Sys} {held : List BufId} {free free' : List Daddr} {needed : Finset Node}
  {bp : BufId} {a : Daddr} {n : Node} {o k : ℕ} {source : ℕ → UInt8}

/-- The byte of the file at an offset. -/
def byte (s : Sys) (x : ℕ) : UInt8 := s.block (fileNode (x / BSIZE)) (x % BSIZE)

/-! ## Writing -/

/-- A buffer in hand of a block of the file's device, whatever its data. -/
structure Holds (s : Sys) (bp : BufId) (a : Daddr) : Prop where
  inside : bp < NBUF
  dev : (s.cache.buf bp).b_dev = some s.ip.i_dev
  blkno : (s.cache.buf bp).b_blkno = a

/-- The data of a block of the file are replaced. -/
theorem edit_spec (sound : Sound [bp] s free) (hand : s.Holds bp a) (inside : fileShape.Valid n)
    (leaf : Leaf n) (here : s.tree.addr n = a) (real : a ≠ 0)
    (all : ∀ m ∈ needed, fileShape.Valid m) (f : Bytes → Bytes) :
    Sound [] ((s.edit bp f).bdwrite bp) free ∧
      Grown needed s free ((s.edit bp f).bdwrite bp) free ∧
      ∀ m, fileShape.Valid m → Leaf m → ((s.edit bp f).bdwrite bp).block m =
        if m = n then f (s.cache.buf bp).b_addr else s.block m := by
  have errorless := sound.good.errorless bp hand.inside
  have resid := sound.good.resid bp hand.inside
  obtain ⟨good, view⟩ := sound.good.bdwrite
    (fun b => { b with b_addr := f b.b_addr }) hand.inside (by simp) hand.dev
    rfl rfl errorless resid
  rw [hand.blkno] at view
  have shown : ((s.edit bp f).bdwrite bp).cache.view = fun d k =>
      if d = s.ip.i_dev ∧ k = a then f (s.cache.buf bp).b_addr else s.cache.view d k := view
  have other : ∀ d k, d ≠ s.ip.i_dev ∨ k ≠ a →
      ((s.edit bp f).bdwrite bp).cache.view d k = s.cache.view d k := by
    intro d k away
    rw [shown]
    exact if_neg fun both => away.elim (fun no => no both.1) fun no => no both.2
  -- the block is no table of addresses
  have tables : ∀ m : Node, fileShape.Valid m → m.2.length < fileShape.depth m.1 →
      s.tree.addr m ≠ 0 → s.tree.addr m ≠ a := by
    rintro m valid inner there same
    obtain rfl := sound.distinct m n valid inside (same.trans here.symm) there
    exact absurd leaf (Nat.ne_of_lt inner)
  have addr : ∀ m, fileShape.Valid m →
      ((s.edit bp f).bdwrite bp).tree.addr m = s.tree.addr m := by
    intro m valid
    refine Radix.addr_congr (fun _ => rfl) (fun k inner deep there i => ?_) valid
    exact congrArg (fun b => Bytes.word b i) (other _ _ (.inr (tables k inner deep there)))
  have off : a ∉ free := here ▸ (sound.nodes n inside (here ▸ real)).2
  refine ⟨?_, ?_, fun m valid flat => ?_⟩
  · exact
      { good := good
        stocked :=
          { listed := sound.stocked.listed.congr (fun _ _ => rfl) fun b mem => by
              have away : b ≠ a := by
                rintro rfl
                exact off mem
              exact congrArg Bytes.fblk (other _ _ (.inr away))
            nodup := sound.stocked.nodup
            range := sound.stocked.range
            nfree := sound.stocked.nfree
            ninode := sound.stocked.ninode
            unlocked := sound.stocked.unlocked }
        long := sound.long
        nodes := fun m valid there => by
          rw [addr m valid] at there ⊢
          exact sound.nodes m valid there
        distinct := fun m k left right same there => by
          rw [addr m left] at same there
          rw [addr k right] at same
          exact sound.distinct m k left right same there }
  · exact
      { dev := rfl, mode := rfl, user := rfl, kernel := rfl
        addr := fun m valid _ => addr m valid
        outside := fun d b away => other d b (away.imp_right fun away same =>
          away.2 ⟨n, inside, here ▸ real, here.trans same.symm⟩)
        suffix := List.suffix_rfl
        unused := fun b mem => other _ b (.inr fun same => off (same ▸ mem))
        blocks := fun m valid _ => .inr (addr m valid)
        count := by
          have same : (needed.filter fun m => ((s.edit bp f).bdwrite bp).tree.addr m = 0) =
              needed.filter fun m => s.tree.addr m = 0 :=
            Finset.filter_congr fun m mem => by rw [addr m (all m mem)]
          simp only [missing, same] }
  · have dev : ((s.edit bp f).bdwrite bp).ip.i_dev = s.ip.i_dev := rfl
    simp only [block, addr m valid, dev]
    by_cases same : m = n
    · subst same
      rw [if_neg (here ▸ real), if_pos rfl, here, shown]
      exact if_pos ⟨rfl, rfl⟩
    · rw [if_neg same]
      split
      · rfl
      · next there =>
          refine other _ _ (.inr fun also => same ?_)
          exact sound.distinct m n valid inside (also.trans here.symm) there

/-- The buffer that `writei` gets: the block's data are read unless all are to be replaced. -/
theorem writeBuf_spec (sound : Sound [] s free) (a : Daddr) (k : ℕ) :
    ∃ bp c, s.writeBuf s.ip.i_dev a k = some (bp, { s with cache := c }) ∧
      Sound [bp] { s with cache := c } free ∧ Alike s { s with cache := c } ∧
      Holds { s with cache := c } bp a ∧
      (k ≠ BSIZE → (c.buf bp).b_addr = s.cache.view s.ip.i_dev a) := by
  rw [writeBuf]
  split
  · next whole =>
      obtain ⟨bp, c, taken, handed⟩ :=
        sound.good.take (some (s.ip.i_dev, a)) (by decide) (by simp [Cache.Apart])
      have alike : Alike s { s with cache := c } :=
        ⟨⟨handed.view, rfl, rfl, rfl, rfl⟩, rfl, rfl, rfl, rfl⟩
      refine ⟨bp, c, by simp [Cache.getblk, taken], alike.sound sound handed.good, alike,
        ⟨handed.inside, handed.b_dev, handed.b_blkno _ rfl⟩, fun other => absurd whole other⟩
  · obtain ⟨bp, c, read, sound', alike, hand⟩ := bread_spec sound a
    exact ⟨bp, c, read, sound', alike, ⟨hand.inside, hand.dev, hand.blkno⟩,
      fun _ => hand.data.trans (by rw [alike.view])⟩

/-- The state after `writei` has put bytes into a buffer. -/
def put (s : Sys) (bp : BufId) (on k : ℕ) (source : ℕ → UInt8) : Sys :=
  { ((s.edit bp fun m => m.splice on k source).bdwrite bp).moved k with
    ip := { s.ip with
      i_size := max s.ip.i_size (s.u.advance k).u_offset
      i_flag := s.ip.i_flag ||| (IUPD ||| ICHG) } }

theorem writePart_eq (bp : BufId) (on : ℕ) (regular : s.ip.i_mode &&& IFMT = IFREG)
    (quiet : s.u.u_error = none) (some : 0 < k) (enough : k ≤ s.u.u_count)
    (sends : s.Sends k source) : s.writePart bp on k = s.put bp on k source := by
  have still : ((s.edit bp fun m => m.splice on k source).moved k).u.u_error = none := quiet
  have type : ¬IFREG = IFDIR := by decide
  have larger : max s.ip.i_size (s.u.advance k).u_offset =
      if s.ip.i_size < (s.u.advance k).u_offset then (s.u.advance k).u_offset
      else s.ip.i_size := by
    split <;> omega
  simp only [writePart, put, larger, iomove_write bp on some enough sends, still, ne_eq,
    not_true_eq_false, if_false, regular]
  simp only [type, false_or, and_true]
  rfl

/-- `k` bytes from offset `o` on have been written. -/
structure Wrote (needed : Finset Node) (s : Sys) (free : List Daddr) (o k : ℕ)
    (source : ℕ → UInt8) (s' : Sys) (free' : List Daddr) : Prop
    extends Grown needed s free s' free' where
  sound : Sound [] s' free'
  byte : ∀ x, x < maxBlocks * BSIZE →
    s'.byte x = if o ≤ x ∧ x < o + k then source (x - o) else s.byte x
  size : s'.ip.i_size = max s.ip.i_size (o + k)
  u : s'.u = s.u.advance k

theorem hasBlocks_of_regular (regular : s.ip.i_mode &&& IFMT = IFREG) : s.hasBlocks := by
  rw [hasBlocks, regular]
  decide

theorem advance_offset {u : User} (offset : u.u_offset = o) (small : o + k < 2 ^ 31) :
    (u.advance k).u_offset = ((o + k : ℕ) : ℤ) := by
  have moved : (u.advance k).u_offset = offt (u.u_offset + k) := rfl
  rw [moved, offset, offt_eq (by omega) (by omega)]
  rfl

/-- Bytes that do not leave a block. -/
theorem part_iff {x : ℕ} (part : k ≤ BSIZE - o % BSIZE) :
    o ≤ x ∧ x < o + k ↔
      x / BSIZE = o / BSIZE ∧ o % BSIZE ≤ x % BSIZE ∧ x % BSIZE < o % BSIZE + k := by
  simp only [BSIZE] at *
  omega

theorem part_sub {x : ℕ} (mine : x / BSIZE = o / BSIZE) : x % BSIZE - o % BSIZE = x - o := by
  simp only [BSIZE] at *
  omega

/-- Bytes in one block stand as far apart in it as in the file. -/
theorem part_in {i : ℕ} (mine : (o + i) / BSIZE = o / BSIZE) :
    (o + i) % BSIZE = o % BSIZE + i := by
  simp only [BSIZE] at *
  omega

/-- Once round the loop of `writei`, from where `bmap` has found the block. -/
theorem writeOnce_mapped {nb : Daddr} {s₁ : Sys} {free₁ : List Daddr}
    (regular : s.ip.i_mode &&& IFMT = IFREG)
    (quiet : s.u.u_error = none) (offset : s.u.u_offset = o) (small : o < maxBlocks * BSIZE)
    (some : 0 < s.u.u_count) (part : min (BSIZE - o % BSIZE) s.u.u_count = k)
    (sends : s.Sends k source) (all : ∀ m ∈ needed, fileShape.Valid m)
    (mapped : s.bmap ((o / BSIZE : ℕ) : ℤ) B_WRITE = Option.some ((nb : ℤ), s₁))
    (sound₁ : Sound [] s₁ free₁) (extended : Extended needed s free s₁ free₁)
    (here : s₁.tree.addr (fileNode (o / BSIZE)) = nb) (real : nb ≠ 0) :
    ∃ s', s.writeOnce = Option.some (s', decide (s.u.u_count - k ≠ 0)) ∧
      Wrote needed s free o k source s' free₁ := by
  have size : BSIZE = 512 := rfl
  have limit : maxBlocks = 2113674 := rfl
  have few : o / BSIZE < maxBlocks := Nat.div_lt_of_lt_mul (by rwa [Nat.mul_comm])
  have within : o % BSIZE < BSIZE := Nat.mod_lt o (by decide)
  have moves : 0 < k := by omega
  have lbn : (o : ℤ) / (BSIZE : ℤ) = ((o / BSIZE : ℕ) : ℤ) := rfl
  have on : ((o : ℤ) % (BSIZE : ℤ)).toNat = o % BSIZE := rfl
  have inside := fileNode_valid few
  have leaf := fileNode_leaf few
  have regular₁ : s₁.ip.i_mode &&& IFMT = IFREG := by rw [extended.mode, regular]
  obtain ⟨bp, c, found, sound₂, alike, hand, data⟩ := writeBuf_spec sound₁ nb k
  obtain ⟨sound₃, grown, after⟩ := edit_spec sound₂ hand inside leaf (by rw [alike.tree, here])
    real all fun m => m.splice (o % BSIZE) k source
  have u₂ : ({ s₁ with cache := c } : Sys).u = s.u := extended.u
  have sends₂ : Sends { s₁ with cache := c } k source := by
    intro i below
    have byte := sends i below
    rw [Sys.source] at byte ⊢
    simpa only [extended.u, extended.user, extended.kernel] using byte
  have result := writePart_eq (s := { s₁ with cache := c }) bp (o % BSIZE) regular₁
    (by rw [u₂, quiet]) moves (by rw [u₂]; omega) sends₂
  have u₃ : (writePart { s₁ with cache := c } bp (o % BSIZE) k).u = s.u.advance k := by
    rw [result, ← u₂]
    rfl
  refine ⟨writePart { s₁ with cache := c } bp (o % BSIZE) k, ?_, ?_⟩
  · have error : (s.u.advance k).u_error = none := quiet
    have count : (s.u.advance k).u_count = s.u.u_count - k := rfl
    have found' : ¬(nb : ℤ) < 0 := by omega
    have word : blkno nb = nb := blkno_natCast (word_of_inRange sound₁.long
      (here ▸ (sound₁.nodes _ inside (by rw [here]; exact real)).1))
    simp only [writeOnce, if_pos (hasBlocks_of_regular regular), offset, lbn, on, part, mapped,
      Option.bind_eq_bind, Option.bind_some, hasBlocks_of_regular regular₁, if_true,
      word, found, found', and_false, if_false, u₃, error, count, true_and]
  · have same : SameBlocks
        ((edit { s₁ with cache := c } bp fun m => m.splice (o % BSIZE) k source).bdwrite bp)
        (put { s₁ with cache := c } bp (o % BSIZE) k source) := ⟨rfl, rfl, rfl, rfl, rfl⟩
    have still : ∀ m, fileShape.Valid m → Leaf m → block { s₁ with cache := c } m = s.block m :=
      fun m valid leaf => (alike.block m).trans (extended.block m valid leaf)
    have before : ∀ y, ¬(o % BSIZE ≤ y ∧ y < o % BSIZE + k) → y < BSIZE →
        (c.buf bp).b_addr y = s.block (fileNode (o / BSIZE)) y := by
      intro y outside below
      rw [data (by omega), ← extended.block _ inside leaf, block, here, if_neg real]
    rw [← result] at same
    exact
      { toGrown := extended.toGrown.trans (alike.extended.toGrown.trans
          (grown.trans (same.grown (by rw [result]; rfl) (by rw [result]; rfl))))
        sound := same.sound sound₃ (by rw [result]; exact sound₃.good)
        byte := fun x below => by
          have valid := fileNode_valid (Nat.div_lt_of_lt_mul (Nat.mul_comm _ _ ▸ below))
          have flat := fileNode_leaf (Nat.div_lt_of_lt_mul (Nat.mul_comm _ _ ▸ below))
          rw [byte, same.block, after _ valid flat]
          rw [if_congr (part_iff (by omega)) rfl rfl]
          by_cases mine : x / BSIZE = o / BSIZE
          · rw [mine, if_pos rfl, Bytes.splice]
            by_cases inner : o % BSIZE ≤ x % BSIZE ∧ x % BSIZE < o % BSIZE + k
            · rw [if_pos inner, if_pos ⟨rfl, inner⟩, part_sub mine]
            · rw [if_neg inner, if_neg fun both => inner both.2, byte, mine]
              exact before _ inner (Nat.mod_lt x (by decide))
          · rw [if_neg, if_neg fun both => mine both.1, still _ valid flat, byte]
            exact fun also => mine
              (fileNode_inj (Nat.div_lt_of_lt_mul (Nat.mul_comm _ _ ▸ below)) few also)
        size := by
          have last : o + k < 2 ^ 31 := by
            rw [limit, size] at small
            omega
          rw [result, put, u₂, extended.size, advance_offset offset last]
          rfl
        u := u₃ }

/-- Once round the loop of `writei`. -/
theorem writeOnce_spec (sound : Sound [] s free) (regular : s.ip.i_mode &&& IFMT = IFREG)
    (quiet : s.u.u_error = none) (offset : s.u.u_offset = o) (small : o < maxBlocks * BSIZE)
    (some : 0 < s.u.u_count) (part : min (BSIZE - o % BSIZE) s.u.u_count = k)
    (sends : s.Sends k source) (all : ∀ m ∈ needed, fileShape.Valid m)
    (mem : ∀ q, q <:+ (fileNode (o / BSIZE)).2 → ((fileNode (o / BSIZE)).1, q) ∈ needed)
    (room : s.missing needed ≤ free.length) :
    ∃ s' free', s.writeOnce = Option.some (s', decide (s.u.u_count - k ≠ 0)) ∧
      Wrote needed s free o k source s' free' := by
  have few : o / BSIZE < maxBlocks := Nat.div_lt_of_lt_mul (by rwa [Nat.mul_comm])
  obtain ⟨nb, s₁, free₁, mapped, sound₁, extended, here, real⟩ :=
    bmap_write_spec sound few all mem room
  obtain ⟨s', once, wrote⟩ := writeOnce_mapped regular quiet offset small some part sends all
    mapped sound₁ extended here real
  exact ⟨s', free₁, once, wrote⟩

/-- One write behind another. -/
theorem Wrote.trans {s'' : Sys} {free'' : List Daddr} {j : ℕ}
    (first : Wrote needed s free o j source s' free')
    (second : Wrote needed s' free' (o + j) k (fun x => source (j + x)) s'' free'') :
    Wrote needed s free o (j + k) source s'' free'' where
  toGrown := first.toGrown.trans second.toGrown
  sound := second.sound
  byte x below := by
    rw [second.byte x below, first.byte x below]
    by_cases behind : o + j ≤ x ∧ x < o + j + k
    · rw [if_pos behind, if_pos (by omega)]
      congr 1
      omega
    · rw [if_neg behind]
      by_cases front : o ≤ x ∧ x < o + j
      · rw [if_pos front, if_pos (by omega)]
      · rw [if_neg front, if_neg (by omega)]
  size := by
    rw [second.size, first.size]
    omega
  u := by rw [second.u, first.u, User.advance_advance]

/-- The nodes on the way to the blocks from which bytes are moved. -/
def nodesFor (o k : ℕ) : Finset Node :=
  ((List.range' (o / BSIZE) ((o + k - 1) / BSIZE + 1 - o / BSIZE)).flatMap fun bn =>
    (fileNode bn).2.tails.map fun q => ((fileNode bn).1, q)).toFinset

theorem mem_nodesFor {m : Node} : m ∈ nodesFor o k ↔
    ∃ bn, (o / BSIZE ≤ bn ∧ bn < (o + k - 1) / BSIZE + 1) ∧
      ∃ q, q <:+ (fileNode bn).2 ∧ ((fileNode bn).1, q) = m := by
  simp only [nodesFor, List.mem_toFinset, List.mem_flatMap, List.mem_range'_1, List.mem_map,
    List.mem_tails]
  refine exists_congr fun bn => and_congr_left fun _ => ?_
  constructor
  · exact fun between => ⟨between.1, by omega⟩
  · exact fun between => ⟨between.1, by omega⟩

/-- All of them are nodes of the file. -/
theorem nodesFor_valid (some : 0 < k) (small : o + k ≤ maxBlocks * BSIZE) :
    ∀ m ∈ nodesFor o k, fileShape.Valid m := by
  intro m mem
  obtain ⟨bn, ⟨-, last⟩, q, onWay, rfl⟩ := mem_nodesFor.mp mem
  have few : (o + k - 1) / BSIZE < maxBlocks :=
    Nat.div_lt_of_lt_mul (by rw [Nat.mul_comm]; omega)
  exact valid_suffix (fileNode_valid (by omega)) onWay

theorem mem_nodesFor_of {x : ℕ} (low : o ≤ x) (high : x < o + k) {q : List ℕ}
    (onWay : q <:+ (fileNode (x / BSIZE)).2) : ((fileNode (x / BSIZE)).1, q) ∈ nodesFor o k := by
  have first : o / BSIZE ≤ x / BSIZE := Nat.div_le_div_right low
  have last : x / BSIZE ≤ (o + k - 1) / BSIZE := Nat.div_le_div_right (by omega)
  exact mem_nodesFor.mpr ⟨x / BSIZE, ⟨first, by omega⟩, q, onWay, rfl⟩

/-- `writei` goes round its loop until all bytes are written. -/
theorem writeLoop_spec (fuel : ℕ) (sound : Sound [] s free)
    (regular : s.ip.i_mode &&& IFMT = IFREG) (quiet : s.u.u_error = none)
    (offset : s.u.u_offset = o) (small : o + s.u.u_count ≤ maxBlocks * BSIZE)
    (some : 0 < s.u.u_count) (enough : s.u.u_count ≤ fuel) (sends : s.Sends s.u.u_count source)
    (all : ∀ m ∈ needed, fileShape.Valid m)
    (mem : ∀ x, o ≤ x → x < o + s.u.u_count → ∀ q, q <:+ (fileNode (x / BSIZE)).2 →
      ((fileNode (x / BSIZE)).1, q) ∈ needed)
    (room : s.missing needed ≤ free.length) :
    ∃ s' free', writeLoop fuel s = Option.some s' ∧
      Wrote needed s free o s.u.u_count source s' free' := by
  induction fuel generalizing s free o source with
  | zero => omega
  | succ fuel ih =>
      have within : o % BSIZE < BSIZE := Nat.mod_lt o (by decide)
      have limit : maxBlocks * BSIZE < 2 ^ 31 := by decide
      generalize part : min (BSIZE - o % BSIZE) s.u.u_count = k
      have moves : 0 < k := by omega
      obtain ⟨s₁, free₁, once, wrote⟩ := writeOnce_spec sound regular quiet offset (by omega) some
        part (fun i below => sends i (by omega)) all (mem o (by omega) (by omega)) room
      rw [writeLoop, once]
      simp only [Option.bind_eq_bind, Option.bind_some]
      by_cases done : s.u.u_count - k = 0
      · obtain rfl : k = s.u.u_count := by omega
        exact ⟨s₁, free₁, by simp, wrote⟩
      · have count : s₁.u.u_count = s.u.u_count - k := by rw [wrote.u]; rfl
        have offset₁ : s₁.u.u_offset = ((o + k : ℕ) : ℤ) := by
          rw [wrote.u]
          exact advance_offset offset (lt_of_le_of_lt (by omega) limit)
        have sends₁ : s₁.Sends s₁.u.u_count fun x => source (k + x) := by
          have later : s.Sends (k + (s.u.u_count - k)) source :=
            fun i below => sends i (by omega)
          intro i below
          have byte := later.tail i (by omega)
          rw [Sys.source] at byte ⊢
          rw [wrote.u, wrote.user, wrote.kernel]
          exact byte
        obtain ⟨s', free', ran, wrote'⟩ := ih wrote.sound (by rw [wrote.mode, regular])
          (by rw [wrote.u]; exact quiet) offset₁ (by omega) (by omega) (by omega) sends₁
          (fun x low high => mem x (by omega) (by omega)) (wrote.room room)
        refine ⟨s', free', by simpa [done] using ran, ?_⟩
        have whole := wrote.trans wrote'
        rwa [count, show k + (s.u.u_count - k) = s.u.u_count by omega] at whole

/-- `writei` writes the bytes, and returns with `u_count` zero. -/
theorem writei_spec (d_write : Dev → Sys → Option Sys) (sound : Sound [] s free)
    (regular : s.ip.i_mode &&& IFMT = IFREG) (quiet : s.u.u_error = none)
    (offset : s.u.u_offset = o) (small : o + s.u.u_count ≤ maxBlocks * BSIZE)
    (some : 0 < s.u.u_count) (sends : s.Sends s.u.u_count source)
    (room : s.missing (nodesFor o s.u.u_count) ≤ free.length) :
    ∃ s' free', s.writei d_write = Option.some s' ∧
      Wrote (nodesFor o s.u.u_count) s free o s.u.u_count source s' free' := by
  obtain ⟨s', free', ran, wrote⟩ := writeLoop_spec s.u.u_count sound regular quiet offset
    small some (Nat.le_refl _) sends (nodesFor_valid some small)
    (fun x low high q onWay => mem_nodesFor_of low high onWay) room
  refine ⟨s', free', ?_, wrote⟩
  have character : ¬(IFREG = IFCHR ∨ IFREG = IFMPC) := by decide
  rw [writei, if_neg (by omega), regular, if_neg character, if_neg (by omega), ran]

/-! ## Reading -/

/-- The buffer that `readi` gets holds what is in the file, zeros where there is no block. -/
theorem readBuf_spec (sound : Sound [] s free) (lbn : ℤ) (n : Node) :
    ∃ bp c, s.readBuf s.ip.i_dev lbn (s.found n) = some (bp, { s with cache := c }) ∧
      c.Good [bp] ∧ c.view = s.cache.view ∧ bp < NBUF ∧ (c.buf bp).b_addr = s.block n := by
  rw [readBuf, found]
  by_cases gone : s.tree.addr n = 0
  · obtain ⟨bp, c, taken, handed⟩ :=
      sound.good.take none (by decide) (by simp [Cache.Apart])
    have here : (c.buf bp).b_dev = none := handed.b_dev
    have good := handed.good
    have blank : (c.clrbuf bp).Good [bp] := by
      refine good.modify (fun j d _ _ mine => ?_) (fun d mine => ?_) (fun dirty => ?_)
        (good.errorless bp handed.inside) rfl (good.busy bp handed.inside) fun _ _ => Iff.rfl
      · simp [here] at mine
      · simp [here] at mine
      · exact absurd here (good.dirty bp handed.inside dirty).2
    refine ⟨bp, c.clrbuf bp, ?_, blank, ?_, handed.inside, ?_⟩
    · simp [gone, Cache.geteblk, taken]
    · rw [← handed.view]
      funext d k
      rw [Cache.clrbuf, good.view_modify handed.inside rfl rfl]
      simp [here]
    · simp [Cache.clrbuf, block, gone]
  · have real : ¬(s.tree.addr n : ℤ) < 0 := by omega
    simp only [if_neg gone, if_neg real, Int.toNat_natCast]
    split
    · obtain ⟨bp, c, read, handed, -, data⟩ :=
        sound.good.breada s.ip.i_dev (s.tree.addr n) s.rablock
      have errorless := handed.good.errorless bp handed.inside
      refine ⟨bp, c, ?_, handed.good, handed.view, handed.inside, ?_⟩
      · simp [breada, read, geterror, errorless]
      · rw [data, block, if_neg gone]
    · obtain ⟨bp, c, read, sound', alike, hand⟩ := bread_spec sound (s.tree.addr n)
      refine ⟨bp, c, read, sound'.good, alike.view, hand.inside, ?_⟩
      rw [hand.data, alike.view, block, if_neg gone]

/-- The state after `readi` has passed bytes back from a buffer. -/
def get (s : Sys) (bp : BufId) (lbn : ℤ) (on k : ℕ) : Sys :=
  { ((s.store s.u.u_base k fun i => (s.cache.buf bp).b_addr (on + i)).moved k).brelse bp with
    ip := { s.ip with i_lastr := lbn } }

theorem store_ip (s : Sys) (ip : Inode) (a k : ℕ) (source : ℕ → UInt8) :
    store { s with ip := ip } a k source = { s.store a k source with ip := ip } := by
  by_cases system : s.u.u_segflg = 1 <;> simp [store, system]

theorem readPart_eq (bp : BufId) (lbn : ℤ) (on : ℕ) (quiet : s.u.u_error = none)
    (resid : (s.cache.buf bp).b_resid = 0) (some : 0 < k) (fits : k ≤ BSIZE)
    (enough : k ≤ s.u.u_count) (receives : s.Receives k) :
    s.readPart bp lbn on k = (s.get bp lbn on k, decide (s.u.u_count - k ≠ 0)) := by
  have least : min k (BSIZE - 0) = k := by omega
  have moved := iomove_read (s := { s with ip := { s.ip with i_lastr := lbn } }) bp on
    some enough receives
  have whole : brelse (Sys.moved (store { s with ip := { s.ip with i_lastr := lbn } } s.u.u_base k
      fun i => (s.cache.buf bp).b_addr (on + i)) k) bp = s.get bp lbn on k := by
    rw [store_ip]
    rfl
  have u : (s.get bp lbn on k).u = s.u.advance k :=
    congrArg (fun u => User.advance u k) (store_u _ _ _ _)
  have error : (s.u.advance k).u_error = none := quiet
  have count : (s.u.advance k).u_count = s.u.u_count - k := rfl
  simp only [readPart, resid, least, if_pos (show k ≠ 0 by omega), moved, whole, u, error, count,
    true_and, some, and_true]

/-- `k` bytes have been read. -/
structure Read (s : Sys) (free : List Daddr) (k : ℕ) (source : ℕ → UInt8) (s' : Sys) : Prop
    extends SameBlocks s s' where
  sound : Sound [] s' free
  size : s'.ip.i_size = s.ip.i_size
  u : s'.u = s.u.advance k
  user : s'.user = (s.store s.u.u_base k source).user
  kernel : s'.kernel = (s.store s.u.u_base k source).kernel

/-- Once round the loop of `readi`, before the end of the file. -/
theorem readOnce_spec {size : ℕ} (sound : Sound [] s free)
    (regular : s.ip.i_mode &&& IFMT = IFREG) (quiet : s.u.u_error = none)
    (offset : s.u.u_offset = o) (small : o < maxBlocks * BSIZE) (length : s.ip.i_size = size)
    (before : o < size) (some : 0 < s.u.u_count)
    (part : min (min (BSIZE - o % BSIZE) s.u.u_count) (size - o) = k) (receives : s.Receives k) :
    ∃ s', s.readOnce = Option.some (s', decide (s.u.u_count - k ≠ 0)) ∧
      Read s free k (fun i => s.byte (o + i)) s' := by
  have few : o / BSIZE < maxBlocks := Nat.div_lt_of_lt_mul (by rw [Nat.mul_comm]; omega)
  have within : o % BSIZE < BSIZE := Nat.mod_lt o (by decide)
  have moves : 0 < k := by omega
  have lbn : (o : ℤ) / (BSIZE : ℤ) = ((o / BSIZE : ℕ) : ℤ) := rfl
  have on : ((o : ℤ) % (BSIZE : ℤ)).toNat = o % BSIZE := rfl
  have diff : ¬((size : ℤ) - (o : ℤ) ≤ 0) := by omega
  have least : (if (size : ℤ) - (o : ℤ) < (min (BSIZE - o % BSIZE) s.u.u_count : ℕ) then
      ((size : ℤ) - (o : ℤ)).toNat else min (BSIZE - o % BSIZE) s.u.u_count) = k := by
    split <;> omega
  obtain ⟨s₁, mapped, sound₁, alike⟩ := bmap_read_spec sound few
  have regular₁ : s₁.ip.i_mode &&& IFMT = IFREG := by rw [alike.mode, regular]
  obtain ⟨bp, c, got, good, view, inside, data⟩ :=
    readBuf_spec sound₁ (o / BSIZE : ℕ) (fileNode (o / BSIZE))
  have same₁ : s₁.found (fileNode (o / BSIZE)) = s.found (fileNode (o / BSIZE)) := by
    simp only [found, alike.tree]
  rw [same₁] at got
  have quiet₁ : s₁.u.u_error = none := by rw [alike.u, quiet]
  have blocks := hasBlocks_of_regular regular
  have blocks₁ := hasBlocks_of_regular regular₁
  simp only [readOnce, offset, length, lbn, on, blocks, true_and, if_neg diff, least, mapped,
    if_true,
    Option.bind_eq_bind, Option.bind_some, blocks₁, quiet₁, ne_eq, not_true_eq_false, if_false,
    got]
  have u₂ : ({ s₁ with cache := c } : Sys).u = s.u := alike.u
  have receives₂ : Receives { s₁ with cache := c } k := by
    rw [Receives] at receives ⊢
    simpa only [alike.u, alike.user] using receives
  have result := readPart_eq (s := { s₁ with cache := c }) bp
    ((o / BSIZE : ℕ) : ℤ) (o % BSIZE) (by rw [u₂, quiet]) (good.resid bp inside)
    moves (by omega) (by rw [u₂]; omega) receives₂
  rw [result]
  obtain ⟨good', view'⟩ := good.brelse inside (by simp)
  have stored := store_congr (s := s) (t := { s₁ with cache := c }) (a := s.u.u_base) (n := k)
    (fun i => s.byte (o + i)) (fun i => (c.buf bp).b_addr (o % BSIZE + i))
    (congrArg User.u_segflg alike.u) alike.user alike.kernel fun i below => by
      obtain ⟨mine, -⟩ :=
        (part_iff (x := o + i) (o := o) (k := k) (by omega)).mp ⟨by omega, by omega⟩
      have rest := part_sub mine
      have inner : o % BSIZE + i = (o + i) % BSIZE := by
        have whole := part_in mine
        omega
      rw [data, alike.block, byte, mine, inner]
  have base : ({ s₁ with cache := c } : Sys).u.u_base = s.u.u_base := congrArg User.u_base u₂
  rw [← base] at stored
  have cache : (get { s₁ with cache := c } bp ((o / BSIZE : ℕ) : ℤ) (o % BSIZE) k).cache =
      c.brelse bp := congrArg (fun c => Cache.brelse c bp) (store_cache _ _ _ _)
  have same : SameBlocks s (get { s₁ with cache := c } bp ((o / BSIZE : ℕ) : ℤ) (o % BSIZE) k) :=
    { view := by rw [cache, view', view, alike.view]
      fp := (store_fp _ _ _ _).trans alike.fp
      dev := alike.dev, mode := alike.mode, addr := alike.addr }
  refine ⟨get { s₁ with cache := c } bp ((o / BSIZE : ℕ) : ℤ) (o % BSIZE) k, ?_, ?_⟩
  · simp only [alike.u]
  · exact
      { toSameBlocks := same
        sound := same.sound sound (cache ▸ good')
        size := alike.size
        u := (congrArg (fun u => User.advance u k) (store_u _ _ _ _)).trans
          (congrArg (fun u => User.advance u k) u₂)
        user := by rw [← base]; exact stored.1
        kernel := by rw [← base]; exact stored.2 }

/-- One read behind another. -/
theorem Read.trans {s'' : Sys} {j : ℕ} (first : Read s free j source s')
    (second : Read s' free k (fun i => source (j + i)) s'') :
    Read s free (j + k) source s'' := by
  have base : s'.u.u_base = s.u.u_base + j := by rw [first.u]; rfl
  have segflg : s'.u.u_segflg = (s.store s.u.u_base j source).u.u_segflg := by
    rw [first.u, store_u]
    rfl
  have stored := store_congr (s := s.store s.u.u_base j source) (t := s')
    (a := s.u.u_base + j) (n := k) (fun i => source (j + i)) _ segflg first.user
    first.kernel fun _ _ => rfl
  rw [store_store, ← base] at stored
  exact
    { toSameBlocks := first.toSameBlocks.trans second.toSameBlocks
      sound := second.sound
      size := second.size.trans first.size
      u := by rw [second.u, first.u, User.advance_advance]
      user := second.user.trans stored.1
      kernel := second.kernel.trans stored.2 }

theorem Read.congr {other : ℕ → UInt8} (read : Read s free k source s')
    (same : ∀ i, i < k → other i = source i) : Read s free k other s' := by
  have stored := store_congr (s := s) (t := s) (a := s.u.u_base) _ _ rfl rfl rfl same
  exact
    { read with
      user := read.user.trans stored.1.symm
      kernel := read.kernel.trans stored.2.symm }

/-- Nothing is read where nothing changes. -/
theorem Read.none (sound : Sound [] s free) (offset : s.u.u_offset = o) (small : o < 2 ^ 31)
    (source : ℕ → UInt8) : Read s free 0 source s := by
  have offset' : (s.u.advance 0).u_offset = o := by
    simpa using advance_offset (k := 0) offset (by omega)
  have nowhere : ∀ x, ¬(s.u.u_base ≤ x ∧ x < s.u.u_base) := fun x => by omega
  exact
    { toSameBlocks := ⟨rfl, rfl, rfl, rfl, rfl⟩
      sound := sound
      size := rfl
      u := by
        have same : s.u = { s.u with u_offset := o } := by rw [← offset]
        have still : s.u.advance 0 = { s.u with u_offset := (s.u.advance 0).u_offset } := rfl
        rw [still, offset', ← same]
      user := by
        rw [store]
        split
        · rfl
        · simp [nowhere]
      kernel := by
        rw [store]
        split
        · exact (Bytes.splice_zero _ _ _).symm
        · rfl }

/-- `readi` goes round its loop until all bytes are read that are wanted and there. -/
theorem readLoop_spec {fuel size : ℕ} (sound : Sound [] s free)
    (regular : s.ip.i_mode &&& IFMT = IFREG) (quiet : s.u.u_error = none)
    (offset : s.u.u_offset = o) (small : o < 2 ^ 31) (length : s.ip.i_size = size)
    (within : o < size → o + min s.u.u_count (size - o) ≤ maxBlocks * BSIZE)
    (some : 0 < s.u.u_count) (enough : s.u.u_count ≤ fuel)
    (receives : s.Receives (min s.u.u_count (size - o))) :
    ∃ s', readLoop fuel s = Option.some s' ∧
      Read s free (min s.u.u_count (size - o)) (fun i => s.byte (o + i)) s' := by
  induction fuel generalizing s o with
  | zero => omega
  | succ fuel ih =>
      rw [readLoop]
      by_cases before : o < size
      · have rest : o % BSIZE < BSIZE := Nat.mod_lt o (by decide)
        have limit : maxBlocks * BSIZE < 2 ^ 31 := by decide
        have last := within before
        generalize part : min (min (BSIZE - o % BSIZE) s.u.u_count) (size - o) = k
        have moves : 0 < k := by omega
        obtain ⟨j, whole⟩ : ∃ j, min s.u.u_count (size - o) = k + j :=
          ⟨min s.u.u_count (size - o) - k, by omega⟩
        rw [whole] at receives last ⊢
        obtain ⟨s₁, once, read⟩ := readOnce_spec sound regular quiet offset (by omega) length
          before some part (receives.imp_right fun mapped i below => mapped i (by omega))
        rw [once]
        simp only [Option.bind_eq_bind, Option.bind_some]
        by_cases done : s.u.u_count - k = 0
        · obtain rfl : j = 0 := by omega
          exact ⟨s₁, by simp [done], read⟩
        · have count : s₁.u.u_count = s.u.u_count - k := by rw [read.u]; rfl
          have offset₁ : s₁.u.u_offset = ((o + k : ℕ) : ℤ) := by
            rw [read.u]
            exact advance_offset offset (by omega)
          have rest : min s₁.u.u_count (size - (o + k)) = j := by omega
          have receives₁ : s₁.Receives j := by
            have later := receives.tail fun i => s.byte (o + i)
            rw [Receives] at later ⊢
            rw [read.u, read.user]
            simpa only [moved, store_u] using later
          obtain ⟨s', ran, read'⟩ := ih read.sound (by rw [read.mode, regular])
            (by rw [read.u]; exact quiet) offset₁ (by omega) (by rw [read.size, length])
            (by omega) (by omega) (by omega) (rest ▸ receives₁)
          rw [rest] at read'
          refine ⟨s', by simpa [done] using ran, read.trans (read'.congr fun i _ => ?_)⟩
          rw [byte, byte, read.block, Nat.add_assoc]
      · have blocks := hasBlocks_of_regular regular
        have nothing : min s.u.u_count (size - o) = 0 := by omega
        have diff : (size : ℤ) - (o : ℤ) ≤ 0 := by omega
        rw [nothing]
        refine ⟨s, ?_, Read.none sound offset small _⟩
        simp [readOnce, offset, length, blocks, diff]

/-- `readi` returns the bytes that are wanted and there, and leaves in `u_count` how many are
not. -/
theorem readi_spec {size : ℕ} (d_read : Dev → Sys → Option Sys) (sound : Sound [] s free)
    (regular : s.ip.i_mode &&& IFMT = IFREG) (quiet : s.u.u_error = none)
    (offset : s.u.u_offset = o) (small : o < 2 ^ 31) (length : s.ip.i_size = size)
    (within : o < size → o + min s.u.u_count (size - o) ≤ maxBlocks * BSIZE)
    (receives : s.Receives (min s.u.u_count (size - o))) :
    ∃ s', s.readi d_read = some s' ∧
      Read s free (min s.u.u_count (size - o)) (fun i => s.byte (o + i)) s' := by
  rw [readi]
  by_cases nothing : s.u.u_count = 0
  · have least : min s.u.u_count (size - o) = 0 := by omega
    rw [least, if_pos nothing]
    exact ⟨s, rfl, Read.none sound offset small _⟩
  · have character : ¬(IFREG = IFCHR ∨ IFREG = IFMPC) := by decide
    have same : SameBlocks s { s with ip := { s.ip with i_flag := s.ip.i_flag ||| IACC } } :=
      ⟨rfl, rfl, rfl, rfl, rfl⟩
    obtain ⟨s', ran, read⟩ := readLoop_spec
      (s := { s with ip := { s.ip with i_flag := s.ip.i_flag ||| IACC } })
      (same.sound sound sound.good) regular quiet offset small length within
      (by show 0 < s.u.u_count; omega) (Nat.le_refl _) receives
    rw [if_neg nothing, if_neg (by omega), regular, if_neg character]
    refine ⟨s', ran, ?_⟩
    exact
      { toSameBlocks := same.trans read.toSameBlocks
        sound := read.sound
        size := read.size
        u := read.u
        user := by rw [read.user, store_ip]; rfl
        kernel := by rw [read.kernel, store_ip]; rfl }

end Sys

end UnixV7
