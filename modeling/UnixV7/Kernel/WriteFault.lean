import Mathlib.Algebra.Group.Int.Defs
import Mathlib.Algebra.GroupWithZero.Nat
import UnixV7.Kernel.Evict
import UnixV7.Kernel.FileContents
import UnixV7.Kernel.FileTooBig

/-!
# Writes that fault

A `writei` ends early when a byte of the process cannot be read. Its last time round the loop has
put some bytes into the buffer by then: all before the fault, counted one by one, or the whole
words before it, which are not counted. The buffer is released but not marked for writing. What
is in the file afterwards depends on whether it has been marked before, or is valid at all.
-/

namespace UnixV7

open Rw

namespace Sys

/-- What `readi` finds at an offset of the file, if a block of a file can be there. -/
def contents (s : Sys) (x : ℕ) : Option UInt8 :=
  if x < maxBlocks * BSIZE then some (s.byte x) else none

/-- The state when all buffers have been evicted. -/
def evictAll (s : Sys) : Sys := { s with cache := s.cache.evictAll }

/-- The file of `s'` is that of `s` with the first `k` bytes of the request spliced in. -/
structure Shorter (s : Sys) (k : ℕ) (s' : Sys) : Prop where
  size : s'.ip.i_size = max s.ip.i_size (s.u.u_offset + k)
  contents : ∀ x : ℕ, (x : ℤ) < s'.ip.i_size → s'.contents x =
    if s.u.u_offset ≤ x ∧ x < s.u.u_offset + k then
      s.source (s.u.u_base + (x - s.u.u_offset.toNat))
    else
      s.contents x

/-- The offset in its block and the number of the bytes which `writei` moves this time round. -/
def on (s : Sys) : ℕ := (s.u.u_offset % BSIZE).toNat

def part (s : Sys) : ℕ := min (BSIZE - s.on) s.u.u_count

/-- The part of the loop of `writei` that gets the buffer. -/
def started (s : Sys) : Option (BufId × Sys) := do
  let n := s.part
  let (bn, s) ← if s.hasBlocks then s.bmap (s.u.u_offset / BSIZE) B_WRITE else
    some (s.u.u_offset / BSIZE, s)
  if s.hasBlocks ∧ bn < 0 then
    none
  else
    s.writeBuf (if s.hasBlocks then s.ip.i_dev else s.ip.i_addr 0) (blkno bn) n

/-- The buffer that `writei` has the last time round its loop, and the state at that time. -/
def lastStarted : ℕ → Sys → Option (BufId × Sys)
  | 0, _ => none
  | fuel + 1, s =>
      match s.writeOnce with
      | some (s', true) => lastStarted fuel s'
      | some (_, false) => s.started
      | none => none

/-- `iomove` moves words. -/
def Words (s : Sys) (cp n : ℕ) : Prop :=
  s.u.u_segflg ≠ 1 ∧ n % 4 = 0 ∧ cp % 4 = 0 ∧ s.u.u_base % 4 = 0

instance (s : Sys) (cp n : ℕ) : Decidable (s.Words cp n) :=
  inferInstanceAs (Decidable (_ ∧ _ ∧ _ ∧ _))

/-- The byte `i` of the request is copied: it and all before it can be read, as well as those of
the same word where words are moved. -/
def Copied (s : Sys) (i : ℕ) : Prop :=
  ∀ j < if s.Words s.on s.part then (i / 4 + 1) * 4 else i + 1, (s.source (s.u.u_base + j)).isSome

/-- All that is copied before the fault is in the file already. -/
def Unchanged (s : Sys) (visible : ℕ → Prop) : Prop :=
  ∀ i < s.part, s.Copied i → visible i →
    s.source (s.u.u_base + i) = s.contents (s.u.u_offset.toNat + i)

/-- The bytes that have been put into the buffer do no harm: words that are not counted are seen
nowhere, and bytes that are counted are going to be written. `u_error` is set where `bmap` has
found that a file has no such block. -/
def Spared (s : Sys) (bp : BufId) : Prop :=
  if s.Words s.on s.part then
    s.u.u_error ≠ none ∨ (s.cache.buf bp).b_done = false ∨
      s.Unchanged fun i => s.u.u_offset + i < s.ip.i_size
  else
    s.u.u_error = none ∧ (s.cache.buf bp).b_delwri = true ∨ s.Unchanged fun _ => True

variable {s s' t : Sys} {bp : BufId} {free free' : List Daddr} {needed : Finset Node} {a : Daddr}
  {n cp o r k j fuel : ℕ} {source : ℕ → UInt8}

/-! ## A fault in `iomove` -/

/-- The words before the fault are picked up. -/
theorem copyin_fault {user : ℕ → Option UInt8} (words : ℕ) {src dst : ℕ} {m : Bytes}
    (inside : r < 4 * words) (mapped : ∀ k < r, user (src + k) = some (source k))
    (fault : user (src + r) = none) :
    copyin user words src m dst = (m.splice dst (4 * (r / 4)) source, true) := by
  induction words generalizing src m dst source r with
  | zero => omega
  | succ words ih =>
      rw [copyin]
      by_cases first : r < 4
      · have none : 4 * (r / 4) = 0 := by omega
        have broken : ¬∀ k < 4, (user (src + k)).isSome = true := by
          intro all
          simpa [fault] using all r first
        rw [if_neg broken, none, Bytes.splice_zero]
      · obtain ⟨r, rfl⟩ : ∃ q, r = 4 + q := ⟨r - 4, by omega⟩
        have here : ∀ k < 4, (user (src + k)).isSome = true := by
          intro k below
          rw [mapped k (by omega)]
          rfl
        have word : (m.splice dst 4 fun k => (user (src + k)).getD 0) = m.splice dst 4 source := by
          funext x
          simp only [Bytes.splice]
          split
          · rw [mapped (x - dst) (by omega)]
            rfl
          · rfl
        have rest : ∀ k < r, user (src + 4 + k) = some (source (4 + k)) := by
          intro k below
          rw [Nat.add_assoc]
          exact mapped (4 + k) (by omega)
        rw [if_pos here, ih (by omega) rest (by rwa [Nat.add_assoc]), word, Bytes.splice_splice]
        congr 2
        omega

theorem advance_zero (low : 0 ≤ s.u.u_offset) (high : s.u.u_offset < 2 ^ 31) :
    s.u.advance 0 = s.u := by
  have offset : offt (s.u.u_offset + (0 : ℕ)) = s.u.u_offset := by
    rw [offt_eq] <;> omega
  simp only [User.advance, Nat.add_zero, Nat.sub_zero, offset]

theorem moved_zero (low : 0 ≤ s.u.u_offset) (high : s.u.u_offset < 2 ^ 31) : s.moved 0 = s := by
  rw [moved, advance_zero low high]

theorem edit_id (s : Sys) (bp : BufId) : (s.edit bp fun m => m) = s := by
  simp only [edit, Cache.modify, ite_self]

/-- The bytes before the fault are picked up. -/
theorem pickUp_fault (inside : r < n) (enough : n ≤ s.u.u_count) (sends : s.Sends r source)
    (fault : s.source (s.u.u_base + r) = none) (low : 0 ≤ s.u.u_offset)
    (high : s.u.u_offset + r < 2 ^ 31) :
    pickUp bp n cp s = ((s.edit bp fun m => m.splice cp r source).moved r).error .EFAULT := by
  induction r generalizing s n cp source with
  | zero =>
      obtain ⟨n, rfl⟩ : ∃ q, n = q + 1 := ⟨n - 1, by omega⟩
      rw [Nat.add_zero] at fault
      have high : s.u.u_offset < 2 ^ 31 := by omega
      simp only [Bytes.splice_zero, edit_id, moved_zero low high]
      rw [pickUp, cpass, if_neg (by omega), fault]
  | succ r ih =>
      obtain ⟨n, rfl⟩ : ∃ q, n = q + 1 := ⟨n - 1, by omega⟩
      have first := sends 0 (by omega)
      rw [Nat.add_zero] at first
      have offset : ((s.edit bp fun m => m.splice cp 1 source).moved 1).u.u_offset =
          s.u.u_offset + 1 := by
        show offt (s.u.u_offset + (1 : ℕ)) = _
        rw [offt_eq] <;> omega
      have rest : ((s.edit bp fun m => m.splice cp 1 source).moved 1).Sends r
          fun x => source (1 + x) :=
        Sends.tail (s := s) (by rwa [Nat.add_comm 1])
      have fault' : ((s.edit bp fun m => m.splice cp 1 source).moved 1).source
          (s.u.u_base + 1 + r) = none := by
        rwa [Nat.add_assoc, Nat.add_comm 1]
      have picked : pickUp bp (n + 1) cp s =
          pickUp bp n (cp + 1) ((s.edit bp fun m => m.splice cp 1 source).moved 1) := by
        rw [pickUp, cpass, if_neg (by omega), first]
        simp only [Bytes.splice_one]
        rfl
      rw [picked, ih (by omega) (show n ≤ s.u.u_count - 1 by omega) rest fault' (by omega)
        (by omega), moved_edit, edit_edit, moved_moved]
      simp only [Bytes.splice_splice]
      rw [Nat.add_comm 1]

/-- A request whose byte `r` is the first that cannot be read. -/
structure FaultsAt (s : Sys) (r : ℕ) (source : ℕ → UInt8) : Prop where
  sends : s.Sends r source
  fault : s.source (s.u.u_base + r) = none

/-- A request that cannot be read whole has a first byte that cannot. -/
theorem sends_or_faults (s : Sys) (n : ℕ) :
    s.Sends n (fun i => (s.source (s.u.u_base + i)).getD 0) ∨
      ∃ r < n, s.FaultsAt r fun i => (s.source (s.u.u_base + i)).getD 0 := by
  induction n with
  | zero => exact .inl fun i below => absurd below (Nat.not_lt_zero i)
  | succ n ih =>
      rcases ih with sends | ⟨r, below, faults⟩
      · cases here : s.source (s.u.u_base + n) with
        | none => exact .inr ⟨n, Nat.lt_succ_self n, sends, here⟩
        | some c =>
            refine .inl fun i below => ?_
            rcases Nat.lt_succ_iff_lt_or_eq.mp below with before | rfl
            · exact sends i before
            · simp only [here, Option.getD_some]
      · exact .inr ⟨r, Nat.lt_succ_of_lt below, faults⟩

/-- How many bytes are put into the buffer before the fault, and how many of them are counted. -/
def copied (s : Sys) (cp n r : ℕ) : ℕ := if s.Words cp n then 4 * (r / 4) else r

def counted (s : Sys) (cp n r : ℕ) : ℕ := if s.Words cp n then 0 else r

/-- What `iomove` has done when it comes to the fault. -/
theorem iomove_fault (bp : BufId) (cp : ℕ) (inside : r < n) (enough : n ≤ s.u.u_count)
    (faults : s.FaultsAt r source) (low : 0 ≤ s.u.u_offset) (high : s.u.u_offset + r < 2 ^ 31) :
    s.iomove bp cp n B_WRITE =
      ((s.edit bp fun m => m.splice cp (s.copied cp n r) source).moved (s.counted cp n r)).error
        .EFAULT := by
  rw [iomove, if_neg (by omega), copied, counted]
  by_cases words : s.Words cp n
  · have system : s.u.u_segflg ≠ 1 := words.1
    have mapped : ∀ k < r, s.user (s.u.u_base + k) = some (source k) := by
      intro k below
      have here := faults.sends k below
      rwa [Sys.source, if_neg system] at here
    have fault : s.user (s.u.u_base + r) = none := by
      have here := faults.fault
      rwa [Sys.source, if_neg system] at here
    have whole := words.2.1
    rw [if_pos words, if_pos words, if_pos (show _ ∧ _ ∧ _ ∧ _ from words)]
    simp only [copyin_fault (n / 4) (by omega) mapped fault, if_true]
    rw [moved_zero (s := s.edit bp _) low (by show s.u.u_offset < 2 ^ 31; omega),
      edit_same s bp fun m => m.splice cp (4 * (r / 4)) source]
  · rw [if_neg words, if_neg words, if_neg (show ¬(_ ∧ _ ∧ _ ∧ _) from words)]
    exact pickUp_fault inside enough faults.sends faults.fault low high

/-! ## The file after a fault -/

/-- The state after `writei` has come to a fault with `j` bytes in the buffer and `k` counted. -/
def spoilt (s : Sys) (bp : BufId) (j k : ℕ) (source : ℕ → UInt8) : Sys :=
  { (((s.edit bp fun m => m.splice s.on j source).moved k).error .EFAULT).brelse bp with
    ip := { s.ip with
      i_size := max s.ip.i_size (s.u.advance k).u_offset
      i_flag := s.ip.i_flag ||| (IUPD ||| ICHG) } }

theorem writePart_fault (bp : BufId) (regular : s.ip.i_mode &&& IFMT = IFREG)
    (offset : s.u.u_offset = o) (small : o < 2 ^ 31) (inside : r < s.part)
    (faults : s.FaultsAt r source) :
    s.writePart bp s.on s.part =
      s.spoilt bp (s.copied s.on s.part r) (s.counted s.on s.part r) source := by
  have enough : s.part ≤ s.u.u_count := Nat.min_le_right _ _
  have last : (o : ℤ) + r < 2 ^ 31 := by
    have on : s.on = o % BSIZE := by rw [on, offset]; rfl
    rw [part, on, BSIZE] at inside
    omega
  have moved := iomove_fault bp s.on inside enough faults (by omega) (by rw [offset]; exact last)
  generalize s.counted s.on s.part r = k at moved ⊢
  generalize s.copied s.on s.part r = j at moved ⊢
  have failed : (((s.edit bp fun m => m.splice s.on j source).moved k).error
      .EFAULT).u.u_error ≠ none := Option.some_ne_none _
  have type : ¬IFREG = IFDIR := by decide
  have larger : max s.ip.i_size (s.u.advance k).u_offset =
      if s.ip.i_size < (s.u.advance k).u_offset then (s.u.advance k).u_offset
      else s.ip.i_size := by
    split <;> omega
  simp only [writePart, spoilt, larger, moved, if_pos failed, regular]
  simp only [type, false_or, and_true]
  rfl

/-- The block that `writei` has got for an offset: that of the file, or block 0 where a file can
have none. -/
def Targets (s : Sys) (o : ℕ) (a : Daddr) : Prop :=
  o < maxBlocks * BSIZE ∧ s.tree.addr (fileNode (o / BSIZE)) = a ∧ a ≠ 0 ∨
    maxBlocks * BSIZE ≤ o ∧ a = 0

/-- No table of addresses is written to. -/
theorem Targets.tables {held : List BufId} (targets : s.Targets o a) (sound : Sound held s free) :
    ∀ m : Node, fileShape.Valid m → m.2.length < fileShape.depth m.1 →
      s.tree.addr m ≠ 0 → s.tree.addr m ≠ a := by
  intro m valid inner there same
  rcases targets with ⟨small, here, -⟩ | ⟨-, none⟩
  · have few : o / BSIZE < maxBlocks := Nat.div_lt_of_lt_mul (by rwa [Nat.mul_comm])
    have node := sound.distinct m _ valid (fileNode_valid few) (same.trans here.symm) there
    subst node
    exact absurd (fileNode_leaf few) (Nat.ne_of_lt inner)
  · exact there (same.trans none)

/-- What is read where one block of the file shows other bytes, or does not. -/
theorem contents_spoilt {held : List BufId} (sound : Sound held s free) (targets : s.Targets o a)
    (dev : s'.ip.i_dev = s.ip.i_dev) (addr : s'.ip.i_addr = s.ip.i_addr) (shows : Bool)
    (view : s'.cache.view = fun d k => if d = s.ip.i_dev ∧ k = a then
      if shows then (s.cache.view s.ip.i_dev k).splice (o % BSIZE) j source
      else s.cache.view s.ip.i_dev k else s.cache.view d k)
    (within : j ≤ BSIZE - o % BSIZE) (x : ℕ) :
    s'.contents x =
      if shows = true ∧ x < maxBlocks * BSIZE ∧ o ≤ x ∧ x < o + j then some (source (x - o))
      else s.contents x := by
  have addr' : ∀ m, fileShape.Valid m → s'.tree.addr m = s.tree.addr m := by
    intro m valid
    refine Radix.addr_congr (fun k => congrFun addr k) (fun k inner deep there i => ?_) valid
    have other := targets.tables sound k inner deep there
    simp only [tree, dev, view]
    rw [if_neg fun same => other same.2]
  rw [contents, contents]
  by_cases below : x < maxBlocks * BSIZE
  · have few : x / BSIZE < maxBlocks := Nat.div_lt_of_lt_mul (by rwa [Nat.mul_comm])
    have valid := fileNode_valid few
    rw [if_pos below, if_pos below, byte, byte, block, block, addr' _ valid, dev, view]
    have spans := part_iff (x := x) within
    by_cases mine : x / BSIZE = o / BSIZE
    · rcases targets with ⟨small, here, real⟩ | ⟨large, -⟩
      · rw [mine, here, if_neg real, if_neg real]
        simp only [and_self, if_true]
        cases shows with
        | true =>
            simp only [if_true, Bytes.splice, below, true_and, mine] at spans ⊢
            by_cases inner : o % BSIZE ≤ x % BSIZE ∧ x % BSIZE < o % BSIZE + j
            · rw [if_pos inner, if_pos (spans.mpr inner), part_sub mine]
            · rw [if_neg inner, if_neg fun both => inner (spans.mp both)]
        | false => simp
      · have behind : maxBlocks ≤ o / BSIZE := (Nat.le_div_iff_mul_le (by decide)).mpr large
        omega
    · have other : ¬(shows = true ∧ x < maxBlocks * BSIZE ∧ o ≤ x ∧ x < o + j) :=
        fun both => mine (spans.mp both.2.2).1
      rw [if_neg other]
      split
      · rfl
      · next there =>
          have apart : s.tree.addr (fileNode (x / BSIZE)) ≠ a := by
            rcases targets with ⟨small, here, -⟩ | ⟨-, none⟩
            · intro same
              have few' : o / BSIZE < maxBlocks := Nat.div_lt_of_lt_mul (by rwa [Nat.mul_comm])
              have node := sound.distinct _ _ valid (fileNode_valid few')
                (same.trans here.symm) there
              exact mine (fileNode_inj few few' node)
            · exact fun same => there (same.trans none)
          dsimp only
          rw [if_neg fun same => apart same.2]
  · rw [if_neg below, if_neg below, if_neg fun both => below both.2.1]

/-! ## Once round the loop -/

/-- `bmap` has come to a block, or to none with `EFBIG`, and the file is as it was. -/
structure Arrived (s : Sys) (o : ℕ) (s₁ : Sys) (a : Daddr) : Prop where
  mapped : s.bmap (s.u.u_offset / BSIZE) B_WRITE = some ((a : ℤ), s₁)
  word : a < 2 ^ 32
  targets : s₁.Targets o a
  dev : s₁.ip.i_dev = s.ip.i_dev
  mode : s₁.ip.i_mode = s.ip.i_mode
  size : s₁.ip.i_size = s.ip.i_size
  u : s₁.u = { s.u with u_error := s₁.u.u_error }
  source : s₁.source = s.source
  ranged : s₁.u.u_error = none ↔ o < maxBlocks * BSIZE
  contents : ∀ x, s₁.contents x = s.contents x

/-- The last time round the loop has come to the fault at byte `r`, with the buffer `bp` in the
state `t`. -/
structure Faulted (s : Sys) (o r : ℕ) (source : ℕ → UInt8) (t : Sys) (bp : BufId) (s' : Sys) :
    Prop where
  started : s.started = some (bp, t)
  offset : s.u.u_offset = o
  inside : r < s.part
  faults : s.FaultsAt r source
  u : t.u = { s.u with u_error := t.u.u_error }
  bytes : t.source = s.source
  ranged : t.u.u_error = none ↔ o < maxBlocks * BSIZE
  sized : t.ip.i_size = s.ip.i_size
  same : ∀ x, t.contents x = s.contents x
  marked : (t.cache.buf bp).b_delwri = true → (t.cache.buf bp).b_done = true
  count : s'.u.u_count = s.u.u_count - s.counted s.on s.part r
  size : s'.ip.i_size = max s.ip.i_size (o + s.counted s.on s.part r)
  now : ∀ x, s'.contents x = if (t.cache.buf bp).b_done = true ∧ x < maxBlocks * BSIZE ∧ o ≤ x ∧
      x < o + s.copied s.on s.part r then some (source (x - o)) else s.contents x
  later : ∀ x, s'.evictAll.contents x = if (t.cache.buf bp).b_delwri = true ∧
      x < maxBlocks * BSIZE ∧ o ≤ x ∧ x < o + s.copied s.on s.part r then some (source (x - o))
    else s.contents x

theorem on_eq (offset : s.u.u_offset = o) : s.on = o % BSIZE := by
  rw [on, offset]
  rfl

theorem on_congr (u : t.u = { s.u with u_error := t.u.u_error }) : t.on = s.on := by
  rw [on, on, u]

theorem part_congr (u : t.u = { s.u with u_error := t.u.u_error }) : t.part = s.part := by
  rw [part, part, on_congr u, u]

theorem words_congr (u : t.u = { s.u with u_error := t.u.u_error }) (cp n : ℕ) :
    t.Words cp n ↔ s.Words cp n := by
  rw [Words, Words, u]

theorem copied_le (s : Sys) (cp n r : ℕ) : s.copied cp n r ≤ r := by
  rw [copied]
  split <;> omega

theorem counted_le (s : Sys) (cp n r : ℕ) : s.counted cp n r ≤ s.copied cp n r := by
  rw [counted, copied]
  split <;> omega

theorem copied_congr (u : t.u = { s.u with u_error := t.u.u_error }) (cp n r : ℕ) :
    t.copied cp n r = s.copied cp n r ∧ t.counted cp n r = s.counted cp n r :=
  ⟨if_congr (words_congr u cp n) rfl rfl, if_congr (words_congr u cp n) rfl rfl⟩

/-- The loop has a buffer of the block. -/
theorem Arrived.started {s₁ : Sys} (mapped : s.Arrived o s₁ a) (sound : Sound [] s₁ free)
    (regular : s.ip.i_mode &&& IFMT = IFREG) :
    ∃ bp t, s.started = some (bp, t) ∧
      s.writeOnce = some (t.writePart bp s.on s.part,
        decide ((t.writePart bp s.on s.part).u.u_error = none ∧
          (t.writePart bp s.on s.part).u.u_count ≠ 0)) ∧
      Sound [bp] t free ∧ Alike s₁ t ∧ t.Holds bp a := by
  have blocks := hasBlocks_of_regular regular
  have blocks₁ := hasBlocks_of_regular (s := s₁) (by rw [mapped.mode, regular])
  have real : ¬(a : ℤ) < 0 := by omega
  obtain ⟨bp, c, found, sound', alike, hand, -⟩ := writeBuf_spec sound a s.part
  have found' : s₁.writeBuf s₁.ip.i_dev (blkno a) s.part = some (bp, { s₁ with cache := c }) := by
    rw [blkno_natCast mapped.word, found]
  refine ⟨bp, { s₁ with cache := c }, ?_, ?_, sound', alike, hand⟩
  · simp only [Sys.started, blocks, if_true, mapped.mapped, Option.bind_eq_bind, Option.bind_some,
      blocks₁, true_and, if_neg real, found']
  · have found'' : s₁.writeBuf s₁.ip.i_dev (blkno a)
        (min (BSIZE - (s.u.u_offset % BSIZE).toNat) s.u.u_count) =
          some (bp, { s₁ with cache := c }) := found'
    simp only [writeOnce, blocks, if_true, mapped.mapped, Option.bind_eq_bind, Option.bind_some,
      blocks₁, true_and, if_neg real, found'']
    rfl

/-- A fault with the buffer in hand. -/
theorem Arrived.fault {s₁ : Sys} (mapped : s.Arrived o s₁ a) (sound : Sound [] s₁ free)
    (regular : s.ip.i_mode &&& IFMT = IFREG) (offset : s.u.u_offset = o) (small : o < 2 ^ 31)
    (inside : r < s.part) (faults : s.FaultsAt r source) :
    ∃ bp t s', s.writeOnce = some (s', false) ∧ s.Faulted o r source t bp s' := by
  obtain ⟨bp, t, started, once, sound', alike, hand⟩ := mapped.started sound regular
  have u : t.u = { s.u with u_error := t.u.u_error } := by
    rw [alike.u]
    exact mapped.u
  have bytes : t.source = s.source := by
    rw [← mapped.source]
    funext x
    rw [Sys.source, Sys.source, alike.u, alike.user, alike.kernel]
  have on := on_congr u
  have part := part_congr u
  obtain ⟨copied, counted⟩ := copied_congr u s.on s.part r
  have base : t.u.u_base = s.u.u_base := by rw [u]
  have offset' : t.u.u_offset = o := by rw [u, offset]
  have targets : t.Targets o a := by
    rw [Targets, alike.tree]
    exact mapped.targets
  have faults' : t.FaultsAt r source := by
    constructor
    · intro i below
      rw [bytes, base]
      exact faults.sends i below
    · rw [bytes, base]
      exact faults.fault
  have result := writePart_fault bp (by rw [alike.mode, mapped.mode, regular]) offset' small
    (part ▸ inside) faults'
  rw [on, part, copied, counted] at result
  have less := copied_le s s.on s.part r
  have fewer := counted_le s s.on s.part r
  have most : s.part ≤ BSIZE - s.on := Nat.min_le_left _ _
  rw [on_eq offset] at most
  have failed : (t.spoilt bp (s.copied s.on s.part r) (s.counted s.on s.part r)
      source).u.u_error = some .EFAULT := rfl
  rw [result, failed] at once
  obtain ⟨tidy, view, later⟩ := sound'.good.spoil hand.inside hand.dev
    fun m => m.splice t.on (s.copied s.on s.part r) source
  rw [hand.blkno] at view later
  have block : Extended ∅ s₁ free _ free := alike.extended
  have same : ∀ x, t.contents x = s.contents x := by
    intro x
    rw [← mapped.contents, Sys.contents, Sys.contents, byte, byte, alike.block]
  have moved : (t.u.advance (s.counted s.on s.part r)).u_offset =
      ((o + s.counted s.on s.part r : ℕ) : ℤ) := by
    refine advance_offset offset' ?_
    rw [BSIZE] at most
    omega
  have shown (shows : Bool) {c : Cache} (view : c.view = fun d k => if d = t.ip.i_dev ∧ k = a then
      if shows then (t.cache.view t.ip.i_dev k).splice t.on (s.copied s.on s.part r) source
      else t.cache.view t.ip.i_dev k else t.cache.view d k) (x : ℕ) :
      Sys.contents { t.spoilt bp (s.copied s.on s.part r) (s.counted s.on s.part r) source with
        cache := c } x = if shows = true ∧ x < maxBlocks * BSIZE ∧ o ≤ x ∧
          x < o + s.copied s.on s.part r then some (source (x - o)) else s.contents x := by
    rw [on_eq offset'] at view
    rw [← same x]
    refine contents_spoilt sound' targets ?_ ?_ shows view (by omega) x
    · rfl
    · rfl
  refine ⟨bp, t, _, once, ?_⟩
  exact
    { started := started
      offset := offset
      inside := inside
      faults := faults
      u := u
      bytes := bytes
      ranged := by rw [alike.u]; exact mapped.ranged
      sized := alike.size.trans mapped.size
      same := same
      marked := fun late => (sound'.good.dirty bp hand.inside late).1
      count := by
        have count : t.u.u_count = s.u.u_count := by rw [u]
        rw [← count]
        rfl
      size := by
        show max t.ip.i_size (t.u.advance _).u_offset = _
        rw [moved, alike.size, mapped.size]
        rfl
      now := shown _ view
      later := shown _ (tidy.view_evictAll.trans later) }

theorem writePart_u (s : Sys) (bp : BufId) (cp n : ℕ) :
    (s.writePart bp cp n).u = (s.iomove bp cp n B_WRITE).u := by
  simp only [writePart]
  split <;> rfl

theorem part_pos (offset : s.u.u_offset = o) (some : 0 < s.u.u_count) : 0 < s.part := by
  rw [part, on_eq offset, BSIZE]
  omega

/-- The blocks that a file can have, of those that bytes are written to. -/
def Needs (needed : Finset Node) (o k : ℕ) : Prop :=
  (∀ m ∈ needed, fileShape.Valid m) ∧
    ∀ x, o ≤ x → x < o + k → x < maxBlocks * BSIZE → ∀ q, q <:+ (fileNode (x / BSIZE)).2 →
      ((fileNode (x / BSIZE)).1, q) ∈ needed

/-- The bytes of the request. -/
def request (s : Sys) (i : ℕ) : UInt8 := (s.source (s.u.u_base + i)).getD 0

/-- Once round the loop: it ends with another error, all bytes are moved, or there is a fault. -/
theorem writeOnce_cases (sound : Sound [] s free) (regular : s.ip.i_mode &&& IFMT = IFREG)
    (quiet : s.u.u_error = none) (offset : s.u.u_offset = o) (small : o < 2 ^ 31)
    (some : 0 < s.u.u_count) (needs : Needs needed o s.u.u_count) :
    (∃ s', s.writeOnce = Option.some (s', false) ∧ s'.u.u_error ≠ none ∧
      s'.u.u_error ≠ Option.some .EFAULT) ∨
    (∃ s' free', s.writeOnce = Option.some (s', decide (s.u.u_count - s.part ≠ 0)) ∧
      o < maxBlocks * BSIZE ∧ s.Sends s.part s.request ∧
      Wrote needed s free o s.part s.request s' free') ∨
    ∃ r bp t s', s.writeOnce = Option.some (s', false) ∧ s.Faulted o r s.request t bp s' := by
  have lbn : s.u.u_offset / BSIZE = ((o / BSIZE : ℕ) : ℤ) := by
    rw [offset]
    rfl
  have moves := part_pos offset some
  by_cases inside : o < maxBlocks * BSIZE
  · have few : o / BSIZE < maxBlocks := Nat.div_lt_of_lt_mul (by rwa [Nat.mul_comm])
    rcases bmap_write_cases sound few needs.1 (needs.2 o (Nat.le_refl o) (by omega) inside) with
      ⟨nb, s₁, free₁, mapped, sound₁, extended, here, real⟩ | ⟨s₁, mapped, out⟩
    · rcases sends_or_faults s s.part with sends | ⟨r, below, faults⟩
      · have part : min (BSIZE - o % BSIZE) s.u.u_count = s.part := by
          rw [Sys.part, on_eq offset]
        obtain ⟨s', once, wrote⟩ := writeOnce_mapped regular quiet offset inside some part sends
          needs.1 mapped sound₁ extended here real
        exact .inr (.inl ⟨s', free₁, once, inside, sends, wrote⟩)
      · have found : s.Arrived o s₁ nb :=
          { mapped := lbn ▸ mapped
            word := word_of_inRange sound₁.long
              (here ▸ (sound₁.nodes _ (fileNode_valid few) (by rw [here]; exact real)).1)
            targets := .inl ⟨inside, here, real⟩
            dev := extended.dev
            mode := extended.mode
            size := extended.size
            u := by rw [extended.u]
            source := by
              funext x
              rw [Sys.source, Sys.source, extended.u, extended.user, extended.kernel]
            ranged := by rw [extended.u, quiet]; exact iff_of_true rfl inside
            contents := fun x => by
              rw [contents, contents]
              split
              · next below =>
                  have few : x / BSIZE < maxBlocks :=
                    Nat.div_lt_of_lt_mul (by rwa [Nat.mul_comm])
                  rw [byte, byte, extended.block _ (fileNode_valid few) (fileNode_leaf few)]
              · rfl }
        obtain ⟨bp, t, s', once, faulted⟩ := found.fault sound₁ regular offset small below faults
        exact .inr (.inr ⟨r, bp, t, s', once, faulted⟩)
    · have blocks := hasBlocks_of_regular regular
      have blocks₁ := hasBlocks_of_regular (s := s₁) (by rw [out.mode, regular])
      rw [← lbn] at mapped
      refine .inl ⟨s₁, ?_, by simp [out.error], by simp [out.error]⟩
      simp only [writeOnce, blocks, if_true, mapped, Option.bind_eq_bind, Option.bind_some, blocks₁,
        true_and]
      rfl
  · have large : maxBlocks ≤ o / BSIZE :=
      (Nat.le_div_iff_mul_le (by decide)).mpr (Nat.not_lt.mp inside)
    have mapped := bmap_tooBig (s := s)
      (show (maxBlocks : ℤ) ≤ s.u.u_offset / BSIZE by omega) B_WRITE
    have same : SameBlocks s ({ s with rablock := 0 }.error .EFBIG) := ⟨rfl, rfl, rfl, rfl, rfl⟩
    generalize have_s₁ : ({ s with rablock := 0 }.error .EFBIG : Sys) = s₁ at mapped same
    have sound₁ : Sound [] s₁ free := same.sound sound (by rw [← have_s₁]; exact sound.good)
    have efbig : s₁.u.u_error = Option.some .EFBIG := by rw [← have_s₁]; rfl
    have found : s.Arrived o s₁ 0 :=
      { mapped := mapped
        word := by decide
        targets := .inr ⟨Nat.not_lt.mp inside, rfl⟩
        dev := same.dev
        mode := same.mode
        size := by rw [← have_s₁]; rfl
        u := by rw [← have_s₁]; rfl
        source := by rw [← have_s₁]; rfl
        ranged := by rw [efbig]; exact iff_of_false (Option.some_ne_none _) inside
        contents := fun x => by rw [contents, contents, byte, byte, same.block] }
    rcases sends_or_faults s s.part with sends | ⟨r, below, faults⟩
    · obtain ⟨bp, t, -, once, -, alike, -⟩ := found.started sound₁ regular
      have sends' : t.Sends s.part s.request := by
        intro i below
        have here := sends i below
        rw [Sys.source] at here ⊢
        rw [alike.u, alike.user, alike.kernel, ← have_s₁]
        exact here
      have enough : s.part ≤ t.u.u_count := by
        rw [alike.u, ← have_s₁]
        exact Nat.min_le_right _ _
      have error : (t.writePart bp s.on s.part).u.u_error = Option.some .EFBIG := by
        rw [writePart_u, iomove_write bp s.on moves enough sends', ← efbig, ← alike.u]
        rfl
      rw [error] at once
      exact .inl ⟨_, once, by simp [error], by simp [error]⟩
    · obtain ⟨bp, t, s', once, faulted⟩ := found.fault sound₁ regular offset small below faults
      exact .inr (.inr ⟨r, bp, t, s', once, faulted⟩)

/-! ## The loop -/

/-- The times round the loop before the last one have written `p` bytes. -/
structure Before (s : Sys) (o p : ℕ) (s₁ : Sys) : Prop where
  u : s₁.u = s.u.advance p
  source : s₁.source = s.source
  most : p ≤ s.u.u_count
  size : max s₁.ip.i_size (o + p) = max s.ip.i_size (o + p)
  contents : ∀ x, s₁.contents x =
    if o ≤ x ∧ x < o + p then s.source (s.u.u_base + (x - o)) else s.contents x

theorem Before.refl (offset : s.u.u_offset = o) (small : o < 2 ^ 31) : s.Before o 0 s where
  u := (advance_zero (by omega) (by omega)).symm
  source := rfl
  most := Nat.zero_le _
  size := rfl
  contents x := by rw [if_neg (by omega)]

/-- A whole part is written. -/
theorem Wrote.before (wrote : Wrote needed s free o s.part s.request s' free')
    (sends : s.Sends s.part s.request) (offset : s.u.u_offset = o)
    (inside : o < maxBlocks * BSIZE) : s.Before o s.part s' where
  u := wrote.u
  source := by
    funext x
    rw [Sys.source, Sys.source, wrote.u, wrote.user, wrote.kernel]
    rfl
  most := Nat.min_le_right _ _
  size := by
    rw [wrote.size]
    omega
  contents x := by
    have limit : maxBlocks * BSIZE = 1082201088 := by decide
    have most : s.part ≤ BSIZE - s.on := Nat.min_le_left _ _
    rw [on_eq offset, BSIZE] at most
    rw [contents, contents]
    by_cases below : x < maxBlocks * BSIZE
    · rw [if_pos below, if_pos below, wrote.byte x below]
      split
      · exact (sends (x - o) (by omega)).symm
      · rfl
    · rw [if_neg below, if_neg below, if_neg (by omega)]

theorem Before.trans {s₁ s₂ : Sys} {p q : ℕ} (first : s.Before o p s₁)
    (second : s₁.Before (o + p) q s₂) : s.Before o (p + q) s₂ where
  u := by rw [second.u, first.u, User.advance_advance]
  source := second.source.trans first.source
  most := by
    have most := second.most
    rw [first.u] at most
    have count : (s.u.advance p).u_count = s.u.u_count - p := rfl
    have enough := first.most
    omega
  size := by
    have one := first.size
    have two := second.size
    omega
  contents x := by
    have base : s₁.u.u_base = s.u.u_base + p := by rw [first.u]; rfl
    rw [second.contents, first.contents, first.source, base]
    by_cases behind : o + p ≤ x ∧ x < o + p + q
    · rw [if_pos behind, if_pos (by omega)]
      congr 1
      omega
    · rw [if_neg behind]
      exact if_congr (by omega) rfl rfl

/-- The loop comes to a fault after some whole parts. -/
theorem writeLoop_fault (fuel : ℕ) (sound : Sound [] s free)
    (regular : s.ip.i_mode &&& IFMT = IFREG) (quiet : s.u.u_error = none)
    (offset : s.u.u_offset = o) (small : o < 2 ^ 31) (some : 0 < s.u.u_count)
    (needs : Needs needed o s.u.u_count) (ran : writeLoop fuel s = Option.some s')
    (fault : s'.u.u_error = Option.some .EFAULT) :
    ∃ p r bp t s₁, lastStarted fuel s = Option.some (bp, t) ∧ s.Before o p s₁ ∧
      s₁.Faulted (o + p) r s₁.request t bp s' := by
  induction fuel generalizing s free o with
  | zero => simp [writeLoop] at ran
  | succ fuel ih =>
      rw [writeLoop] at ran
      rw [lastStarted]
      rcases writeOnce_cases sound regular quiet offset small some needs with
        ⟨s₂, once, -, other⟩ | ⟨s₂, free₂, once, inside, sends, wrote⟩ |
          ⟨r, bp, t, s₂, once, faulted⟩
      · simp only [once, Option.bind_eq_bind, Option.bind_some, Bool.false_eq_true, if_false,
          Option.some.injEq] at ran
        exact absurd fault (ran ▸ other)
      · have before := wrote.before sends offset inside
        have count : s₂.u.u_count = s.u.u_count - s.part := by rw [wrote.u]; rfl
        simp only [once, Option.bind_eq_bind, Option.bind_some, decide_eq_true_eq] at ran ⊢
        by_cases done : s.u.u_count - s.part = 0
        · rw [if_neg (not_not.mpr done), Option.some.injEq] at ran
          rw [← ran, wrote.u] at fault
          exact absurd (quiet.symm.trans fault) (by simp)
        · rw [if_pos done] at ran
          have most : s.part ≤ BSIZE - s.on := Nat.min_le_left _ _
          rw [on_eq offset, BSIZE] at most
          have limit : maxBlocks * BSIZE = 1082201088 := by decide
          have enough : s.part ≤ s.u.u_count := Nat.min_le_right _ _
          have offset₂ : s₂.u.u_offset = ((o + s.part : ℕ) : ℤ) := by
            rw [wrote.u]
            exact advance_offset offset (by omega)
          obtain ⟨p, r, bp, t, s₁, last, before', faulted⟩ := ih wrote.sound
            (by rw [wrote.mode, regular]) (by rw [wrote.u]; exact quiet) offset₂ (by omega)
            (by omega) ⟨needs.1, fun x low high => needs.2 x (by omega) (by omega)⟩ ran
          refine ⟨s.part + p, r, bp, t, s₁, ?_, before.trans before', ?_⟩
          · simpa [done] using last
          · rwa [← Nat.add_assoc]
      · simp only [once, Option.bind_eq_bind, Option.bind_some, Bool.false_eq_true, if_false,
          Option.some.injEq] at ran ⊢
        subst ran
        exact ⟨0, r, bp, t, s, faulted.started, Before.refl offset small, faulted⟩

/-! ## What the file has lost or got -/

variable {s₁ : Sys} {p : ℕ}

/-- The bytes before the fault can be read, and no others with that one. -/
theorem FaultsAt.isSome_iff (faults : s.FaultsAt r source) (m : ℕ) :
    (∀ i < m, (s.source (s.u.u_base + i)).isSome) ↔ m ≤ r := by
  constructor
  · intro all
    by_contra more
    have here := all r (Nat.not_le.mp more)
    rw [faults.fault] at here
    simp at here
  · intro few i below
    rw [faults.sends i (by omega)]
    rfl

theorem Faulted.copied_iff (faulted : s.Faulted o r source t bp s') (i : ℕ) :
    t.Copied i ↔ i < s.copied s.on s.part r := by
  have on := on_congr faulted.u
  have part := part_congr faulted.u
  have base : t.u.u_base = s.u.u_base := by rw [faulted.u]
  have words := words_congr faulted.u s.on s.part
  rw [Copied, on, part, faulted.bytes, base, faulted.faults.isSome_iff, copied]
  by_cases words' : s.Words s.on s.part
  · rw [if_pos words', if_pos (words.mpr words')]
    omega
  · rw [if_neg words', if_neg fun also => words' (words.mp also)]
    omega

/-- The file when the bytes before the fault are counted. -/
theorem shorter_iff_of_counted {shows : Bool} (before : s.Before o p s₁)
    (offset : s.u.u_offset = o) (sends : s₁.FaultsAt r source) (few : j ≤ r)
    (size : s'.ip.i_size = max s.ip.i_size (o + (p + j)))
    (here : ∀ x, s'.contents x = if shows = true ∧ x < maxBlocks * BSIZE ∧ o + p ≤ x ∧
      x < o + p + j then some (source (x - (o + p))) else s₁.contents x) :
    s.Shorter (p + j) s' ↔ ∀ i < j, shows = true ∧ o + p + i < maxBlocks * BSIZE ∨
      s₁.source (s₁.u.u_base + i) = s₁.contents (o + p + i) := by
  have base : s₁.u.u_base = s.u.u_base + p := by rw [before.u]; rfl
  have byte : ∀ x, o + p ≤ x → x < o + p + j →
      s.source (s.u.u_base + (x - o)) = some (source (x - (o + p))) := by
    intro x low high
    have there := sends.sends (x - (o + p)) (by omega)
    rwa [base, before.source, Nat.add_assoc, show p + (x - (o + p)) = x - o by omega] at there
  constructor
  · intro shorter i below
    have there := shorter.contents (o + p + i) (by rw [size]; omega)
    rw [here, if_pos (c := s.u.u_offset ≤ _ ∧ _) (by omega)] at there
    by_cases seen : shows = true ∧ o + p + i < maxBlocks * BSIZE
    · exact .inl seen
    · rw [if_neg fun both => seen ⟨both.1, both.2.1⟩] at there
      refine .inr ?_
      rw [there, base, before.source, Nat.add_assoc]
      congr 2
      omega
  · intro each
    refine ⟨by rw [size, offset]; push_cast; rfl, fun x _ => ?_⟩
    have start : s.u.u_offset.toNat = o := by omega
    rw [here, start, offset]
    by_cases behind : o + p ≤ x ∧ x < o + p + j
    · rw [if_pos (c := (o : ℤ) ≤ x ∧ _) (by omega), byte x behind.1 behind.2]
      by_cases seen : shows = true ∧ x < maxBlocks * BSIZE
      · rw [if_pos ⟨seen.1, seen.2, behind⟩]
      · obtain ⟨i, rfl⟩ : ∃ i, x = o + p + i := ⟨x - (o + p), by omega⟩
        have known := (each i (by omega)).resolve_left seen
        rw [if_neg fun both => seen ⟨both.1, both.2.1⟩, ← known, Nat.add_sub_cancel_left]
        exact sends.sends i (by omega)
    · rw [if_neg fun both => behind both.2.2, before.contents]
      exact if_congr (by omega) rfl rfl

/-- The file when the bytes before the fault are not counted. -/
theorem shorter_iff_of_uncounted {shows : Bool} (before : s.Before o p s₁)
    (offset : s.u.u_offset = o) (sends : s₁.FaultsAt r source) (few : j ≤ r)
    (size : s'.ip.i_size = max s.ip.i_size (o + p))
    (here : ∀ x, s'.contents x = if shows = true ∧ x < maxBlocks * BSIZE ∧ o + p ≤ x ∧
      x < o + p + j then some (source (x - (o + p))) else s₁.contents x) :
    s.Shorter p s' ↔ ∀ i < j, shows = true → o + p + i < maxBlocks * BSIZE →
      (o : ℤ) + p + i < s₁.ip.i_size →
      s₁.source (s₁.u.u_base + i) = s₁.contents (o + p + i) := by
  have larger := before.size
  constructor
  · intro shorter i below seen inside visible
    have there := shorter.contents (o + p + i) (by rw [size]; omega)
    rw [here, if_pos ⟨seen, inside, by omega, by omega⟩, if_neg (by omega)] at there
    rw [sends.sends i (by omega), before.contents, if_neg (by omega), ← there,
      Nat.add_sub_cancel_left]
  · intro each
    refine ⟨by rw [size, offset], fun x visible => ?_⟩
    have start : s.u.u_offset.toNat = o := by omega
    rw [here, start, offset]
    by_cases seen : shows = true ∧ x < maxBlocks * BSIZE ∧ o + p ≤ x ∧ x < o + p + j
    · obtain ⟨i, rfl⟩ : ∃ i, x = o + p + i := ⟨x - (o + p), by omega⟩
      have known := each i (by omega) seen.1 seen.2.1 (by omega)
      rw [if_pos seen, if_neg (by omega), Nat.add_sub_cancel_left, ← sends.sends i (by omega),
        known, before.contents, if_neg (by omega)]
    · rw [if_neg seen, before.contents]
      exact if_congr (by omega) rfl rfl

theorem exists_needs (o k : ℕ) : ∃ needed, Needs needed o k := by
  by_cases inside : o < maxBlocks * BSIZE ∧ 0 < k
  · refine ⟨nodesFor o (min k (maxBlocks * BSIZE - o)), nodesFor_valid (by omega) (by omega), ?_⟩
    exact fun x low high below q onWay => mem_nodesFor_of low (by omega) onWay
  · exact ⟨∅, by simp, fun x low high below => by omega⟩

/-- Bytes in one block are all in a block that a file can have, or none. -/
theorem part_within {i : ℕ} (small : i < s.part) (offset : s.u.u_offset = o) :
    o + i < maxBlocks * BSIZE ↔ o < maxBlocks * BSIZE := by
  have most : s.part ≤ BSIZE - s.on := Nat.min_le_left _ _
  have limit : maxBlocks * BSIZE = 2113674 * 512 := by decide
  rw [on_eq offset, BSIZE] at most
  omega

/-- The bytes that are copied, as the state before the last time round the loop has them. -/
theorem Faulted.unchanged_iff (faulted : s.Faulted o r source t bp s') (visible : ℕ → Prop) :
    t.Unchanged visible ↔ ∀ i < s.copied s.on s.part r, visible i →
      s.source (s.u.u_base + i) = s.contents (o + i) := by
  have base : t.u.u_base = s.u.u_base := by rw [faulted.u]
  have start : t.u.u_offset.toNat = o := by
    rw [faulted.u]
    exact congrArg Int.toNat faulted.offset
  have few := copied_le s s.on s.part r
  have inside := faulted.inside
  simp only [Unchanged, faulted.copied_iff, part_congr faulted.u, faulted.bytes, base, start,
    faulted.same]
  exact ⟨fun all i below => all i (by omega) below, fun all i _ below => all i below⟩

/-- The two readings after a fault. -/
theorem Faulted.shorter_iff (faulted : s₁.Faulted (o + p) r source t bp s')
    (before : s.Before o p s₁) (offset : s.u.u_offset = o) :
    s.Shorter (s.u.u_count - s'.u.u_count) s' ∧
      s.Shorter (s.u.u_count - s'.u.u_count) s'.evictAll ↔ t.Spared bp := by
  have few := copied_le s₁ s₁.on s₁.part r
  have fewer := counted_le s₁ s₁.on s₁.part r
  have inside := faulted.inside
  have enough : s₁.part ≤ s₁.u.u_count := Nat.min_le_right _ _
  have left : s₁.u.u_count = s.u.u_count - p := by rw [before.u]; rfl
  have count : s.u.u_count - s'.u.u_count = p + s₁.counted s₁.on s₁.part r := by
    have counted := faulted.count
    have most := before.most
    omega
  have size : s'.ip.i_size = max s.ip.i_size (o + (p + s₁.counted s₁.on s₁.part r)) := by
    have size := faulted.size
    have larger := before.size
    push_cast at size
    omega
  have range : ∀ i < s₁.copied s₁.on s₁.part r,
      o + p + i < maxBlocks * BSIZE ↔ t.u.u_error = none := fun i below =>
    (part_within (by omega) faulted.offset).trans faulted.ranged.symm
  have moved : (t.Words t.on t.part ↔ s₁.Words s₁.on s₁.part) := by
    rw [on_congr faulted.u, part_congr faulted.u]
    exact words_congr faulted.u _ _
  have size' : s'.evictAll.ip.i_size =
      max s.ip.i_size (o + (p + s₁.counted s₁.on s₁.part r)) := size
  have marked := faulted.marked
  rw [count, Spared]
  by_cases words : s₁.Words s₁.on s₁.part
  · have none : s₁.counted s₁.on s₁.part r = 0 := if_pos words
    have visible : ∀ i : ℕ, t.u.u_offset + i < t.ip.i_size ↔ (o : ℤ) + p + i < s₁.ip.i_size := by
      intro i
      rw [faulted.u, faulted.sized, show s₁.u.u_offset = _ from faulted.offset]
      push_cast
      rfl
    rw [none, Int.natCast_zero, Int.add_zero] at size size'
    rw [none, Nat.add_zero, if_pos (moved.mpr words), faulted.unchanged_iff,
      shorter_iff_of_uncounted before offset faulted.faults few size faulted.now,
      shorter_iff_of_uncounted before offset faulted.faults few size' faulted.later]
    simp only [visible]
    constructor
    · rintro ⟨now, -⟩
      by_cases error : t.u.u_error = Option.none
      · refine .inr ?_
        cases done : (t.cache.buf bp).b_done with
        | false => exact .inl rfl
        | true => exact .inr fun i below => now i below done ((range i below).mpr error)
      · exact .inl error
    · intro spared
      have now : ∀ i < s₁.copied s₁.on s₁.part r, (t.cache.buf bp).b_done = true →
          o + p + i < maxBlocks * BSIZE → (o : ℤ) + p + i < s₁.ip.i_size →
          s₁.source (s₁.u.u_base + i) = s₁.contents (o + p + i) := by
        intro i below done inside
        rcases spared with error | invalid | same
        · exact absurd ((range i below).mp inside) error
        · exact absurd (done.symm.trans invalid) (by decide)
        · exact same i below
      exact ⟨now, fun i below late => now i below (marked late)⟩
  · have all : s₁.counted s₁.on s₁.part r = s₁.copied s₁.on s₁.part r := by
      rw [counted, copied, if_neg words, if_neg words]
    rw [all] at size size'
    rw [all, if_neg fun also => words (moved.mp also), faulted.unchanged_iff,
      shorter_iff_of_counted before offset faulted.faults few size faulted.now,
      shorter_iff_of_counted before offset faulted.faults few size' faulted.later]
    constructor
    · rintro ⟨-, later⟩
      by_cases kept : t.u.u_error = Option.none ∧ (t.cache.buf bp).b_delwri = true
      · exact .inl kept
      · refine .inr fun i below _ => (later i below).resolve_left fun both => kept ?_
        exact ⟨(range i below).mp both.2, both.1⟩
    · rintro (⟨error, late⟩ | same)
      · exact ⟨fun i below => .inl ⟨marked late, (range i below).mpr error⟩,
          fun i below => .inl ⟨late, (range i below).mpr error⟩⟩
      · exact ⟨fun i below => .inr (same i below trivial),
          fun i below => .inr (same i below trivial)⟩

/-- After a `writei` into a regular file that faults, the file has the bytes that are counted and
no others, now and when all buffers have been evicted, if and only if the bytes which the last
time round the loop has put into its buffer do no harm. -/
theorem writei_fault_iff (d_write : Dev → Sys → Option Sys) (sound : Sound [] s free)
    (regular : s.ip.i_mode &&& IFMT = IFREG) (quiet : s.u.u_error = none)
    (small : s.u.u_offset < 2 ^ 31) (ran : s.writei d_write = some s')
    (fault : s'.u.u_error = some .EFAULT) :
    ∃ bp t, lastStarted s.u.u_count s = some (bp, t) ∧
      (s.Shorter (s.u.u_count - s'.u.u_count) s' ∧
        s.Shorter (s.u.u_count - s'.u.u_count) s'.evictAll ↔ t.Spared bp) := by
  have character : ¬(IFREG = IFCHR ∨ IFREG = IFMPC) := by decide
  have other : ¬IFREG = IFCHR := fun same => character (.inl same)
  rw [writei, regular, if_neg character] at ran
  by_cases low : s.u.u_offset < 0
  · rw [if_pos ⟨low, other⟩, Option.some.injEq] at ran
    rw [← ran] at fault
    exact absurd fault (by simp [error])
  · rw [if_neg fun both => low both.1] at ran
    by_cases nothing : s.u.u_count = 0
    · rw [if_pos nothing, Option.some.injEq] at ran
      rw [← ran, quiet] at fault
      exact absurd fault (by simp)
    · rw [if_neg nothing] at ran
      obtain ⟨o, offset⟩ := Int.eq_ofNat_of_zero_le (Int.not_lt.mp low)
      obtain ⟨needed, needs⟩ := exists_needs o s.u.u_count
      obtain ⟨p, r, bp, t, s₁, last, before, faulted⟩ := writeLoop_fault s.u.u_count sound regular
        quiet offset (by omega) (Nat.pos_of_ne_zero nothing) needs ran fault
      exact ⟨bp, t, last, faulted.shorter_iff before offset⟩

/-- A write of two bytes, of which the second cannot be read, into a file of one block. -/
def faultyFile : Sys :=
  { smallFile 5 10 0 2 8 with
    u := ⟨0, 1, 2, 0, none⟩
    user := fun a => if a = 1 then some 7 else none }

theorem faultyFile_sound : Sound [] faultyFile [9] := by
  have same : SameBlocks (smallFile 5 10 0 2 8) faultyFile := ⟨rfl, rfl, rfl, rfl, rfl⟩
  have sound : Sound [] (smallFile 5 10 0 2 8) [9] := smallFile_sound (.inr (by decide))
  exact same.sound sound sound.good

theorem writei_fault_iff_faultyFile :
    ∃ s' bp t, faultyFile.writei (fun _ _ => none) = some s' ∧
      lastStarted 2 faultyFile = some (bp, t) ∧
      (faultyFile.Shorter (2 - s'.u.u_count) s' ∧
        faultyFile.Shorter (2 - s'.u.u_count) s'.evictAll ↔ t.Spared bp) := by
  have run : ∃ s', faultyFile.writei (fun _ _ => none) = some s' ∧
      s'.u.u_error = some .EFAULT := ⟨_, rfl, rfl⟩
  obtain ⟨s', ran, fault⟩ := run
  obtain ⟨bp, t, last, spared⟩ := writei_fault_iff (fun _ _ => none) faultyFile_sound (by decide)
    rfl (by decide) ran fault
  exact ⟨s', bp, t, ran, last, spared⟩

/-- The byte before the fault is counted and lost. -/
theorem not_forall_shorter :
    ¬∀ (d_write : Dev → Sys → Option Sys) (s s' : Sys) (free : List Daddr), Sound [] s free →
      s.ip.i_mode &&& IFMT = IFREG → s.u.u_error = none → s.u.u_offset < 2 ^ 31 →
      s.writei d_write = some s' → s'.u.u_error = some .EFAULT →
      s.Shorter (s.u.u_count - s'.u.u_count) s' ∧
        s.Shorter (s.u.u_count - s'.u.u_count) s'.evictAll := by
  intro all
  have run : ∃ s', faultyFile.writei (fun _ _ => none) = some s' ∧
      s'.u.u_error = some .EFAULT ∧ s'.u.u_count = 1 ∧ s'.ip.i_size = 10 := ⟨_, rfl, rfl, rfl, rfl⟩
  have lost : (faultyFile.writei fun _ _ => none).map (fun s' => s'.evictAll.contents 0) =
      some (some 8) := by
    decide +kernel
  obtain ⟨s', ran, fault, count, size⟩ := run
  rw [ran, Option.map_some, Option.some.injEq] at lost
  have later := (all _ faultyFile s' [9] faultyFile_sound (by decide) rfl (by decide) ran fault).2
  have there := later.contents 0 (by rw [show s'.evictAll.ip = s'.ip from rfl, size]; decide)
  rw [lost, count] at there
  exact absurd there (by decide)

end Sys

end UnixV7
