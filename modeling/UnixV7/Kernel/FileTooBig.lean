import UnixV7.Kernel.Cache
import UnixV7.Kernel.Rdwri

/-!
# Writing past the largest file

`bmap` has two ways to fail: it returns -1 when there is no block, and 0 with `EFBIG` when the
block number is beyond the triple indirect block. `writei` tests for the first one only, and goes
on with block 0 of the device in the other case.
-/

namespace UnixV7

open Rw

/-- No buffer is in anybody's hands, and one whose writing was put off is valid. -/
def Cache.Idle (c : Cache) : Prop :=
  ∀ i, i < NBUF → (c.buf i).b_busy = false ∧
    ((c.buf i).b_delwri = true → (c.buf i).b_done = true ∧ (c.buf i).b_dev ≠ none)

/-- The call has failed with `EFBIG` and left everything as it was. -/
structure Rejected (s s' : Sys) : Prop where
  efbig : s'.u.u_error = some .EFBIG
  size : s'.ip.i_size = s.ip.i_size
  addr : s'.ip.i_addr = s.ip.i_addr
  contents : ∀ blkno, s'.cache.view s.ip.i_dev blkno = s.cache.view s.ip.i_dev blkno
  count : s'.u.u_count = s.u.u_count

namespace Cache

variable {c : Cache}

/-- What other processes do to buffers leaves them in nobody's hands, even if a transfer fails. -/
theorem stable_idle : Stable Idle where
  rounds _ _ idle := idle
  named c bp idle inside dirty := ((idle bp inside).2 dirty).2
  written c bp idle inside free dirty := by
    obtain ⟨dev, here⟩ := Option.ne_none_iff_exists'.mp ((idle bp inside).2 dirty).2
    intro i below
    by_cases same : i = bp
    · subst same
      rw [brelse, modify_self]
      refine ⟨rfl, fun still => ?_⟩
      have cleared := write_delwri (c := c.notavail i) i (by simp [notavail, here])
      rw [cleared] at still
      simp at still
    · rw [brelse, modify_of_ne same, write_of_ne same, notavail, modify_of_ne same]
      exact idle i below
  reassigned c bp dev blkno idle inside free clean fresh := by
    intro i below
    by_cases same : i = bp
    · subst same
      simp [brelse, assign, Buf.assign]
    · rw [brelse, modify_of_ne same, assign, modify_of_ne same, notavail, modify_of_ne same]
      exact idle i below
  read c bp idle inside free undone := by
    intro i below
    by_cases same : i = bp
    · subst same
      have clean : (c.buf i).b_delwri = false := by
        cases dirty : (c.buf i).b_delwri with
        | false => rfl
        | true => simp [((idle i inside).2 dirty).1] at undone
      rw [brelse, modify_self]
      refine ⟨rfl, fun still => ?_⟩
      simp only [Cache.read] at still
      split at still
      · simp [notavail, clean] at still
      · split at still <;> simp [notavail, clean] at still
    · rw [brelse, modify_of_ne same, read_of_ne same, notavail, modify_of_ne same]
      exact idle i below

theorem Idle.take (idle : c.Idle) (block : Option (Dev × Daddr)) :
    ∃ bp c', c.take (NBUF + 1) block = some (bp, c') := by
  have room : ∀ c₁ : Cache, c₁.Idle → c₁.avail ≠ [] := by
    intro c₁ idle empty
    have mem := mem_avail.mpr ⟨(by decide : 0 < NBUF), (idle 0 (by decide)).1⟩
    simp [empty] at mem
  have found : ∀ (c₁ : Cache) bp, c₁.Idle → (block.bind fun b => c₁.incore b.1 b.2) = some bp →
      (c₁.buf bp).b_busy = false := by
    intro c₁ bp idle found
    obtain ⟨⟨dev, blkno⟩, rfl, here⟩ := Option.bind_eq_some_iff.mp found
    exact (idle bp (incore_eq_some here).1).1
  obtain ⟨c₁, bp, -, taken⟩ :=
    stable_idle.take found room idle (Nat.lt_succ_of_le dirty_le_NBUF)
  rcases taken with ⟨-, taken⟩ | ⟨-, -, -, -, taken⟩
  · exact ⟨bp, _, taken⟩
  · exact ⟨bp, _, taken⟩

end Cache

namespace Sys

variable {s : Sys} {bp : BufId} {n cp : ℕ}

/-- Picking up bytes uses up `u_count`, unless one of them faults. -/
theorem pickUp_count (cp : ℕ) (enough : n ≤ s.u.u_count) :
    (pickUp bp n cp s).u.u_error = some .EFAULT ∨
      (pickUp bp n cp s).u.u_error = s.u.u_error ∧
        (pickUp bp n cp s).u.u_count = s.u.u_count - n := by
  induction n generalizing cp s with
  | zero => exact .inr ⟨rfl, rfl⟩
  | succ n ih =>
      rw [pickUp, cpass, if_neg (by omega)]
      cases s.source s.u.u_base with
      | none => exact .inl rfl
      | some byte =>
          rcases ih (s := { s with u := s.u.advance 1 }.edit bp fun m => m.splice cp 1
            fun _ => byte) (cp + 1) (show n ≤ s.u.u_count - 1 by omega) with fault | ⟨same, count⟩
          · exact .inl fault
          · refine .inr ⟨same, count.trans ?_⟩
            show s.u.u_count - 1 - n = s.u.u_count - (n + 1)
            omega

theorem iomove_count (bp : BufId) (cp : ℕ) (enough : n ≤ s.u.u_count) :
    (s.iomove bp cp n B_WRITE).u.u_error = some .EFAULT ∨
      (s.iomove bp cp n B_WRITE).u.u_error = s.u.u_error ∧
        (s.iomove bp cp n B_WRITE).u.u_count = s.u.u_count - n := by
  rw [iomove]
  split
  · next none => exact .inr ⟨rfl, by omega⟩
  · split
    · simp only
      split
      · exact .inl rfl
      · exact .inr ⟨rfl, rfl⟩
    · exact pickUp_count _ enough

/-- `bmap` beyond the triple indirect block. -/
theorem bmap_tooBig {bn : ℤ} (big : (maxBlocks : ℤ) ≤ bn) (rwflg : Rw) :
    s.bmap bn rwflg = some (0, { s with rablock := 0 }.error .EFBIG) := by
  have limit : (2113674 : ℤ) ≤ bn := big
  have level : bmapLevel 3 0 1 (bn.toNat - (NADDR - 3)) = none := by
    simp only [bmapLevel_eq, NADDR]
    rw [if_neg (by omega), if_neg (by omega), if_neg (by omega)]
  rw [bmap, if_neg (by omega)]
  simp only [level]
  rw [if_neg (by simp only [NADDR]; omega)]

/-- A block buffer for `writei`. A device that fails may set `u_error`. -/
theorem writeBuf_idle (idle : s.cache.Idle) (failed : s.u.u_error ≠ none) (dev : Dev)
    (blkno : Daddr) (n : ℕ) :
    ∃ bp s', s.writeBuf dev blkno n = some (bp, s') ∧ s'.u.u_error ≠ none ∧
      s'.u.u_count = s.u.u_count := by
  obtain ⟨bp, c, taken⟩ := idle.take (some (dev, blkno))
  rw [writeBuf]
  split
  · exact ⟨bp, { s with cache := c }, by simp [Cache.getblk, taken], failed, rfl⟩
  · simp only [bread, Cache.bread, Cache.getblk, taken, Option.bind_eq_bind, Option.bind_some]
    split
    · refine ⟨_, _, rfl, ?_⟩
      rw [geterror]
      split
      · exact ⟨by simp [error], rfl⟩
      · exact ⟨failed, rfl⟩
    · refine ⟨_, _, rfl, ?_⟩
      rw [geterror]
      split
      · exact ⟨by simp [error], rfl⟩
      · exact ⟨failed, rfl⟩

/-- Whatever buffer it is, bytes are moved to it. -/
theorem writePart_count (bp : BufId) (cp : ℕ) (enough : n ≤ s.u.u_count)
    (failed : s.u.u_error ≠ none) :
    (s.writePart bp cp n).u.u_error ≠ none ∧
      ((s.writePart bp cp n).u.u_error = some .EFAULT ∨
        (s.writePart bp cp n).u.u_count = s.u.u_count - n) := by
  have kept : (s.writePart bp cp n).u = (s.iomove bp cp n B_WRITE).u := by
    simp only [writePart]
    split <;> rfl
  rw [kept]
  rcases iomove_count bp cp enough with fault | ⟨same, count⟩
  · exact ⟨by simp [fault], .inl fault⟩
  · exact ⟨by rwa [same], .inr count⟩

/-- The block number 0 that `bmap` returns is taken for a block, and bytes are moved to it. -/
theorem writeOnce_tooBig (regular : s.ip.i_mode &&& IFMT = IFREG)
    (big : (maxBlocks : ℤ) ≤ s.u.u_offset / BSIZE) (count : 0 < s.u.u_count)
    (idle : s.cache.Idle) :
    ∃ s', s.writeOnce = some (s', false) ∧
      (s'.u.u_error = some .EFAULT ∨ s'.u.u_count < s.u.u_count) := by
  have blocks : s.hasBlocks := by
    rw [hasBlocks, regular]
    decide
  have rest : (s.u.u_offset % BSIZE).toNat < BSIZE := by
    simp only [BSIZE]
    omega
  generalize move : min (BSIZE - (s.u.u_offset % BSIZE).toNat) s.u.u_count = n
  obtain ⟨bp, s₁, found, failed, same⟩ := writeBuf_idle
    (s := { s with rablock := 0 }.error .EFBIG) idle (by simp [error]) s.ip.i_dev 0 n
  have after := writePart_count (s := s₁)
    (n := n) bp (s.u.u_offset % BSIZE).toNat (by rw [same]; show n ≤ s.u.u_count; omega) failed
  have blocks' : ({ s with rablock := 0 }.error .EFBIG).hasBlocks := blocks
  refine ⟨s₁.writePart bp (s.u.u_offset % BSIZE).toNat n, ?_, ?_⟩
  · simp only [writeOnce, if_pos blocks, bmap_tooBig big, Option.bind_eq_bind, Option.bind_some,
      if_pos blocks', move]
    rw [if_neg (by simp)]
    rw [show blkno 0 = 0 from rfl]
    have found' : ({ s with rablock := 0 }.error .EFBIG).writeBuf
        ({ s with rablock := 0 }.error .EFBIG).ip.i_dev 0 n = some (bp, s₁) := found
    rw [found']
    simp [after.1]
  · rcases after.2 with fault | moved
    · exact .inl fault
    · refine .inr ?_
      rw [moved, same]
      show s.u.u_count - n < s.u.u_count
      omega

end Sys

/-- `writei` never rejects a write past the largest file: it moves bytes to block 0 of the device
or ends with another error. -/
theorem not_rejected_of_tooBig (d_write : Dev → Sys → Option Sys) (s : Sys)
    (regular : s.ip.i_mode &&& IFMT = IFREG) (offset : 0 ≤ s.u.u_offset)
    (big : (maxBlocks : ℤ) ≤ s.u.u_offset / BSIZE) (count : 0 < s.u.u_count)
    (idle : s.cache.Idle) :
    ∃ s', s.writei d_write = some s' ∧ ¬Rejected s s' := by
  obtain ⟨s', once, moved⟩ := Sys.writeOnce_tooBig regular big count idle
  refine ⟨s', ?_, fun rejected => ?_⟩
  · obtain ⟨fuel, enough⟩ : ∃ fuel, s.u.u_count = fuel + 1 := ⟨s.u.u_count - 1, by omega⟩
    have character : ¬(IFREG = IFCHR ∨ IFREG = IFMPC) := by decide
    rw [Sys.writei, if_neg (by omega), regular, if_neg character, if_neg (by omega), enough,
      Sys.writeLoop]
    simp [once]
  · rcases moved with fault | less
    · have efbig := rejected.efbig
      rw [fault] at efbig
      simp at efbig
    · have same := rejected.count
      omega

/-- A write of the byte 7 past the largest file, with nothing in the buffers or on the disk. -/
def pastLimit : Sys where
  cache :=
    { buf := fun _ => ⟨none, 0, false, false, false, false, 0, fun _ => 0⟩
      disk := fun _ _ _ => 0
      bad := fun _ _ => false
      rounds := [] }
  fp := ⟨2, 10, 0, fun _ => 0, 0, fun _ => 0, 0, 0, 0, 0⟩
  ip := ⟨0, 0, IFREG, 0, fun _ => 0, 0⟩
  u := ⟨1, 0, 1, 1082201088, none⟩
  user := fun _ => none
  kernel := fun _ => 7
  rablock := 0

theorem pastLimit_idle : pastLimit.cache.Idle := by
  intro i _
  exact ⟨rfl, by simp [pastLimit]⟩

theorem not_rejected_pastLimit :
    pastLimit.ip.i_mode &&& IFMT = IFREG ∧ 0 ≤ pastLimit.u.u_offset ∧
      (maxBlocks : ℤ) ≤ pastLimit.u.u_offset / BSIZE ∧ 0 < pastLimit.u.u_count ∧
      pastLimit.cache.Idle ∧
      ∃ s', pastLimit.writei (fun _ _ => none) = some s' ∧ ¬Rejected pastLimit s' :=
  ⟨by decide, by decide, by decide, by decide, pastLimit_idle,
    not_rejected_of_tooBig _ pastLimit (by decide) (by decide) (by decide) (by decide)
      pastLimit_idle⟩

/-- The byte goes to block 0 of the device, and `u_count` to 0. -/
theorem not_forall_rejected :
    ¬∀ s : Sys, s.ip.i_mode &&& IFMT = IFREG → 0 ≤ s.u.u_offset →
      (maxBlocks : ℤ) ≤ s.u.u_offset / BSIZE → 0 < s.u.u_count → s.cache.Idle →
      ∀ d_write s', s.writei d_write = some s' → Rejected s s' := by
  intro all
  have ran : ∃ s', pastLimit.writei (fun _ _ => none) = some s' ∧
      s'.cache.view 0 0 0 = 7 ∧ s'.u.u_count = 0 := ⟨_, rfl, rfl, rfl⟩
  obtain ⟨s', run, byte, -⟩ := ran
  have rejected := all pastLimit (by decide) (by decide) (by decide) (by decide) pastLimit_idle
    (fun _ _ => none) s' run
  have same : s'.cache.view 0 0 0 = pastLimit.cache.view 0 0 0 :=
    congrFun (rejected.contents 0) 0
  have blank : pastLimit.cache.view 0 0 0 = 0 := rfl
  rw [byte, blank] at same
  exact absurd same (by decide)

end UnixV7
