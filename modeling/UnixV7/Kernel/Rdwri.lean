import Mathlib.Algebra.Group.Int.Defs
import Mathlib.Algebra.Group.Nat.Defs
import Mathlib.Data.Int.Notation
import UnixV7.Kernel.Alloc
import UnixV7.Kernel.Buf

/-!
# Reading and writing files

`readi`, `writei` and `iomove` of `rdwri.c`, with `bmap`, `cpass` and `passc` of `subr.c` and
`alloc` of `alloc.c`, as one process runs them on one inode: over the block buffers, the
superblock of the inode's device and the process's memory.
-/

namespace UnixV7

/-- The number of addresses in an inode, and of those in an indirect block. -/
def NADDR : ℕ := 13

def NINDIR : ℕ := 128

/-- The number of blocks that the addresses in an inode lead to. -/
def maxBlocks : ℕ := NADDR - 3 + NINDIR + NINDIR ^ 2 + NINDIR ^ 3

/-- The number of bits of an index into an indirect block, and the mask for it. -/
def NSHIFT : ℕ := 7

def NMASK : ℕ := 127

/-- The flags of an inode that reading and writing set. -/
def IUPD : ℕ := 0o2

def IACC : ℕ := 0o4

def ICHG : ℕ := 0o100

/-- `B_READ` and `B_WRITE` as the direction of a transfer. -/
inductive Rw
  | B_READ | B_WRITE
  deriving DecidableEq

open Rw

/-- The in-core inode; `i_rdev` is `i_addr[0]` in a union. -/
structure Inode where
  i_flag : ℕ
  i_dev : Dev
  i_mode : ℕ
  i_size : ℤ
  i_addr : ℕ → Daddr
  i_lastr : ℤ

/-- The arguments of `readi` and `writei` in the user structure. -/
structure User where
  /-- 0 for the user's data, 1 for the system, 2 for the user's text. -/
  u_segflg : ℕ
  u_base : ℕ
  u_count : ℕ
  u_offset : ℤ
  u_error : Option Errno

/-- What a process reads and changes. -/
structure Sys where
  cache : Cache
  /-- The superblock that `getfs` finds for the inode's device. -/
  fp : Filsys
  ip : Inode
  u : User
  /-- The user's memory, `none` where an access faults. -/
  user : ℕ → Option UInt8
  kernel : ℕ → UInt8
  rablock : Daddr

/-- An `off_t`, which has 32 bits. -/
def offt (x : ℤ) : ℤ := x.bmod (2 ^ 32)

/-- A `daddr_t` as the word that holds it. -/
def blkno (bn : ℤ) : Daddr := (bn % 2 ^ 32).toNat

theorem blkno_natCast {n : ℕ} (small : n < 2 ^ 32) : blkno n = n := by
  rw [blkno, Int.emod_eq_of_lt (Int.natCast_nonneg n) (by omega), Int.toNat_natCast]

/-- A block of a free list, `struct fblk`. -/
def Bytes.fblk (m : Bytes) : Fblk := ⟨m.word 0, fun i => m.word (i + 1)⟩

/-- `n` bytes have been moved. -/
def User.advance (u : User) (n : ℕ) : User :=
  { u with u_base := u.u_base + n, u_count := u.u_count - n, u_offset := offt (u.u_offset + n) }

namespace Sys

def error (s : Sys) (e : Errno) : Sys := { s with u := { s.u with u_error := some e } }

/-- `geterror`. -/
def geterror (s : Sys) (bp : BufId) : Sys :=
  if (s.cache.buf bp).b_error then s.error Errno.EIO else s

/-- `bread` with the `geterror` of `iowait`; a buffer found in the cache has no error. -/
def bread (s : Sys) (dev : Dev) (blkno : Daddr) : Option (BufId × Sys) := do
  let (bp, c) ← s.cache.bread dev blkno
  some (bp, { s with cache := c }.geterror bp)

/-- `breada` likewise. -/
def breada (s : Sys) (dev : Dev) (blkno rablkno : Daddr) : Option (BufId × Sys) := do
  let (bp, c) ← s.cache.breada dev blkno rablkno
  some (bp, { s with cache := c }.geterror bp)

def brelse (s : Sys) (bp : BufId) : Sys := { s with cache := s.cache.brelse bp }

def bdwrite (s : Sys) (bp : BufId) : Sys := { s with cache := s.cache.bdwrite bp }

/-- A change of the data of a buffer. -/
def edit (s : Sys) (bp : BufId) (data : Bytes → Bytes) : Sys :=
  { s with cache := s.cache.modify bp fun b => { b with b_addr := data b.b_addr } }

/-! ## Blocks of a file -/

/-- The end of `alloc` where there is no space. -/
def nospace (s : Sys) : Sys := { s with fp := { s.fp with s_nfree := 0 } }.error .ENOSPC

/-- The part of `alloc` that reads the block which lists more. -/
def refill (s : Sys) (dev : Dev) (bno : Daddr) : Option Sys := do
  let (bp, s) ← s.bread dev bno
  let listed := (s.cache.buf bp).b_addr.fblk
  let fp :=
    if (s.cache.buf bp).b_error then
      s.fp
    else
      { s.fp with s_nfree := listed.df_nfree, s_free := listed.df_free }
  some { s.brelse bp with fp := fp }

/-- `alloc`. It sleeps for ever if the list is locked, as nobody else runs. -/
def alloc (s : Sys) (dev : Dev) : Option (Option BufId × Sys) :=
  let s := { s with fp := s.fp.getfs }
  if s.fp.s_flock ≠ 0 then
    none
  else
    match s.fp.pop s.fp.s_nfree with
    | none => some (none, s.nospace)
    | some (bno, fp) => do
        let s := { s with fp := fp }
        let s ← if s.fp.s_nfree = 0 then s.refill dev bno else some s
        if s.fp.s_nfree = 0 then
          some (none, s.nospace)
        else
          let (bp, c) ← s.cache.getblk dev bno
          some (some bp, { s with cache := c.clrbuf bp, fp := { s.fp with s_fmod := 1 } })

/-- A new block for a file, unless `bmap` is called to read or there is none. -/
def newBlock (s : Sys) (dev : Dev) (rwflg : Rw) : Option (Option Daddr × Sys) :=
  if rwflg = B_READ then
    some (none, s)
  else do
    let (bp, s) ← s.alloc dev
    match bp with
    | none => some (none, s)
    | some bp => some (some (s.cache.buf bp).b_blkno, s.bdwrite bp)

/-- `i_addr[i]` is set. -/
def setAddr (s : Sys) (i : ℕ) (nb : Daddr) : Sys :=
  { s with ip := { s.ip with
    i_addr := fun k => if k = i then nb else s.ip.i_addr k
    i_flag := s.ip.i_flag ||| (IUPD ||| ICHG) } }

/-- The address `i_addr[i]`, after a block has been put there if there was none. -/
def slot (s : Sys) (i : ℕ) (rwflg : Rw) : Option (Option Daddr × Sys) :=
  if s.ip.i_addr i ≠ 0 then
    some (some (s.ip.i_addr i), s)
  else do
    let (nb, s) ← s.newBlock s.ip.i_dev rwflg
    match nb with
    | none => some (none, s)
    | some nb => some (some nb, s.setAddr i nb)

/-- The address at index `i` of the indirect block in the buffer `bp`, which is released. -/
def indirect (s : Sys) (bp : BufId) (i : ℕ) (rwflg : Rw) : Option (Option Daddr × Sys) :=
  let nb := (s.cache.buf bp).b_addr.word i
  if nb ≠ 0 then
    some (some nb, s.brelse bp)
  else do
    let (nb, s) ← s.newBlock s.ip.i_dev rwflg
    match nb with
    | none => some (none, s.brelse bp)
    | some nb => some (some nb, (s.edit bp fun m => m.setWord i nb).bdwrite bp)

/-- The end of `bmap`: the block to read ahead, when no more levels are left. -/
def ahead (s : Sys) (bp : BufId) (i levels : ℕ) : Sys :=
  if levels = 0 ∧ i < NINDIR - 1 then
    { s with rablock := (s.cache.buf bp).b_addr.word (i + 1) }
  else
    s

/-- The loop of `bmap` through the indirect blocks, with some levels to go below the block
`nb`. -/
def descend (rwflg : Rw) (bn : ℕ) : ℕ → ℕ → Daddr → Sys → Option (ℤ × Sys)
  | 0, _, nb, s => some (nb, s)
  | levels + 1, sh, nb, s => do
      let (bp, s) ← s.bread s.ip.i_dev nb
      if (s.cache.buf bp).b_error then
        some (0, s.brelse bp)
      else
        let sh := sh - NSHIFT
        let i := (bn >>> sh) &&& NMASK
        let (nb, s) ← s.indirect bp i rwflg
        match nb with
        | none => some (-1, s)
        | some nb => descend rwflg bn levels sh nb (s.ahead bp i levels)

end Sys

/-- The loop of `bmap` that finds out how many levels of indirection there are, from
`j` on: the address to start at, the number of bits to shift and the number of the block within
that tree. -/
def bmapLevel : ℕ → ℕ → ℕ → ℕ → Option (ℕ × ℕ × ℕ)
  | 0, _, _, _ => none
  | j + 1, sh, nb, bn =>
      let sh := sh + NSHIFT
      let nb := nb <<< NSHIFT
      if bn < nb then some (j + 1, sh, bn) else bmapLevel j sh nb (bn - nb)

/-- The levels from the first one on. -/
theorem bmapLevel_eq (bn : ℕ) : bmapLevel 3 0 1 bn =
    if bn < 128 then some (3, 7, bn)
    else if bn - 128 < 16384 then some (2, 14, bn - 128)
    else if bn - 128 - 16384 < 2097152 then some (1, 21, bn - 128 - 16384)
    else none := rfl

namespace Sys

/-- `bmap`. -/
def bmap (s : Sys) (bn : ℤ) (rwflg : Rw) : Option (ℤ × Sys) :=
  if bn < 0 then
    some (0, s.error .EFBIG)
  else
    let bn := bn.toNat
    let s := { s with rablock := 0 }
    if bn < NADDR - 3 then do
      let (nb, s) ← s.slot bn rwflg
      match nb with
      | none => some (-1, s)
      | some nb =>
          if bn < NADDR - 4 then
            some (nb, { s with rablock := s.ip.i_addr (bn + 1) })
          else
            some (nb, s)
    else
      match bmapLevel 3 0 1 (bn - (NADDR - 3)) with
      | none => some (0, s.error .EFBIG)
      | some (j, sh, bn) => do
          let (nb, s) ← s.slot (NADDR - j) rwflg
          match nb with
          | none => some (-1, s)
          | some nb => descend rwflg bn (4 - j) sh nb s

/-! ## Moving bytes -/

/-- The byte at an address of the process or of the system, `none` where `fubyte` fails. -/
def source (s : Sys) (a : ℕ) : Option UInt8 :=
  if s.u.u_segflg = 1 then some (s.kernel a) else s.user a

/-- `cpass`. -/
def cpass (s : Sys) : Option UInt8 × Sys :=
  if s.u.u_count = 0 then
    (none, s)
  else
    match s.source s.u.u_base with
    | none => (none, s.error .EFAULT)
    | some c => (some c, { s with u := s.u.advance 1 })

/-- `passc`, which says whether to go on. -/
def passc (s : Sys) (c : UInt8) : Bool × Sys :=
  let next (s : Sys) := { s with u := s.u.advance 1 }
  if s.u.u_segflg = 1 then
    let s := next { s with kernel := fun a => if a = s.u.u_base then c else s.kernel a }
    (s.u.u_count ≠ 0, s)
  else if (s.user s.u.u_base).isNone then
    (false, s.error .EFAULT)
  else
    let s := next { s with user := fun a => if a = s.u.u_base then some c else s.user a }
    (s.u.u_count ≠ 0, s)

/-- The words of `copyin`: memory after as many as could be read, and whether one faulted. -/
def copyin (user : ℕ → Option UInt8) : ℕ → ℕ → Bytes → ℕ → Bytes × Bool
  | 0, _, m, _ => (m, false)
  | words + 1, src, m, dst =>
      if ∀ k < 4, (user (src + k)).isSome then
        copyin user words (src + 4) (m.splice dst 4 fun k => (user (src + k)).getD 0) (dst + 4)
      else
        (m, true)

/-- The words of `copyout` likewise. -/
def copyout (m : Bytes) : ℕ → ℕ → (ℕ → Option UInt8) → ℕ → (ℕ → Option UInt8) × Bool
  | 0, _, user, _ => (user, false)
  | words + 1, src, user, dst =>
      if ∀ k < 4, (user (dst + k)).isSome then
        copyout m words (src + 4)
          (fun a => if dst ≤ a ∧ a < dst + 4 then some (m (src + (a - dst))) else user a) (dst + 4)
      else
        (user, true)

/-- The loop of `iomove` that picks up bytes. -/
def pickUp (bp : BufId) : ℕ → ℕ → Sys → Sys
  | 0, _, s => s
  | n + 1, cp, s =>
      match s.cpass with
      | (none, s) => s
      | (some c, s) => pickUp bp n (cp + 1) (s.edit bp fun m => m.splice cp 1 fun _ => c)

/-- The loop of `iomove` that passes bytes back. -/
def passBack (bp : BufId) : ℕ → ℕ → Sys → Sys
  | 0, _, s => s
  | n + 1, cp, s =>
      match s.passc ((s.cache.buf bp).b_addr cp) with
      | (false, s) => s
      | (true, s) => passBack bp n (cp + 1) s

/-- `iomove` with `cp` the offset in the buffer, whose data are aligned. -/
def iomove (s : Sys) (bp : BufId) (cp n : ℕ) (flag : Rw) : Sys :=
  if n = 0 then
    s
  else if s.u.u_segflg ≠ 1 ∧ n % 4 = 0 ∧ cp % 4 = 0 ∧ s.u.u_base % 4 = 0 then
    match flag with
    | B_WRITE =>
        let (m, t) := copyin s.user (n / 4) s.u.u_base (s.cache.buf bp).b_addr cp
        let s := s.edit bp fun _ => m
        if t then s.error .EFAULT else { s with u := s.u.advance n }
    | B_READ =>
        let (user, t) := copyout (s.cache.buf bp).b_addr (n / 4) cp s.user s.u.u_base
        let s := { s with user := user }
        if t then s.error .EFAULT else { s with u := s.u.advance n }
  else
    match flag with
    | B_WRITE => pickUp bp n cp s
    | B_READ => passBack bp n cp s

/-! ## The loops -/

/-- Whether the file has blocks of its own, and is not a block device. -/
def hasBlocks (s : Sys) : Prop := s.ip.i_mode &&& IFMT ≠ IFBLK ∧ s.ip.i_mode &&& IFMT ≠ IFMPB

instance (s : Sys) : Decidable s.hasBlocks := inferInstanceAs (Decidable (_ ∧ _))

/-- The buffer that `readi` reads from: an empty one where the file has no block. -/
def readBuf (s : Sys) (dev : Dev) (lbn bn : ℤ) : Option (BufId × Sys) :=
  if bn < 0 then do
    let (bp, c) ← s.cache.geteblk
    some (bp, { s with cache := c.clrbuf bp })
  else if s.ip.i_lastr + 1 = lbn then
    s.breada dev bn.toNat s.rablock
  else
    s.bread dev bn.toNat

/-- The loop of `readi` from where it has the buffer, and whether it goes on. -/
def readPart (s : Sys) (bp : BufId) (lbn : ℤ) (on n : ℕ) : Sys × Bool :=
  let s := { s with ip := { s.ip with i_lastr := lbn } }
  let n := min n (BSIZE - (s.cache.buf bp).b_resid)
  let s := if n ≠ 0 then s.iomove bp on n B_READ else s
  let s := s.brelse bp
  (s, s.u.u_error = none ∧ s.u.u_count ≠ 0 ∧ 0 < n)

/-- One time round the loop of `readi`, and whether it goes on. `u_offset >> BSHIFT` and
`u_offset & BMASK` are the quotient and the rest by the size of a block. -/
def readOnce (s : Sys) : Option (Sys × Bool) := do
  let lbn := s.u.u_offset / BSIZE
  let on := (s.u.u_offset % BSIZE).toNat
  let n := min (BSIZE - on) s.u.u_count
  let diff := s.ip.i_size - s.u.u_offset
  if s.hasBlocks ∧ diff ≤ 0 then
    some (s, false)
  else
    let n := if s.hasBlocks ∧ diff < n then diff.toNat else n
    let (bn, s) ← if s.hasBlocks then s.bmap lbn B_READ else
      some (lbn, { s with rablock := (lbn + 1).toNat })
    if s.hasBlocks ∧ s.u.u_error ≠ none then
      some (s, false)
    else
      let dev := if s.hasBlocks then s.ip.i_dev else s.ip.i_addr 0
      let (bp, s) ← s.readBuf dev lbn bn
      some (s.readPart bp lbn on n)

/-- The loop of `readi`, which moves a byte at least every time it goes on. -/
def readLoop : ℕ → Sys → Option Sys
  | 0, _ => none
  | fuel + 1, s => do
      let (s, more) ← s.readOnce
      if more then readLoop fuel s else some s

/-- `readi`, with the driver of a character device. -/
def readi (d_read : Dev → Sys → Option Sys) (s : Sys) : Option Sys :=
  let type := s.ip.i_mode &&& IFMT
  if s.u.u_count = 0 then
    some s
  else if s.u.u_offset < 0 ∧ type ≠ IFCHR then
    some (s.error .EINVAL)
  else
    let s := { s with ip := { s.ip with i_flag := s.ip.i_flag ||| IACC } }
    if type = IFCHR ∨ type = IFMPC then
      d_read (s.ip.i_addr 0) s
    else
      readLoop s.u.u_count s

/-- The buffer that `writei` writes to; a whole block need not be read. -/
def writeBuf (s : Sys) (dev : Dev) (blkno : Daddr) (n : ℕ) : Option (BufId × Sys) :=
  if n = BSIZE then do
    let (bp, c) ← s.cache.getblk dev blkno
    some (bp, { s with cache := c })
  else
    s.bread dev blkno

/-- The loop of `writei` from where it has the buffer. -/
def writePart (s : Sys) (bp : BufId) (on n : ℕ) : Sys :=
  let type := s.ip.i_mode &&& IFMT
  let s := s.iomove bp on n B_WRITE
  let s := if s.u.u_error ≠ none then s.brelse bp else s.bdwrite bp
  let i_size :=
    if s.ip.i_size < s.u.u_offset ∧ (type = IFDIR ∨ type = IFREG) then
      s.u.u_offset
    else
      s.ip.i_size
  { s with ip := { s.ip with i_size := i_size, i_flag := s.ip.i_flag ||| (IUPD ||| ICHG) } }

/-- One time round the loop of `writei`, and whether it goes on. -/
def writeOnce (s : Sys) : Option (Sys × Bool) := do
  let lbn := s.u.u_offset / BSIZE
  let on := (s.u.u_offset % BSIZE).toNat
  let n := min (BSIZE - on) s.u.u_count
  let (bn, s) ← if s.hasBlocks then s.bmap lbn B_WRITE else some (lbn, s)
  if s.hasBlocks ∧ bn < 0 then
    some (s, false)
  else
    let dev := if s.hasBlocks then s.ip.i_dev else s.ip.i_addr 0
    let (bp, s) ← s.writeBuf dev (blkno bn) n
    let s := s.writePart bp on n
    some (s, s.u.u_error = none ∧ s.u.u_count ≠ 0)

/-- The loop of `writei`, which moves a byte at least every time it goes on. -/
def writeLoop : ℕ → Sys → Option Sys
  | 0, _ => none
  | fuel + 1, s => do
      let (s, more) ← s.writeOnce
      if more then writeLoop fuel s else some s

/-- `writei`, with the driver of a character device. -/
def writei (d_write : Dev → Sys → Option Sys) (s : Sys) : Option Sys :=
  let type := s.ip.i_mode &&& IFMT
  if s.u.u_offset < 0 ∧ type ≠ IFCHR then
    some (s.error .EINVAL)
  else if type = IFCHR ∨ type = IFMPC then
    d_write (s.ip.i_addr 0)
      { s with ip := { s.ip with i_flag := s.ip.i_flag ||| (IUPD ||| ICHG) } }
  else if s.u.u_count = 0 then
    some s
  else
    writeLoop s.u.u_count s

end Sys

end UnixV7
