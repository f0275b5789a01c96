import Mathlib.Algebra.Group.Int.Defs
import Mathlib.Algebra.Group.Nat.Defs
import Mathlib.Data.Int.Notation
import UnixV7.Kernel.Rdwri
import UnixV7.Library.Bytes
import UnixV7.Library.Triple

/-!
# The table of inodes

`iget`, `iput` and what they call, as one process runs them among others. Whenever the process
sleeps the others may do anything to the inodes, the mount table and the buffers, and a transfer
may end with any data or with an error. What the others have changed is kept apart from what the
process itself has changed.
-/

namespace UnixV7.Nami

open Function

/-- The number of in-core inodes. -/
def NINODE : ℕ := 200

/-- The number of the root of every file system. -/
def ROOTINO : Ino := 2

/-- The bits of `i_mode` for what the owner may do. -/
def IWRITE : ℕ := 0o200

def IEXEC : ℕ := 0o100

/-- The block and the place in it of an inode on its device. -/
def itod (x : Ino) : ℤ := (x + 7) >>> 2

def itoo (x : Ino) : ℕ := (x + 7) &&& 3

/-- An in-core inode: the flags `ILOCK`, `IMOUNT`, `IWANT` and `ITEXT`, whether one of `IUPD`,
`IACC` and `ICHG` is set, and the fields. -/
structure Inode where
  locked : Bool
  mounted : Bool
  wanted : Bool
  text : Bool
  changed : Bool
  i_count : ℕ
  i_dev : Dev
  i_number : Ino
  i_mode : ℕ
  i_nlink : ℤ
  i_uid : ℤ
  i_gid : ℤ
  i_size : ℤ
  i_addr : ℕ → Daddr

/-- The type of a file is that of a directory. -/
def Inode.isDir (ip : Inode) : Bool := ip.i_mode &&& IFMT == IFDIR

/-- An entry of the mount table, with the superblock that `m_bufp` leads to. -/
structure Mount where
  m_dev : Dev
  m_bufp : Option Filsys
  m_inodp : Option InodeId

/-- What the processes share: the inodes, the mount table and which blocks have a busy buffer. -/
structure Kernel where
  inode : InodeId → Inode
  mount : ℕ → Mount
  busy : Dev → ℤ → Bool

/-- What a process may leave changed. -/
inductive Item
  | lock (ip : InodeId)
  | count (ip : InodeId)
  | buffer (dev : Dev) (blkno : ℤ)
  deriving DecidableEq

/-- How much of an item there is. -/
def Kernel.amount (k : Kernel) : Item → ℤ
  | .lock ip => (k.inode ip).locked.toNat
  | .count ip => (k.inode ip).i_count
  | .buffer dev blkno => (k.busy dev blkno).toNat

/-- An entry of a directory. -/
structure Direct where
  d_ino : Ino
  d_name : List UInt8

/-- The user structure. -/
structure User where
  u_error : Option Errno
  /-- How many characters of the name have been fetched. -/
  u_dirp : ℕ
  u_offset : ℕ
  u_segflg : ℕ
  u_dbuf : List UInt8
  u_dent : Direct
  u_pdir : Option InodeId
  u_cdir : InodeId
  u_rdir : Option InodeId
  u_uid : ℤ
  u_gid : ℤ

/-- What happens in a search of a directory. -/
inductive Event
  /-- The search begins. -/
  | search (dp : InodeId)
  /-- `bmap` sets `u_error` for a block of the directory. -/
  | unmapped
  /-- The name is not there, and may be entered. -/
  | vacant
  deriving DecidableEq

/-- The state of a process in the kernel. -/
structure Sys where
  kernel : Kernel
  u : User
  /-- How much there would be of each item if the process had done nothing. -/
  rest : Item → ℤ
  /-- How often the process has waited. -/
  waits : ℕ
  /-- What has happened, the last first. -/
  log : List Event

/-- What a process finds around it. -/
structure Env where
  /-- The characters of the name, `none` where the process has no memory. -/
  name : ℕ → Option UInt8
  rootdir : InodeId
  mpxip : Option InodeId
  /-- What the others do while the process waits, which may depend on what the process has
  changed. -/
  others : ℕ → (Item → ℤ) → Kernel → Kernel
  /-- What the reading of a block gives. -/
  read : ℕ → Dev → ℤ → Except Errno Bytes
  /-- The error with which the writing of a block ends. -/
  write : ℕ → Dev → ℤ → Option Errno
  /-- `xrele`: the text of the inode is given up. -/
  xrele : InodeId → Kernel → Kernel
  /-- How often a loop is gone round; a call that would go on does not return. -/
  patience : ℕ

/-- A call of the kernel, which may sleep for ever or end in a panic. -/
abbrev Call := StateT Sys Option

/-- What the process has changed. -/
def Sys.own (s : Sys) : Item → ℤ := fun r => s.kernel.amount r - s.rest r

/-- The process waits. -/
def Sys.wait (env : Env) (s : Sys) : Sys :=
  let kernel := env.others s.waits s.own s.kernel
  { s with
    kernel := kernel
    rest := fun r => s.rest r + (kernel.amount r - s.kernel.amount r)
    waits := s.waits + 1 }

/-- An `if` without an `else`. -/
def whenever (c : Prop) [Decidable c] (m : Call Unit) : Call Unit := if c then m else pure ()

def sleep (env : Env) : Call Unit := modify fun s => s.wait env

def note (e : Event) : Call Unit := modify fun s => { s with log := e :: s.log }

def setUser (change : User → User) : Call Unit := modify fun s => { s with u := change s.u }

def setError (e : Errno) : Call Unit := setUser fun u => { u with u_error := some e }

/-- An assignment to fields of an inode. -/
def Kernel.setInode (k : Kernel) (ip : InodeId) (change : Inode → Inode) : Kernel :=
  { k with inode := update k.inode ip (change (k.inode ip)) }

def setInode (ip : InodeId) (change : Inode → Inode) : Call Unit :=
  modify fun s => { s with kernel := s.kernel.setInode ip change }

/-- An assignment to `B_BUSY` of the buffer of a block. -/
def Kernel.setBusy (k : Kernel) (dev : Dev) (blkno : ℤ) (value : Bool) : Kernel :=
  { k with busy := fun d n => if d = dev ∧ n = blkno then value else k.busy d n }

def setBusy (dev : Dev) (blkno : ℤ) (value : Bool) : Call Unit :=
  modify fun s => { s with kernel := s.kernel.setBusy dev blkno value }

/-- An assignment to the superblock that a mount table entry leads to. -/
def setFilsys (m : ℕ) (change : Filsys → Filsys) : Call Unit :=
  modify fun s => { s with kernel := { s.kernel with
    mount := update s.kernel.mount m
      { s.kernel.mount m with m_bufp := (s.kernel.mount m).m_bufp.map change } } }

/-! ## The buffers -/

/-- `getblk`: the buffer of the block is made busy once it is not, after a wait for it or for any
other. -/
def getblk (env : Env) (dev : Dev) (blkno : ℤ) : ℕ → Call Unit
  | 0 => failure
  | patience + 1 => do
      sleep env
      let s ← get
      if s.kernel.busy dev blkno then
        getblk env dev blkno patience
      else
        setBusy dev blkno true

/-- `brelse`, or `bdwrite`, which puts the writing off. -/
def brelse (dev : Dev) (blkno : ℤ) : Call Unit := setBusy dev blkno false

/-- `bread`: the data, or nothing if the buffer has `B_ERROR`, of which `iowait` tells. -/
def bread (env : Env) (dev : Dev) (blkno : ℤ) : Call (Option Bytes) := do
  getblk env dev blkno env.patience
  sleep env
  let s ← get
  match env.read s.waits dev blkno with
  | .error e => do
      setError e
      pure none
  | .ok data => pure (some data)

/-- `geterror`, with the error in the buffer if it has `B_ERROR`. -/
def geterror : Option Errno → Call Unit
  | some e => setError e
  | none => pure ()

/-- `bwrite` -/
def bwrite (env : Env) (dev : Dev) (blkno : ℤ) : Call Unit := do
  sleep env
  let s ← get
  geterror (env.write s.waits dev blkno)
  brelse dev blkno

/-! ## The free lists -/

/-- `getfs`: the mount table entry of a device and its superblock. -/
def getfs (dev : Dev) : Call (ℕ × Filsys) := do
  let s ← get
  match (List.range NMOUNT).find? fun m =>
      (s.kernel.mount m).m_bufp.isSome && (s.kernel.mount m).m_dev == dev with
  | none => failure
  | some m =>
      match (s.kernel.mount m).m_bufp with
      | none => failure
      | some fp => do
          setFilsys m fun fp => fp.getfs
          pure (m, fp.getfs)

/-- The wait of `free` for the free list. -/
def freeWait (env : Env) (m : ℕ) : ℕ → Call Filsys
  | 0 => failure
  | patience + 1 => do
      let s ← get
      match (s.kernel.mount m).m_bufp with
      | none => failure
      | some fp =>
          if fp.s_flock ≠ 0 then do
            sleep env
            freeWait env m patience
          else
            pure fp

/-- `free` -/
def free (env : Env) (dev : Dev) (bno : Daddr) : Call Unit := do
  let (m, _) ← getfs dev
  setFilsys m fun fp => { fp with s_fmod := 1 }
  let fp ← freeWait env m env.patience
  whenever (fp.badblock bno = false) do
    setFilsys m fun fp =>
      if fp.s_nfree = 0 then { fp with s_nfree := 1, s_free := update fp.s_free 0 0 } else fp
    whenever (NICFREE ≤ fp.s_nfree) do
      setFilsys m fun fp => { fp with s_flock := fp.s_flock + 1 }
      getblk env dev bno env.patience
      setFilsys m fun fp => { fp with s_nfree := 0 }
      bwrite env dev bno
      setFilsys m fun fp => { fp with s_flock := 0 }
    setFilsys m fun fp => fp.push bno

/-- `ifree` -/
def ifree (dev : Dev) (ino : Ino) : Call Unit := do
  let (m, fp) ← getfs dev
  whenever (fp.s_ilock = 0 ∧ fp.s_ninode < NICINOD) do
    setFilsys m fun fp =>
      { fp with
        s_inode := update fp.s_inode fp.s_ninode ino, s_ninode := fp.s_ninode + 1, s_fmod := 1 }

/-! ## Inodes -/

/-- `plock` -/
def plock (env : Env) (ip : InodeId) : ℕ → Call Unit
  | 0 => failure
  | patience + 1 => do
      let s ← get
      if (s.kernel.inode ip).locked then do
        setInode ip fun i => { i with wanted := true }
        sleep env
        plock env ip patience
      else
        setInode ip fun i => { i with locked := true }

/-- `prele` -/
def prele (ip : InodeId) : Call Unit :=
  setInode ip fun i => { i with locked := false, wanted := false }

/-- The data of a block whose buffer may be held already. -/
def fetch (env : Env) (dev : Dev) (bn : Daddr) : Option Bytes → Call (Option Bytes)
  | some bap => pure (some bap)
  | none => bread env dev bn

/-- The loop of `tloop` over the addresses in a block, the last one first, with the data of its
buffer if it is held. Nothing is returned if the block cannot be read. -/
def tloopFrom (env : Env) (dev : Dev) (bn : Daddr) (f1 : Bool) (each : Daddr → Call Unit) :
    ℕ → Option Bytes → Call (Option (Option Bytes))
  | 0, bp => pure (some bp)
  | i + 1, bp => do
      match ← fetch env dev bn bp with
      | none => do
          brelse dev bn
          pure none
      | some bap =>
          if bap.word i = 0 then
            tloopFrom env dev bn f1 each i (some bap)
          else if f1 then do
            brelse dev bn
            each (bap.word i)
            tloopFrom env dev bn f1 each i none
          else do
            each (bap.word i)
            tloopFrom env dev bn f1 each i (some bap)

/-- The end of `tloop`, unless a block could not be read. -/
def tloopEnd (env : Env) (dev : Dev) (bn : Daddr) : Option (Option Bytes) → Call Unit
  | none => pure ()
  | some bp => do
      whenever (bp.isSome) (brelse dev bn)
      free env dev bn

/-- `tloop`, with as many of the flags `f1` and `f2` set as `levels` says. -/
def tloop (env : Env) : ℕ → Dev → Daddr → Call Unit
  | 0, dev, bn => do
      let bp ← tloopFrom env dev bn false (free env dev) NINDIR none
      tloopEnd env dev bn bp
  | levels + 1, dev, bn => do
      let bp ← tloopFrom env dev bn true (tloop env levels dev) NINDIR none
      tloopEnd env dev bn bp

/-- The `switch` of `itrunc`: a block of the file or the tree of blocks behind it is freed. -/
def freeFrom (env : Env) (dev : Dev) (i : ℕ) (bn : Daddr) : Call Unit :=
  if i < NADDR - 3 then free env dev bn else tloop env (i - (NADDR - 3)) dev bn

/-- The loop of `itrunc`, the last address first. -/
def itruncFrom (env : Env) (ip : InodeId) (dev : Dev) : ℕ → Call Unit
  | 0 => pure ()
  | i + 1 => do
      let s ← get
      let bn := (s.kernel.inode ip).i_addr i
      if bn = 0 then
        itruncFrom env ip dev i
      else do
        setInode ip fun p => { p with i_addr := update p.i_addr i 0 }
        freeFrom env dev i bn
        itruncFrom env ip dev i

/-- `itrunc` -/
def itrunc (env : Env) (ip : InodeId) : Call Unit := do
  let s ← get
  let i := (s.kernel.inode ip).i_mode &&& IFMT
  whenever (i = IFREG ∨ i = IFDIR) do
    itruncFrom env ip (s.kernel.inode ip).i_dev NADDR
    setInode ip fun p => { p with i_size := 0, changed := true }

/-- `iupdat`, whose copy of the inode into the buffer is left out. -/
def iupdat (env : Env) (ip : InodeId) : Call Unit := do
  let s ← get
  let dev := (s.kernel.inode ip).i_dev
  let blkno := itod (s.kernel.inode ip).i_number
  whenever ((s.kernel.inode ip).changed) do
    let (_, fp) ← getfs dev
    whenever (fp.s_ronly = 0) do
      match ← bread env dev blkno with
      | none => brelse dev blkno
      | some _ => do
          setInode ip fun p => { p with changed := false }
          brelse dev blkno

/-- The part of `iput` for the last reference. -/
def iputLast (env : Env) (ip : InodeId) : Call Unit := do
  setInode ip fun p => { p with locked := true }
  let s ← get
  whenever ((s.kernel.inode ip).i_nlink ≤ 0) do
    itrunc env ip
    setInode ip fun p => { p with i_mode := 0, changed := true }
    let s ← get
    ifree (s.kernel.inode ip).i_dev (s.kernel.inode ip).i_number
  iupdat env ip
  prele ip
  setInode ip fun p =>
    { p with locked := false, mounted := false, wanted := false, text := false, changed := false
             i_number := 0 }

/-- `iput` -/
def iput (env : Env) (ip : InodeId) : Call Unit := do
  let s ← get
  whenever ((s.kernel.inode ip).i_count = 1) (iputLast env ip)
  setInode ip fun p => { p with i_count := p.i_count - 1 }
  prele ip

/-- The number that two bytes hold. -/
def short (m : Bytes) (a : ℕ) : ℕ := (m a).toNat + 256 * (m (a + 1)).toNat

/-- The value of a number as a signed one of so many bits. -/
def signed (bits n : ℕ) : ℤ := if n < 2 ^ (bits - 1) then n else (n : ℤ) - 2 ^ bits

/-- `iexpand`, from the place of the inode in its block. -/
def iexpand (dp : Bytes) (ip : Inode) : Inode :=
  { ip with
    i_mode := short dp 0
    i_nlink := signed 16 (short dp 2)
    i_uid := signed 16 (short dp 4)
    i_gid := signed 16 (short dp 6)
    i_size := signed 32 (dp.word 2)
    i_addr := fun i => (dp (12 + 3 * i)).toNat + 256 * (dp (13 + 3 * i)).toNat +
      65536 * (dp (14 + 3 * i)).toNat }

/-- The first inode of the table with a name, if it is in core. -/
def Kernel.lookup (k : Kernel) (dev : Dev) (ino : Ino) : Option InodeId :=
  (List.range NINODE).find? fun ip =>
    ino == (k.inode ip).i_number && dev == (k.inode ip).i_dev

/-- The first inode of the table that nothing refers to. -/
def Kernel.unused (k : Kernel) : Option InodeId :=
  (List.range NINODE).find? fun ip => (k.inode ip).i_count == 0

/-- The first mount table entry for an inode that is mounted on. -/
def Kernel.mountedOn (k : Kernel) (ip : InodeId) : Option ℕ :=
  (List.range NMOUNT).find? fun mp => (k.mount mp).m_inodp == some ip

/-- `iget` -/
def iget (env : Env) : ℕ → Dev → Ino → Call (Option InodeId)
  | 0, _, _ => failure
  | patience + 1, dev, ino => do
      let s ← get
      match s.kernel.lookup dev ino with
      | some ip =>
          if (s.kernel.inode ip).locked then do
            setInode ip fun p => { p with wanted := true }
            sleep env
            iget env patience dev ino
          else if (s.kernel.inode ip).mounted then
            match s.kernel.mountedOn ip with
            | some mp => iget env patience (s.kernel.mount mp).m_dev ROOTINO
            | none => failure
          else do
            setInode ip fun p => { p with i_count := p.i_count + 1, locked := true }
            pure (some ip)
      | none =>
          match s.kernel.unused with
          | none => do
              setError .ENFILE
              pure none
          | some ip => do
              setInode ip fun p =>
                { p with
                  i_dev := dev, i_number := ino, locked := true, mounted := false, wanted := false
                  text := false, changed := false, i_count := p.i_count + 1 }
              match ← bread env dev (itod ino) with
              | none => do
                  brelse dev (itod ino)
                  setInode ip fun p => { p with i_nlink := 1 }
                  iput env ip
                  pure none
              | some data => do
                  setInode ip (iexpand fun a => data (128 * itoo ino + a))
                  brelse dev (itod ino)
                  pure (some ip)

end UnixV7.Nami
