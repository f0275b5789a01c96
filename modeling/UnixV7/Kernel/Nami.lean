import UnixV7.Kernel.Iget

/-!
# Looking up names

`namei` of `nami.c`, which goes down a path from directory to directory, with `access` of `fio.c`
and what `bmap` does to read a directory.
-/

namespace UnixV7.Nami

/-- The number of characters of a name in a directory, and the size of an entry. -/
def DIRSIZ : ℕ := 14

def direct : ℕ := 16

/-- Where the characters of a name come from. -/
inductive Func
  | uchar | schar
  deriving DecidableEq

/-- `schar`: the next character of a name in the kernel's memory. -/
def schar (env : Env) : Call ℤ := do
  let s ← get
  setUser fun u => { u with u_dirp := u.u_dirp + 1 }
  pure ((env.name s.u.u_dirp).getD 0).toNat

/-- `uchar`: the next character of a name in the user's memory. -/
def uchar (env : Env) : Call ℤ := do
  let s ← get
  setUser fun u => { u with u_dirp := u.u_dirp + 1 }
  match env.name s.u.u_dirp with
  | some c => pure c.toNat
  | none => do
      setError .EFAULT
      pure (-1)

/-- A call of `func`. -/
def Func.call (env : Env) : Func → Call ℤ
  | .uchar => Nami.uchar env
  | .schar => Nami.schar env

/-- The part of `access` for writing, which is true if it is refused. -/
def unwritable (env : Env) (ip : InodeId) : Call Bool := do
  let s ← get
  let (_, fp) ← getfs (s.kernel.inode ip).i_dev
  if fp.s_ronly ≠ 0 then do
    setError .EROFS
    pure true
  else do
    whenever ((s.kernel.inode ip).text) do
      modify fun s => { s with kernel := env.xrele ip s.kernel }
    let s ← get
    if (s.kernel.inode ip).text then do
      setError .ETXTBSY
      pure true
    else
      pure false

/-- The part of `access` that compares the bits of `i_mode`. -/
def forbidden (ip : InodeId) (mode : ℕ) : Call Bool := do
  let s ← get
  let i := s.kernel.inode ip
  let m :=
    if s.u.u_uid ≠ i.i_uid then
      if s.u.u_gid ≠ i.i_gid then mode >>> 3 >>> 3 else mode >>> 3
    else
      mode
  if s.u.u_uid = 0 then
    pure false
  else if i.i_mode &&& m ≠ 0 then
    pure false
  else do
    setError .EACCES
    pure true

/-- `access`, which is true if the access is refused. -/
def access (env : Env) (ip : InodeId) (mode : ℕ) : Call Bool := do
  if mode = IWRITE then do
    if ← unwritable env ip then pure true else forbidden ip mode
  else
    forbidden ip mode

/-- The loop of `bmap` through the indirect blocks, with so many of them to go. -/
def descend (env : Env) (dev : Dev) (bn : ℕ) : ℕ → ℕ → Daddr → Call ℤ
  | 0, _, nb => pure nb
  | levels + 1, sh, nb => do
      match ← bread env dev nb with
      | none => do
          brelse dev nb
          pure 0
      | some bap => do
          let sh := sh - NSHIFT
          let next := bap.word (bn >>> sh &&& NMASK)
          brelse dev nb
          if next = 0 then pure (-1) else descend env dev bn levels sh next

/-- `bmap` for reading. -/
def bmap (env : Env) (ip : InodeId) (bn : ℕ) : Call ℤ := do
  let s ← get
  let i := s.kernel.inode ip
  if bn < NADDR - 3 then
    if i.i_addr bn = 0 then pure (-1) else pure (i.i_addr bn)
  else
    match bmapLevel 3 0 1 (bn - (NADDR - 3)) with
    | none => do
        setError .EFBIG
        pure 0
    | some (j, sh, bn) =>
        if i.i_addr (NADDR - j) = 0 then
          pure (-1)
        else
          descend env i.i_dev bn (4 - j) sh (i.i_addr (NADDR - j))

/-- How the search of a directory ends. -/
inductive Search
  /-- At its end, with the offset behind the first empty entry, or 0. -/
  | absent (eo : ℕ)
  /-- At a block that cannot be read. -/
  | failed
  /-- At an entry with the name, which is in `u_dent`. -/
  | found

/-- The entry that lies in a block at an offset. -/
def entryAt (data : Bytes) (a : ℕ) : Direct :=
  ⟨short data a, (List.range DIRSIZ).map fun i => data (a + 2 + i)⟩

/-- A buffer in hand: its block and its data. -/
structure Buffer where
  dev : Dev
  blkno : ℤ
  data : Bytes

/-- The release of a buffer, if there is one. -/
def release : Option Buffer → Call Unit
  | none => pure ()
  | some bp => brelse bp.dev bp.blkno

/-- The next block of the directory is read, if the offset is at its beginning. -/
def nextBlock (env : Env) (dp : InodeId) (bp : Option Buffer) : Call (Option Buffer) := do
  let s ← get
  if s.u.u_offset &&& BMASK = 0 then do
    release bp
    let dev := (s.kernel.inode dp).i_dev
    let blkno ← bmap env dp (s.u.u_offset >>> BSHIFT)
    let t ← get
    whenever (t.u.u_error.isSome) (note .unmapped)
    match ← bread env dev blkno with
    | none => do
        brelse dev blkno
        pure none
    | some data => pure (some ⟨dev, blkno, data⟩)
  else
    pure bp

/-- `eloop`: the entries of the directory from `u_offset` on. -/
def eloop (env : Env) (dp : InodeId) : ℕ → ℕ → Option Buffer → Call Search
  | 0, _, _ => failure
  | patience + 1, eo, bp => do
      let s ← get
      if (s.kernel.inode dp).i_size ≤ s.u.u_offset then do
        release bp
        pure (.absent eo)
      else do
        match ← nextBlock env dp bp with
        | none => pure .failed
        | some bp => do
            let entry := entryAt bp.data (s.u.u_offset &&& BMASK)
            setUser fun u => { u with u_dent := entry, u_offset := u.u_offset + direct }
            if entry.d_ino = 0 then
              eloop env dp patience (if eo = 0 then s.u.u_offset + direct else eo) (some bp)
            else if s.u.u_dbuf ≠ entry.d_name then
              eloop env dp patience eo (some bp)
            else do
              release (some bp)
              pure .found

/-- The characters of the next component, with those gathered so far. -/
def gather (env : Env) (func : Func) : ℕ → ℤ → List UInt8 → Call (ℤ × List UInt8)
  | 0, _, _ => failure
  | patience + 1, c, name => do
      let s ← get
      if c ≠ 47 ∧ c ≠ 0 ∧ s.u.u_error = none ∧ ¬(env.mpxip ≠ none ∧ c = 33) then do
        let next ← func.call env
        gather env func patience next
          (if name.length < DIRSIZ then name ++ [UInt8.ofNat c.toNat] else name)
      else
        pure (c, name)

/-- The slashes are passed over. -/
def slashes (env : Env) (func : Func) : ℕ → ℤ → Call ℤ
  | 0, _ => failure
  | patience + 1, c =>
      if c = 47 then do
        let next ← func.call env
        slashes env func patience next
      else
        pure c

/-- The next component is put into `u_dbuf`. -/
def component (env : Env) (func : Func) (c : ℤ) : Call ℤ := do
  let (c, name) ← gather env func env.patience c []
  setUser fun u => { u with u_dbuf := name ++ List.replicate (DIRSIZ - name.length) 0 }
  slashes env func env.patience c

/-- The mount table entry of the file system whose root has been left through `..`. -/
def Sys.above (s : Sys) (dp : InodeId) : Option ℕ :=
  let i := s.kernel.inode dp
  if s.u.u_dent.d_ino = ROOTINO ∧ i.i_number = ROOTINO ∧ s.u.u_dent.d_name.getD 1 0 = 46 then
    ((List.range NMOUNT).drop 1).find? fun m =>
      (s.kernel.mount m).m_bufp.isSome && (s.kernel.mount m).m_dev == i.i_dev
  else
    none

/-- Where `namei` goes on. -/
inductive Label
  | cloop | seloop

/-- `out` -/
def out (env : Env) (dp : InodeId) : Call (Option InodeId) := do
  iput env dp
  pure none

/-- The name is not in the directory `dp`. -/
def absent (env : Env) (flag : ℕ) (dp : InodeId) (c : ℤ) (eo : ℕ) : Call (Option InodeId) := do
  if flag = 1 ∧ c = 0 then do
    if ← access env dp IWRITE then
      out env dp
    else do
      note .vacant
      setUser fun u => { u with u_pdir := some dp }
      whenever (eo ≠ 0) (setUser fun u => { u with u_offset := eo - direct })
      whenever (eo = 0) (setInode dp fun p => { p with changed := true })
      pure none
  else do
    setError .ENOENT
    out env dp

/-- The directory is locked and has one more reference. -/
def enter (env : Env) (dp : InodeId) : Call Unit := do
  setInode dp fun p => { p with i_count := p.i_count + 1 }
  plock env dp env.patience

/-- The search of the directory `dp`, from `seloop` to its end. -/
def search (env : Env) (dp : InodeId) : Call (Option Search) := do
  let s ← get
  whenever ((s.kernel.inode dp).isDir = false) (setError .ENOTDIR)
  let _ ← access env dp IEXEC
  let s ← get
  if s.u.u_error.isSome then
    pure none
  else do
    note (.search dp)
    setUser fun u => { u with u_offset := 0, u_segflg := 1 }
    let result ← eloop env dp env.patience 0 none
    pure (some result)

/-- `namei` from a label on, with the directory reached and the next character. -/
def walk (env : Env) (func : Func) (flag : ℕ) : ℕ → Label → InodeId → ℤ → Call (Option InodeId)
  | 0, _, _, _ => failure
  | patience + 1, .cloop, dp, c => do
      let s ← get
      if s.u.u_error.isSome then
        out env dp
      else if c = 0 then
        pure (some dp)
      else do
        let c ← component env func c
        match if c = 33 then env.mpxip else none with
        | some mpxip => do
            iput env dp
            plock env mpxip env.patience
            setInode mpxip fun p => { p with i_count := p.i_count + 1 }
            pure (some mpxip)
        | none => walk env func flag patience .seloop dp c
  | patience + 1, .seloop, dp, c => do
      match ← search env dp with
      | none => out env dp
      | some .failed => out env dp
      | some (.absent eo) => absent env flag dp c eo
      | some .found =>
          if flag = 2 ∧ c = 0 then do
            if ← access env dp IWRITE then out env dp else pure (some dp)
          else do
            let s ← get
            match s.above dp with
            | some m => do
                iput env dp
                let t ← get
                match (t.kernel.mount m).m_inodp with
                | none => failure
                | some up => do
                    enter env up
                    walk env func flag patience .seloop up c
            | none => do
                iput env dp
                match ← iget env env.patience (s.kernel.inode dp).i_dev s.u.u_dent.d_ino with
                | none => pure none
                | some ip => do
                    let t ← get
                    if (t.kernel.inode ip).i_mode = 0 then do
                      setError .ENOENT
                      out env ip
                    else
                      walk env func flag patience .cloop ip c

/-- The directory where the name starts. -/
def Sys.start (env : Env) (s : Sys) (c : ℤ) : InodeId :=
  if c = 47 then s.u.u_rdir.getD env.rootdir else s.u.u_cdir

/-- `namei` -/
def namei (env : Env) (func : Func) (flag : ℕ) : Call (Option InodeId) := do
  let c ← func.call env
  let s ← get
  let dp := s.start env c
  let _ ← iget env env.patience (s.kernel.inode dp).i_dev (s.kernel.inode dp).i_number
  let c ← slashes env func env.patience c
  whenever (c = 0 ∧ flag ≠ 0) (setError .ENOENT)
  walk env func flag env.patience .cloop dp c

end UnixV7.Nami
