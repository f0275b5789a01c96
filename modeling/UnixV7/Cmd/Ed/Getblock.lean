import UnixV7.Library.Task
import Mathlib.Data.Nat.Basic
import Mathlib.Logic.Function.Basic

/-!
# The temporary file of ed

`ed` keeps the lines of its text in a temporary file and only their addresses in memory. The file
is read and written in blocks of 512 bytes through two buffers: `ibuff` for the blocks that are
read, `obuff` for the one at the end of the file, into which new lines are put. An address counts
units of two bytes. An interrupt takes a jump to the command loop from wherever it arrives.
-/

namespace UnixV7.Ed

open Function

/-- The contents of a buffer. -/
abbrev Buffer : Type := ℕ → UInt8

/-- Size of a line buffer. -/
def LBSIZE : ℕ := 512

def newline : UInt8 := 10

/-- Does `getblock` return the block for reading or for writing? -/
def READ : Bool := false

def WRITE : Bool := true

/-! ## Encryption -/

/-- The three tables that `crinit` makes from a key. -/
structure Perm where
  t1 : UInt8 → UInt8
  t2 : UInt8 → UInt8
  t3 : UInt8 → UInt8

/-- One character with the counters at `n1` and `n2`. -/
def Perm.code (permp : Perm) (n1 n2 : ℕ) (c : UInt8) : UInt8 :=
  permp.t2 (permp.t3 (permp.t1 (c + .ofNat n1) + .ofNat n2) - .ofNat n2) - .ofNat n1

/-- The loop of `crblock` over `nchar` characters from `p1` on. -/
def crloop (permp : Perm) : ℕ → ℕ → ℕ → ℕ → Buffer → Buffer
  | 0, _, _, _, buf => buf
  | nchar + 1, p1, n1, n2, buf =>
    let buf := update buf p1 (permp.code n1 n2 (buf p1))
    if n1 + 1 = 256 then
      crloop permp nchar (p1 + 1) 0 (if n2 + 1 = 256 then 0 else n2 + 1) buf
    else crloop permp nchar (p1 + 1) (n1 + 1) n2 buf

/-- Encrypts a buffer, or decrypts it. -/
def crblock (permp : Perm) (buf : Buffer) (nchar startn : ℕ) : Buffer :=
  crloop permp nchar 0 (startn % 256) (startn / 256 % 256) buf

/-! ## The buffers and the file -/

/-- What `getblock`, `putline` and `getline` keep between calls. The number -1 of a buffer
without a block is `none`, and so are the tables when `xtflag` is off. -/
structure Temp where
  tline : ℕ
  ibuff : Buffer
  iblock : Option ℕ
  obuff : Buffer
  oblock : Option ℕ
  ichanged : Bool
  nleft : ℕ
  tperm : Option Perm
  /-- The bytes of the temporary file. -/
  tfile : ℕ → UInt8
  /-- Its size. -/
  size : ℕ

/-- A pointer into one of the two buffers. -/
inductive Place
  | ibuff (off : ℕ)
  | obuff (off : ℕ)

/-- `bp + 1` -/
def Place.next : Place → Place
  | .ibuff off => .ibuff (off + 1)
  | .obuff off => .obuff (off + 1)

namespace Temp

/-- Encrypts or decrypts a block of the file when `xtflag` is on. -/
def crypt (ed : Temp) (buf : Buffer) : Buffer :=
  match ed.tperm with
  | some tperm => crblock tperm buf 512 0
  | none => buf

/-- The first `n` bytes of a buffer are written to block `b` of the file. -/
def wrote (b : ℕ) (buf : Buffer) (n : ℕ) (ed : Temp) : Temp :=
  { ed with
    tfile := fun pos =>
      if 512 * b ≤ pos ∧ pos < 512 * b + n then buf (pos - 512 * b) else ed.tfile pos
    size := if n = 0 then ed.size else max ed.size (512 * b + n) }

/-- What there is of block `b` of the file is read into `ibuff`. -/
def fetched (b : ℕ) (ed : Temp) : Temp :=
  { ed with
    ibuff := fun off => if 512 * b + off < ed.size then ed.tfile (512 * b + off) else ed.ibuff off }

/-- `*bp` -/
def char (ed : Temp) : Place → UInt8
  | .ibuff off => ed.ibuff off
  | .obuff off => ed.obuff off

/-- `*bp = c` -/
def store (c : UInt8) (ed : Temp) : Place → Temp
  | .ibuff off => { ed with ibuff := update ed.ibuff off c }
  | .obuff off => { ed with obuff := update ed.obuff off c }

end Temp

/-- `blkio(b, buf, write)`: a write that fails or is interrupted may have written some of the
bytes. -/
def blkioWrite (b : ℕ) (buf : Buffer) : Task Temp Unit :=
  Task.steps 512 (Temp.wrote b buf)

/-- `blkio(b, ibuff, read)`: an error when the file ends before the block does. -/
def blkioRead (b : ℕ) : Task Temp Unit := do
  let ed ← Task.look
  Task.step (Temp.fetched b)
  if 512 * (b + 1) ≤ ed.size then pure () else Task.abandon

/-- A changed `ibuff` is written back. -/
def flushIbuff : Task Temp Unit := do
  let ed ← Task.look
  if ed.ichanged then
    match ed.iblock with
    | some b => do
      Task.step fun ed => { ed with ibuff := ed.crypt ed.ibuff }
      let ed ← Task.look
      blkioWrite b ed.ibuff
    | none => Task.abandon
  else pure ()

/-- The block in `obuff`, if there is one, is written. -/
def flushObuff : Task Temp Unit := do
  let ed ← Task.look
  match ed.oblock with
  | some b => blkioWrite b (ed.crypt ed.obuff)
  | none => pure ()

/-- The block is read into `ibuff`. -/
def readIbuff (bno : ℕ) : Task Temp Unit := do
  flushIbuff
  Task.step fun ed => { ed with ichanged := false }
  Task.step fun ed => { ed with iblock := some bno }
  blkioRead bno
  Task.step fun ed => { ed with ibuff := ed.crypt ed.ibuff }

/-- Block number of an address. -/
def blockOf (atl : ℕ) : ℕ := atl / 256

/-- `(atl<<1)&0774` -/
def offsetOf (atl : ℕ) : ℕ := 2 * atl % 512 / 4 * 4

/-- The place in a buffer where an address lies, for reading or for writing; `nleft` tells how
many bytes there are from it on. -/
def getblock (atl : ℕ) (iof : Bool) : Task Temp Place := do
  Task.step fun ed => { ed with nleft := 512 - offsetOf atl }
  let ed ← Task.look
  if ed.iblock = some (blockOf atl) then do
    Task.step fun ed => { ed with ichanged := ed.ichanged || iof }
    pure (.ibuff (offsetOf atl))
  else if ed.oblock = some (blockOf atl) then pure (.obuff (offsetOf atl))
  else if iof = READ then do
    readIbuff (blockOf atl)
    pure (.ibuff (offsetOf atl))
  else do
    flushObuff
    Task.step fun ed => { ed with oblock := some (blockOf atl) }
    pure (.obuff (offsetOf atl))

/-- The loop of `putline`: `lp` is what is left of the line up to its NUL. Returns the number of
characters taken, with the newline or NUL at the end. -/
def putloop : List UInt8 → Place → ℕ → ℕ → Task Temp ℕ
  | [], bp, _, _ => do
    Task.step fun ed => ed.store 0 bp
    pure 1
  | c :: lp, bp, nl, tl => do
    Task.step fun ed => ed.store c bp
    if c = newline then do
      Task.step fun ed => ed.store 0 bp
      pure 1
    else if nl - 1 = 0 then do
      let bp ← getblock (tl + 256) WRITE
      let ed ← Task.look
      let taken ← putloop lp bp ed.nleft (tl + 256)
      pure (taken + 1)
    else do
      let taken ← putloop lp bp.next (nl - 1) tl
      pure (taken + 1)

/-- Puts the line in `linebuf` at the end of the file and returns its address. -/
def putline (linebuf : List UInt8) : Task Temp ℕ := do
  let ed ← Task.look
  let bp ← getblock ed.tline WRITE
  let ed' ← Task.look
  let taken ← putloop linebuf bp ed'.nleft (ed.tline / 256 * 256)
  Task.step fun ed => { ed with tline := ed.tline + (taken + 3) / 2 / 2 * 2 }
  pure ed.tline

/-- The loop of `getline`, with room for `n` characters in `linebuf`. -/
def getloop : ℕ → Place → ℕ → ℕ → Task Temp (List UInt8)
  | 0, _, _, _ => Task.abandon
  | n + 1, bp, nl, tl => do
    let ed ← Task.look
    if ed.char bp = 0 then pure []
    else if nl - 1 = 0 then do
      let bp' ← getblock (tl + 256) READ
      let ed' ← Task.look
      let lp ← getloop n bp' ed'.nleft (tl + 256)
      pure (ed.char bp :: lp)
    else do
      let lp ← getloop n bp.next (nl - 1) tl
      pure (ed.char bp :: lp)

/-- The line at an address. -/
def getline (tl : ℕ) : Task Temp (List UInt8) := do
  let bp ← getblock tl READ
  let ed ← Task.look
  getloop LBSIZE bp ed.nleft (tl / 256 * 256)

/-! ## Runs -/

/-- What `linebuf` may hold: fewer than `LBSIZE` characters before the NUL. -/
structure Linebuf where
  chars : List UInt8
  proper : ∀ c ∈ chars, c ≠ 0
  short : chars.length < LBSIZE

/-- The line that `putline` puts in the file: what stands before the first newline. -/
def Linebuf.line (linebuf : Linebuf) : List UInt8 := linebuf.chars.takeWhile (· ≠ newline)

/-- The editor, and the lines that were put in the file with their addresses. -/
structure World where
  ed : Temp
  stored : List (ℕ × List UInt8)

/-- A call of one of the two functions; `putline` may be abandoned after some steps. -/
inductive Event
  | putline (linebuf : Linebuf) (ticks : Option ℕ)
  | getline (tl : ℕ)

/-- What a call does. Only the address of a completed `putline` is kept. -/
def World.step (w : World) : Event → World
  | .putline linebuf ticks =>
    match Ed.putline linebuf.chars ⟨w.ed, ticks⟩ with
    | (some tl, after) => ⟨after.state, (tl, linebuf.line) :: w.stored⟩
    | (none, after) => ⟨after.state, w.stored⟩
  | .getline tl => ⟨(Ed.getline tl ⟨w.ed, none⟩).2.state, w.stored⟩

/-- What `init` leaves: an empty file, and whatever the buffers hold. -/
def init (ibuff obuff : Buffer) (nleft : ℕ) (tperm : Option Perm) : World where
  ed :=
    { tline := 2, ibuff := ibuff, iblock := none, obuff := obuff, oblock := none
      ichanged := false, nleft := nleft, tperm := tperm, tfile := fun _ => 0, size := 0 }
  stored := []

end UnixV7.Ed
