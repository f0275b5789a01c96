import UnixV7.Kernel.Filsys
import UnixV7.Library.Bytes

/-!
# The block buffers

The buffers of `bio.c` as a process that runs alone sees them: the data of each, the block it
stands for and the flags, and the blocks on the devices. A transfer is complete when the routine
that starts it returns. In what order the buffers of the free list are reused, and what other
processes read, write and evict whenever `getblk` gives them a chance, is not computed but given
by a schedule, so that whatever holds for every schedule holds whatever they do.
-/

namespace UnixV7

/-- The number of buffers. -/
def NBUF : ℕ := 29

/-- The size of a block in bytes, and the number of bits of an offset in it. -/
def BSIZE : ℕ := 512

def BSHIFT : ℕ := 9

def BMASK : ℕ := 511

/-- A buffer, `struct buf`; `b_dev` is `none` for `NODEV`. -/
@[ext] structure Buf where
  b_dev : Option Dev
  b_blkno : Daddr
  b_done : Bool
  b_error : Bool
  b_busy : Bool
  b_delwri : Bool
  b_resid : ℕ
  b_addr : Bytes

/-- What another process does with a buffer on the free list. -/
inductive Turn
  /-- It is written if that was put off. -/
  | bwrite (bp : BufId)
  /-- It is given to another block by `getblk`, and released. -/
  | getblk (bp : BufId) (dev : Dev) (blkno : Daddr)
  /-- Its block is read by `bread`, and released. -/
  | bread (bp : BufId)

/-- What happens before `getblk` looks for a buffer, and how far down the free list it would
find the one that its head is now. -/
structure Round where
  turns : List Turn
  head : ℕ

/-- The buffers, the devices and what is going to happen to the buffers. -/
@[ext] structure Cache where
  buf : BufId → Buf
  /-- The blocks of the devices. -/
  disk : Dev → Daddr → Bytes
  /-- The blocks that cannot be read or written. -/
  bad : Dev → Daddr → Bool
  rounds : List Round

/-- Whether the buffer is associated with the block. -/
def Buf.names (b : Buf) (dev : Dev) (blkno : Daddr) : Bool :=
  b.b_dev == some dev && b.b_blkno == blkno

/-- The buffer for another block, or for none, with nothing read yet. -/
def Buf.assign (b : Buf) (block : Option (Dev × Daddr)) : Buf :=
  { b with
    b_done := false, b_error := false, b_busy := true, b_delwri := false
    b_dev := block.map Prod.fst
    b_blkno := (block.map Prod.snd).getD b.b_blkno }

namespace Cache

/-- A change of one buffer. -/
def modify (c : Cache) (bp : BufId) (change : Buf → Buf) : Cache :=
  { c with buf := fun i => if i = bp then change (c.buf i) else c.buf i }

/-- The buffer that the search of `getblk` and `incore` finds for the block. -/
def incore (c : Cache) (dev : Dev) (blkno : Daddr) : Option BufId :=
  (List.range NBUF).find? fun bp => (c.buf bp).names dev blkno

/-- The buffers on `bfreelist`. -/
def avail (c : Cache) : List BufId := (List.range NBUF).filter fun bp => !(c.buf bp).b_busy

/-- `d_strategy` and the interrupt when the block has been read. -/
def read (c : Cache) (bp : BufId) : Cache :=
  let b := c.buf bp
  match b.b_dev with
  | none => c
  | some dev =>
      if c.bad dev b.b_blkno then
        c.modify bp fun b => { b with b_done := true, b_error := true }
      else
        c.modify bp fun b =>
          { b with b_done := true, b_resid := 0, b_addr := c.disk dev b.b_blkno }

/-- `bwrite` and the interrupt when the block has been written. -/
def write (c : Cache) (bp : BufId) : Cache :=
  let b := c.buf bp
  match b.b_dev with
  | none => c
  | some dev =>
      if c.bad dev b.b_blkno then
        c.modify bp fun b => { b with b_done := true, b_error := true, b_delwri := false }
      else
        { c.modify bp fun b =>
            { b with b_done := true, b_error := false, b_delwri := false, b_resid := 0 } with
          disk := fun d n => if d = dev ∧ n = b.b_blkno then b.b_addr else c.disk d n }

/-- `notavail`. -/
def notavail (c : Cache) (bp : BufId) : Cache := c.modify bp fun b => { b with b_busy := true }

/-- `brelse`. -/
def brelse (c : Cache) (bp : BufId) : Cache :=
  c.modify bp fun b => { b with b_dev := if b.b_error then none else b.b_dev, b_busy := false }

/-- The end of `getblk` and `geteblk`: the buffer gets another block. -/
def assign (c : Cache) (bp : BufId) (block : Option (Dev × Daddr)) : Cache :=
  c.modify bp fun b => b.assign block

/-- Another process does something with a buffer that is not busy. -/
def turn (c : Cache) : Turn → Cache
  | .bwrite bp =>
      if bp < NBUF ∧ (c.buf bp).b_busy = false ∧ (c.buf bp).b_delwri = true then
        ((c.notavail bp).write bp).brelse bp
      else
        c
  | .getblk bp dev blkno =>
      if bp < NBUF ∧ (c.buf bp).b_busy = false ∧ (c.buf bp).b_delwri = false ∧
          c.incore dev blkno = none then
        ((c.notavail bp).assign bp (some (dev, blkno))).brelse bp
      else
        c
  | .bread bp =>
      if bp < NBUF ∧ (c.buf bp).b_busy = false ∧ (c.buf bp).b_done = false then
        ((c.notavail bp).read bp).brelse bp
      else
        c

/-- The next round of the schedule, after which nothing happens any more. -/
def round (c : Cache) : ℕ × Cache :=
  match c.rounds with
  | [] => (0, c)
  | r :: rounds => (r.head, r.turns.foldl turn { c with rounds := rounds })

/-- The loop of `getblk` and `geteblk`, which have `some` block to find and `none`. It sleeps for
ever on a buffer that the process itself has, and when it has them all. -/
def take : ℕ → Cache → Option (Dev × Daddr) → Option (BufId × Cache)
  | 0, _, _ => none
  | fuel + 1, c, block =>
      let (head, c) := c.round
      match block.bind fun block => c.incore block.1 block.2 with
      | some bp => if (c.buf bp).b_busy then none else some (bp, c.notavail bp)
      | none =>
          match c.avail[head % c.avail.length]? with
          | none => none
          | some bp =>
              let c := c.notavail bp
              if (c.buf bp).b_delwri then
                take fuel ((c.write bp).brelse bp) block
              else
                some (bp, c.assign bp block)

/-- `getblk`. Every time round the loop writes a buffer whose writing was put off. -/
def getblk (c : Cache) (dev : Dev) (blkno : Daddr) : Option (BufId × Cache) :=
  c.take (NBUF + 1) (some (dev, blkno))

/-- `geteblk`. -/
def geteblk (c : Cache) : Option (BufId × Cache) := c.take (NBUF + 1) none

/-- `bread`; whether the block could not be read is left in the buffer. -/
def bread (c : Cache) (dev : Dev) (blkno : Daddr) : Option (BufId × Cache) := do
  let (bp, c) ← c.getblk dev blkno
  if (c.buf bp).b_done then
    some (bp, c)
  else
    some (bp, c.read bp)

/-- The part of `breada` that reads the next block and releases its buffer. -/
def readAhead (c : Cache) (dev : Dev) (rablkno : Daddr) : Option Cache :=
  if rablkno ≠ 0 ∧ c.incore dev rablkno = none then do
    let (rabp, c) ← c.getblk dev rablkno
    if (c.buf rabp).b_done then
      some (c.brelse rabp)
    else
      some ((c.read rabp).brelse rabp)
  else
    some c

/-- `breada`. -/
def breada (c : Cache) (dev : Dev) (blkno rablkno : Daddr) : Option (BufId × Cache) :=
  if c.incore dev blkno = none then do
    let (bp, c) ← c.bread dev blkno
    let c ← c.readAhead dev rablkno
    some (bp, c)
  else do
    let c ← c.readAhead dev rablkno
    c.bread dev blkno

/-- `bdwrite`. -/
def bdwrite (c : Cache) (bp : BufId) : Cache :=
  (c.modify bp fun b => { b with b_delwri := true, b_done := true }).brelse bp

/-- `clrbuf`. -/
def clrbuf (c : Cache) (bp : BufId) : Cache :=
  c.modify bp fun b => { b with b_addr := fun _ => 0, b_resid := 0 }

/-- What a process finds in a block: what a buffer holds, and otherwise what is on the device. -/
def view (c : Cache) (dev : Dev) (blkno : Daddr) : Bytes :=
  match c.incore dev blkno with
  | some bp => if (c.buf bp).b_done then (c.buf bp).b_addr else c.disk dev blkno
  | none => c.disk dev blkno

end Cache

end UnixV7
