import Mathlib.Algebra.Group.Nat.Defs
import Mathlib.Logic.Function.Basic
import Mathlib.Tactic.Common

/-!
# The storage allocator of the C library

`malloc`, `free` and `realloc` of `malloc.c`. The arena is a chain of blocks, each headed by a
pointer to the next whose lowest bit says whether the block is busy. A search for room goes round
the chain from where the last one stopped and joins idle blocks on its way.
-/

namespace UnixV7.Libc

open Function

/-- The size of `union store` in bytes. -/
def WORD : ℕ := 8

/-- The multiple in which the arena grows, in bytes. -/
def BLOCK : ℕ := 1024

/-- `union store`: the pointer in it, and the bytes that are not part of the pointer. -/
structure Store where
  ptr : ℕ
  rest : ℕ
  deriving DecidableEq

def testbusy (p : ℕ) : Bool := p % 2 = 1

def setbusy (p : ℕ) : ℕ := p / 2 * 2 + 1

def clearbusy (p : ℕ) : ℕ := p / 2 * 2

/-- The pointer to a word of memory, and the word that a pointer leads to. -/
def ptrTo (i : ℕ) : ℕ := WORD * i

def loc (p : ℕ) : ℕ := p / WORD

/-- The memory, in words of the size of `union store`, and the allocator's static variables. -/
structure Heap where
  mem : ℕ → Store
  /-- Where the array `allocs` lies. -/
  allocs : ℕ
  allocp : ℕ
  alloct : ℕ
  allocx : ℕ

/-- The answers to `sbrk(0)` and to the `sbrk` that grows the arena, `none` for -1. -/
structure Break where
  probe : Option ℕ
  grow : Option ℕ

/-- How a search ends. -/
inductive Search
  /-- With an idle block at `p`, the next being at `q`. -/
  | found (p q : ℕ)
  /-- With a chain that does not lead round. -/
  | broken
  /-- With no block that is large enough. -/
  | exhausted

namespace Heap

/-- The assignment `p->ptr = v`. -/
def setPtr (h : Heap) (p v : ℕ) : Heap :=
  { h with mem := update h.mem p { h.mem p with ptr := v } }

/-- How many words there are from `allocs` to `alloct`. -/
def span (h : Heap) : ℕ := h.alloct + 1 - h.allocs

/-- The loop that joins the idle block at `p` with those behind it, and the `q` it ends with. -/
def coalesce (p : ℕ) : ℕ → Heap → Option (ℕ × Heap)
  | 0, _ => none
  | fuel + 1, h =>
      let q := loc (h.mem p).ptr
      if testbusy (h.mem q).ptr then some (q, h) else coalesce p fuel (h.setPtr p (h.mem q).ptr)

/-- What the search does at one block: the next block if this one is idle and large enough. -/
def look (nw p : ℕ) (h : Heap) : Option (Option ℕ × Heap) :=
  if testbusy (h.mem p).ptr then
    some (none, h)
  else do
    let (q, h) ← h.coalesce p h.span
    some (if nw ≤ q - p then some q else none, h)

/-- The inner `for`, with as many ends of the arena passed as `temp` says. -/
def search (nw : ℕ) : ℕ → ℕ → ℕ → Heap → Option (Search × Heap)
  | 0, _, _, _ => none
  | fuel + 1, temp, p, h => do
      let (room, h) ← h.look nw p
      match room with
      | some q => some (.found p q, h)
      | none =>
          let q := p
          let p := loc (clearbusy (h.mem q).ptr)
          if q < p then
            search nw fuel temp p h
          else if q ≠ h.alloct ∨ p ≠ h.allocs then
            some (.broken, h)
          else if 1 < temp + 1 then
            some (.exhausted, h)
          else
            search nw fuel (temp + 1) p h

/-- The words that are asked of `sbrk`. -/
def extent (nw : ℕ) : ℕ := (nw + BLOCK / WORD) / (BLOCK / WORD) * (BLOCK / WORD)

/-- The words that `sbrk` has given are put behind the last block. -/
def extend (h : Heap) (q temp : ℕ) : Heap :=
  let h := h.setPtr h.alloct (ptrTo q)
  let h := if q ≠ h.alloct + 1 then h.setPtr h.alloct (setbusy (h.mem h.alloct).ptr) else h
  let h := { h.setPtr q (ptrTo (q + temp - 1)) with alloct := q + temp - 1 }
  h.setPtr h.alloct (setbusy (ptrTo h.allocs))

/-- The arena is grown, if `sbrk` does not fail. -/
def grow (h : Heap) (nw : ℕ) (brk : Break) : Option Heap := do
  let temp := extent nw
  let q ← brk.probe
  if 2 ^ 32 ≤ WORD * (q + temp) then
    none
  else do
    let q ← brk.grow
    some (h.extend q temp)

/-- `found`: the first `nw` words of the block at `p` are handed out. -/
def take (h : Heap) (nw p q : ℕ) : Heap :=
  let h := { h with allocp := p + nw }
  let h :=
    if h.allocp < q then
      { h with allocx := (h.mem h.allocp).ptr }.setPtr h.allocp (h.mem p).ptr
    else
      h
  h.setPtr p (setbusy (ptrTo h.allocp))

/-- The outer `for`: a search from `p` on, and another after every growth of the arena. -/
def mallocFrom (nw : ℕ) (brk : ℕ → Break) : ℕ → ℕ → Heap → Option (Option ℕ × Heap)
  | 0, _, _ => none
  | fuel + 1, p, h => do
      let (result, h) ← search nw (2 * h.span) 0 p h
      match result with
      | .found p q => some (some (p + 1), h.take nw p q)
      | .broken => some (none, h)
      | .exhausted =>
          match h.grow nw (brk fuel) with
          | none => some (none, h)
          | some h => mallocFrom nw brk fuel h.allocs h

/-- The arena of the first call. -/
def init (h : Heap) : Heap :=
  if (h.mem h.allocs).ptr = 0 then
    let h := h.setPtr h.allocs (setbusy (ptrTo (h.allocs + 1)))
    let h := h.setPtr (h.allocs + 1) (setbusy (ptrTo h.allocs))
    { h with alloct := h.allocs + 1, allocp := h.allocs }
  else
    h

/-- The largest request. -/
def limit : ℕ := 2 ^ 31 - 1 - BLOCK - 2 * WORD

/-- The words that a request needs with its header. -/
def needed (nbytes : ℕ) : ℕ := (nbytes + WORD + WORD - 1) / WORD

/-- `malloc`: the block, or `none` for `NULL`. -/
def malloc (h : Heap) (nbytes : ℕ) (brk : ℕ → Break) : Option (Option ℕ × Heap) :=
  let h := h.init
  if limit < nbytes then some (none, h) else mallocFrom (needed nbytes) brk 2 h.allocp h

/-- `free` -/
def free (h : Heap) (ap : ℕ) : Heap :=
  let p := ap - 1
  { h with allocp := p }.setPtr p (clearbusy (h.mem p).ptr)

/-- The loop `while(onw--!=0) *t++ = *s++`. -/
def copy : ℕ → ℕ → ℕ → Heap → Heap
  | 0, _, _, h => h
  | onw + 1, s, t, h => copy onw (s + 1) (t + 1) { h with mem := update h.mem t (h.mem s) }

/-- `realloc` -/
def realloc (h : Heap) (ap nbytes : ℕ) (brk : ℕ → Break) : Option (Option ℕ × Heap) := do
  let p := ap
  let h := if testbusy (h.mem (p - 1)).ptr then h.free p else h
  let onw := loc (h.mem (p - 1)).ptr - p
  let (q, h) ← h.malloc nbytes brk
  match q with
  | none => some (none, h)
  | some q =>
      if q = p then
        some (some q, h)
      else
        let nw := (nbytes + WORD - 1) / WORD
        let onw := if nw < onw then nw else onw
        let h := h.copy onw p q
        let h := if q < p ∧ p ≤ q + nw then h.setPtr (q + (q + nw - p)) h.allocx else h
        some (some q, h)

end Heap

/-- A block that the program has been given: where it starts and how many bytes were asked
for. -/
structure Block where
  start : ℕ
  size : ℕ
  deriving DecidableEq

/-- The words that hold the bytes of a block end before this one. -/
def Block.stop (b : Block) : ℕ := b.start + (b.size + WORD - 1) / WORD

/-- The word belongs to the block. -/
def Block.Holds (b : Block) (x : ℕ) : Prop := b.start ≤ x ∧ x < b.stop

/-- The allocator with the program that uses it. -/
structure World where
  heap : Heap
  /-- The blocks handed out and not freed. -/
  live : List Block
  /-- The blocks freed since the last call of `malloc`. -/
  spared : List Block
  /-- What the program expects to find in the words of its blocks. -/
  expect : ℕ → Store

/-- What the program does. -/
inductive Event
  | malloc (nbytes : ℕ) (brk : ℕ → Break)
  | free (b : Block)
  | realloc (b : Block) (nbytes : ℕ) (brk : ℕ → Break)
  /-- A word of a block is written. -/
  | write (x : ℕ) (v : Store)

namespace World

/-- The program has been given a block. What is in its first words is known, the rest may be
anything. -/
def give (w : World) (b : Block) (known : ℕ → Store) (n : ℕ) (h : Heap) : World where
  heap := h
  live := b :: w.live
  spared := []
  expect x :=
    if b.start ≤ x ∧ x < b.stop then
      if x < b.start + n then known (x - b.start) else h.mem x
    else
      w.expect x

/-- The effect of an event, unless a call does not return. -/
def step (w : World) : Event → Option World
  | .malloc nbytes brk => do
      let (q, h) ← w.heap.malloc nbytes brk
      match q with
      | none => some { w with heap := h, spared := [] }
      | some q => some (w.give ⟨q, nbytes⟩ (fun _ => ⟨0, 0⟩) 0 h)
  | .free b =>
      some { w with heap := w.heap.free b.start, live := w.live.erase b, spared := b :: w.spared }
  | .realloc b nbytes brk => do
      let (q, h) ← w.heap.realloc b.start nbytes brk
      match q with
      | none => some { w with heap := h, live := w.live.erase b, spared := [] }
      | some q =>
          -- the old contents up to the smaller of the two sizes
          let n := min (b.stop - b.start) ((nbytes + WORD - 1) / WORD)
          let w := { w with live := w.live.erase b }
          some (w.give ⟨q, nbytes⟩ (fun i => w.expect (b.start + i)) n h)
  | .write x v =>
      some { w with
        heap := { w.heap with mem := update w.heap.mem x v }
        expect := update w.expect x v }

end World

end UnixV7.Libc
