import UnixV7.Library.Chain
import Mathlib.Data.List.Range
import Mathlib.Data.Nat.Bitwise

/-!
# Character lists

The terminal drivers queue characters in lists of small blocks that all come from one list of
free blocks. A block is 16 bytes long and aligned: its link is followed by the characters, so
the low bits of a character pointer tell when it has run off the end of its block. Pointers to
characters are addresses with 0 for the null pointer; a block is named by its address divided by
its size.
-/

namespace UnixV7

open Function

/-- Number of character blocks. -/
def NCLIST : ℕ := 100

/-- Number of characters in a block. -/
def CBSIZE : ℕ := 12

/-- Rounding of character pointers: the size of the link and of the characters, less one. -/
def CROUND : ℕ := 15

/-- The address of the link and the characters of a block. -/
def cblock (bp : ℕ) : ℕ := (CROUND + 1) * bp

/-- The block that an address belongs to, `cp & ~CROUND`. -/
def blockOf (cp : ℕ) : ℕ := cp / (CROUND + 1)

/-- The first character of a block, `bp->c_info`. -/
def info (bp : Option ℕ) : ℕ := cblock (bp.getD 0) + 4

/-- `(char)c` -/
def char (c : BitVec 32) : UInt8 := .ofBitVec (c.setWidth 8)

/-- The header of a character list. -/
@[ext]
structure Clist where
  c_cc : ℤ
  c_cf : ℕ
  c_cl : ℕ
  deriving DecidableEq

/-- The links and the characters of all blocks, the free blocks and the lists. -/
structure Prim (κ : Type*) where
  c_next : ℕ → Option ℕ
  c_info : ℕ → UInt8
  cfreelist : Option ℕ
  cbad : ℤ
  clist : κ → Clist

namespace Prim

variable {κ : Type*} [DecidableEq κ]

/-- A change of one list's header. -/
def set (m : Prim κ) (p : κ) (q : Clist) : Prim κ := { m with clist := update m.clist p q }

/-- `bp->c_next = cfreelist; cfreelist = bp` -/
def release (m : Prim κ) (bp : ℕ) : Prim κ :=
  { m with c_next := update m.c_next bp m.cfreelist, cfreelist := some bp }

/-- `cfreelist = bp->c_next; bp->c_next = NULL` -/
def take (m : Prim κ) (bp : ℕ) : Prim κ :=
  { m with c_next := update m.c_next bp none, cfreelist := m.c_next bp }

/-- `bp->c_next = next` -/
def link (m : Prim κ) (bp : ℕ) (next : Option ℕ) : Prim κ :=
  { m with c_next := update m.c_next bp next }

/-- `*cp = c` -/
def store (m : Prim κ) (cp : ℕ) (c : UInt8) : Prim κ :=
  { m with c_info := update m.c_info cp c }

/-- The first character of a list, or -1. -/
def getc (m : Prim κ) (p : κ) : ℤ × Prim κ :=
  let q := m.clist p
  if q.c_cc ≤ 0 then (-1, m.set p ⟨0, 0, 0⟩)
  else
    let c : ℤ := (m.c_info q.c_cf).toNat
    let cf := q.c_cf + 1
    let cc := q.c_cc - 1
    if cc ≤ 0 then
      let bp := blockOf (cf - 1)
      (c, (m.set p ⟨cc, 0, 0⟩).release bp)
    else if cf &&& CROUND = 0 then
      let bp := blockOf cf - 1
      (c, (m.set p ⟨cc, info (m.c_next bp), q.c_cl⟩).release bp)
    else (c, m.set p ⟨cc, cf, q.c_cl⟩)

/-- The loop of `q_to_b`, with the characters it stores. -/
def moveOut (m : Prim κ) (p : κ) : ℕ → List UInt8 × Prim κ
  | 0 => ([], m)
  | cc + 1 =>
      let q := m.clist p
      let c := m.c_info q.c_cf
      let cf := q.c_cf + 1
      let left := q.c_cc - 1
      if left ≤ 0 then
        let bp := blockOf (cf - 1)
        ([c], (m.set p ⟨left, 0, 0⟩).release bp)
      else
        let m' :=
          if cf &&& CROUND = 0 then
            let bp := blockOf cf - 1
            (m.set p ⟨left, info (m.c_next bp), q.c_cl⟩).release bp
          else m.set p ⟨left, cf, q.c_cl⟩
        let (more, m'') := m'.moveOut p cc
        (c :: more, m'')

/-- Copy a list to a buffer: the characters stored, whose number is returned. -/
def q_to_b (m : Prim κ) (q : κ) (cc : ℤ) : List UInt8 × Prim κ :=
  if cc ≤ 0 then ([], m)
  else if (m.clist q).c_cc ≤ 0 then ([], m.set q ⟨0, 0, 0⟩)
  else m.moveOut q cc.toNat

/-- The index below `n` of the first character from `p` on that has a bit of `flag`, or `n`. -/
def scan (m : Prim κ) (flag : BitVec 32) (p : ℕ) : ℕ → ℕ
  | 0 => 0
  | n + 1 =>
      if BitVec.ofNat 32 (m.c_info p).toNat &&& flag ≠ 0 then 0
      else m.scan flag (p + 1) n + 1

/-- The number of contiguous characters at the head of a list, up to one that has a bit of
`flag`. -/
def ndqb (m : Prim κ) (q : κ) (flag : BitVec 32) : ℤ :=
  let h := m.clist q
  if h.c_cc ≤ 0 then -h.c_cc
  else
    let room := cblock (blockOf (h.c_cf + CBSIZE)) - h.c_cf
    let cc := if h.c_cc < room then h.c_cc.toNat else room
    if flag ≠ 0 then m.scan flag h.c_cf cc else cc

/-- Take `cc` characters, of those that `ndqb` counted, off a list. -/
def ndflush (m : Prim κ) (q : κ) (cc : ℤ) : Prim κ :=
  let h := m.clist q
  if h.c_cc < 0 then
    if h.c_cf ≠ 0 then m.set q ⟨h.c_cc + cc, (h.c_cf + cc).toNat, h.c_cl⟩
    else m.set q { h with c_cc := 0 }
  else if h.c_cc = 0 then m
  else if cc > CBSIZE ∨ cc ≤ 0 then { m with cbad := m.cbad + 1 }
  else
    let left := h.c_cc - cc
    let cf := (h.c_cf + cc).toNat
    if cf &&& CROUND = 0 then
      let bp := blockOf cf - 1
      match m.c_next bp with
      | some next => (m.set q ⟨left, info (some next), h.c_cl⟩).release bp
      | none => (m.set q ⟨left, 0, 0⟩).release bp
    else if left = 0 then (m.set q ⟨left, 0, 0⟩).release (blockOf cf)
    else m.set q ⟨left, cf, h.c_cl⟩

/-- Append a character; 0, or -1 if there is no room. -/
def putc (m : Prim κ) (c : BitVec 32) (p : κ) : ℤ × Prim κ :=
  let q := m.clist p
  let append (m : Prim κ) (cf cp : ℕ) : ℤ × Prim κ :=
    (0, (m.store cp (char c)).set p ⟨q.c_cc + 1, cf, cp + 1⟩)
  if q.c_cl = 0 ∨ q.c_cc < 0 then
    match m.cfreelist with
    | none => (-1, m)
    | some bp => append (m.take bp) (info (some bp)) (info (some bp))
  else if q.c_cl &&& CROUND = 0 then
    let m := m.link (blockOf q.c_cl - 1) m.cfreelist
    match m.cfreelist with
    | none => (-1, m)
    | some bp => append (m.take bp) q.c_cf (info (some bp))
  else append m q.c_cf q.c_cl

/-- The loop of `b_to_q` from the buffer position `cp` and the list position `cq`: what is left
of the count, and the list position at the end. -/
def moveIn (m : Prim κ) (cp : ℕ → UInt8) (cq : ℕ) : ℕ → ℕ × ℕ × Prim κ
  | 0 => (0, cq, m)
  | cc + 1 =>
      if cq &&& CROUND = 0 then
        let m := m.link (blockOf cq - 1) m.cfreelist
        match m.cfreelist with
        | none => (cc + 1, cq, m)
        | some bp =>
            ((m.take bp).store (info (some bp)) (cp 0)).moveIn
              (fun i => cp (i + 1)) (info (some bp) + 1) cc
      else (m.store cq (cp 0)).moveIn (fun i => cp (i + 1)) (cq + 1) cc

/-- Copy a buffer to a list; returns the number of characters not transferred. -/
def b_to_q (m : Prim κ) (cp : ℕ → UInt8) (cc : ℤ) (p : κ) : ℕ × Prim κ :=
  let q := m.clist p
  let move (m : Prim κ) (cf cq : ℕ) : ℕ × Prim κ :=
    let (left, cl, m) := m.moveIn cp cq cc.toNat
    (left, m.set p ⟨q.c_cc + (cc - left), cf, cl⟩)
  if cc ≤ 0 then (0, m)
  else if q.c_cl = 0 ∨ q.c_cc < 0 then
    match m.cfreelist with
    | none => (cc.toNat, m.set p ⟨q.c_cc + (cc - cc), q.c_cf, q.c_cl⟩)
    | some bp => move (m.take bp) (info (some bp)) (info (some bp))
  else move m q.c_cf q.c_cl

/-- The first two characters of a list as one number, or -1. -/
def getw (m : Prim κ) (p : κ) : ℤ × Prim κ :=
  if (m.clist p).c_cc ≤ 1 then (-1, m)
  else
    let (s, m) := m.getc p
    let (t, m) := m.getc p
    -- `s | (t<<8)`: both are characters here
    ((s.toNat ||| (t.toNat <<< 8) : ℕ), m)

/-- Append a number of two characters; 0, or -1 if no block is free. -/
def putw (m : Prim κ) (c : BitVec 32) (p : κ) : ℤ × Prim κ :=
  match m.cfreelist with
  | none => (-1, m)
  | some _ => (0, ((m.putc c p).2.putc (c.sshiftRight 8) p).2)

/-- Where the blocks that `cinit` frees begin and end, for an array `cfree` at an address. -/
def cblocks (cfree : ℕ) : List ℕ :=
  let first := blockOf (cfree + CROUND)
  let last := blockOf (cfree + cblock (NCLIST - 1))
  List.range' first (last + 1 - first)

/-- Free all blocks. -/
def cinit (m : Prim κ) (cfree : ℕ) : Prim κ := (cblocks cfree).foldl release m

end Prim

end UnixV7
