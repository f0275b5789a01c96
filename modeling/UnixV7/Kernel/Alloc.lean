import Mathlib.Logic.Function.Basic
import UnixV7.Library.Interleaving
import UnixV7.Library.Ledger
import UnixV7.Kernel.Filsys

/-!
# Allocating blocks

`alloc` and `free` of `alloc.c`. The superblock holds the numbers of up to `NICFREE` free blocks;
the first of them is a block that holds the numbers of more, and so on until a 0. `alloc` reads
that block when it takes the last number, and `free` writes one when the superblock is full, both
under the lock `s_flock`, and both sleeping.
-/

namespace UnixV7

open Function

/-- A block that holds numbers of free blocks, `struct fblk`. -/
structure Fblk where
  df_nfree : ℕ
  df_free : ℕ → Daddr

/-- `badblock`: the number is not between the inodes and the end of the device. -/
def Filsys.badblock (fp : Filsys) (bn : Daddr) : Bool := bn < fp.s_isize || fp.s_fsize ≤ bn

/-- The check of the counts in `getfs`. -/
def Filsys.getfs (fp : Filsys) : Filsys :=
  if NICFREE < fp.s_nfree ∨ NICINOD < fp.s_ninode then
    { fp with s_nfree := 0, s_ninode := 0 }
  else
    fp

/-- The loop of `alloc` that takes numbers from `s_free`, with `n` of them left. -/
def Filsys.pop (fp : Filsys) : ℕ → Option (Daddr × Filsys)
  | 0 => none
  | n + 1 =>
      if NICFREE < n + 1 then
        none
      else if fp.s_free n = 0 then
        none
      else if fp.badblock (fp.s_free n) then
        fp.pop n
      else
        some (fp.s_free n, { fp with s_nfree := n })

/-- A number put into `s_free`, the end of `free`. -/
def Filsys.push (fp : Filsys) (bno : Daddr) : Filsys :=
  { fp with s_free := update fp.s_free fp.s_nfree bno, s_nfree := fp.s_nfree + 1, s_fmod := 1 }

namespace Alloc

/-- The superblock in core and the blocks of the device as `bread` finds them. -/
structure State where
  fp : Filsys
  block : Daddr → Fblk
  /-- The calls that have returned a block, given one back or found none, the last one first. -/
  log : List (Entry Daddr)

/-- Where a call sleeps. -/
inductive Place
  | idle
  | allocWait
  | allocBread (bno : Daddr)
  | allocGetblk (bno : Daddr)
  | freeWait (bno : Daddr)
  | freeGetblk (bno : Daddr)
  | freeBwrite (bno : Daddr)
  deriving DecidableEq

/-- The calls, and what ends their sleeps. -/
inductive Event
  | alloc
  | free (bno : Daddr)
  /-- The lock is looked at again. -/
  | unlocked
  /-- `bread` or `getblk` returns the buffer of the block, without error. -/
  | buffer
  /-- `bwrite` returns. -/
  | written
  /-- The holder of a block writes data to it. -/
  | data (bno : Daddr) (contents : Fblk)

namespace State

/-- `alloc` from where it has found the list unlocked. -/
def alloc (s : State) : State × Place :=
  match s.fp.pop s.fp.s_nfree with
  | none => ({ s with fp := { s.fp with s_nfree := 0 }, log := .refused :: s.log }, .idle)
  | some (bno, fp) =>
      if fp.s_nfree = 0 then
        ({ s with fp := { fp with s_flock := fp.s_flock + 1 } }, .allocBread bno)
      else
        ({ s with fp := fp }, .allocGetblk bno)

/-- `free` from where it has found the list unlocked. -/
def free (s : State) (bno : Daddr) : State × Place :=
  if s.fp.badblock bno then
    (s, .idle)
  else
    let fp :=
      if s.fp.s_nfree = 0 then
        { s.fp with s_nfree := 1, s_free := update s.fp.s_free 0 0 }
      else
        s.fp
    if NICFREE ≤ fp.s_nfree then
      ({ s with fp := { fp with s_flock := fp.s_flock + 1 } }, .freeGetblk bno)
    else
      ({ s with fp := fp.push bno, log := .returned bno :: s.log }, .idle)

/-- `alloc` with the block that lists more in its buffer. -/
def refill (s : State) (bno : Daddr) : State × Place :=
  let fp := { s.fp with
    s_nfree := (s.block bno).df_nfree
    s_free := (s.block bno).df_free
    s_flock := 0 }
  if fp.s_nfree = 0 then
    ({ s with fp := fp, log := .refused :: s.log }, .idle)
  else
    ({ s with fp := fp }, .allocGetblk bno)

end State

/-- The processes that allocate and free. -/
def system (ι : Type*) : System ι Event State Place where
  start := .idle
  next _ e s l :=
    match e, l with
    | .alloc, .idle =>
        let s := { s with fp := s.fp.getfs }
        if s.fp.s_flock ≠ 0 then some (s, .allocWait) else some s.alloc
    | .free bno, .idle =>
        let s := { s with fp := { s.fp.getfs with s_fmod := 1 } }
        if s.fp.s_flock ≠ 0 then some (s, .freeWait bno) else some (s.free bno)
    | .unlocked, .allocWait => if s.fp.s_flock ≠ 0 then none else some s.alloc
    | .unlocked, .freeWait bno => if s.fp.s_flock ≠ 0 then none else some (s.free bno)
    | .buffer, .allocBread bno => some (s.refill bno)
    | .buffer, .allocGetblk bno =>
        some ({ s with
          block := update s.block bno ⟨0, fun _ => 0⟩
          fp := { s.fp with s_fmod := 1 }
          log := .taken bno :: s.log }, .idle)
    | .buffer, .freeGetblk bno =>
        some ({ s with
          block := update s.block bno ⟨s.fp.s_nfree, s.fp.s_free⟩
          fp := { s.fp with s_nfree := 0 } }, .freeBwrite bno)
    | .written, .freeBwrite bno =>
        let fp := { s.fp with s_flock := 0 }
        some ({ s with fp := fp.push bno, log := .returned bno :: s.log }, .idle)
    | .data bno contents, .idle => some ({ s with block := update s.block bno contents }, .idle)
    | _, _ => none

end Alloc

end UnixV7
