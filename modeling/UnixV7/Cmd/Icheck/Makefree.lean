import UnixV7.Cmd.Mkfs.Bflist

/-!
# Rebuilding the free list

`icheck -s` throws the free list away and makes a new one, in the order of `mkfs`, of the blocks
that it has not seen in a file. `bmap` has a bit for every block that was seen. As for `mkfs`, that
`d` is an `int` does not matter while `s_fsize + f_n < 2^31`.
-/

namespace UnixV7.Icheck

open Function

open Mkfs (Device MAXFN)

/-- The device, the bit map, and whether duplicates go unchecked. -/
structure Check where
  dv : Device
  bmap : ℕ → ℕ
  dflg : Bool

/-- Was the block seen before? It has been now. -/
def Check.duped (c : Check) (bno : Daddr) : Bool × Check :=
  if c.dflg then (false, c)
  else
    let d := bno - c.dv.fp.s_isize
    let m := 1 <<< (d % 8)
    let n := d / 8
    if c.bmap n &&& m ≠ 0 then (true, c)
    else (false, { c with bmap := update c.bmap n (c.bmap n ||| m) })

/-- What `makefree` does with a block. -/
def Check.visit (c : Check) (f : Daddr) : Check :=
  if f < c.dv.fp.s_fsize ∧ c.dv.fp.s_isize ≤ f then
    match c.duped f with
    | (true, c) => c
    | (false, c) => { c with dv := c.dv.bfree f }
  else c

/-- `s_n` as it is used, and as it is left in the superblock. -/
def groupSize (s_n : ℤ) : ℕ := if s_n ≤ 0 ∨ MAXFN < s_n then MAXFN else s_n.toNat

/-- `s_m` as it is used. -/
def groupStep (s_n : ℕ) (s_m : ℤ) : ℕ := if s_m ≤ 0 ∨ s_n < s_m then 3 else s_m.toNat

/-- The fields of the superblock that `makefree` resets before it makes the list. -/
def reset (dv : Device) : Device :=
  { dv with
    fp := { dv.fp with
      s_nfree := 0, s_ninode := 0, s_flock := 0, s_ilock := 0, s_fmod := 0, s_ronly := 0 }
    s_tfree := 0 }

/-- The free list is made anew. -/
def makefree (s_n s_m : ℤ) (c : Check) : Option Check := do
  let n := groupSize s_n
  let m := groupStep n s_m
  let adr ← Mkfs.adrs n m n 0 fun _ => false
  let d ← Mkfs.roundUp n n (c.dv.fp.s_fsize - 1)
  Mkfs.lay Check.visit n adr (d + 1) d { c with dv := (reset c.dv).bfree 0 }

end UnixV7.Icheck
