import UnixV7.Kernel.Alloc
import Mathlib.Data.Int.Notation

/-!
# The free list of a new file system

`mkfs` lays the free list out so that consecutive blocks of a file lie some way apart. `bflist`
walks over the device downwards in groups of `f_n` blocks, and over each group in steps of `f_m`
modulo `f_n`. `bfree` and `alloc` of `mkfs` work on the superblock and the device directly. Block
numbers are not bounded here: that `d` is an `int` does not matter while `s_fsize + f_n < 2^31`.
-/

namespace UnixV7.Mkfs

open Function

/-- The most blocks in a group. -/
def MAXFN : ℕ := 500

/-- The superblock `filsys` and the blocks of the device that hold numbers of free blocks. -/
structure Device where
  fp : Filsys
  s_tfree : ℤ
  block : Daddr → Fblk

/-! ## The order of a group -/

/-- `while(flg[i]) i = (i+1)%f_n` -/
def skip (n : ℕ) (flg : ℕ → Bool) : ℕ → ℕ → Option ℕ
  | 0, _ => none
  | fuel + 1, i => if flg i then skip n flg fuel ((i + 1) % n) else some i

/-- The loop that fills `adr`, with `j` entries left. -/
def adrs (n m : ℕ) : ℕ → ℕ → (ℕ → Bool) → Option (List ℕ)
  | 0, _, _ => some []
  | j + 1, i, flg => do
    let i ← skip n flg n i
    let adr ← adrs n m j ((i + m) % n) (update flg i true)
    some ((i + 1) :: adr)

/-- `while(d%f_n) d++` -/
def roundUp (n : ℕ) : ℕ → ℕ → Option ℕ
  | 0, _ => none
  | fuel + 1, d => if d % n ≠ 0 then roundUp n fuel (d + 1) else some d

/-- The two loops over the groups from `d` down and the blocks of a group; `visit` is what is done
with a block. -/
def lay {σ : Type} (visit : σ → Daddr → σ) (n : ℕ) (adr : List ℕ) : ℕ → ℕ → σ → Option σ
  | 0, _, _ => none
  | fuel + 1, d, s =>
    if 0 < d then lay visit n adr fuel (d - n) (adr.foldl (fun s a => visit s (d - a)) s)
    else some s

namespace Device

/-- A full superblock is written to the block `bno`. -/
def spill (dv : Device) (bno : Daddr) : Device :=
  if NICFREE ≤ dv.fp.s_nfree then
    { dv with
      block := update dv.block bno ⟨dv.fp.s_nfree, dv.fp.s_free⟩
      fp := { dv.fp with s_nfree := 0 } }
  else dv

/-- `bfree` of `mkfs`, and of `icheck`. -/
def bfree (dv : Device) (bno : Daddr) : Device :=
  let dv := { dv with s_tfree := dv.s_tfree + 1 }.spill bno
  { dv with
    fp := { dv.fp with
      s_free := update dv.fp.s_free dv.fp.s_nfree bno
      s_nfree := dv.fp.s_nfree + 1 } }

/-- `alloc`, which gives up at the number 0. -/
def alloc (dv : Device) : Option (Daddr × Device) :=
  let fp := { dv.fp with s_nfree := dv.fp.s_nfree - 1 }
  let bno := fp.s_free fp.s_nfree
  let dv := { dv with s_tfree := dv.s_tfree - 1, fp := fp }
  if bno = 0 then none
  else if fp.s_nfree = 0 then
    some (bno, { dv with
      fp := { fp with s_nfree := (dv.block bno).df_nfree, s_free := (dv.block bno).df_free } })
  else some (bno, dv)

/-- Is the block bad? -/
def badblk (_bno : Daddr) : Bool := false

/-- What `bflist` does with a block. -/
def visit (dv : Device) (f : Daddr) : Device :=
  if f < dv.fp.s_fsize ∧ dv.fp.s_isize ≤ f then
    if badblk f then dv else dv.bfree f
  else dv

end Device

/-- The free list is made. -/
def bflist (f_n f_m : ℕ) (dv : Device) : Option Device := do
  let adr ← adrs f_n f_m f_n 0 fun _ => false
  let d ← roundUp f_n f_n (dv.fp.s_fsize - 1)
  lay Device.visit f_n adr (d + 1) d (dv.bfree 0)

/-- `filsys` as `bflist` finds it. -/
def blank (s_isize s_fsize : ℕ) (block : Daddr → Fblk) : Device where
  fp :=
    { s_isize := s_isize, s_fsize := s_fsize, s_nfree := 0, s_free := fun _ => 0, s_ninode := 0
      s_inode := fun _ => 0, s_flock := 0, s_ilock := 0, s_fmod := 0, s_ronly := 0 }
  s_tfree := 0
  block := block

end UnixV7.Mkfs
