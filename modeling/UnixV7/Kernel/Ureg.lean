import Mathlib.Algebra.Group.Nat.Defs
import UnixV7.Kernel.Malloc
import UnixV7.Kernel.Pages

/-!
# Page tables

`ureg.c`, which turns the sizes of a process into its page tables. The processor walks three
levels of tables: an entry of `l1tab` for each gigabyte, a second-level table with an entry for
each block of 2 MB, and third-level tables with an entry for each page. Second- and third-level
tables are pages handed out by the resource map `ptmap`; they lie apart from the pages of
processes, and are kept here in an array of their own.
-/

namespace UnixV7

open Function

/-- The number of pages for page tables. -/
def NPTAB : ℕ := 4 * NPROC + 256

namespace Ureg

/-- Access abilities. -/
def RO : ℕ := 0o300

def RW : ℕ := 0o100

/-- An entry that refers to a table. -/
def PTE_TAB : ℕ := 3

/-- An entry for a page of a user. -/
def PGUSER : ℕ := 0xf03

/-- Entries per table. -/
def NPTE : ℕ := 512

/-- `L1SHIFT - PGSHIFT` -/
def gbshift : ℕ := 18

/-- `BLKSHIFT - PGSHIFT` -/
def blkshift : ℕ := 9

/-- `btop(USRSIZE)` -/
def top : ℕ := 0xC0000

/-- `btop(SIGTRAMP)` -/
def tr : ℕ := 1

/-- `~0U` -/
def nowhere : ℕ := 2 ^ 32 - 1

/-- `ptob`, in unsigned arithmetic. -/
def ptob (a : ℕ) : ℕ := (a <<< 12) % 2 ^ 32

/-- A range of user pages, with its element of `nent[]`. -/
structure Urange where
  va : ℕ
  n : ℕ
  map : Pg
  first : ℕ
  ap : ℕ
  nent : ℕ

/-- The sizes and addresses of the segments in the user structure. -/
structure Segs where
  u_ptstart : ℕ
  u_tsize : ℕ
  u_pdstart : ℕ
  u_dsize : ℕ
  u_ssize : ℕ
  u_pxrw : ℕ

/-- A text in core. -/
structure Text where
  x_map : Pg
  x_size : ℕ

/-- The maps of a process and of its text. -/
structure Image where
  p_map : Pg
  p_size : ℕ
  p_textp : Option Text

/-- `upage`: the page of entry `i` of a range, or 0 if the map does not hold it yet. -/
def upage (c : Core) (rp : Urange) (i : ℕ) : Pg :=
  if rp.map = 0 then rp.first + i
  else if rp.nent ≤ rp.first + i then 0
  else c.mapent rp.map (rp.first + i)

/-- The ranges of a process, before they are sorted. -/
def ranges (sigpage : Pg) (u : Segs) (p : Image) : List Urange :=
  let text :=
    match p.p_textp with
    | some xp =>
        if u.u_tsize ≠ 0 then [⟨u.u_ptstart, u.u_tsize, xp.x_map, 0, u.u_pxrw, xp.x_size⟩] else []
    | none => []
  let data :=
    if u.u_dsize ≠ 0 then [⟨u.u_pdstart, u.u_dsize, p.p_map, 0, RW, p.p_size - USIZE⟩] else []
  let stack :=
    if u.u_ssize ≠ 0 then
      [⟨top - u.u_ssize, u.u_ssize, p.p_map, u.u_dsize, RW, p.p_size - USIZE⟩]
    else []
  text ++ data ++ stack ++ [⟨tr, 1, 0, sigpage, RO, 1⟩]

/-- The inner loop of the sort: a range is exchanged with those before it, the last one first,
that lie above it. -/
def exchange (t : Urange) : List Urange → List Urange
  | [] => [t]
  | r :: before => if t.va < r.va then r :: exchange t before else t :: r :: before

/-- The ranges in the order of their addresses. -/
def sort (r : List Urange) : List Urange :=
  (r.foldl (fun before t => exchange t before) []).reverse

/-- The gigabyte and the block that were met last, and the tables counted. -/
structure Count where
  gb : ℕ
  blk : ℕ
  n : ℕ

/-- The body of the first loop. -/
def Count.page (s : Count) (pg : ℕ) : Count :=
  let s := if pg >>> gbshift ≠ s.gb then { s with gb := pg >>> gbshift, n := s.n + 1 } else s
  if pg >>> blkshift ≠ s.blk then { s with blk := pg >>> blkshift, n := s.n + 1 } else s

/-- The first loop over one range, which steps from block to block and so ends within as many
steps as there are pages. -/
def Count.range (stop : ℕ) : ℕ → ℕ → Count → Count
  | 0, _, s => s
  | steps + 1, pg, s =>
      if pg < stop then Count.range stop steps ((pg ||| (NPTE - 1)) + 1) (s.page pg) else s

/-- The number of tables that the ranges need. -/
def count (r : List Urange) : ℕ :=
  (r.foldl (fun s rp => Count.range (rp.va + rp.n) rp.n rp.va s) ⟨nowhere, nowhere, 0⟩).n

/-- The page tables, and the variables of the second loop: the next page for a table, the tables
`l2` and `l3`, and the gigabyte and the block they are for. -/
structure Fill where
  l1tab : ℕ → ℕ
  tab : ℕ → ℕ → ℕ
  a : ℕ
  l2 : ℕ
  l3 : ℕ
  gb : ℕ
  blk : ℕ

namespace Fill

/-- A new second-level table where a page lies in another gigabyte than the one before. -/
def level2 (l1 pg : ℕ) (s : Fill) : Fill :=
  if pg >>> gbshift ≠ s.gb then
    { s with
      gb := pg >>> gbshift
      l1tab := update s.l1tab (l1 + pg >>> gbshift) (ptob s.a ||| PTE_TAB)
      l2 := s.a
      a := s.a + 1 }
  else s

/-- A new third-level table where it lies in another block. -/
def level3 (pg : ℕ) (s : Fill) : Fill :=
  if pg >>> blkshift ≠ s.blk then
    { s with
      blk := pg >>> blkshift
      tab := update s.tab s.l2 (update (s.tab s.l2) (pg >>> blkshift &&& (NPTE - 1))
        (ptob s.a ||| PTE_TAB))
      l3 := s.a
      a := s.a + 1 }
  else s

/-- The entry of a page. -/
def enter (pg entry : ℕ) (s : Fill) : Fill :=
  { s with tab := update s.tab s.l3 (update (s.tab s.l3) (pg &&& (NPTE - 1)) entry) }

/-- The body of the second loop, for a page which the map holds. -/
def page (l1 pg entry : ℕ) (s : Fill) : Fill :=
  ((s.level2 l1 pg).level3 pg).enter pg entry

/-- The second loop over one range. -/
def range (c : Core) (l1 : ℕ) (rp : Urange) (s : Fill) : Fill :=
  (List.range rp.n).foldl (fun s i =>
    let pa := upage c rp i
    if pa = 0 then s else s.page l1 (rp.va + i) (ptob pa ||| PGUSER ||| rp.ap)) s

end Fill

/-- The tables of all processes, which are numbered. -/
structure Tables where
  l1tab : ℕ → ℕ
  tab : ℕ → ℕ → ℕ
  ptmap : List Map
  p_ptab : ℕ → ℕ
  p_nptab : ℕ → ℕ

namespace Tables

/-- `ptbuild` for process `q`; the process is killed, and nothing changes, if there is no room for
its tables. -/
def ptbuild (s : Tables) (sigpage : Pg) (c : Core) (u : Segs) (p : Image) (q : ℕ) :
    Option Tables :=
  let r := sort (ranges sigpage u p)
  let n := count r
  (Map.malloc n s.ptmap).map fun (a, ptmap) =>
    if a = 0 then { s with ptmap := ptmap }
    else
      let tab := fun pg i => if a ≤ pg ∧ pg < a + n ∧ i < NPTE then 0 else s.tab pg i
      let filled := r.foldl (fun (s : Fill) rp => s.range c (4 * q) rp)
        ⟨s.l1tab, tab, a, 0, 0, nowhere, nowhere⟩
      { l1tab := filled.l1tab
        tab := filled.tab
        ptmap := ptmap
        p_ptab := update s.p_ptab q a
        p_nptab := update s.p_nptab q n }

/-- `ptfree` -/
def ptfree (s : Tables) (q : ℕ) : Option Tables :=
  let freed :=
    if s.p_nptab q ≠ 0 then
      (Map.mfree (s.p_nptab q) (s.p_ptab q) s.ptmap).map fun ptmap =>
        { s with ptmap := ptmap, p_nptab := update s.p_nptab q 0 }
    else some s
  freed.map fun s =>
    { s with l1tab := fun j => if 4 * q ≤ j ∧ j < 4 * q + 3 then 0 else s.l1tab j }

/-- `sureg`, less the switch of the processor to the tables. -/
def sureg (s : Tables) (sigpage : Pg) (c : Core) (u : Segs) (p : Image) (q : ℕ) : Option Tables :=
  if s.p_nptab q = 0 then s.ptbuild sigpage c u p q else some s

end Tables

/-- `apart`: the `n` pages from `a` and the `m` pages from `b` have none in common. -/
def apart (a n b m : ℕ) : Bool :=
  n = 0 || m = 0 || a + n ≤ b || b + m ≤ a

/-- The tests of `estabur`. -/
def fits (maxmem : ℕ) (ts nt ds nd ns : ℕ) : Bool :=
  let ss := top - ns
  !(decide (nt > top) || decide (ts > top - nt) || decide (nd > top) || decide (ds > top - nd) ||
    decide (ns > top)) &&
  !(!apart ts nt ds nd || !apart ts nt ss ns || !apart ds nd ss ns || !apart ts nt tr 1 ||
    !apart ds nd tr 1 || !apart ss ns tr 1) &&
  !decide (USIZE + Core.mapneed 0 (nd + ns) + Core.mapneed 0 nt > maxmem)

/-- `estabur` for process `q`; `none` in the place of -1, with `ENOMEM`. -/
def estabur (s : Tables) (maxmem : ℕ) (sigpage : Pg) (c : Core) (p : Image) (q : ℕ)
    (ts nt ds nd ns xrw : ℕ) : Option (Option (Segs × Tables)) :=
  if fits maxmem ts nt ds nd ns then
    let u : Segs := ⟨ts, nt, ds, nd, ns, xrw⟩
    (s.ptfree q).bind fun s =>
      (s.sureg sigpage c u p q).map fun s =>
        some (u, s)
  else some none

/-! ## The walk -/

/-- The page in bits 12 to 39 of an entry. -/
def frame (d : ℕ) : ℕ := (d >>> 12) % 2 ^ 28

/-- The entry of a second-level table on the way to page `v`. -/
def second (l1tab : ℕ → ℕ) (l1 v : ℕ) : ℕ × ℕ :=
  (frame (l1tab (l1 + v >>> gbshift)), (v >>> blkshift) % NPTE)

/-- The entry of a third-level table on the way to page `v`. -/
def third (l1tab : ℕ → ℕ) (tab : ℕ → ℕ → ℕ) (l1 v : ℕ) : ℕ × ℕ :=
  (frame (tab (second l1tab l1 v).1 (second l1tab l1 v).2), v % NPTE)

/-- The page and the access bits that the processor finds for page `v` from the first-level entries
at `l1` on. An entry is valid if its low bits are set. -/
def walk (l1tab : ℕ → ℕ) (tab : ℕ → ℕ → ℕ) (l1 v : ℕ) : Option (Pg × ℕ) :=
  if l1tab (l1 + v >>> gbshift) % 4 ≠ 3 then none
  else if tab (second l1tab l1 v).1 (second l1tab l1 v).2 % 4 ≠ 3 then none
  else
    let d := tab (third l1tab tab l1 v).1 (third l1tab tab l1 v).2
    if d % 4 ≠ 3 then none else some (frame d, d &&& 0o300)

end Ureg

end UnixV7
