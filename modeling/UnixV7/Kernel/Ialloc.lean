import Mathlib.Algebra.Group.Nat.Defs
import UnixV7.Kernel.Alloc
import UnixV7.Kernel.Iget

/-!
# Allocating inodes

`ialloc` and `ifree` of `alloc.c`. The superblock holds the numbers of up to `NICINOD` free inodes.
When `ialloc` has taken the last of them it searches the blocks of inodes for more, under the lock
`s_ilock`. It looks at the lock only when it is called: a process that comes back from `iget` with
an inode in use begins a search whether or not another one is going on, and the first of the two
to finish clears the lock for both.
-/

namespace UnixV7

open Function

/-- The number of inodes in a block. -/
def INOPB : ℕ := 4

/-- The next number, in an `unsigned short`. -/
def Ino.add (ino : Ino) (n : ℕ) : Ino := (ino + n) % 2 ^ 16

namespace Ialloc

/-- The superblock in core. -/
structure State where
  fp : Filsys
  /-- The indices at which `s_inode` has been stored to, the last one first. -/
  stores : List ℕ

/-- Where a call sleeps. -/
inductive Place
  | idle
  /-- On `s_ilock`. -/
  | wait
  /-- In `iget`, with a number taken from `s_inode`. -/
  | iget (ino : Ino)
  /-- In `iput`, with an inode that is in use after all. -/
  | iput
  /-- In `bread`, in the search. -/
  | bread (adr : Daddr) (ino : Ino)
  deriving DecidableEq

/-- The process searches the blocks of inodes. -/
def Place.Scanning : Place → Prop
  | .bread _ _ => True
  | _ => False

/-- What the search looks at: `di_mode` of the inodes of a block, and the inodes in core. -/
structure Block where
  di_mode : ℕ → ℕ
  incore : Ino → Bool

/-- The calls, and what ends their sleeps. -/
inductive Event
  | ialloc
  | ifree (ino : Ino)
  /-- The lock is looked at again. -/
  | unlocked
  /-- `iget` returns no inode, or one with the given `i_mode`. -/
  | igot (i_mode : Option ℕ)
  /-- `iput` returns. -/
  | released
  /-- `bread` returns the block, or fails. -/
  | buffer (block : Option Block)

namespace State

/-- `getfs` -/
def getfs (s : State) : State := { s with fp := s.fp.getfs }

/-- A number put into `s_inode`. -/
def store (s : State) (ino : Ino) : State where
  fp := { s.fp with
    s_inode := update s.fp.s_inode s.fp.s_ninode ino
    s_ninode := s.fp.s_ninode + 1 }
  stores := s.fp.s_ninode :: s.stores

/-- `ifree` -/
def ifree (s : State) (ino : Ino) : State :=
  let s := s.getfs
  if s.fp.s_ilock ≠ 0 then
    s
  else if NICINOD ≤ s.fp.s_ninode then
    s
  else
    { s.store ino with fp := { (s.store ino).fp with s_fmod := 1 } }

/-- The numbers at the end of `s_inode`, with `n` of them left, to one that can be allocated. -/
def take (s : State) : ℕ → State × Option Ino
  | 0 => ({ s with fp := { s.fp with s_ninode := 0 } }, none)
  | n + 1 =>
      if s.fp.s_inode n < Nami.ROOTINO then
        s.take n
      else
        ({ s with fp := { s.fp with s_ninode := n } }, s.fp.s_inode n)

/-- `s_ilock++`, in a `char`. -/
def lock (s : State) : State := { s with fp := { s.fp with s_ilock := (s.fp.s_ilock + 1) % 2 ^ 8 } }

def unlock (s : State) : State := { s with fp := { s.fp with s_ilock := 0 } }

/-- `ialloc` from `loop`. A search of no blocks finds nothing. -/
def loop (s : State) : State × Place :=
  match s.take s.fp.s_ninode with
  | (s, some ino) => (s, .iget ino)
  | (s, none) =>
      if SUPERB + 1 < s.fp.s_isize then
        (s.lock, .bread (SUPERB + 1) 1)
      else
        (s.unlock, .idle)

/-- The end of the search. -/
def scanned (s : State) : State × Place :=
  if 0 < s.unlock.fp.s_ninode then
    s.unlock.loop
  else
    (s.unlock, .idle)

/-- The search comes to the block `adr`. -/
def scan (s : State) (adr : Daddr) (ino : Ino) : State × Place :=
  if adr < s.fp.s_isize then
    (s, .bread adr ino)
  else
    s.scanned

/-- The search in a block, with `rest` inodes of it left, and the number it has come to. -/
def scanBlock (b : Block) : ℕ → ℕ → Ino → State → State × Ino
  | 0, _, ino, s => (s, ino)
  | rest + 1, i, ino, s =>
      if b.di_mode i ≠ 0 ∨ b.incore ino then
        scanBlock b rest (i + 1) (Ino.add ino 1) s
      else if NICINOD ≤ (s.store ino).fp.s_ninode then
        (s.store ino, ino)
      else
        scanBlock b rest (i + 1) (Ino.add ino 1) (s.store ino)

/-- `ialloc` from where it has a block of the search. -/
def search (s : State) (adr : Daddr) (ino : Ino) : Option Block → State × Place
  | none => s.scan (adr + 1) (Ino.add ino INOPB)
  | some b =>
      let (s, ino) := scanBlock b INOPB 0 ino s
      if NICINOD ≤ s.fp.s_ninode then
        s.scanned
      else
        s.scan (adr + 1) ino

/-- `ialloc` from where it looks at the lock. -/
def enter (s : State) : State × Place :=
  if s.fp.s_ilock ≠ 0 then
    (s, .wait)
  else
    s.loop

end State

/-- From one sleep to the next. `iput` calls `ifree` when the inode has no links. -/
def next : Event → State → Place → Option (State × Place)
  | .ialloc, s, .idle => some s.getfs.enter
  | .ifree ino, s, .idle => some (s.ifree ino, .idle)
  | .ifree ino, s, .iput => some (s.ifree ino, .iput)
  | .unlocked, s, .wait => some s.enter
  | .igot none, s, .iget _ => some (s, .idle)
  | .igot (some 0), s, .iget _ => some ({ s with fp := { s.fp with s_fmod := 1 } }, .idle)
  | .igot (some (_ + 1)), s, .iget _ => some (s, .iput)
  | .released, s, .iput => some s.loop
  | .buffer block, s, .bread adr ino => some (s.search adr ino block)
  | _, _, _ => none

/-- Any processes that call `ialloc` and `ifree`. -/
def inodes (ι : Type*) : System ι Event State Place where
  start := .idle
  next _ := next

/-- The device has just been mounted. -/
structure Mounted (s : State) : Prop where
  ninode : s.fp.s_ninode ≤ NICINOD
  unlocked : s.fp.s_ilock = 0
  stores : s.stores = []

/-- The numbers are within `s_inode`. -/
structure Fits (s : State) : Prop where
  ninode : s.fp.s_ninode ≤ NICINOD
  stores : ∀ i ∈ s.stores, i < NICINOD

variable {ι : Type*} {s : State} {w : World ι State Place} {p : ι} {e : Event} {b : Block}
  {adr n i rest : ℕ} {ino : Ino} {l : Place} {r : State × Place}

/-- `ifree` does not put the last number into `s_inode` while a process searches. -/
def May (w : World ι State Place) (_ : ι) : Event → Prop
  | .ifree _ => w.shared.fp.s_ilock = 0 → w.shared.fp.s_ninode + 1 = NICINOD →
      ∀ q, ¬(w.loc q).Scanning
  | _ => True

/-! ## One call -/

theorem getfs_le (s : State) : s.getfs.fp.s_ninode ≤ s.fp.s_ninode := by
  rw [State.getfs, Filsys.getfs]
  split_ifs
  · exact Nat.zero_le _
  · exact Nat.le_refl _

@[simp] theorem getfs_ilock (s : State) : s.getfs.fp.s_ilock = s.fp.s_ilock := by
  rw [State.getfs, Filsys.getfs]
  split_ifs <;> rfl

theorem Fits.getfs (fits : Fits s) : Fits s.getfs :=
  ⟨Nat.le_trans (getfs_le s) fits.ninode, fits.stores⟩

theorem Fits.store (fits : Fits s) (room : s.fp.s_ninode < NICINOD) (ino : Ino) :
    Fits (s.store ino) where
  ninode := room
  stores := List.forall_mem_cons.mpr ⟨room, fits.stores⟩

/-- `take` leaves room for a number, if it has begun with all of them. -/
theorem Fits.take (fits : Fits s) (below : n ≤ NICINOD) :
    (s.take n).1.fp.s_ninode < NICINOD ∧ Fits (s.take n).1 := by
  induction n with
  | zero => exact ⟨Nat.succ_pos _, Nat.zero_le _, fits.stores⟩
  | succ n ih =>
      rw [State.take]
      split_ifs
      · exact ih (Nat.le_of_succ_le below)
      · exact ⟨below, Nat.le_of_succ_le below, fits.stores⟩

theorem Fits.loop (fits : Fits s) : s.loop.1.fp.s_ninode < NICINOD ∧ Fits s.loop.1 := by
  have taken := fits.take fits.ninode
  rw [State.loop]
  match found : s.take s.fp.s_ninode with
  | (s', some ino) =>
      rw [found] at taken
      exact taken
  | (s', none) =>
      rw [found] at taken
      dsimp only
      split_ifs
      · exact ⟨taken.1, taken.2.ninode, taken.2.stores⟩
      · exact ⟨taken.1, taken.2.ninode, taken.2.stores⟩

theorem Fits.scanned (fits : Fits s) : s.scanned.1.fp.s_ninode < NICINOD ∧ Fits s.scanned.1 := by
  have unlocked : Fits s.unlock := ⟨fits.ninode, fits.stores⟩
  rw [State.scanned]
  split_ifs with some
  · exact unlocked.loop
  · exact ⟨Nat.lt_of_le_of_lt (Nat.not_lt.mp some) (Nat.succ_pos _), unlocked⟩

theorem Fits.scan (fits : Fits s) (room : s.fp.s_ninode < NICINOD) :
    (s.scan adr ino).1.fp.s_ninode < NICINOD ∧ Fits (s.scan adr ino).1 := by
  rw [State.scan]
  split_ifs
  · exact ⟨room, fits⟩
  · exact fits.scanned

theorem Fits.scanBlock (fits : Fits s) (room : s.fp.s_ninode < NICINOD) :
    Fits (State.scanBlock b rest i ino s).1 := by
  induction rest generalizing i ino s with
  | zero => exact fits
  | succ rest ih =>
      rw [State.scanBlock]
      split_ifs with used full
      · exact ih fits room
      · exact fits.store room ino
      · exact ih (fits.store room ino) (Nat.not_le.mp full)

/-- A search that finds room leaves room. -/
theorem Fits.search (fits : Fits s) (room : s.fp.s_ninode < NICINOD) (block : Option Block) :
    (s.search adr ino block).1.fp.s_ninode < NICINOD ∧ Fits (s.search adr ino block).1 := by
  cases block with
  | none => exact fits.scan room
  | some b =>
      have found : Fits (State.scanBlock b INOPB 0 ino s).1 := fits.scanBlock room
      rw [State.search]
      dsimp only
      split_ifs with full
      · exact found.scanned
      · exact found.scan (Nat.not_le.mp full)

/-- `ialloc` sleeps without the lock, or leaves room. -/
theorem Fits.enter (fits : Fits s) :
    (s.enter = (s, .wait) ∨ s.enter.1.fp.s_ninode < NICINOD) ∧ Fits s.enter.1 := by
  rw [State.enter]
  split_ifs
  · exact ⟨.inl rfl, fits⟩
  · exact ⟨.inr fits.loop.1, fits.loop.2⟩

theorem Fits.ifree (fits : Fits s) : Fits (s.ifree ino) := by
  rw [State.ifree]
  dsimp only
  split_ifs with locked full
  · exact fits.getfs
  · exact fits.getfs
  · have stored := fits.getfs.store (Nat.not_le.mp full) ino
    exact ⟨stored.ninode, stored.stores⟩

/-- `ifree` leaves room, unless it puts the last number into `s_inode`. -/
theorem ifree_room (room : s.fp.s_ninode < NICINOD)
    (may : s.fp.s_ilock = 0 → s.fp.s_ninode + 1 ≠ NICINOD) (ino : Ino) :
    (s.ifree ino).fp.s_ninode < NICINOD := by
  have less := getfs_le s
  rw [State.ifree]
  dsimp only
  split_ifs with locked full
  · exact Nat.lt_of_le_of_lt less room
  · exact Nat.lt_of_le_of_lt less room
  · have unlocked : s.fp.s_ilock = 0 := getfs_ilock s ▸ Classical.not_not.mp locked
    have last := may unlocked
    change s.getfs.fp.s_ninode + 1 < NICINOD
    omega

/-! ## Every run -/

/-- What a move does: it leaves room, or it leaves the process out of the search with no more
numbers than before, or it is a call of `ifree`. -/
theorem Fits.next (fits : Fits s) (room : l.Scanning → s.fp.s_ninode < NICINOD)
    (moved : next e s l = some r) :
    Fits r.1 ∧ (r.1.fp.s_ninode < NICINOD ∨ ¬r.2.Scanning ∧
      (r.1.fp.s_ninode ≤ s.fp.s_ninode ∨ ∃ ino, e = .ifree ino ∧ r.1 = s.ifree ino)) := by
  have idle : ¬Place.idle.Scanning := id
  have released : ¬Place.iput.Scanning := id
  rw [Ialloc.next.eq_def] at moved
  split at moved <;> cases moved
  · obtain ⟨entered, fits⟩ := fits.getfs.enter
    refine ⟨fits, ?_⟩
    rcases entered with waits | room
    · rw [waits]
      exact .inr ⟨id, .inl (getfs_le s)⟩
    · exact .inl room
  · exact ⟨fits.ifree, .inr ⟨idle, .inr ⟨_, rfl, rfl⟩⟩⟩
  · exact ⟨fits.ifree, .inr ⟨released, .inr ⟨_, rfl, rfl⟩⟩⟩
  · obtain ⟨entered, fits⟩ := fits.enter
    refine ⟨fits, ?_⟩
    rcases entered with waits | room
    · rw [waits]
      exact .inr ⟨id, .inl (Nat.le_refl _)⟩
    · exact .inl room
  · exact ⟨fits, .inr ⟨idle, .inl (Nat.le_refl _)⟩⟩
  · exact ⟨⟨fits.ninode, fits.stores⟩, .inr ⟨idle, .inl (Nat.le_refl _)⟩⟩
  · exact ⟨fits, .inr ⟨released, .inl (Nat.le_refl _)⟩⟩
  · exact ⟨fits.loop.2, .inl fits.loop.1⟩
  · exact ⟨(fits.search (room trivial) _).2, .inl (fits.search (room trivial) _).1⟩

/-- The numbers fit, and there is room for one more while a process searches. -/
structure Inv (w : World ι State Place) : Prop where
  fits : Fits w.shared
  room : ∀ q, (w.loc q).Scanning → w.shared.fp.s_ninode < NICINOD

variable [DecidableEq ι]

theorem inv_of_run (run : (inodes ι).Run Mounted May w) : Inv w := by
  refine run.invariant Inv (fun s mounted => ?_) fun w p e s l inv may moved => ?_
  · have fits : Fits s := ⟨mounted.ninode, by simp [mounted.stores]⟩
    exact ⟨fits, fun q => False.elim⟩
  · obtain ⟨fits, change⟩ := inv.fits.next (inv.room p) moved
    refine ⟨fits, fun q scanning => ?_⟩
    rcases change with room | ⟨out, change⟩
    · exact room
    · have other : q ≠ p := fun same => out (by simpa [same] using scanning)
      simp only [update_of_ne other] at scanning
      have room := inv.room q scanning
      rcases change with fewer | ⟨ino, rfl, rfl⟩
      · exact Nat.lt_of_le_of_lt fewer room
      · exact ifree_room room (fun unlocked last => may unlocked last q scanning) ino

/-- The cache of free inodes does not overflow in a run in which no `ifree` puts the last number
into it while a process searches. -/
theorem fits_of_run (run : (inodes ι).Run Mounted May w) : Fits w.shared :=
  (inv_of_run run).fits

/-- A device with the numbers of two inodes in its superblock. -/
def twoLeft : State where
  fp := {
    s_isize := 29
    s_fsize := 1000
    s_nfree := 0
    s_free := fun _ => 0
    s_ninode := 2
    s_inode := fun n => n + 3
    s_flock := 0
    s_ilock := 0
    s_fmod := 0
    s_ronly := 0 }
  stores := []

theorem mounted_twoLeft : Mounted twoLeft where
  ninode := Nat.le_of_ble_eq_true rfl
  unlocked := rfl
  stores := rfl

/-- One process takes both numbers and then finds three more in the first block of inodes, while
another one gives a number back in vain. -/
theorem fits_of_run_twoLeft : ∃ w, (inodes Bool).Run Mounted May w ∧ w.loc true = .bread 3 5 ∧
    w.shared.fp.s_ninode = 3 ∧ w.shared.stores = [2, 1, 0] ∧ Fits w.shared := by
  have start : (inodes Bool).Run Mounted May _ := .start mounted_twoLeft
  have first := (start.next (p := true) (e := Event.ialloc) trivial rfl).next (p := true)
    (e := Event.igot (some 0)) trivial rfl
  have second := (first.next (p := true) (e := Event.ialloc) trivial rfl).next (p := true)
    (e := Event.igot (some 0)) trivial rfl
  have searches := second.next (p := true) (e := Event.ialloc) trivial rfl
  have ignored := searches.next (p := false) (e := Event.ifree 4)
    (fun unlocked => absurd unlocked (by decide)) rfl
  have run := ignored.next (p := true)
    (e := Event.buffer (some ⟨fun i => if i = 0 then 1 else 0, fun _ => false⟩)) trivial rfl
  exact ⟨_, run, rfl, rfl, rfl, fits_of_run run⟩

/-! ## The search that is left over -/

theorem take_stores (s : State) (n : ℕ) : (s.take n).1.stores = s.stores := by
  induction n with
  | zero => rfl
  | succ n ih =>
      rw [State.take]
      split_ifs
      · exact ih
      · rfl

theorem loop_stores (s : State) : s.loop.1.stores = s.stores := by
  have taken := take_stores s s.fp.s_ninode
  rw [State.loop]
  match found : s.take s.fp.s_ninode with
  | (s', some ino) =>
      rw [found] at taken
      exact taken
  | (s', none) =>
      rw [found] at taken
      dsimp only
      split_ifs <;> exact taken

theorem scanned_stores (s : State) : s.scanned.1.stores = s.stores := by
  rw [State.scanned]
  split_ifs
  · exact loop_stores s.unlock
  · rfl

/-- The search stores the first inode it finds, with nothing in the way of a cache that is full. -/
theorem full_scanBlock (ino : Ino) (full : NICINOD ≤ s.fp.s_ninode)
    (unused : ∃ k < rest, b.di_mode (i + k) = 0) (alone : ∀ ino, b.incore ino = false) :
    (State.scanBlock b rest i ino s).1.stores = s.fp.s_ninode :: s.stores ∧
      NICINOD ≤ (State.scanBlock b rest i ino s).1.fp.s_ninode := by
  induction rest generalizing i ino with
  | zero => obtain ⟨k, none, -⟩ := unused; exact absurd none (Nat.not_lt_zero k)
  | succ rest ih =>
      have stored : NICINOD ≤ (s.store ino).fp.s_ninode := Nat.le_succ_of_le full
      rw [State.scanBlock, if_pos stored]
      split_ifs with used
      · obtain ⟨k, less, free⟩ := unused
        apply ih
        cases k with
        | zero => simp [alone, show b.di_mode i = 0 from free] at used
        | succ k => exact ⟨k, Nat.lt_of_succ_lt_succ less, by rwa [Nat.add_right_comm]⟩
      · exact ⟨rfl, stored⟩

/-- The condition on `ifree` is needed: a search that goes on with a full cache stores past its
end as soon as it comes to a block with an unused inode. -/
theorem full_search (full : s.fp.s_ninode = NICINOD) (unused : ∃ k < INOPB, b.di_mode k = 0)
    (alone : ∀ ino, b.incore ino = false) :
    (s.search adr ino (some b)).1.stores = NICINOD :: s.stores := by
  obtain ⟨stores, past⟩ := full_scanBlock ino (i := 0) (Nat.le_of_eq full.symm)
    (by simpa using unused) alone
  rw [State.search]
  dsimp only
  rw [if_pos past, scanned_stores, stores, full]

/-- Two processes search, after an `iget` that has found an inode in use. The second one fills the
cache, clears the lock and takes a number; `ifree` puts another in its place, and the first one
goes on with its search. -/
def leftOver : List (Fin 3 × Event) :=
  let used : Block := ⟨fun _ => IFREG, fun _ => false⟩
  let unused : Block := ⟨fun _ => 0, fun _ => false⟩
  [(0, .ialloc), (1, .ialloc), (0, .igot (some IFREG)), (0, .released), (1, .igot (some IFREG)),
    (1, .released), (1, .buffer (some used)), (0, .buffer (some used))] ++
    List.replicate 25 (1, .buffer (some unused)) ++
    [(2, .ifree 105), (0, .buffer (some unused))]

theorem remaining_search_overflows :
    ¬∀ w, (inodes (Fin 3)).Reachable Mounted w → Fits w.shared := by
  intro fits
  have overrun : ((inodes (Fin 3)).exec ⟨twoLeft, fun _ => .idle⟩ leftOver).map
      (fun w => w.shared.stores.head?) = some (some NICINOD) := by
    decide +kernel
  obtain ⟨w, moved, last⟩ := Option.map_eq_some_iff.mp overrun
  have reached := System.reachable_of_exec leftOver mounted_twoLeft moved
  exact Nat.lt_irrefl _ ((fits w reached).stores _ (List.mem_of_mem_head? last))

end Ialloc

end UnixV7
