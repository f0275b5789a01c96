import Mathlib.Data.Finset.Card
import Mathlib.Data.Int.Notation
import Mathlib.Logic.Relation
import Mathlib.Order.Interval.Finset.Nat
import UnixV7.Library.Bitmap

/-!
# Incremental dumps

The passes of `dump.c` over the inodes: `mark`, `add` until nothing is added, and `dump` over the
directories and then over the other inodes. The file system does not change.
-/

namespace UnixV7.Dump

open UnixV7.Bitmap

/-- The rounds are spent. -/
inductive Fault
  | running

def MLEN : ℕ := 16

abbrev Map := Bitmap.Map MLEN

def BIS (i : ℕ) (map : Map) : Map := set map (i - 1)

def BIC (i : ℕ) (map : Map) : Map := clear map (i - 1)

def BIT (i : ℕ) (map : Map) : Bool := test map (i - 1)

/-! ## The file system -/

def IFMT : BitVec 16 := 0xf000

def IFDIR : BitVec 16 := 0x4000

/-- An entry of a directory. -/
structure Direct where
  ino : ℕ
  name : ℕ → UInt8

/-- An inode, with its block addresses as numbers. -/
structure Dinode where
  mode : BitVec 16
  mtime : ℤ
  ctime : ℤ
  addr : ℕ → ℕ

/-- The disk: its inodes, and its blocks as addresses and as entries. The numbers of the inodes have
16 bits. -/
structure Disk where
  isize : ℕ
  inode : ℕ → Dinode
  idblk : ℕ → List ℕ
  dblk : ℕ → List Direct
  boot : 2 ≤ isize
  numbers : (isize - 2) * 4 < 2 ^ 16

/-- The number of the last inode, as `ino_t`. -/
def mino (disk : Disk) : ℕ := (disk.isize - 2) * 4 % 2 ^ 16

/-- The blocks below an indirect one. -/
def indir (disk : Disk) : ℕ → ℕ → List ℕ
  | 0, d => (disk.idblk d).filter (· ≠ 0)
  | n + 1, d => ((disk.idblk d).filter (· ≠ 0)).flatMap (indir disk n)

/-- The blocks of a file, in the order in which they are visited. -/
def icat (disk : Disk) (ip : Dinode) : List ℕ :=
  (List.range 13).flatMap fun i =>
    if ip.addr i ≠ 0 then
      if i < 10 then [ip.addr i] else indir disk (i - 10) (ip.addr i)
    else []

/-! ## The passes -/

/-- The maps, the count of the directories added, and the inodes on the tape. -/
structure State where
  clrmap : Map
  dirmap : Map
  nodmap : Map
  nadded : ℕ
  tape : List ℕ

/-- What is counted in a directory. -/
structure Count where
  nsubdir : ℕ
  dadded : ℕ

/-- The names that are passed over. -/
def dots (cp : ℕ → UInt8) : Bool :=
  cp 0 == '.'.toUInt8 && (cp 1 == 0 || cp 1 == '.'.toUInt8 && cp 2 == 0)

/-- The loop of `dsrch` over the entries of a block. -/
def entries (nodmap dirmap : Map) : List Direct → Count → Count
  | [], count => count
  | entry :: rest, count =>
      if entry.ino = 0 then entries nodmap dirmap rest count
      else if dots entry.name then entries nodmap dirmap rest count
      else if BIT entry.ino nodmap then { count with dadded := count.dadded + 1 }
      else if BIT entry.ino dirmap then
        entries nodmap dirmap rest { count with nsubdir := count.nsubdir + 1 }
      else entries nodmap dirmap rest count

def dsrch (disk : Disk) (s : State) (count : Count) (d : ℕ) : Count :=
  if count.dadded ≠ 0 then count else entries s.nodmap s.dirmap (disk.dblk d) count

def mark (disk : Disk) (ddate : ℤ) (ino : ℕ) (s : State) : State :=
  let f := (disk.inode ino).mode &&& IFMT
  if f = 0 then s
  else
    let s := { s with clrmap := BIS ino s.clrmap }
    let s := if f = IFDIR then { s with dirmap := BIS ino s.dirmap } else s
    if (disk.inode ino).mtime ≥ ddate ∨ (disk.inode ino).ctime ≥ ddate then
      { s with nodmap := BIS ino s.nodmap }
    else s

def add (disk : Disk) (ino : ℕ) (s : State) : State :=
  if BIT ino s.nodmap then s
  else
    let count := (icat disk (disk.inode ino)).foldl (dsrch disk s) ⟨0, 0⟩
    let s :=
      if count.dadded ≠ 0 then { s with nodmap := BIS ino s.nodmap, nadded := s.nadded + 1 } else s
    if count.nsubdir = 0 then
      if ¬ BIT ino s.nodmap then { s with dirmap := BIC ino s.dirmap } else s
    else s

/-- What is written of an inode is its number. -/
def dump (ino : ℕ) (s : State) : State :=
  { s with nodmap := BIC ino s.nodmap, tape := s.tape ++ [ino] }

/-- The loop of `pass` with `left` inodes to come. The bits are those of a word of the map when its
first inode is reached. -/
def visits (fn : ℕ → State → State) (map : Option (State → Map)) :
    ℕ → ℕ → BitVec 32 → State → State
  | 0, _, _, s => s
  | left + 1, ino, bits, s =>
      let bits :=
        if ino % MLEN = 0 then
          match map with
          | none => BitVec.allOnes 32
          | some map => (map s (ino / MLEN)).signExtend 32
        else bits
      visits fn map left (ino + 1) (bits.sshiftRight 1)
        (if bits.getLsbD 0 then fn (ino + 1) s else s)

def pass (disk : Disk) (fn : ℕ → State → State) (map : Option (State → Map)) (s : State) : State :=
  visits fn map (mino disk) 0 0 s

/-- The maps after `mark`. -/
def marked (disk : Disk) (ddate : ℤ) : State :=
  pass disk (mark disk ddate) none ⟨fun _ => 0, fun _ => 0, fun _ => 0, 0, []⟩

/-- The loop of `main` with `add`; the fuel counts its rounds. -/
def rounds (disk : Disk) : ℕ → State → Except Fault State
  | 0, _ => .error .running
  | fuel + 1, s =>
      let s := pass disk (add disk) (some State.dirmap) { s with nadded := 0 }
      if s.nadded ≠ 0 then rounds disk fuel s else .ok s

/-- The passes that write. -/
def written (disk : Disk) (s : State) : State :=
  pass disk dump (some State.nodmap) (pass disk dump (some State.dirmap) s)

/-! ## What a pass visits -/

variable {disk : Disk} {ddate : ℤ} {s : State} {n k : ℕ}

theorem MLEN_pos : 0 < MLEN := by decide

theorem BIT_BIS (i k : ℕ) (map : Map) (first : 0 < i) (second : 0 < k) :
    BIT k (BIS i map) = (BIT k map || decide (k = i)) := by
  rw [BIT, BIS, test_set MLEN_pos, BIT]
  congr 1
  rw [decide_eq_decide]
  omega

theorem BIT_BIC (i k : ℕ) (map : Map) (first : 0 < i) (second : 0 < k) :
    BIT k (BIC i map) = (BIT k map && !decide (k = i)) := by
  rw [BIT, BIC, test_clear MLEN_pos, BIT]
  congr 2
  rw [decide_eq_decide]
  omega

/-- The next bits of a word. -/
theorem getLsbD_shift (bits : BitVec 32) {j : ℕ} (inside : j < 16) :
    (bits.sshiftRight 1).getLsbD j = bits.getLsbD (j + 1) := by
  have low : ¬ 32 ≤ j := by omega
  rw [BitVec.getLsbD_sshiftRight, decide_eq_false low, if_pos (by omega), Nat.add_comm 1 j]
  rfl

/-- Without a map every inode is visited. -/
theorem visits_none (fn : ℕ → State → State) (left ino : ℕ) (bits : BitVec 32) (s : State)
    (ones : ∀ j, ino % 16 + j < 16 → ino % 16 ≠ 0 → bits.getLsbD j = true) :
    visits fn none left ino bits s = sweep fn (fun _ _ => true) left (ino + 1) s := by
  induction left generalizing ino bits s with
  | zero => rfl
  | succ left ih =>
      have here : ∀ j, ino % 16 + j < 16 →
          (if ino % MLEN = 0 then BitVec.allOnes 32 else bits).getLsbD j = true := by
        intro j inside
        split
        next => rw [BitVec.getLsbD_allOnes, decide_eq_true (by omega)]
        next inner => exact ones j inside inner
      rw [visits, sweep_succ]
      rw [here 0 (Nat.mod_lt _ (by decide))]
      refine ih (ino + 1) _ _ fun j inside inner => ?_
      rw [getLsbD_shift _ (by omega)]
      exact here (j + 1) (by omega)

/-- The copy of a word has the bits of the inodes to come. -/
theorem visits_some {fn : ℕ → State → State} {map : State → Map}
    (keeps : ∀ n s k, 0 < n → n < k → BIT k (map (fn n s)) = BIT k (map s)) (left ino : ℕ)
    (bits : BitVec 32) (s : State) (copy : ∀ j, ino % 16 + j < 16 → ino % 16 ≠ 0 →
      bits.getLsbD j = BIT (ino + j + 1) (map s)) :
    visits fn (some map) left ino bits s =
      sweep fn (fun n s => BIT n (map s)) left (ino + 1) s := by
  induction left generalizing ino bits s with
  | zero => rfl
  | succ left ih =>
      have here : ∀ j, ino % 16 + j < 16 →
          (if ino % MLEN = 0 then (map s (ino / MLEN)).signExtend 32 else bits).getLsbD j =
            BIT (ino + j + 1) (map s) := by
        intro j inside
        split
        next first =>
          have word : (ino + j + 1 - 1) / MLEN = ino / MLEN := by
            unfold MLEN at first ⊢
            omega
          have place : (ino + j + 1 - 1) % MLEN = j := by
            unfold MLEN at first ⊢
            omega
          rw [BIT, test_eq MLEN_pos, word, place, BitVec.getLsbD_signExtend, if_pos (by
            unfold MLEN
            omega), decide_eq_true (by omega), Bool.true_and]
        next inner => exact copy j inside inner
      rw [visits, sweep_succ]
      rw [here 0 (Nat.mod_lt _ (by decide)), Nat.add_zero]
      refine ih (ino + 1) _ _ fun j inside inner => ?_
      rw [getLsbD_shift _ (by omega), here (j + 1) (by omega)]
      have next : ino + (j + 1) + 1 = ino + 1 + j + 1 := by omega
      rw [next]
      split
      next => exact (keeps (ino + 1) s _ (Nat.succ_pos _) (by omega)).symm
      next => rfl

/-- A pass visits the inodes whose bits are set when their turn comes. -/
theorem pass_some (disk : Disk) {fn : ℕ → State → State} {map : State → Map}
    (keeps : ∀ n s k, 0 < n → n < k → BIT k (map (fn n s)) = BIT k (map s)) (s : State) :
    pass disk fn (some map) s = sweep fn (fun n s => BIT n (map s)) (mino disk) 1 s :=
  visits_some keeps (mino disk) 0 0 s fun _ _ inner => absurd rfl inner

theorem pass_none (disk : Disk) (fn : ℕ → State → State) (s : State) :
    pass disk fn none s = sweep fn (fun _ _ => true) (mino disk) 1 s :=
  visits_none fn (mino disk) 0 0 s fun _ _ inner => absurd rfl inner

/-! ## Directories -/

/-- The entries name the inode `x`. -/
def Names (es : List Direct) (x : ℕ) : Prop :=
  ∃ e ∈ es, e.ino = x ∧ x ≠ 0 ∧ dots e.name = false

/-- The inode `n` has an entry for `x`. -/
def Entry (disk : Disk) (n x : ℕ) : Prop :=
  ∃ d ∈ icat disk (disk.inode n), Names (disk.dblk d) x

theorem Names.nil {x : ℕ} : ¬ Names [] x := by
  rintro ⟨e, mem, -⟩
  exact List.not_mem_nil mem

theorem names_cons (e : Direct) (es : List Direct) (x : ℕ) :
    Names (e :: es) x ↔ (e.ino = x ∧ x ≠ 0 ∧ dots e.name = false) ∨ Names es x := by
  simp [Names]

/-- What is found: an inode of `nodmap`, or, unless there is one, inodes of `dirmap`. -/
structure Found (nodmap dirmap : Map) (named : ℕ → Prop) (before after : Count) : Prop where
  dadded : after.dadded ≠ 0 ↔ ∃ x, named x ∧ BIT x nodmap
  nsubdir : after.dadded = 0 →
    (after.nsubdir = 0 ↔ before.nsubdir = 0 ∧ ∀ x, named x → ¬ BIT x dirmap)

theorem Found.congr {nodmap dirmap : Map} {named named' : ℕ → Prop} {before after : Count}
    (found : Found nodmap dirmap named before after) (same : ∀ x, named' x ↔ named x) :
    Found nodmap dirmap named' before after := by
  have funs : named' = named := funext fun x => propext (same x)
  rwa [funs]

theorem entries_found (nodmap dirmap : Map) (es : List Direct) {count : Count}
    (none : count.dadded = 0) :
    Found nodmap dirmap (Names es) count (entries nodmap dirmap es count) := by
  induction es generalizing count with
  | nil =>
      refine ⟨iff_of_false (fun some => some none) ?_, fun _ => ?_⟩
      · exact fun ⟨x, named, _⟩ => Names.nil named
      · exact (and_iff_left fun x named => absurd named Names.nil).symm
  | cons e es ih =>
      rw [entries]
      split
      next zero =>
        refine (ih none).congr fun x => ?_
        rw [names_cons]
        exact or_iff_right fun both => both.2.1 (both.1 ▸ zero)
      next some =>
        split
        next dot =>
          refine (ih none).congr fun x => ?_
          rw [names_cons]
          exact or_iff_right fun both => Bool.false_ne_true (both.2.2.symm.trans dot)
        next other =>
          have named : Names (e :: es) e.ino :=
            (names_cons e es _).mpr (.inl ⟨rfl, some, Bool.not_eq_true _ ▸ other⟩)
          split
          next bit =>
            exact ⟨iff_of_true (Nat.succ_ne_zero _) ⟨e.ino, named, bit⟩,
              fun zero => absurd zero (Nat.succ_ne_zero _)⟩
          next clear =>
            have here : ∀ x, Names (e :: es) x ∧ BIT x nodmap ↔ Names es x ∧ BIT x nodmap := by
              intro x
              rw [names_cons]
              refine and_congr_left fun bit => or_iff_right fun both => clear ?_
              rwa [both.1]
            split
            next dir =>
              have found : Found nodmap dirmap (Names es)
                  { count with nsubdir := count.nsubdir + 1 } _ := ih none
              refine ⟨found.dadded.trans (exists_congr fun x => (here x).symm), fun zero => ?_⟩
              rw [found.nsubdir zero]
              exact iff_of_false (fun both => Nat.succ_ne_zero _ both.1)
                (fun both => both.2 e.ino named dir)
            next file =>
              have found := ih none
              refine ⟨found.dadded.trans (exists_congr fun x => (here x).symm), fun zero => ?_⟩
              rw [found.nsubdir zero]
              refine and_congr_right fun _ => forall_congr' fun x => ?_
              rw [names_cons]
              constructor
              · rintro others (⟨rfl, -⟩ | named)
                · exact file
                · exact others named
              · exact fun all named => all (.inr named)

theorem dsrch_found (disk : Disk) (s : State) (ds : List ℕ) {count : Count}
    (none : count.dadded = 0) :
    Found s.nodmap s.dirmap (fun x => ∃ d ∈ ds, Names (disk.dblk d) x) count
      (ds.foldl (dsrch disk s) count) := by
  have stays : ∀ (ds : List ℕ) (count : Count), count.dadded ≠ 0 →
      ds.foldl (dsrch disk s) count = count := by
    intro ds count some
    induction ds with
    | nil => rfl
    | cons d ds ih => rw [List.foldl_cons, dsrch, if_pos some, ih]
  induction ds generalizing count with
  | nil =>
      refine ⟨iff_of_false (fun some => some none) ?_, fun _ => ?_⟩
      · rintro ⟨x, ⟨d, mem, -⟩, -⟩
        exact List.not_mem_nil mem
      · refine (and_iff_left fun x named => ?_).symm
        obtain ⟨d, mem, -⟩ := named
        exact absurd mem List.not_mem_nil
  | cons d ds ih =>
      have first := entries_found s.nodmap s.dirmap (disk.dblk d) none
      rw [List.foldl_cons, dsrch, if_neg (not_not.mpr none)]
      obtain found | more := em ((entries s.nodmap s.dirmap (disk.dblk d) count).dadded ≠ 0)
      · rw [stays ds _ found]
        obtain ⟨x, named, bit⟩ := first.dadded.mp found
        exact ⟨iff_of_true found ⟨x, ⟨d, List.mem_cons_self, named⟩, bit⟩,
          fun zero => absurd zero found⟩
      · have zero := not_not.mp more
        have later := ih zero
        have clear : ∀ x, Names (disk.dblk d) x → ¬ BIT x s.nodmap := fun x named bit =>
          more (first.dadded.mpr ⟨x, named, bit⟩)
        refine ⟨later.dadded.trans (exists_congr fun x => and_congr_left fun bit => ?_),
          fun none => ?_⟩
        · rw [List.exists_mem_cons_iff]
          exact (or_iff_right fun named => clear x named bit).symm
        · rw [later.nsubdir none, first.nsubdir zero, and_assoc]
          refine and_congr_right fun _ => ?_
          simp only [List.exists_mem_cons_iff]
          constructor
          · rintro ⟨here, behind⟩ x (named | named)
            · exact here x named
            · exact behind x named
          · exact fun all => ⟨fun x named => all x (.inl named), fun x named => all x (.inr named)⟩

/-- What `add` does with an inode: nothing, or it is added, or it is left out. -/
theorem add_cases (disk : Disk) (s : State) (positive : 0 < n) :
    (BIT n s.nodmap ∧ add disk n s = s) ∨
    (¬ BIT n s.nodmap ∧ (∃ x, Entry disk n x ∧ BIT x s.nodmap) ∧
      add disk n s = { s with nodmap := BIS n s.nodmap, nadded := s.nadded + 1 }) ∨
    (¬ BIT n s.nodmap ∧ (∀ x, Entry disk n x → ¬ BIT x s.nodmap) ∧
      ((∀ x, Entry disk n x → ¬ BIT x s.dirmap) ∧
        add disk n s = { s with dirmap := BIC n s.dirmap } ∨ add disk n s = s)) := by
  obtain here | clear := em (BIT n s.nodmap)
  · exact .inl ⟨here, if_pos here⟩
  · have found : Found s.nodmap s.dirmap (Entry disk n) ⟨0, 0⟩
        ((icat disk (disk.inode n)).foldl (dsrch disk s) ⟨0, 0⟩) := dsrch_found disk s _ rfl
    right
    rw [add, if_neg clear]
    dsimp only
    generalize (icat disk (disk.inode n)).foldl (dsrch disk s) ⟨0, 0⟩ = count at found
    obtain none | some := eq_or_ne count.dadded 0
    · have never : ∀ x, Entry disk n x → ¬ BIT x s.nodmap := fun x named bit =>
        found.dadded.mpr ⟨x, named, bit⟩ none
      right
      refine ⟨clear, never, ?_⟩
      rw [if_neg (not_not.mpr none), if_pos clear]
      split
      next zero => exact .inl ⟨((found.nsubdir none).mp zero).2, rfl⟩
      next => exact .inr rfl
    · left
      refine ⟨clear, found.dadded.mp some, ?_⟩
      have bit : BIT n (BIS n s.nodmap) := by
        rw [BIT_BIS n n _ positive positive, decide_eq_true rfl, Bool.or_true]
      rw [if_pos some]
      dsimp only
      rw [if_neg (not_not.mpr bit), ite_self]

/-! ## The inodes that are to be dumped -/

def Allocated (disk : Disk) (n : ℕ) : Prop :=
  0 < n ∧ n ≤ mino disk ∧ (disk.inode n).mode &&& IFMT ≠ 0

def IsDir (disk : Disk) (n : ℕ) : Prop :=
  0 < n ∧ n ≤ mino disk ∧ (disk.inode n).mode &&& IFMT = IFDIR

/-- Changed since the date. -/
def Changed (disk : Disk) (ddate : ℤ) (n : ℕ) : Prop :=
  Allocated disk n ∧ ((disk.inode n).mtime ≥ ddate ∨ (disk.inode n).ctime ≥ ddate)

/-- What holds of the maps from `mark` on. A directory that was left out has no entry that could
still be added. -/
structure Inv (disk : Disk) (ddate : ℤ) (s : State) : Prop where
  changed : ∀ n, Changed disk ddate n → BIT n s.nodmap
  nodes : ∀ n, 0 < n → BIT n s.nodmap → Allocated disk n
  dirs : ∀ n, 0 < n → BIT n s.dirmap → IsDir disk n
  kept : ∀ n, IsDir disk n → BIT n s.nodmap → BIT n s.dirmap
  left : ∀ n, IsDir disk n → ¬ BIT n s.dirmap → ∀ x, Entry disk n x →
    ¬ BIT x s.nodmap ∧ ¬ BIT x s.dirmap
  blank : s.tape = []

theorem IsDir.allocated (dir : IsDir disk n) : Allocated disk n := by
  obtain ⟨low, high, mode⟩ := dir
  refine ⟨low, high, ?_⟩
  rw [mode]
  decide

/-- What `mark` leaves after the inodes before `k`. -/
structure Seen (disk : Disk) (ddate : ℤ) (k : ℕ) (s : State) : Prop where
  blank : s.tape = []
  nodes : ∀ n, 0 < n → (BIT n s.nodmap ↔ n < k ∧ Changed disk ddate n)
  dirs : ∀ n, 0 < n → (BIT n s.dirmap ↔ n < k ∧ IsDir disk n)

theorem mark_nodmap (disk : Disk) (ddate : ℤ) (s : State) (positive : 0 < k)
    (last : k ≤ mino disk) (first : 0 < n) :
    BIT n (mark disk ddate k s).nodmap ↔ BIT n s.nodmap ∨ n = k ∧ Changed disk ddate k := by
  rw [mark]
  dsimp only
  split
  next free =>
    exact (or_iff_left fun both => both.2.1.2.2 free).symm
  next used =>
    have allocated : Allocated disk k := ⟨positive, last, used⟩
    split
    next late =>
      have changed : Changed disk ddate k := ⟨allocated, late⟩
      have same : (if (disk.inode k).mode &&& IFMT = IFDIR then
          { s with clrmap := BIS k s.clrmap, dirmap := BIS k s.dirmap }
        else { s with clrmap := BIS k s.clrmap }).nodmap = s.nodmap := by
        split <;> rfl
      dsimp only
      rw [same, BIT_BIS k n _ positive first, Bool.or_eq_true, decide_eq_true_eq,
        and_iff_left changed]
    next early =>
      rw [or_iff_left fun both => early both.2.2]
      split <;> exact Iff.rfl

theorem mark_dirmap (disk : Disk) (ddate : ℤ) (s : State) (positive : 0 < k)
    (last : k ≤ mino disk) (first : 0 < n) :
    BIT n (mark disk ddate k s).dirmap ↔ BIT n s.dirmap ∨ n = k ∧ IsDir disk k := by
  have same : ∀ t : State, (if (disk.inode k).mtime ≥ ddate ∨ (disk.inode k).ctime ≥ ddate then
      { t with nodmap := BIS k t.nodmap } else t).dirmap = t.dirmap := by
    intro t
    split <;> rfl
  rw [mark]
  dsimp only
  split
  next free => exact (or_iff_left fun both => both.2.allocated.2.2 free).symm
  next used =>
    rw [same]
    split
    next mode =>
      have dir : IsDir disk k := ⟨positive, last, mode⟩
      dsimp only
      rw [BIT_BIS k n _ positive first, Bool.or_eq_true, decide_eq_true_eq, and_iff_left dir]
    next mode => exact (or_iff_left fun both => mode both.2.2.2).symm

theorem Seen.mark (seen : Seen disk ddate k s) (positive : 0 < k) (last : k ≤ mino disk) :
    Seen disk ddate (k + 1) (mark disk ddate k s) := by
  refine ⟨?_, fun n first => ?_, fun n first => ?_⟩
  · rw [← seen.blank, Dump.mark]
    dsimp only
    split_ifs <;> rfl
  · rw [mark_nodmap disk ddate s positive last first, seen.nodes n first, Nat.lt_succ_iff_lt_or_eq,
      or_and_right]
    refine or_congr_right (and_congr_right fun same => ?_)
    rw [same]
  · rw [mark_dirmap disk ddate s positive last first, seen.dirs n first, Nat.lt_succ_iff_lt_or_eq,
      or_and_right]
    refine or_congr_right (and_congr_right fun same => ?_)
    rw [same]

theorem BIT_zero (k : ℕ) : ¬ BIT k (fun _ => 0) := by
  rw [BIT, test_eq MLEN_pos]
  exact ne_true_of_eq_false BitVec.getLsbD_zero

theorem marked_seen (disk : Disk) (ddate : ℤ) :
    Seen disk ddate (mino disk + 1) (marked disk ddate) := by
  have start : Seen disk ddate 1 ⟨fun _ => 0, fun _ => 0, fun _ => 0, 0, []⟩ := by
    refine ⟨rfl, fun n first => ?_, fun n first => ?_⟩
    · exact iff_of_false (BIT_zero n) fun both => by omega
    · exact iff_of_false (BIT_zero n) fun both => by omega
  rw [marked, pass_none, Nat.add_comm]
  refine sweep_run (fun k s low high seen => ?_) start
  rw [if_pos rfl]
  exact seen.mark low (by omega)

theorem marked_inv (disk : Disk) (ddate : ℤ) : Inv disk ddate (marked disk ddate) := by
  have seen := marked_seen disk ddate
  have dirs : ∀ n, IsDir disk n → BIT n (marked disk ddate).dirmap := fun n dir =>
    (seen.dirs n dir.1).mpr ⟨Nat.lt_succ_of_le dir.2.1, dir⟩
  refine ⟨fun n changed => ?_, fun n first bit => ?_, fun n first bit => ?_,
    fun n dir _ => dirs n dir, fun n dir clear => absurd (dirs n dir) clear, seen.blank⟩
  · exact (seen.nodes n changed.1.1).mpr ⟨Nat.lt_succ_of_le changed.1.2.1, changed⟩
  · exact ((seen.nodes n first).mp bit).2.1
  · exact ((seen.dirs n first).mp bit).2

/-! ## Rounds -/

theorem Entry.pos {x : ℕ} (entry : Entry disk n x) : 0 < x := by
  obtain ⟨-, -, -, -, -, some, -⟩ := entry
  exact Nat.pos_of_ne_zero some

theorem bit_BIS (map : Map) (first : 0 < n) (second : 0 < k) :
    BIT k (BIS n map) ↔ BIT k map ∨ k = n := by
  rw [BIT_BIS n k map first second, Bool.or_eq_true, decide_eq_true_eq]

theorem bit_BIC (map : Map) (first : 0 < n) (second : 0 < k) :
    BIT k (BIC n map) ↔ BIT k map ∧ k ≠ n := by
  rw [BIT_BIC n k map first second, Bool.and_eq_true, Bool.not_eq_true', decide_eq_false_iff_not]

/-- A directory of `dirmap` has its turn. -/
theorem Inv.add (inv : Inv disk ddate s) (positive : 0 < n) (visited : BIT n s.dirmap) :
    Inv disk ddate (add disk n s) := by
  obtain ⟨-, same⟩ | ⟨-, -, added⟩ | ⟨clear, never, ⟨none, dropped⟩ | same⟩ :=
    add_cases disk s positive
  · rwa [same]
  · rw [added]
    refine ⟨fun m changed => ?_, fun m first bit => ?_, inv.dirs, fun m dir bit => ?_,
      fun m dir clear x entry => ?_, inv.blank⟩
    · exact (bit_BIS _ positive changed.1.1).mpr (.inl (inv.changed m changed))
    · obtain old | rfl := (bit_BIS _ positive first).mp bit
      · exact inv.nodes m first old
      · exact (inv.dirs m positive visited).allocated
    · obtain old | rfl := (bit_BIS _ positive dir.1).mp bit
      · exact inv.kept m dir old
      · exact visited
    · obtain ⟨file, gone⟩ := inv.left m dir clear x entry
      refine ⟨fun bit => ?_, gone⟩
      obtain old | rfl := (bit_BIS _ positive entry.pos).mp bit
      · exact file old
      · exact gone visited
  · rw [dropped]
    refine ⟨inv.changed, inv.nodes, fun m first bit => ?_, fun m dir bit => ?_,
      fun m dir gone x entry => ?_, inv.blank⟩
    · exact inv.dirs m first ((bit_BIC _ positive first).mp bit).1
    · refine (bit_BIC _ positive dir.1).mpr ⟨inv.kept m dir bit, ?_⟩
      rintro rfl
      exact clear bit
    · have less : BIT x (BIC n s.dirmap) → BIT x s.dirmap := fun bit =>
        ((bit_BIC _ positive entry.pos).mp bit).1
      obtain rfl | other := eq_or_ne m n
      · exact ⟨never x entry, fun bit => none x entry (less bit)⟩
      · have gone : ¬ BIT m s.dirmap := fun bit =>
          gone ((bit_BIC _ positive dir.1).mpr ⟨bit, other⟩)
        obtain ⟨file, gone⟩ := inv.left m dir gone x entry
        exact ⟨file, fun bit => gone (less bit)⟩
  · rwa [same]

/-- An inode does not change the bits of the inodes behind it. -/
theorem add_keeps (disk : Disk) (n : ℕ) (s : State) (k : ℕ) (positive : 0 < n) (later : n < k) :
    BIT k (add disk n s).dirmap = BIT k s.dirmap := by
  obtain ⟨-, same⟩ | ⟨-, -, added⟩ | ⟨-, -, ⟨-, dropped⟩ | same⟩ := add_cases disk s positive
  · rw [same]
  · rw [added]
  · rw [dropped]
    dsimp only
    rw [BIT_BIC n k _ positive (by omega), decide_eq_false (by omega), Bool.not_false,
      Bool.and_true]
  · rw [same]

/-- One round. -/
def round (disk : Disk) (s : State) : State :=
  pass disk (add disk) (some State.dirmap) { s with nadded := 0 }

theorem round_eq (disk : Disk) (s : State) :
    round disk s =
      sweep (add disk) (fun n s => BIT n s.dirmap) (mino disk) 1 { s with nadded := 0 } :=
  pass_some disk (add_keeps disk) _

theorem Inv.round (inv : Inv disk ddate s) : Inv disk ddate (round disk s) := by
  rw [round_eq]
  have start : Inv disk ddate { s with nadded := 0 } :=
    ⟨inv.changed, inv.nodes, inv.dirs, inv.kept, inv.left, inv.blank⟩
  exact sweep_keeps (fun k s low _ visited inv => inv.add low visited) start

instance (disk : Disk) (n : ℕ) : Decidable (IsDir disk n) := inferInstanceAs (Decidable (_ ∧ _ ∧ _))

/-- The directories. -/
def dirs (disk : Disk) : Finset ℕ := (Finset.Icc 1 (mino disk)).filter fun n => IsDir disk n

/-- The directories that are not yet to be dumped. -/
def waiting (disk : Disk) (s : State) : Finset ℕ := (dirs disk).filter fun n => ¬ BIT n s.nodmap

theorem mem_dirs : n ∈ dirs disk ↔ IsDir disk n := by
  rw [dirs, Finset.mem_filter, Finset.mem_Icc]
  exact and_iff_right_of_imp fun dir => ⟨dir.1, dir.2.1⟩

theorem mem_waiting : n ∈ waiting disk s ↔ IsDir disk n ∧ ¬ BIT n s.nodmap := by
  rw [waiting, Finset.mem_filter, mem_dirs]

theorem waiting_le (disk : Disk) (s : State) : (waiting disk s).card ≤ (dirs disk).card :=
  Finset.card_le_card (Finset.filter_subset _ _)

/-- A directory that is added is waiting no more. -/
theorem waiting_add (inv : Inv disk ddate s) (positive : 0 < n) (visited : BIT n s.dirmap) :
    (add disk n s).nadded + (waiting disk (add disk n s)).card ≤
      s.nadded + (waiting disk s).card := by
  obtain ⟨-, same⟩ | ⟨clear, -, added⟩ | ⟨-, -, ⟨-, dropped⟩ | same⟩ := add_cases disk s positive
  · rw [same]
  · have less : waiting disk (add disk n s) ⊂ waiting disk s := by
      refine (Finset.ssubset_iff_of_subset fun m mem => ?_).mpr ⟨n, ?_, fun mem => ?_⟩
      · obtain ⟨dir, gone⟩ := mem_waiting.mp mem
        rw [added] at gone
        exact mem_waiting.mpr ⟨dir, fun bit => gone ((bit_BIS _ positive dir.1).mpr (.inl bit))⟩
      · exact mem_waiting.mpr ⟨inv.dirs n positive visited, clear⟩
      · have gone := (mem_waiting.mp mem).2
        rw [added] at gone
        exact gone ((bit_BIS _ positive positive).mpr (.inr rfl))
    have card := Finset.card_lt_card less
    have count : (add disk n s).nadded = s.nadded + 1 := by rw [added]
    omega
  · rw [dropped]
    exact Nat.le_refl _
  · rw [same]

/-- A directory of which an entry is to be dumped is to be dumped itself. -/
def Closed (disk : Disk) (s : State) : Prop :=
  ∀ n, IsDir disk n → ¬ BIT n s.nodmap → ∀ x, Entry disk n x → ¬ BIT x s.nodmap

/-- In a round in which nothing is added, the directories before `k` are found closed. -/
structure Round (disk : Disk) (ddate : ℤ) (start : State) (k : ℕ) (s : State) : Prop where
  inv : Inv disk ddate s
  count : s.nadded + (waiting disk s).card ≤ (waiting disk start).card
  closed : s.nadded = 0 → ∀ n, IsDir disk n → n < k → ¬ BIT n s.nodmap →
    ∀ x, Entry disk n x → ¬ BIT x s.nodmap

theorem Round.turn {start : State} (round : Round disk ddate start k s) (positive : 0 < k) :
    Round disk ddate start (k + 1) (if BIT k s.dirmap then add disk k s else s) := by
  split
  next visited =>
    refine ⟨round.inv.add positive visited,
      Nat.le_trans (waiting_add round.inv positive visited) round.count, ?_⟩
    intro none n dir before clear x entry
    obtain ⟨here, same⟩ | ⟨-, -, added⟩ | ⟨-, never, ⟨-, dropped⟩ | same⟩ :=
      add_cases disk s positive
    · rw [same] at none clear ⊢
      obtain less | rfl := Nat.lt_succ_iff_lt_or_eq.mp before
      · exact round.closed none n dir less clear x entry
      · exact absurd here clear
    · rw [added] at none
      exact absurd none (Nat.succ_ne_zero _)
    · rw [dropped] at none clear ⊢
      obtain less | rfl := Nat.lt_succ_iff_lt_or_eq.mp before
      · exact round.closed none n dir less clear x entry
      · exact never x entry
    · rw [same] at none clear ⊢
      obtain less | rfl := Nat.lt_succ_iff_lt_or_eq.mp before
      · exact round.closed none n dir less clear x entry
      · exact never x entry
  next gone =>
    refine ⟨round.inv, round.count, fun none n dir before clear x entry => ?_⟩
    obtain less | rfl := Nat.lt_succ_iff_lt_or_eq.mp before
    · exact round.closed none n dir less clear x entry
    · exact (round.inv.left n dir gone x entry).1

theorem round_spec (inv : Inv disk ddate s) :
    Round disk ddate s (mino disk + 1) (round disk s) := by
  have start : Round disk ddate s 1 { s with nadded := 0 } := by
    refine ⟨⟨inv.changed, inv.nodes, inv.dirs, inv.kept, inv.left, inv.blank⟩, ?_, ?_⟩
    · rw [Nat.zero_add]
      exact Nat.le_refl _
    · exact fun _ n dir less => absurd dir.1 (by omega)
  rw [round_eq, Nat.add_comm]
  exact sweep_run (fun k s low _ round => round.turn low) start

/-- The rounds end when there are more of them than directories to be added. -/
theorem rounds_spec {fuel : ℕ} (inv : Inv disk ddate s) (enough : (waiting disk s).card < fuel) :
    ∃ last, rounds disk fuel s = .ok last ∧ Inv disk ddate last ∧ Closed disk last := by
  induction fuel generalizing s with
  | zero => exact absurd enough (Nat.not_lt_zero _)
  | succ fuel ih =>
      have once := round_spec inv
      have count := once.count
      rw [rounds, ← round]
      split
      next some => exact ih once.inv (by omega)
      next none =>
        refine ⟨_, rfl, once.inv, fun n dir clear => ?_⟩
        exact once.closed (not_not.mp none) n dir (Nat.lt_succ_of_le dir.2.1) clear

/-! ## What is written -/

/-- What is written of a map, and left in `nodmap`, after the inodes before `k`. -/
structure Writing (map : State → Map) (start : State) (k : ℕ) (s : State) : Prop where
  later : ∀ n, k ≤ n → BIT n (map s) = BIT n (map start)
  tape : s.tape = start.tape ++ (List.range' 1 (k - 1)).filter fun n => BIT n (map start)
  nodes : ∀ n, 0 < n →
    (BIT n s.nodmap ↔ BIT n start.nodmap ∧ ¬ (n < k ∧ BIT n (map start)))

theorem Writing.turn {map : State → Map} {start : State}
    (keeps : ∀ n s k, 0 < n → n < k → BIT k (map (dump n s)) = BIT k (map s))
    (writing : Writing map start k s) (positive : 0 < k) :
    Writing map start (k + 1) (if BIT k (map s) then dump k s else s) := by
  have here := writing.later k (Nat.le_refl k)
  have range : List.range' 1 (k + 1 - 1) = List.range' 1 (k - 1) ++ [k] := by
    have last : k + 1 - 1 = k - 1 + 1 := by omega
    rw [last, List.range'_concat]
    congr 2
    omega
  split
  next bit =>
    rw [here] at bit
    refine ⟨fun n less => ?_, ?_, fun n first => ?_⟩
    · rw [keeps k s n positive less]
      exact writing.later n (Nat.le_of_succ_le less)
    · have last : [k].filter (fun n => BIT n (map start)) = [k] := by simp [bit]
      rw [dump, writing.tape, range, List.filter_append, last, List.append_assoc]
    · rw [dump]
      dsimp only
      rw [bit_BIC _ positive first, writing.nodes n first, Nat.lt_succ_iff_lt_or_eq]
      constructor
      · rintro ⟨⟨node, before⟩, other⟩
        refine ⟨node, fun both => ?_⟩
        exact before ⟨Or.resolve_right both.1 other, both.2⟩
      · rintro ⟨node, none⟩
        refine ⟨⟨node, fun both => none ⟨.inl both.1, both.2⟩⟩, ?_⟩
        rintro rfl
        exact none ⟨.inr rfl, bit⟩
  next clear =>
    rw [here] at clear
    refine ⟨fun n less => writing.later n (Nat.le_of_succ_le less), ?_, fun n first => ?_⟩
    · have last : [k].filter (fun n => BIT n (map start)) = [] := by simp [clear]
      rw [writing.tape, range, List.filter_append, last, List.append_nil]
    · rw [writing.nodes n first, Nat.lt_succ_iff_lt_or_eq]
      refine and_congr_right fun _ => not_congr (and_congr_left fun bit => ?_)
      refine (or_iff_left ?_).symm
      rintro rfl
      exact clear bit

/-- A pass that writes takes the inodes of a map out of `nodmap`. -/
theorem dump_pass (disk : Disk) {map : State → Map}
    (keeps : ∀ n s k, 0 < n → n < k → BIT k (map (dump n s)) = BIT k (map s)) (s : State) :
    Writing map s (mino disk + 1) (pass disk dump (some map) s) := by
  have start : Writing map s 1 s := by
    refine ⟨fun n _ => rfl, (List.append_nil _).symm, fun n first => ?_⟩
    exact (and_iff_left fun both => by omega).symm
  rw [pass_some disk keeps, Nat.add_comm]
  exact sweep_run (fun k t low _ writing => writing.turn keeps low) start

theorem dirmap_keeps (n : ℕ) (s : State) (k : ℕ) (_first : 0 < n) (_later : n < k) :
    BIT k (dump n s).dirmap = BIT k s.dirmap := rfl

theorem nodmap_keeps (n : ℕ) (s : State) (k : ℕ) (first : 0 < n) (later : n < k) :
    BIT k (dump n s).nodmap = BIT k s.nodmap := by
  rw [dump]
  dsimp only
  rw [BIT_BIC n k _ first (by omega), decide_eq_false (by omega), Bool.not_false, Bool.and_true]

/-- First the directories of `dirmap` are written and then what else is in `nodmap`. -/
theorem written_tape (disk : Disk) (s : State) :
    ∃ rest : ℕ → Bool, (∀ n, 0 < n → n ≤ mino disk →
        (rest n ↔ BIT n s.nodmap ∧ ¬ BIT n s.dirmap)) ∧
      (written disk s).tape = s.tape ++
        ((List.range' 1 (mino disk)).filter (fun n => BIT n s.dirmap) ++
          (List.range' 1 (mino disk)).filter rest) := by
  have first := dump_pass disk dirmap_keeps s
  have second := dump_pass disk nodmap_keeps (pass disk dump (some State.dirmap) s)
  refine ⟨fun n => BIT n (pass disk dump (some State.dirmap) s).nodmap, fun n low high => ?_, ?_⟩
  · rw [first.nodes n low]
    exact and_congr_right fun _ => not_congr (and_iff_right (Nat.lt_succ_of_le high))
  · rw [written, second.tape, first.tape, List.append_assoc]
    rfl

/-! ## The dump -/

/-- From `n` there is a path of directory entries to `x`. -/
def Reaches (disk : Disk) : ℕ → ℕ → Prop :=
  Relation.ReflTransGen fun n x => IsDir disk n ∧ Entry disk n x

/-- When `nadded` gets zero, in `bound` rounds at most, the inodes that changed and the directories
that lead to them are to be dumped, and then each is written once, directories first. -/
def Complete (disk : Disk) (ddate : ℤ) (bound : ℕ) : Prop :=
  ∃ s, rounds disk bound (marked disk ddate) = .ok s ∧
    (∀ n x, Reaches disk n x → Changed disk ddate x → BIT n s.nodmap) ∧
    (∀ n, IsDir disk n → BIT n s.nodmap → BIT n s.dirmap) ∧
    ∃ directories others, (written disk s).tape = directories ++ others ∧
      (∀ n ∈ directories, IsDir disk n) ∧ (∀ n ∈ others, ¬ IsDir disk n) ∧
      ∀ n, 0 < n → BIT n s.nodmap → (directories ++ others).count n = 1

theorem Closed.reaches {x : ℕ} (closed : Closed disk s) (inv : Inv disk ddate s)
    (path : Reaches disk n x) (changed : Changed disk ddate x) : BIT n s.nodmap := by
  induction path using Relation.ReflTransGen.head_induction_on with
  | refl => exact inv.changed x changed
  | head step _ ih =>
      by_contra clear
      exact closed _ step.1 clear _ step.2 ih

/-- A dump is complete, and takes one round more than there are directories, at most. -/
theorem dump_complete (disk : Disk) (ddate : ℤ) : Complete disk ddate ((dirs disk).card + 1) := by
  have start := marked_inv disk ddate
  have count := waiting_le disk (marked disk ddate)
  obtain ⟨s, ended, inv, closed⟩ := rounds_spec start (Nat.lt_succ_of_le count)
  obtain ⟨rest, others, tape⟩ := written_tape disk s
  rw [inv.blank, List.nil_append] at tape
  refine ⟨s, ended, fun n x path changed => closed.reaches inv path changed, inv.kept, _, _, tape,
    fun n mem => ?_, fun n mem dir => ?_, fun n first bit => ?_⟩
  · obtain ⟨range, bit⟩ := List.mem_filter.mp mem
    rw [List.mem_range'_1] at range
    exact inv.dirs n range.1 bit
  · obtain ⟨range, bit⟩ := List.mem_filter.mp mem
    obtain ⟨node, clear⟩ := (others n dir.1 dir.2.1).mp bit
    exact clear (inv.kept n dir node)
  · obtain ⟨-, high, -⟩ := inv.nodes n first bit
    have once : (List.range' 1 (mino disk)).count n = 1 := by
      refine List.count_eq_one_of_mem (List.nodup_range' 1) ?_
      rw [List.mem_range'_1]
      omega
    rw [List.count_append]
    obtain dir | file := em (BIT n s.dirmap)
    · have never : n ∉ (List.range' 1 (mino disk)).filter rest := fun mem =>
        ((others n first high).mp (List.mem_filter.mp mem).2).2 dir
      rw [List.count_filter (p := fun n => BIT n s.dirmap) dir, once,
        List.count_eq_zero_of_not_mem never]
    · have never : n ∉ (List.range' 1 (mino disk)).filter fun n => BIT n s.dirmap := fun mem =>
        file (List.mem_filter.mp mem).2
      have left : rest n := (others n first high).mpr ⟨bit, file⟩
      rw [List.count_filter left, once, List.count_eq_zero_of_not_mem never]

/-- A directory that did not change with a file that did. -/
def oneFile : Disk where
  isize := 3
  inode n :=
    if n = 2 then ⟨IFDIR, 0, 0, fun i => if i = 0 then 5 else 0⟩
    else if n = 3 then ⟨0x8000, 10, 10, fun _ => 0⟩
    else ⟨0, 0, 0, fun _ => 0⟩
  idblk _ := []
  dblk d := if d = 5 then [⟨3, fun i => if i = 0 then 'a'.toUInt8 else 0⟩] else []
  boot := by decide
  numbers := by decide

theorem two_rounds : ¬ ∀ disk ddate, Complete disk ddate (dirs disk).card := by
  intro complete
  obtain ⟨s, ended, -⟩ := complete oneFile 10
  have count : (dirs oneFile).card = 1 := by decide
  have added : (round oneFile (marked oneFile 10)).nadded ≠ 0 := by decide +kernel
  rw [count, rounds, ← round] at ended
  rw [if_pos added, rounds] at ended
  cases ended

end UnixV7.Dump
