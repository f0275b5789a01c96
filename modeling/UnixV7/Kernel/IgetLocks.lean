import UnixV7.Kernel.Iget

/-!
# What a process holds

The locks, the references and the buffers that a process has taken, and what each routine of the
table of inodes adds to them and takes from them, whatever the other processes do meanwhile as
long as they respect the locks.
-/

namespace UnixV7.Nami

open Function

/-- What a process holds: a locked inode, an inode it has added a reference to, and buffers; and
whether it knows the locked inode to be a directory, or not to be a text. -/
structure Hand where
  lock : Option InodeId
  ref : Option InodeId
  bufs : List (Dev × ℤ)
  dir : Bool
  bare : Bool

namespace Hand

/-- Only buffers are held. -/
def free (bufs : List (Dev × ℤ)) : Hand := ⟨none, none, bufs, false, false⟩

/-- An inode is held, locked and with a reference. -/
def holding (ip : InodeId) (bufs : List (Dev × ℤ)) : Hand :=
  ⟨some ip, some ip, bufs, false, false⟩

/-- How much of an item the process holds. -/
def charge (d : Hand) : Item → ℤ
  | .lock ip => if d.lock = some ip then 1 else 0
  | .count ip => if d.ref = some ip then 1 else 0
  | .buffer dev blkno => d.bufs.count (dev, blkno)

end Hand

/-- An inode that nothing refers to is not locked. -/
def Kernel.Idle (k : Kernel) : Prop := ∀ ip, (k.inode ip).i_count = 0 → (k.inode ip).locked = false

/-- No directory is a text. -/
def Kernel.Plain (k : Kernel) : Prop := ∀ ip, (k.inode ip).isDir → (k.inode ip).text = false

/-- The inode is the one that its name leads to, and nothing is mounted on it. -/
def Kernel.Home (k : Kernel) (ip : InodeId) : Prop :=
  k.lookup (k.inode ip).i_dev (k.inode ip).i_number = some ip ∧ (k.inode ip).mounted = false

/-- The others leave alone what the process holds: an inode it has locked stays locked and of its
type, its references are not dropped, and its buffers stay busy. They keep the table in order,
with the directories `homes` where they are. -/
structure Env.Polite (env : Env) (homes : List InodeId) : Prop where
  lock : ∀ n own k ip, 0 < own (.lock ip) → (k.inode ip).locked →
    ((env.others n own k).inode ip).locked ∧
      ((env.others n own k).inode ip).isDir = (k.inode ip).isDir ∧
      ((env.others n own k).inode ip).text = (k.inode ip).text
  count : ∀ n own k ip, own (.count ip) ≤ (k.inode ip).i_count →
    own (.count ip) ≤ ((env.others n own k).inode ip).i_count
  buffer : ∀ n own k dev blkno, 0 < own (.buffer dev blkno) → k.busy dev blkno →
    (env.others n own k).busy dev blkno
  idle : ∀ n own k, k.Idle → (env.others n own k).Idle
  plain : ∀ n own k, k.Plain → (env.others n own k).Plain
  home : ∀ n own k, ∀ ip ∈ homes, k.Home ip → (env.others n own k).Home ip ∧
    ((env.others n own k).inode ip).i_dev = (k.inode ip).i_dev ∧
    ((env.others n own k).inode ip).i_number = (k.inode ip).i_number

/-- Nobody else runs while the process waits. -/
def Env.Alone (env : Env) : Prop := ∀ n own k, env.others n own k = k

/-- The process holds `d`, and nothing else is changed by it. -/
structure Fine (env : Env) (before : Item → ℤ) (d : Hand) (s : Sys) : Prop where
  amounts : ∀ r, s.kernel.amount r = s.rest r + d.charge r
  locked : ∀ ip, d.lock = some ip → (s.kernel.inode ip).locked
  counted : ∀ ip, d.ref = some ip → 1 ≤ (s.kernel.inode ip).i_count
  busy : ∀ b ∈ d.bufs, s.kernel.busy b.1 b.2
  apart : d.bufs.Nodup
  dir : d.dir → ∀ ip, d.lock = some ip → (s.kernel.inode ip).isDir
  bare : d.bare → ∀ ip, d.lock = some ip → (s.kernel.inode ip).text = false
  idle : s.kernel.Idle
  plain : s.kernel.Plain
  alone : env.Alone → s.rest = before

/-- The process holds `d`, and `P` is true of its user structure and of what has happened. -/
def At (env : Env) (before : Item → ℤ) (d : Hand) (P : User → List Event → Prop) (s : Sys) :
    Prop :=
  Fine env before d s ∧ P s.u s.log

/-- What stays true when an error is set. -/
def Steady (P : User → List Event → Prop) : Prop :=
  ∀ u log e, P u log → P { u with u_error := some e } log

section Routines

variable {env : Env} {homes : List InodeId} {before : Item → ℤ} {d : Hand} {s : Sys}
  {P Q : User → List Event → Prop} {bufs : List (Dev × ℤ)} {ip dp : InodeId} {dev : Dev}
  {blkno : ℤ}

theorem Fine.own (fine : Fine env before d s) (r : Item) : s.own r = d.charge r := by
  have amount := fine.amounts r
  simp only [Sys.own]
  omega

/-- A wait changes nothing that the process holds. -/
theorem Fine.wait (polite : env.Polite homes) (fine : Fine env before d s) :
    Fine env before d (s.wait env) where
  amounts r := by
    have amount := fine.amounts r
    simp only [Sys.wait]
    omega
  locked ip held := by
    have mine : 0 < s.own (.lock ip) := by
      rw [fine.own]
      simp [Hand.charge, held]
    exact (polite.lock _ _ _ ip mine (fine.locked ip held)).1
  counted ip held := by
    have mine : s.own (.count ip) = 1 := by
      rw [fine.own]
      simp [Hand.charge, held]
    have few := polite.count s.waits s.own s.kernel ip (by have := fine.counted ip held; omega)
    simp only [Sys.wait]
    omega
  busy b held := by
    have mine : 0 < s.own (.buffer b.1 b.2) := by
      rw [fine.own]
      simpa [Hand.charge] using List.count_pos_iff.mpr held
    exact polite.buffer _ _ _ _ _ mine (fine.busy b held)
  apart := fine.apart
  dir known ip held := by
    have mine : 0 < s.own (.lock ip) := by
      rw [fine.own]
      simp [Hand.charge, held]
    have same := (polite.lock s.waits _ _ ip mine (fine.locked ip held)).2.1
    exact same.trans (fine.dir known ip held)
  bare known ip held := by
    have mine : 0 < s.own (.lock ip) := by
      rw [fine.own]
      simp [Hand.charge, held]
    have same := (polite.lock s.waits _ _ ip mine (fine.locked ip held)).2.2
    exact same.trans (fine.bare known ip held)
  idle := polite.idle _ _ _ fine.idle
  plain := polite.plain _ _ _ fine.plain
  alone nobody := by
    have same : env.others s.waits s.own s.kernel = s.kernel := nobody _ _ _
    funext r
    simp only [Sys.wait, same]
    rw [fine.alone nobody]
    omega

theorem sleep_spec (polite : env.Polite homes) :
    Triple (At env before d P) (sleep env) fun _ => At env before d P :=
  Triple.modify _ fun _ ⟨fine, holds⟩ => ⟨fine.wait polite, holds⟩

theorem setUser_spec (change : User → User) (holds : ∀ u log, P u log → Q (change u) log) :
    Triple (At env before d P) (setUser change) fun _ => At env before d Q :=
  Triple.modify _ fun _ ⟨fine, before⟩ => ⟨{ fine with }, holds _ _ before⟩

theorem setError_spec {e : Errno} (holds : ∀ u log, P u log → Q { u with u_error := some e } log) :
    Triple (At env before d P) (setError e) fun _ => At env before d Q :=
  setUser_spec _ holds

theorem note_spec (e : Event) (holds : ∀ u log, P u log → Q u (e :: log)) :
    Triple (At env before d P) (note e) fun _ => At env before d Q :=
  Triple.modify _ fun _ ⟨fine, before⟩ => ⟨{ fine with }, holds _ _ before⟩

/-- The state is looked at. -/
theorem get_spec : Triple (At env before d P) get fun a s => s = a ∧ At env before d P s :=
  Triple.get fun _ start => ⟨rfl, start⟩

/-! ## Buffers and superblocks -/

theorem amount_setBusy (k : Kernel) (value : Bool) (r : Item) :
    (k.setBusy dev blkno value).amount r =
      if r = .buffer dev blkno then (value.toNat : ℤ) else k.amount r := by
  cases r with
  | lock ip => rfl
  | count ip => rfl
  | buffer dev' blkno' =>
      simp only [Kernel.amount, Kernel.setBusy, Item.buffer.injEq]
      split <;> rfl

theorem charge_take (d : Hand) (r : Item) :
    ({ d with bufs := (dev, blkno) :: d.bufs } : Hand).charge r =
      d.charge r + if r = .buffer dev blkno then 1 else 0 := by
  cases r with
  | lock ip => simp [Hand.charge]
  | count ip => simp [Hand.charge]
  | buffer dev' blkno' =>
      have swap : ((dev, blkno) == (dev', blkno')) = true ↔ dev' = dev ∧ blkno' = blkno := by
        simp only [beq_iff_eq, Prod.mk.injEq]
        exact and_congr eq_comm eq_comm
      simp only [Hand.charge, List.count_cons, swap, Item.buffer.injEq]
      split <;> simp

/-- A buffer that is not busy is taken. -/
theorem setBusy_spec :
    Triple (fun s => At env before d P s ∧ s.kernel.busy dev blkno = false)
      (setBusy dev blkno true) fun _ =>
        At env before { d with bufs := (dev, blkno) :: d.bufs } P := by
  refine Triple.modify _ fun s ⟨⟨fine, holds⟩, vacant⟩ => ?_
  have outside : (dev, blkno) ∉ d.bufs := fun held => by
    have busy := fine.busy _ held
    rw [vacant] at busy
    cases busy
  refine ⟨{ fine with amounts := fun r => ?_, busy := fun b held => ?_, apart := ?_ }, holds⟩
  · have amount := fine.amounts r
    show _ = s.rest r + _
    rw [amount_setBusy, charge_take]
    split
    · next here =>
        subst here
        simp only [Kernel.amount, vacant] at amount
        simp only [Bool.toNat_true, Bool.toNat_false] at amount ⊢
        omega
    · omega
  · simp only [Kernel.setBusy]
    split
    · rfl
    · next other =>
        rcases List.mem_cons.mp held with rfl | held
        · exact absurd ⟨rfl, rfl⟩ other
        · exact fine.busy b held
  · exact List.nodup_cons.mpr ⟨outside, fine.apart⟩

theorem brelse_spec :
    Triple (At env before { d with bufs := (dev, blkno) :: d.bufs } P) (brelse dev blkno)
      fun _ => At env before d P := by
  refine Triple.modify _ fun s ⟨fine, holds⟩ => ?_
  obtain ⟨outside, apart⟩ := List.nodup_cons.mp fine.apart
  have held : s.kernel.busy dev blkno := fine.busy (dev, blkno) List.mem_cons_self
  refine ⟨{ fine with amounts := fun r => ?_, busy := fun b mem => ?_, apart := apart }, holds⟩
  · have amount := fine.amounts r
    show _ = s.rest r + _
    rw [charge_take] at amount
    rw [amount_setBusy]
    split
    · next here =>
        subst here
        simp only [Kernel.amount, held] at amount
        simp only [if_true, Bool.toNat_true, Bool.toNat_false] at amount ⊢
        omega
    · next other =>
        rw [if_neg other] at amount
        omega
  · have other : ¬(b.1 = dev ∧ b.2 = blkno) := by
      rintro ⟨rfl, rfl⟩
      exact outside mem
    simp only [Kernel.setBusy, if_neg other]
    exact fine.busy b (List.mem_cons_of_mem _ mem)

theorem getblk_spec (polite : env.Polite homes) (n : ℕ) :
    Triple (At env before d P) (getblk env dev blkno n) fun _ =>
      At env before { d with bufs := (dev, blkno) :: d.bufs } P := by
  induction n with
  | zero => exact Triple.failure
  | succ n ih =>
      refine (sleep_spec polite).bind fun _ => get_spec.bind fun s => ?_
      apply Triple.ite
      · exact fun _ => ih.strengthen fun _ => And.right
      · intro vacant
        refine setBusy_spec.strengthen ?_
        rintro _ ⟨rfl, start⟩
        exact ⟨start, by simpa using vacant⟩

theorem bread_spec (polite : env.Polite homes)
    (error : ∀ u log e, P u log → Q { u with u_error := some e } log) :
    Triple (At env before d P) (bread env dev blkno) fun bp s =>
      At env before { d with bufs := (dev, blkno) :: d.bufs }
        (fun u log => if bp.isSome then P u log else Q u log) s := by
  refine (getblk_spec polite _).bind fun _ => (sleep_spec polite).bind fun _ =>
    get_spec.bind fun s => ?_
  cases env.read s.waits dev blkno with
  | error e =>
      have failed : Triple (At env before { d with bufs := (dev, blkno) :: d.bufs } P)
          (setError e) fun _ => At env before { d with bufs := (dev, blkno) :: d.bufs } Q :=
        setError_spec fun u log => error u log e
      exact (failed.strengthen fun _ => And.right).bind fun _ => Triple.pure none fun _ => id
  | ok data => exact Triple.pure _ fun _ => And.right

theorem geterror_spec (steady : Steady P) (error : Option Errno) :
    Triple (At env before d P) (geterror error) fun _ => At env before d P := by
  cases error with
  | some e => exact setError_spec fun u log => steady u log e
  | none => exact Triple.pure _ fun _ => id

theorem bwrite_spec (polite : env.Polite homes) (steady : Steady P) :
    Triple (At env before { d with bufs := (dev, blkno) :: d.bufs } P) (bwrite env dev blkno)
      fun _ => At env before d P := by
  refine (sleep_spec polite).bind fun _ => get_spec.bind fun s => ?_
  refine ((geterror_spec steady _).strengthen fun _ => And.right).bind fun _ => ?_
  exact brelse_spec

theorem whenever_spec {c : Prop} [Decidable c] {m : Call Unit}
    (triple : c → Triple (At env before d P) m fun _ => At env before d P) :
    Triple (At env before d P) (whenever c m) fun _ => At env before d P :=
  Triple.ite triple fun _ => Triple.pure _ fun _ => id

/-- Superblocks hold nothing of a process. -/
theorem setFilsys_spec (m : ℕ) (change : Filsys → Filsys) :
    Triple (At env before d P) (setFilsys m change) fun _ => At env before d P := by
  refine Triple.modify _ fun s ⟨fine, holds⟩ => ⟨{ fine with amounts := fun r => ?_ }, holds⟩
  have amount := fine.amounts r
  cases r <;> exact amount

theorem getfs_spec :
    Triple (At env before d P) (getfs dev) fun _ => At env before d P := by
  refine get_spec.bind fun s => ?_
  cases (List.range NMOUNT).find? fun m =>
      (s.kernel.mount m).m_bufp.isSome && (s.kernel.mount m).m_dev == dev with
  | none => exact Triple.failure
  | some m =>
      simp only
      cases (s.kernel.mount m).m_bufp with
      | none => exact Triple.failure
      | some fp =>
          refine ((setFilsys_spec m _).strengthen fun _ => And.right).bind fun _ => ?_
          exact Triple.pure _ fun _ => id

theorem freeWait_spec (polite : env.Polite homes) (m n : ℕ) :
    Triple (At env before d P) (freeWait env m n) fun _ => At env before d P := by
  induction n with
  | zero => exact Triple.failure
  | succ n ih =>
      refine get_spec.bind fun s => ?_
      cases (s.kernel.mount m).m_bufp with
      | none => exact Triple.failure
      | some fp =>
          apply Triple.ite
          · exact fun _ => ((sleep_spec polite).strengthen fun _ => And.right).bind fun _ => ih
          · exact fun _ => Triple.pure _ fun _ => And.right

theorem free_spec (polite : env.Polite homes) (steady : Steady P) (bno : Daddr) :
    Triple (At env before d P) (free env dev bno) fun _ => At env before d P := by
  refine getfs_spec.bind fun fs => (setFilsys_spec _ _).bind fun _ =>
    (freeWait_spec polite _ _).bind fun fp => whenever_spec fun _ => ?_
  refine (setFilsys_spec _ _).bind fun _ => Triple.bind (whenever_spec fun _ => ?_) fun _ =>
    setFilsys_spec _ _
  refine (setFilsys_spec _ _).bind fun _ => (getblk_spec polite _).bind fun _ =>
    (setFilsys_spec _ _).bind fun _ => (bwrite_spec polite steady).bind fun _ => ?_
  exact setFilsys_spec _ _

theorem ifree_spec (ino : Ino) :
    Triple (At env before d P) (ifree dev ino) fun _ => At env before d P := by
  refine getfs_spec.bind fun fs => whenever_spec fun _ => ?_
  exact setFilsys_spec _ _

/-! ## The blocks of a file -/

/-- The hand with the buffer of a block in it, if it is held. -/
def Hand.with (d : Hand) (dev : Dev) (blkno : ℤ) (held : Bool) : Hand :=
  if held then { d with bufs := (dev, blkno) :: d.bufs } else d

theorem fetch_spec (polite : env.Polite homes) (steady : Steady P) (bn : Daddr)
    (bp : Option Bytes) :
    Triple (At env before (d.with dev bn bp.isSome) P) (fetch env dev bn bp) fun _ =>
      At env before { d with bufs := (dev, bn) :: d.bufs } P := by
  cases bp with
  | some bap => exact Triple.pure _ fun _ => id
  | none =>
      refine (bread_spec (d := d) (Q := P) polite steady).weaken fun bp s start => ?_
      simpa using start

theorem tloopFrom_spec (polite : env.Polite homes) (steady : Steady P) (bn : Daddr) (f1 : Bool)
    {each : Daddr → Call Unit}
    (each_spec : ∀ d nb, Triple (At env before d P) (each nb) fun _ => At env before d P) (i : ℕ)
    (bp : Option Bytes) :
    Triple (At env before (d.with dev bn bp.isSome) P) (tloopFrom env dev bn f1 each i bp)
      fun bp => At env before (d.with dev bn (bp.any Option.isSome)) P := by
  induction i generalizing bp with
  | zero => exact Triple.pure _ fun _ => id
  | succ i ih =>
      refine (fetch_spec polite steady bn bp).bind fun bp => ?_
      cases bp with
      | none => exact brelse_spec.bind fun _ => Triple.pure _ fun _ => id
      | some bap =>
          apply Triple.ite
          · exact fun _ => ih (some bap)
          · intro _
            apply Triple.ite
            · exact fun _ => brelse_spec.bind fun _ => (each_spec _ _).bind fun _ => ih none
            · exact fun _ => (each_spec _ _).bind fun _ => ih (some bap)

theorem tloopEnd_spec (polite : env.Polite homes) (steady : Steady P) (bn : Daddr)
    (bp : Option (Option Bytes)) :
    Triple (At env before (d.with dev bn (bp.any Option.isSome)) P) (tloopEnd env dev bn bp)
      fun _ => At env before d P := by
  cases bp with
  | none => exact Triple.pure _ fun _ => id
  | some bp =>
      refine Triple.bind (Q := fun _ => At env before d P) ?_ fun _ => free_spec polite steady bn
      cases bp with
      | none => exact Triple.pure _ fun _ => id
      | some bap => exact brelse_spec

theorem tloop_spec (polite : env.Polite homes) (steady : Steady P) (levels : ℕ) (d : Hand)
    (bn : Daddr) :
    Triple (At env before d P) (tloop env levels dev bn) fun _ => At env before d P := by
  induction levels generalizing d bn with
  | zero =>
      refine (tloopFrom_spec polite steady bn false ?_ NINDIR none).bind
        (tloopEnd_spec polite steady bn)
      exact fun d nb => free_spec polite steady nb
  | succ levels ih =>
      exact (tloopFrom_spec polite steady bn true ih NINDIR none).bind
        (tloopEnd_spec polite steady bn)

/-! ## Inodes -/

/-- An inode is assigned `j` where it was `i` while what the process holds goes from `d` to
`d'`. -/
structure Moves (d d' : Hand) (ip : InodeId) (i j : Inode) : Prop where
  bufs : d'.bufs = d.bufs
  lock : (j.locked.toNat : ℤ) + d.charge (.lock ip) = i.locked.toNat + d'.charge (.lock ip)
  count : (j.i_count : ℤ) + d.charge (.count ip) = i.i_count + d'.charge (.count ip)
  lock_other : ∀ other, other ≠ ip → (d'.lock = some other ↔ d.lock = some other)
  ref_other : ∀ other, other ≠ ip → (d'.ref = some other ↔ d.ref = some other)
  locked : d'.lock = some ip → j.locked
  counted : d'.ref = some ip → 1 ≤ j.i_count
  dir : d'.dir → d.dir ∧ (d'.lock = some ip → j.isDir)
  bare : d'.bare → d.bare ∧ (d'.lock = some ip → j.text = false)
  idle : j.i_count = 0 → j.locked = false
  plain : j.isDir → j.text = false

theorem inode_setInode_self (k : Kernel) (change : Inode → Inode) :
    (k.setInode ip change).inode ip = change (k.inode ip) := update_self ..

theorem inode_setInode_of_ne {other : InodeId} (k : Kernel) (change : Inode → Inode)
    (ne : other ≠ ip) : (k.setInode ip change).inode other = k.inode other := update_of_ne ne ..

theorem Fine.setInode {d' : Hand} {change : Inode → Inode} (fine : Fine env before d s)
    (moves : Moves d d' ip (s.kernel.inode ip) (change (s.kernel.inode ip))) :
    Fine env before d' { s with kernel := s.kernel.setInode ip change } where
  amounts r := by
    have amount := fine.amounts r
    show _ = s.rest r + _
    cases r with
    | lock other =>
        simp only [Kernel.amount] at amount ⊢
        by_cases here : other = ip
        · subst here
          have lock := moves.lock
          rw [inode_setInode_self]
          omega
        · have same := moves.lock_other other here
          rw [inode_setInode_of_ne _ _ here]
          simp only [Hand.charge, same] at amount ⊢
          exact amount
    | count other =>
        simp only [Kernel.amount] at amount ⊢
        by_cases here : other = ip
        · subst here
          have count := moves.count
          rw [inode_setInode_self]
          omega
        · have same := moves.ref_other other here
          rw [inode_setInode_of_ne _ _ here]
          simp only [Hand.charge, same] at amount ⊢
          exact amount
    | buffer dev blkno =>
        simp only [Hand.charge, moves.bufs] at amount ⊢
        exact amount
  locked other held := by
    by_cases here : other = ip
    · subst here
      rw [inode_setInode_self]
      exact moves.locked held
    · rw [inode_setInode_of_ne _ _ here]
      exact fine.locked other ((moves.lock_other other here).mp held)
  counted other held := by
    by_cases here : other = ip
    · subst here
      rw [inode_setInode_self]
      exact moves.counted held
    · rw [inode_setInode_of_ne _ _ here]
      exact fine.counted other ((moves.ref_other other here).mp held)
  busy := by
    rw [moves.bufs]
    exact fine.busy
  apart := by
    rw [moves.bufs]
    exact fine.apart
  dir known other held := by
    obtain ⟨before, after⟩ := moves.dir known
    by_cases here : other = ip
    · subst here
      rw [inode_setInode_self]
      exact after held
    · rw [inode_setInode_of_ne _ _ here]
      exact fine.dir before other ((moves.lock_other other here).mp held)
  bare known other held := by
    obtain ⟨before, after⟩ := moves.bare known
    by_cases here : other = ip
    · subst here
      rw [inode_setInode_self]
      exact after held
    · rw [inode_setInode_of_ne _ _ here]
      exact fine.bare before other ((moves.lock_other other here).mp held)
  idle other none := by
    by_cases here : other = ip
    · subst here
      rw [inode_setInode_self] at none ⊢
      exact moves.idle none
    · rw [inode_setInode_of_ne _ _ here] at none ⊢
      exact fine.idle other none
  plain other dir := by
    by_cases here : other = ip
    · subst here
      rw [inode_setInode_self] at dir ⊢
      exact moves.plain dir
    · rw [inode_setInode_of_ne _ _ here] at dir ⊢
      exact fine.plain other dir
  alone := fine.alone

/-- An assignment to other fields keeps what is held. -/
theorem Fine.keep {j : Inode} (fine : Fine env before d s)
    (locked : j.locked = (s.kernel.inode ip).locked)
    (count : j.i_count = (s.kernel.inode ip).i_count)
    (mode : j.i_mode = (s.kernel.inode ip).i_mode) (text : j.text = (s.kernel.inode ip).text) :
    Moves d d ip (s.kernel.inode ip) j where
  bufs := rfl
  lock := by rw [locked]
  count := by rw [count]
  lock_other _ _ := Iff.rfl
  ref_other _ _ := Iff.rfl
  locked held := locked.trans (fine.locked ip held)
  counted held := count ▸ fine.counted ip held
  dir known := by
    refine ⟨known, fun held => ?_⟩
    rw [Inode.isDir, mode]
    exact fine.dir known ip held
  bare known := ⟨known, fun held => text.trans (fine.bare known ip held)⟩
  idle none := locked.trans (fine.idle ip (count ▸ none))
  plain dir := by
    rw [Inode.isDir, mode] at dir
    exact text.trans (fine.plain ip dir)

theorem setInode_keep {change : Inode → Inode} (locked : ∀ i, (change i).locked = i.locked)
    (count : ∀ i, (change i).i_count = i.i_count) (mode : ∀ i, (change i).i_mode = i.i_mode)
    (text : ∀ i, (change i).text = i.text) :
    Triple (At env before d P) (setInode ip change) fun _ => At env before d P :=
  Triple.modify _ fun _ ⟨fine, holds⟩ =>
    ⟨fine.setInode (fine.keep (locked _) (count _) (mode _) (text _)), holds⟩

theorem itruncFrom_spec (polite : env.Polite homes) (steady : Steady P) (i : ℕ) :
    Triple (At env before d P) (itruncFrom env ip dev i) fun _ => At env before d P := by
  induction i with
  | zero => exact Triple.pure _ fun _ => id
  | succ i ih =>
      refine get_spec.bind fun s => Triple.ite ?_ ?_
      · exact fun _ => ih.strengthen fun _ => And.right
      · intro _
        have assigned : Triple (At env before d P)
            (setInode ip fun p => { p with i_addr := update p.i_addr i 0 })
            fun _ => At env before d P := setInode_keep
          (fun _ => rfl) (fun _ => rfl) (fun _ => rfl) fun _ => rfl
        refine (assigned.strengthen fun _ => And.right).bind fun _ => Triple.bind ?_ fun _ => ih
        apply Triple.ite
        · exact fun _ => free_spec polite steady _
        · exact fun _ => tloop_spec polite steady _ d _

theorem itrunc_spec (polite : env.Polite homes) (steady : Steady P) :
    Triple (At env before d P) (itrunc env ip) fun _ => At env before d P := by
  refine get_spec.bind fun s => Triple.strengthen (P := At env before d P) ?_ fun _ => And.right
  refine whenever_spec fun _ => (itruncFrom_spec polite steady NADDR).bind fun _ => ?_
  exact setInode_keep (fun _ => rfl) (fun _ => rfl) (fun _ => rfl) fun _ => rfl

theorem iupdat_spec (polite : env.Polite homes) (steady : Steady P) :
    Triple (At env before d P) (iupdat env ip) fun _ => At env before d P := by
  refine get_spec.bind fun s => Triple.strengthen ?_ fun _ => And.right
  refine whenever_spec fun _ => getfs_spec.bind fun fs => whenever_spec fun _ => ?_
  refine (bread_spec (Q := P) polite steady).bind fun bp => ?_
  cases bp with
  | none => exact brelse_spec
  | some data =>
      refine Triple.bind ?_ fun _ => brelse_spec
      exact setInode_keep (fun _ => rfl) (fun _ => rfl) (fun _ => rfl) fun _ => rfl

/-- The process has the lock of an inode, and what else it holds is `ref` and `bufs`. -/
abbrev Hand.onLock (ip : InodeId) (ref : Option InodeId) (bufs : List (Dev × ℤ)) : Hand :=
  ⟨some ip, ref, bufs, false, false⟩

/-- The process has no lock, and what it holds is `ref` and `bufs`. -/
abbrev Hand.noLock (ref : Option InodeId) (bufs : List (Dev × ℤ)) : Hand :=
  ⟨none, ref, bufs, false, false⟩

/-- An inode to which the process has a reference is locked. -/
theorem Fine.lock {j : Inode} (fine : Fine env before (.noLock (some ip) bufs) s)
    (unlocked : (s.kernel.inode ip).locked = false) (locked : j.locked = true)
    (count : j.i_count = (s.kernel.inode ip).i_count)
    (mode : j.i_mode = (s.kernel.inode ip).i_mode) (text : j.text = (s.kernel.inode ip).text) :
    Moves (.noLock (some ip) bufs) (.holding ip bufs) ip (s.kernel.inode ip) j where
  bufs := rfl
  lock := by simp [Hand.charge, Hand.holding, locked, unlocked]
  count := by simp [Hand.charge, Hand.holding, count]
  lock_other other ne := by simp [Hand.holding, ne.symm]
  ref_other _ _ := Iff.rfl
  locked _ := locked
  counted held := count ▸ fine.counted ip held
  dir known := by cases known
  bare known := by cases known
  idle none := by
    have counted := fine.counted ip rfl
    omega
  plain dir := by
    rw [Inode.isDir, mode] at dir
    exact text.trans (fine.plain ip dir)

/-- An unlocked inode is locked and gets a reference. -/
theorem Moves.claim {i j : Inode} (unlocked : i.locked = false) (locked : j.locked = true)
    (count : j.i_count = i.i_count + 1) (plain : j.isDir → j.text = false) :
    Moves (.free bufs) (.holding ip bufs) ip i j where
  bufs := rfl
  lock := by simp [Hand.charge, Hand.holding, Hand.free, locked, unlocked]
  count := by simp [Hand.charge, Hand.holding, Hand.free, count]
  lock_other other ne := by simp [Hand.holding, Hand.free, ne.symm]
  ref_other other ne := by simp [Hand.holding, Hand.free, ne.symm]
  locked _ := locked
  counted _ := by omega
  dir known := by cases known
  bare known := by cases known
  idle none := by omega
  plain := plain

/-- The lock and the reference are given up. -/
theorem Fine.drop {d : Hand} {j : Inode} (fine : Fine env before d s) (same : d.bufs = bufs)
    (lock : d.lock = some ip ∨ d.lock = none ∧ (s.kernel.inode ip).locked = false)
    (ref : d.ref = some ip) (locked : j.locked = false)
    (count : j.i_count = (s.kernel.inode ip).i_count - 1)
    (plain : j.isDir → j.text = false) :
    Moves d (.free bufs) ip (s.kernel.inode ip) j where
  bufs := same.symm
  lock := by
    rcases lock with held | ⟨none, unlocked⟩
    · simp [Hand.charge, Hand.free, held, locked, fine.locked ip held]
    · simp [Hand.charge, Hand.free, none, locked, unlocked]
  count := by
    have counted := fine.counted ip ref
    simp only [Hand.charge, Hand.free, ref, if_true, count]
    simp
    omega
  lock_other other ne := by
    rcases lock with held | ⟨none, -⟩
    · simp [Hand.free, held, ne.symm]
    · simp [Hand.free, none]
  ref_other other ne := by simp [Hand.free, ref, ne.symm]
  locked held := by cases held
  counted held := by cases held
  dir known := by cases known
  bare known := by cases known
  idle _ := locked
  plain := plain

/-- Only the lock is given up. -/
theorem Fine.unlock {j : Inode} (fine : Fine env before (.holding ip bufs) s)
    (locked : j.locked = false) (count : j.i_count = (s.kernel.inode ip).i_count)
    (plain : j.isDir → j.text = false) :
    Moves (.holding ip bufs) (.noLock (some ip) bufs) ip (s.kernel.inode ip) j where
  bufs := rfl
  lock := by simp [Hand.charge, Hand.holding, locked, fine.locked ip rfl]
  count := by simp [Hand.charge, Hand.holding, count]
  lock_other other ne := by simp [Hand.holding, ne.symm]
  ref_other _ _ := Iff.rfl
  locked held := by cases held
  counted held := count ▸ fine.counted ip held
  dir known := by cases known
  bare known := by cases known
  idle _ := locked
  plain := plain

/-- What `plock` returns from: the inode was not locked just before. -/
def Locking (env : Env) (before : Item → ℤ) (d : Hand) (P : User → List Event → Prop)
    (ip : InodeId) (s : Sys) : Prop :=
  ∃ s₀, At env before d P s₀ ∧ (s₀.kernel.inode ip).locked = false ∧
    s = { s₀ with kernel := s₀.kernel.setInode ip fun i => { i with locked := true } }

theorem plock_spec (polite : env.Polite homes) (n : ℕ) :
    Triple (At env before d P) (plock env ip n) fun _ => Locking env before d P ip := by
  induction n with
  | zero => exact Triple.failure
  | succ n ih =>
      refine get_spec.bind fun s => Triple.ite ?_ ?_
      · intro _
        refine Triple.strengthen (P := At env before d P) ?_ fun _ => And.right
        refine Triple.bind (Q := fun _ => At env before d P) ?_ fun _ =>
          (sleep_spec polite).bind fun _ => ih
        exact setInode_keep (fun _ => rfl) (fun _ => rfl) (fun _ => rfl) fun _ => rfl
      · intro unlocked
        refine Triple.modify _ ?_
        rintro s' ⟨rfl, start⟩
        exact ⟨s', start, by simpa using unlocked, rfl⟩

theorem setInode_setInode (k : Kernel) (first second : Inode → Inode) :
    (k.setInode ip first).setInode ip second = k.setInode ip fun i => second (first i) := by
  simp [Kernel.setInode]

/-- What is known of the locked inode may be forgotten. -/
theorem At.forget {ref : Option InodeId} {dir bare : Bool}
    (start : At env before ⟨some ip, ref, bufs, dir, bare⟩ P s) :
    At env before (.onLock ip ref bufs) P s := by
  obtain ⟨fine, holds⟩ := start
  refine ⟨{ fine with dir := ?_, bare := ?_ }, holds⟩
  · intro known
    cases known
  · intro known
    cases known

/-- The last part of `iput` ends with the inode unlocked. -/
theorem iputLast_spec (polite : env.Polite homes) (steady : Steady P) :
    Triple (At env before (.holding ip bufs) P) (iputLast env ip) fun _ s =>
      At env before (.noLock (some ip) bufs) P s ∧ (s.kernel.inode ip).locked = false := by
  refine Triple.bind (Q := fun _ => At env before (.holding ip bufs) P) ?_ fun _ =>
    get_spec.bind fun s => Triple.strengthen (P := At env before (.holding ip bufs) P) ?_ fun _ =>
      And.right
  · refine Triple.modify _ fun s ⟨fine, holds⟩ => ⟨fine.setInode ?_, holds⟩
    exact fine.keep (fine.locked ip rfl).symm rfl rfl rfl
  refine Triple.bind (Q := fun _ => At env before (.holding ip bufs) P) ?_ fun _ =>
    (iupdat_spec polite steady).bind fun _ => ?_
  · refine whenever_spec fun _ => (itrunc_spec polite steady).bind fun _ =>
      Triple.bind (Q := fun _ => At env before (.holding ip bufs) P) ?_ fun _ =>
        get_spec.bind fun s => (ifree_spec _).strengthen fun _ => And.right
    refine Triple.modify _ fun s ⟨fine, holds⟩ => ⟨fine.setInode ?_, holds⟩
    exact
      { bufs := rfl
        lock := rfl
        count := rfl
        lock_other := fun _ _ => Iff.rfl
        ref_other := fun _ _ => Iff.rfl
        locked := fine.locked ip
        counted := fine.counted ip
        dir := fun known => by cases known
        bare := fun known => by cases known
        idle := fine.idle ip
        plain := fun dir => by simp [Inode.isDir, IFDIR] at dir }
  · intro s ⟨fine, holds⟩ a t returned
    obtain ⟨-, rfl⟩ := Prod.mk.inj (Option.some.inj returned)
    dsimp only
    rw [setInode_setInode, inode_setInode_self]
    refine ⟨⟨fine.setInode ?_, holds⟩, rfl⟩
    exact fine.unlock rfl rfl fun _ => rfl

/-- The end of `iput`: the reference goes, and the lock if it has not gone already. -/
theorem iputEnd_spec :
    Triple (fun s => ∃ d, At env before d P s ∧ d.bufs = bufs ∧ d.ref = some ip ∧
        (d.lock = some ip ∨ d.lock = none ∧ (s.kernel.inode ip).locked = false))
      (do
        setInode ip fun p => { p with i_count := p.i_count - 1 }
        prele ip)
      fun _ => At env before (.free bufs) P := by
  rintro s ⟨d, ⟨fine, holds⟩, same, ref, lock⟩ a t returned
  obtain ⟨-, rfl⟩ := Prod.mk.inj (Option.some.inj returned)
  dsimp only
  rw [setInode_setInode]
  refine ⟨fine.setInode ?_, holds⟩
  exact fine.drop same lock ref rfl rfl (fine.plain ip)

theorem iput_spec (polite : env.Polite homes) (steady : Steady P) {dir bare : Bool} :
    Triple (At env before ⟨some ip, some ip, bufs, dir, bare⟩ P) (iput env ip) fun _ =>
      At env before (.free bufs) P := by
  refine Triple.strengthen (P := At env before (.holding ip bufs) P) ?_ fun _ => At.forget
  refine get_spec.bind fun s => Triple.strengthen (P := At env before (.holding ip bufs) P) ?_
    fun _ => And.right
  refine Triple.bind ?_ fun _ => iputEnd_spec
  apply Triple.ite
  · intro _
    refine (iputLast_spec polite steady).weaken fun _ s ⟨start, unlocked⟩ => ?_
    exact ⟨_, start, rfl, rfl, .inr ⟨rfl, unlocked⟩⟩
  · exact fun _ => Triple.pure _ fun s start => ⟨_, start, rfl, rfl, .inl rfl⟩

/-- What `iget` returns: a locked inode with one more reference, or nothing and an error. -/
def Got (env : Env) (before : Item → ℤ) (bufs : List (Dev × ℤ)) (P Q : User → List Event → Prop)
    (result : Option InodeId) (s : Sys) : Prop :=
  match result with
  | some ip => At env before (.holding ip bufs) P s
  | none => At env before (.free bufs) Q s

/-- An entry of the table is filled with an inode that is not in core. -/
theorem fresh_spec (unlocked : (s.kernel.inode ip).locked = false)
    (fine : Fine env before (.free bufs) s) (ino : Ino) :
    Fine env before ⟨some ip, some ip, bufs, false, true⟩
      { s with kernel := s.kernel.setInode ip fun p =>
          { p with
            i_dev := dev, i_number := ino, locked := true, mounted := false, wanted := false
            text := false, changed := false, i_count := p.i_count + 1 } } := by
  have claimed : Fine env before (.holding ip bufs)
      { s with kernel := s.kernel.setInode ip fun p =>
          { p with
            i_dev := dev, i_number := ino, locked := true, mounted := false, wanted := false
            text := false, changed := false, i_count := p.i_count + 1 } } :=
    fine.setInode (Moves.claim unlocked rfl rfl fun _ => rfl)
  refine { claimed with bare := fun _ other held => ?_ }
  obtain rfl : ip = other := Option.some.inj held
  rw [inode_setInode_self]

/-- The inode is filled from the disk. -/
theorem iexpand_spec (data : Bytes) :
    Triple (At env before ⟨some ip, some ip, bufs, false, true⟩ P) (setInode ip (iexpand data))
      fun _ => At env before (.holding ip bufs) P := by
  refine Triple.modify _ fun s ⟨fine, holds⟩ => ⟨fine.setInode ?_, holds⟩
  exact
    { bufs := rfl
      lock := rfl
      count := rfl
      lock_other := fun _ _ => Iff.rfl
      ref_other := fun _ _ => Iff.rfl
      locked := fine.locked ip
      counted := fine.counted ip
      dir := fun known => by cases known
      bare := fun known => by cases known
      idle := fine.idle ip
      plain := fun _ => fine.bare rfl ip rfl }

theorem iget_spec (polite : env.Polite homes) (steady : Steady Q)
    (error : ∀ u log e, P u log → Q { u with u_error := some e } log) (n : ℕ) (ino : Ino) :
    Triple (At env before (.free bufs) P) (iget env n dev ino) (Got env before bufs P Q) := by
  induction n generalizing dev ino with
  | zero => exact Triple.failure
  | succ n ih =>
      refine get_spec.bind fun s => ?_
      cases found : s.kernel.lookup dev ino with
      | some ip =>
          apply Triple.ite
          · intro _
            refine Triple.strengthen (P := At env before (.free bufs) P) ?_ fun _ => And.right
            refine Triple.bind (Q := fun _ => At env before (.free bufs) P) ?_ fun _ =>
              (sleep_spec polite).bind fun _ => ih ino
            exact setInode_keep (fun _ => rfl) (fun _ => rfl) (fun _ => rfl) fun _ => rfl
          · intro unlocked
            apply Triple.ite
            · intro _
              cases s.kernel.mountedOn ip with
              | some mp => exact (ih ROOTINO).strengthen fun _ => And.right
              | none => exact Triple.failure
            · intro _
              refine Triple.bind (Q := fun _ => At env before (.holding ip bufs) P) ?_ fun _ =>
                Triple.pure (some ip) fun _ => id
              refine Triple.modify _ ?_
              rintro s' ⟨rfl, fine, holds⟩
              refine ⟨fine.setInode ?_, holds⟩
              exact Moves.claim (by simpa using unlocked) rfl rfl (fine.plain ip)
      | none =>
          cases vacant : s.kernel.unused with
          | none =>
              refine Triple.strengthen (P := At env before (.free bufs) P) ?_ fun _ => And.right
              refine (setError_spec fun u log => error u log .ENFILE).bind fun _ => ?_
              exact Triple.pure none fun _ => id
          | some ip =>
              refine Triple.bind
                (Q := fun _ => At env before ⟨some ip, some ip, bufs, false, true⟩ P) ?_ fun _ =>
                (bread_spec polite error).bind fun bp => ?_
              · refine Triple.modify _ ?_
                rintro s' ⟨rfl, fine, holds⟩
                have uncounted : (s'.kernel.inode ip).i_count = 0 := by
                  simpa using List.find?_some vacant
                exact ⟨fresh_spec (fine.idle ip uncounted) fine ino, holds⟩
              · cases bp with
                | none =>
                    refine Triple.bind
                      (Q := fun _ => At env before ⟨some ip, some ip, bufs, false, true⟩ Q)
                      brelse_spec fun _ => ?_
                    refine Triple.bind
                      (Q := fun _ => At env before ⟨some ip, some ip, bufs, false, true⟩ Q) ?_
                      fun _ => (iput_spec polite steady).bind fun _ => Triple.pure none fun _ => id
                    exact setInode_keep (fun _ => rfl) (fun _ => rfl) (fun _ => rfl) fun _ => rfl
                | some data =>
                    refine (iexpand_spec _).bind fun _ =>
                      (brelse_spec (d := .holding ip bufs)).bind fun _ => ?_
                    exact Triple.pure (some ip) fun _ => id

end Routines

end UnixV7.Nami
