import UnixV7.Kernel.Proc

/-!
# Process identities

Processes are numbered in the order of their creation, whatever ids and slots they are given. The
names record which process a slot holds, whose child it is and who was the leader of its group, and
every exit and every status returned. Ids and slots follow them through any sequence of `newproc`,
`exit` and `wait`.
-/

namespace UnixV7

open Function

namespace ProcTable

/-- A status that `wait` has returned: the process that exited, its status, its parent at that time,
and the process that waited. -/
structure Returned where
  child : ℕ
  status : ℤ
  parent : ℕ
  caller : ℕ

/-- The number of processes created, those in the slots, and what has become of them. -/
structure Names where
  births : ℕ
  born : ℕ → ℕ
  parent : ℕ → ℕ
  leader : ℕ → ℕ
  exited : List (ℕ × ℤ)
  returned : List Returned

namespace Names

/-- The scheduler alone. -/
def boot : Names := ⟨1, fun _ => 0, fun _ => 0, fun _ => 0, [], []⟩

/-- Process `q` has created one in slot `rpp`. -/
def newproc (g : Names) (q rpp : ℕ) : Names :=
  { g with
    births := g.births + 1
    born := update g.born rpp g.births
    parent := update g.parent rpp (g.born q)
    leader := update g.leader rpp (g.leader q) }

/-- Process `q` has exited; its children are those of `init` now, the first process created. -/
def exit (g : Names) (q : ℕ) (rv : ℤ) : Names :=
  { g with
    parent := fun x => if g.parent x = g.born q then 1 else g.parent x
    exited := (g.born q, short rv) :: g.exited }

/-- Process `q` has searched for a child. -/
def wait (g : Names) (q : ℕ) : Waited → Names
  | .exited x _ status =>
      { g with returned := ⟨g.born x, status, g.parent x, g.born q⟩ :: g.returned }
  | _ => g

/-- Process `q` has become the leader of a group. -/
def lead (g : Names) (q : ℕ) : Names := { g with leader := update g.leader q (g.born q) }

@[simp] theorem exit_births (g : Names) (q : ℕ) (rv : ℤ) : (g.exit q rv).births = g.births := rfl

@[simp] theorem exit_born (g : Names) (q : ℕ) (rv : ℤ) : (g.exit q rv).born = g.born := rfl

@[simp] theorem exit_leader (g : Names) (q : ℕ) (rv : ℤ) : (g.exit q rv).leader = g.leader := rfl

@[simp] theorem lead_births (g : Names) (q : ℕ) : (g.lead q).births = g.births := rfl

@[simp] theorem lead_born (g : Names) (q : ℕ) : (g.lead q).born = g.born := rfl

@[simp] theorem lead_parent (g : Names) (q : ℕ) : (g.lead q).parent = g.parent := rfl

end Names

/-- The table when the system starts. -/
def boot : ProcTable where
  proc := update (fun _ => ⟨.free, 0, 0, 0, 0, 0, 0⟩) 0 ⟨.SRUN, SLOAD, 0, 0, 0, 0, 0⟩
  mpid := 0

/-- What else happens to a process: it sleeps, stops and runs, and gets signals and flags. -/
def other (s : ProcTable) (q : ℕ) (stat : Stat) (flag : BitVec 8) (sig : ℕ) : ProcTable :=
  { s with proc := update s.proc q { s.proc q with p_stat := stat, p_flag := flag, p_sig := sig } }

/-- The part of `ttyopen` that makes a process the leader of a new group. -/
def lead (s : ProcTable) (q : ℕ) : ProcTable :=
  { s with proc := update s.proc q { s.proc q with p_pgrp := (s.proc q).p_pid } }

@[simp] theorem lead_mpid (s : ProcTable) (q : ℕ) : (s.lead q).mpid = s.mpid := rfl

/-- Any sequence of `newproc`, `exit` and `wait` by any processes; `fork` has found a free slot. The
scheduler, process 0, does not leave its loop. -/
inductive Run : ProcTable → Names → Prop
  | boot : Run boot .boot
  | newproc {s s' : ProcTable} {g : Names} {q x rpp : ℕ} : Run s g → (s.proc q).Live → x < NPROC →
      (s.proc x).p_stat = .free → Fuel.Settles (fun fuel => s.newproc q fuel) (some (rpp, s')) →
      Run s' (g.newproc q rpp)
  | exit {s : ProcTable} {g : Names} {q : ℕ} (rv : ℤ) : Run s g → (s.proc q).Live → q ≠ 0 →
      Run (s.exit q rv) (g.exit q rv)
  | wait {s : ProcTable} {g : Names} {q : ℕ} : Run s g → (s.proc q).Live → q ≠ 0 →
      Run (s.wait q).2 (g.wait q (s.wait q).1)
  | lead {s : ProcTable} {g : Names} {q : ℕ} : Run s g → (s.proc q).Live → q ≠ 0 →
      (s.proc q).p_pgrp = 0 → Run (s.lead q) (g.lead q)
  | other {s : ProcTable} {g : Names} {q : ℕ} {stat : Stat} (flag : BitVec 8) (sig : ℕ) : Run s g →
      (s.proc q).InUse → (stat = (s.proc q).p_stat ∨
        (s.proc q).Live ∧ stat ≠ .free ∧ stat ≠ .SZOMB) →
      Run (s.other q stat flag sig) g

/-- Ids and parents in the table are those of the processes that the names say. -/
structure Orderly (s : ProcTable) (g : Names) : Prop where
  scheduler : (s.proc 0).Live ∧ (s.proc 0).p_pid = 0 ∧ (s.proc 0).p_pgrp = 0 ∧
    (s.proc 0).p_ppid = 0
  below : ∀ x, (s.proc x).InUse → x < NPROC
  free : ∀ x, ¬(s.proc x).InUse →
    (s.proc x).p_pid = 0 ∧ (s.proc x).p_ppid = 0 ∧ (s.proc x).p_pgrp = 0
  range : ∀ x, (s.proc x).InUse → x ≠ 0 → 0 < (s.proc x).p_pid ∧ (s.proc x).p_pid < 30000
  pids : ∀ x y, (s.proc x).InUse → (s.proc y).InUse → (s.proc x).p_pid = (s.proc y).p_pid → x = y
  births : ∀ x, (s.proc x).InUse → g.born x < g.births
  born : ∀ x y, (s.proc x).InUse → (s.proc y).InUse → g.born x = g.born y → x = y
  group : ∀ x y, (s.proc x).InUse → (s.proc y).InUse → (s.proc y).p_pgrp ≠ 0 →
    (s.proc x).p_pid = (s.proc y).p_pgrp → g.born x = g.leader y
  parent : ∀ x, (s.proc x).InUse → x ≠ 0 → ∃ y, (s.proc y).InUse ∧ g.born y = g.parent x ∧
    (s.proc y).p_pid = (s.proc x).p_ppid ∧ ((s.proc y).Live ∨ (s.proc y).p_pid = 1)
  init : (g.births = 1 ∧ s.mpid = 0 ∧ ∀ x, (s.proc x).InUse → x = 0) ∨
    ∃ i, i ≠ 0 ∧ (s.proc i).InUse ∧ (s.proc i).p_pid = 1 ∧ (s.proc i).p_ppid = 0 ∧ g.born i = 1
  first : 0 < g.births
  mpid : s.mpid < 30000

/-- Every status is that of a zombie or has been returned, and only once. -/
structure Settled (s : ProcTable) (g : Names) : Prop where
  exits : (g.exited.map Prod.fst).Nodup
  exited : ∀ e, e ∈ g.exited ↔
    (∃ x, (s.proc x).p_stat = .SZOMB ∧ (g.born x, (s.proc x).p_xstat) = e) ∨
      ∃ r ∈ g.returned, (r.child, r.status) = e
  once : (g.returned.map Returned.child).Nodup
  gone : ∀ r ∈ g.returned, r.child < g.births ∧ ∀ x, (s.proc x).InUse → g.born x ≠ r.child
  parent : ∀ r ∈ g.returned, r.parent = r.caller

variable {s s' : ProcTable} {g : Names} {q rpp m x : ℕ} {rv : ℤ}

/-! ## The ids -/

namespace Orderly

theorem start : Orderly boot .boot := by
  have nobody : ∀ x, (boot.proc x).InUse → x = 0 := by
    intro x used
    by_contra other
    simp [boot, other, Proc.InUse] at used
  have live : (boot.proc 0).Live := by simp [boot, Proc.Live]
  refine ⟨⟨live, rfl, rfl, rfl⟩, ?_, ?_, ?_, ?_, ?_, ?_, ?_, ?_, .inl ⟨rfl, rfl, nobody⟩,
    Nat.one_pos, by decide⟩
  · intro x used
    rw [nobody x used]
    decide
  · intro x unused
    have other : x ≠ 0 := by
      rintro rfl
      exact unused live.1
    simp [boot, other]
  · intro x used other
    exact absurd (nobody x used) other
  · intro x y used used' _
    rw [nobody x used, nobody y used']
  · intro x _
    exact Nat.one_pos
  · intro x y used used' _
    rw [nobody x used, nobody y used']
  · intro x y _ used grouped
    rw [nobody y used] at grouped
    exact absurd rfl grouped
  · intro x used other
    exact absurd (nobody x used) other

/-- The ids do not depend on whether a process sleeps, runs or has stopped. -/
theorem congr (orderly : Orderly s g) (mpid : s'.mpid = s.mpid)
    (ids : ∀ x, (s'.proc x).p_pid = (s.proc x).p_pid ∧ (s'.proc x).p_ppid = (s.proc x).p_ppid ∧
      (s'.proc x).p_pgrp = (s.proc x).p_pgrp)
    (used : ∀ x, (s'.proc x).InUse ↔ (s.proc x).InUse)
    (live : ∀ x, (s'.proc x).Live ↔ (s.proc x).Live) : Orderly s' g := by
  have pid := fun x => (ids x).1
  have ppid := fun x => (ids x).2.1
  have pgrp := fun x => (ids x).2.2
  constructor
  · simpa only [pid, ppid, pgrp, live] using orderly.scheduler
  · simpa only [used] using orderly.below
  · simpa only [used, pid, ppid, pgrp] using orderly.free
  · simpa only [used, pid] using orderly.range
  · simpa only [used, pid] using orderly.pids
  · simpa only [used] using orderly.births
  · simpa only [used] using orderly.born
  · simpa only [used, pid, pgrp] using orderly.group
  · simpa only [used, pid, ppid, live] using orderly.parent
  · simpa only [used, pid, ppid, mpid] using orderly.init
  · exact orderly.first
  · rw [mpid]
    exact orderly.mpid

/-- Other processes than the scheduler exist only after process 1. -/
theorem exists_init (orderly : Orderly s g) (used : (s.proc x).InUse) (other : x ≠ 0) :
    ∃ i, i ≠ 0 ∧ (s.proc i).InUse ∧ (s.proc i).p_pid = 1 ∧ (s.proc i).p_ppid = 0 ∧
        g.born i = 1 := by
  rcases orderly.init with ⟨-, -, nobody⟩ | init
  · exact absurd (nobody x used) other
  · exact init

theorem enter_self (s : ProcTable) (q m rpp : ℕ) :
    (s.enter q m rpp).proc rpp = { s.proc rpp with
      p_stat := .SRUN
      p_flag := SLOAD
      p_pgrp := (s.proc q).p_pgrp
      p_pid := m
      p_ppid := (s.proc q).p_pid } := update_self _ _ _

theorem enter_of_ne (other : x ≠ rpp) : (s.enter q m rpp).proc x = s.proc x :=
  update_of_ne other _ _

theorem enter_inUse (s : ProcTable) (q m rpp : ℕ) : ((s.enter q m rpp).proc rpp).InUse := by
  rw [enter_self]
  simp [Proc.InUse]

/-- An id that nobody has is a new one. -/
theorem pids_newproc (orderly : Orderly s g)
    (fresh : ∀ x, (s.proc x).InUse → (s.proc x).p_pid ≠ m) {y : ℕ}
    (used : ((s.enter q m rpp).proc x).InUse) (used' : ((s.enter q m rpp).proc y).InUse)
    (pids : ((s.enter q m rpp).proc x).p_pid = ((s.enter q m rpp).proc y).p_pid) : x = y := by
  by_cases sameX : x = rpp
  · by_cases sameY : y = rpp
    · rw [sameX, sameY]
    · subst sameX
      rw [enter_of_ne sameY] at used' pids
      rw [enter_self] at pids
      exact absurd pids.symm (fresh y used')
  · rw [enter_of_ne sameX] at used pids
    by_cases sameY : y = rpp
    · subst sameY
      rw [enter_self] at pids
      exact absurd pids (fresh x used)
    · rw [enter_of_ne sameY] at used' pids
      exact orderly.pids x y used used' pids

/-- The new process is born behind all others. -/
theorem born_newproc (orderly : Orderly s g) {y : ℕ} (used : ((s.enter q m rpp).proc x).InUse)
    (used' : ((s.enter q m rpp).proc y).InUse)
    (same : (g.newproc q rpp).born x = (g.newproc q rpp).born y) : x = y := by
  by_cases sameX : x = rpp
  · by_cases sameY : y = rpp
    · rw [sameX, sameY]
    · subst sameX
      have before := orderly.births y (enter_of_ne sameY ▸ used')
      simp only [Names.newproc, update_self, update_of_ne sameY] at same
      omega
  · have before := orderly.births x (enter_of_ne sameX ▸ used)
    by_cases sameY : y = rpp
    · subst sameY
      simp only [Names.newproc, update_self, update_of_ne sameX] at same
      omega
    · simp only [Names.newproc, update_of_ne sameX, update_of_ne sameY] at same
      exact orderly.born x y (enter_of_ne sameX ▸ used) (enter_of_ne sameY ▸ used') same

/-- The group of the new process is that of its parent. -/
theorem group_newproc (orderly : Orderly s g) (live : (s.proc q).Live)
    (fresh : ∀ x, (s.proc x).InUse → (s.proc x).p_pgrp ≠ m) {y : ℕ}
    (used : ((s.enter q m rpp).proc x).InUse) (used' : ((s.enter q m rpp).proc y).InUse)
    (grouped : ((s.enter q m rpp).proc y).p_pgrp ≠ 0)
    (leads : ((s.enter q m rpp).proc x).p_pid = ((s.enter q m rpp).proc y).p_pgrp) :
    (g.newproc q rpp).born x = (g.newproc q rpp).leader y := by
  obtain ⟨z, usedZ, pgrp, leader⟩ : ∃ z, (s.proc z).InUse ∧
      ((s.enter q m rpp).proc y).p_pgrp = (s.proc z).p_pgrp ∧
      (g.newproc q rpp).leader y = g.leader z := by
    by_cases sameY : y = rpp
    · subst sameY
      exact ⟨q, live.1, by rw [enter_self], update_self _ _ _⟩
    · exact ⟨y, enter_of_ne sameY ▸ used', by rw [enter_of_ne sameY], update_of_ne sameY _ _⟩
  rw [pgrp] at grouped leads
  rw [leader]
  by_cases sameX : x = rpp
  · subst sameX
    rw [enter_self] at leads
    exact absurd leads.symm (fresh z usedZ)
  · rw [enter_of_ne sameX] at used leads
    exact (update_of_ne sameX _ _).trans (orderly.group x z used usedZ grouped leads)

/-- The new process is a child of its caller, and the others have the parents they had. -/
theorem parent_newproc (orderly : Orderly s g) (live : (s.proc q).Live)
    (absent : ¬(s.proc rpp).InUse) (used : ((s.enter q m rpp).proc x).InUse) (other : x ≠ 0) :
    ∃ y, ((s.enter q m rpp).proc y).InUse ∧ (g.newproc q rpp).born y = (g.newproc q rpp).parent x ∧
      ((s.enter q m rpp).proc y).p_pid = ((s.enter q m rpp).proc x).p_ppid ∧
      (((s.enter q m rpp).proc y).Live ∨ ((s.enter q m rpp).proc y).p_pid = 1) := by
  have unlike : ∀ y, (s.proc y).InUse → y ≠ rpp := by
    rintro y mine rfl
    exact absent mine
  by_cases same : x = rpp
  · subst same
    have caller := unlike q live.1
    refine ⟨q, ?_⟩
    rw [enter_self, enter_of_ne caller]
    exact ⟨live.1, by simp [Names.newproc, caller], rfl, .inl live⟩
  · rw [enter_of_ne same] at used ⊢
    obtain ⟨y, used', child, pid, parent⟩ := orderly.parent x used other
    have sameY := unlike y used'
    refine ⟨y, ?_⟩
    rw [enter_of_ne sameY]
    refine ⟨used', ?_, pid, parent⟩
    simpa [Names.newproc, same, sameY] using child

/-- Process 1 is the first that the scheduler makes. -/
theorem init_newproc (orderly : Orderly s g) (live : (s.proc q).Live)
    (absent : ¬(s.proc rpp).InUse) (zero : rpp ≠ 0)
    (next : Unused s.proc (s.mpid + 1) → s.mpid + 1 < 30000 → m = s.mpid + 1) :
    ∃ i, i ≠ 0 ∧ ((s.enter q m rpp).proc i).InUse ∧ ((s.enter q m rpp).proc i).p_pid = 1 ∧
      ((s.enter q m rpp).proc i).p_ppid = 0 ∧ (g.newproc q rpp).born i = 1 := by
  rcases orderly.init with ⟨one, first, nobody⟩ | ⟨i, other, used, pid, ppid, born⟩
  · refine ⟨rpp, zero, enter_inUse s q m rpp, ?_, ?_, ?_⟩
    · rw [enter_self]
      refine (next (fun x _ => ?_) (by omega)).trans (by rw [first])
      by_cases same : x = 0
      · rw [same, orderly.scheduler.2.1, orderly.scheduler.2.2.1]
        exact ⟨by omega, by omega⟩
      · obtain ⟨pid, -, pgrp⟩ := orderly.free x fun used => same (nobody x used)
        rw [pid, pgrp]
        exact ⟨by omega, by omega⟩
    · rw [enter_self, nobody q live.1]
      exact orderly.scheduler.2.1
    · exact (update_self _ _ _).trans one
  · have same : i ≠ rpp := by
      rintro rfl
      exact absent used
    refine ⟨i, other, ?_⟩
    rw [enter_of_ne same]
    exact ⟨used, pid, ppid, (update_of_ne same _ _).trans born⟩

/-- A new process. -/
theorem newproc (orderly : Orderly s g) (live : (s.proc q).Live) (below : rpp < NPROC)
    (free : (s.proc rpp).p_stat = .free) (pos : 0 < m) (small : m < 30000)
    (unused : Unused s.proc m)
    (next : Unused s.proc (s.mpid + 1) → s.mpid + 1 < 30000 → m = s.mpid + 1) :
    Orderly (s.enter q m rpp) (g.newproc q rpp) := by
  have absent : ¬(s.proc rpp).InUse := fun used => used free
  have zero : rpp ≠ 0 := by
    rintro rfl
    exact absent orderly.scheduler.1.1
  have fresh : ∀ x, (s.proc x).InUse → (s.proc x).p_pid ≠ m ∧ (s.proc x).p_pgrp ≠ m := fun x used =>
    unused x (List.mem_range.mpr (orderly.below x used))
  refine
    { scheduler := by rw [enter_of_ne zero.symm]; exact orderly.scheduler
      below := fun x used => ?_
      free := fun x unused => ?_
      range := fun x used other => ?_
      pids := fun x y => orderly.pids_newproc fun x used => (fresh x used).1
      births := fun x used => ?_
      born := fun x y => orderly.born_newproc
      group := fun x y => orderly.group_newproc live fun x used => (fresh x used).2
      parent := fun x => orderly.parent_newproc live absent
      init := .inr (orderly.init_newproc live absent zero next)
      first := Nat.succ_pos _
      mpid := small }
  · by_cases same : x = rpp
    · exact same ▸ below
    · exact orderly.below x (enter_of_ne same ▸ used)
  · by_cases same : x = rpp
    · exact absurd (same ▸ enter_inUse s q m rpp) unused
    · rw [enter_of_ne same] at unused ⊢
      exact orderly.free x unused
  · by_cases same : x = rpp
    · subst same
      rw [enter_self]
      exact ⟨pos, small⟩
    · rw [enter_of_ne same] at used ⊢
      exact orderly.range x used other
  · by_cases same : x = rpp
    · subst same
      simp [Names.newproc]
    · have before := orderly.births x (enter_of_ne same ▸ used)
      simp only [Names.newproc, update_of_ne same]
      omega

/-- What `exit` does to every slot. -/
theorem exit_proc (s : ProcTable) (live : (s.proc q).Live) (rv : ℤ) (x : ℕ) :
    ((s.exit q rv).proc x).p_pid = (s.proc x).p_pid ∧
    ((s.exit q rv).proc x).p_pgrp = (s.proc x).p_pgrp ∧
    ((s.exit q rv).proc x).p_ppid =
      (if (s.proc x).p_ppid = (s.proc q).p_pid then 1 else (s.proc x).p_ppid) ∧
    ((s.exit q rv).proc x).p_xstat = (if x = q then short rv else (s.proc x).p_xstat) ∧
    (((s.exit q rv).proc x).InUse ↔ (s.proc x).InUse) ∧
    (((s.exit q rv).proc x).Live ↔ (s.proc x).Live ∧ x ≠ q) ∧
    (((s.exit q rv).proc x).p_stat = .SZOMB ↔ (s.proc x).p_stat = .SZOMB ∨ x = q) := by
  by_cases same : x = q
  · subst same
    simp only [exit, update_self, reparent, Proc.InUse, Proc.Live]
    split_ifs <;> simp_all [live.1]
  · simp only [exit, update_of_ne same, reparent, Proc.InUse, Proc.Live, Proc.setrun]
    split_ifs <;> simp_all

/-- A process exits. -/
theorem exit (orderly : Orderly s g) (live : (s.proc q).Live) (other : q ≠ 0) (rv : ℤ) :
    Orderly (s.exit q rv) (g.exit q rv) := by
  have after := exit_proc s live rv
  have pid := fun x => (after x).1
  have pgrp := fun x => (after x).2.1
  have ppid := fun x => (after x).2.2.1
  have used := fun x => (after x).2.2.2.2.1
  have alive := fun x => (after x).2.2.2.2.2.1
  have mine := orderly.range q live.1 other
  constructor
  · obtain ⟨running, pid0, pgrp0, ppid0⟩ := orderly.scheduler
    rw [alive, pid, pgrp, ppid, ppid0, if_neg (Nat.ne_of_lt mine.1)]
    exact ⟨⟨running, other.symm⟩, pid0, pgrp0, rfl⟩
  · simpa only [used] using orderly.below
  · intro x unused
    rw [used] at unused
    rw [pid, pgrp, ppid]
    obtain ⟨zero, zero', zero''⟩ := orderly.free x unused
    rw [if_neg (by omega)]
    exact ⟨zero, zero', zero''⟩
  · simpa only [used, pid] using orderly.range
  · simpa only [used, pid] using orderly.pids
  · simpa only [used, Names.exit_births, Names.exit_born] using orderly.births
  · simpa only [used, Names.exit_born] using orderly.born
  · simpa only [used, pid, pgrp, Names.exit_born, Names.exit_leader] using orderly.group
  · intro x usedX otherX
    rw [used] at usedX
    obtain ⟨y, usedY, child, parent, may⟩ := orderly.parent x usedX otherX
    rw [ppid]
    by_cases here : y = q
    · -- the child goes to process 1
      subst here
      obtain ⟨i, _, usedI, pidI, _, bornI⟩ := orderly.exists_init usedX otherX
      refine ⟨i, (used i).mpr usedI, ?_, ?_, ?_⟩
      · simp [Names.exit, child, bornI]
      · rw [if_pos parent.symm, pid, pidI]
      · rw [pid]
        exact .inr pidI
    · have unlike : (s.proc x).p_ppid ≠ (s.proc q).p_pid := by
        rw [← parent]
        exact fun same => here (orderly.pids y q usedY live.1 same)
      have unlike' : g.parent x ≠ g.born q := by
        rw [← child]
        exact fun same => here (orderly.born y q usedY live.1 same)
      refine ⟨y, (used y).mpr usedY, ?_, ?_, ?_⟩
      · simpa [Names.exit, unlike'] using child
      · rw [if_neg unlike, pid, parent]
      · rw [alive, pid]
        exact may.imp_left fun liveY => ⟨liveY, here⟩
  · refine orderly.init.imp (fun ⟨one, first, nobody⟩ => ⟨one, first, fun x usedX => ?_⟩)
      fun ⟨i, otherI, usedI, pidI, ppidI, bornI⟩ => ⟨i, otherI, (used i).mpr usedI, ?_, ?_, bornI⟩
    · exact nobody x ((used x).mp usedX)
    · rw [pid, pidI]
    · rw [ppid, if_neg (by omega), ppidI]
  · exact orderly.first
  · exact orderly.mpid

/-- A slot is freed. -/
theorem free_slot (orderly : Orderly s g) (zombie : (s.proc x).p_stat = .SZOMB)
    (child : (s.proc x).p_ppid ≠ 0) :
    Orderly { s with proc := update s.proc x { s.proc x with
      p_pid := 0, p_ppid := 0, p_pgrp := 0, p_sig := 0, p_flag := 0, p_stat := .free } } g := by
  have usedX : (s.proc x).InUse := by
    rw [Proc.InUse, zombie]
    simp
  have deadX : ¬(s.proc x).Live := fun live => live.2 zombie
  generalize here : ({ s with proc := update s.proc x { s.proc x with
    p_pid := 0, p_ppid := 0, p_pgrp := 0, p_sig := 0, p_flag := 0
    p_stat := .free } } : ProcTable) = s'
  have mpid : s'.mpid = s.mpid := by rw [← here]
  have gone : s'.proc x = { s.proc x with
      p_pid := 0, p_ppid := 0, p_pgrp := 0, p_sig := 0, p_flag := 0, p_stat := .free } := by
    rw [← here]
    exact update_self _ _ _
  have there : ∀ y, y ≠ x → s'.proc y = s.proc y := fun y other => by
    rw [← here]
    exact update_of_ne other _ _
  have unused : ¬(s'.proc x).InUse := by
    rw [gone]
    simp [Proc.InUse]
  have before : ∀ y, (s'.proc y).InUse → y ≠ x ∧ (s.proc y).InUse ∧ s'.proc y = s.proc y := by
    intro y used
    have other : y ≠ x := by
      rintro rfl
      exact unused used
    exact ⟨other, there y other ▸ used, there y other⟩
  have zero : (0 : ℕ) ≠ x := by
    rintro rfl
    exact deadX orderly.scheduler.1
  refine ⟨?_, ?_, ?_, ?_, ?_, ?_, ?_, ?_, ?_, ?_, orderly.first, mpid ▸ orderly.mpid⟩
  · rw [there 0 zero]
    exact orderly.scheduler
  · exact fun y used => orderly.below y (before y used).2.1
  · intro y unusedY
    by_cases same : y = x
    · subst same
      rw [gone]
      exact ⟨rfl, rfl, rfl⟩
    · rw [there y same] at unusedY ⊢
      exact orderly.free y unusedY
  · intro y used other
    obtain ⟨_, used, same⟩ := before y used
    rw [same]
    exact orderly.range y used other
  · intro y z usedY usedZ pids
    obtain ⟨_, usedY, sameY⟩ := before y usedY
    obtain ⟨_, usedZ, sameZ⟩ := before z usedZ
    rw [sameY, sameZ] at pids
    exact orderly.pids y z usedY usedZ pids
  · exact fun y used => orderly.births y (before y used).2.1
  · exact fun y z usedY usedZ => orderly.born y z (before y usedY).2.1 (before z usedZ).2.1
  · intro y z usedY usedZ grouped leads
    obtain ⟨_, usedY, sameY⟩ := before y usedY
    obtain ⟨_, usedZ, sameZ⟩ := before z usedZ
    rw [sameZ] at grouped leads
    rw [sameY] at leads
    exact orderly.group y z usedY usedZ grouped leads
  · intro y used other
    obtain ⟨_, used, same⟩ := before y used
    obtain ⟨z, usedZ, born, pid, may⟩ := orderly.parent y used other
    -- a zombie is nobody's parent, except process 1, which is nobody's child
    have alive : z ≠ x := by
      rintro rfl
      rcases may with live | one
      · exact deadX live
      · obtain ⟨i, _, usedI, pidI, ppidI, _⟩ := orderly.exists_init used other
        obtain rfl := orderly.pids z i usedX usedI (one.trans pidI.symm)
        exact child ppidI
    refine ⟨z, ?_⟩
    rw [same, there z alive]
    exact ⟨usedZ, born, pid, may⟩
  · rw [mpid]
    refine orderly.init.imp (fun ⟨one, first, nobody⟩ => ⟨one, first, fun y used => ?_⟩)
      fun ⟨i, other, used, pid, ppid, born⟩ => ⟨i, other, ?_⟩
    · exact nobody y (before y used).2.1
    · have alive : i ≠ x := by
        rintro rfl
        exact child ppid
      rw [there i alive]
      exact ⟨used, pid, ppid, born⟩

/-- A process waits. -/
theorem wait (orderly : Orderly s g) (live : (s.proc q).Live) (other : q ≠ 0) :
    Orderly (s.wait q).2 (g.wait q (s.wait q).1) := by
  have found := waitScan_spec s.proc (s.proc q).p_pid slots false
  have mine := orderly.range q live.1 other
  rw [ProcTable.wait]
  generalize waitScan s.proc (s.proc q).p_pid slots false = answer at found ⊢
  cases answer with
  | exited x pid status =>
      obtain ⟨-, child, zombie, -⟩ := found
      have freed := orderly.free_slot zombie (by omega)
      exact ⟨freed.scheduler, freed.below, freed.free, freed.range, freed.pids, freed.births,
        freed.born, freed.group, freed.parent, freed.init, freed.first, freed.mpid⟩
  | stopped x pid status =>
      refine orderly.congr rfl (fun y => ?_) (fun y => ?_) fun y => ?_
      · by_cases same : y = x <;> simp [same]
      · by_cases same : y = x <;> simp [same, Proc.InUse]
      · by_cases same : y = x <;> simp [same, Proc.Live]
  | sleep => exact orderly
  | echild => exact orderly

/-- A process becomes the leader of a group. -/
theorem lead (orderly : Orderly s g) (live : (s.proc q).Live) (other : q ≠ 0) :
    Orderly (s.lead q) (g.lead q) := by
  have pid : ∀ x, ((s.lead q).proc x).p_pid = (s.proc x).p_pid ∧
      ((s.lead q).proc x).p_ppid = (s.proc x).p_ppid := by
    intro x
    by_cases same : x = q <;> simp [ProcTable.lead, same]
  have used : ∀ x, ((s.lead q).proc x).InUse ↔ (s.proc x).InUse := by
    intro x
    by_cases same : x = q <;> simp [ProcTable.lead, same, Proc.InUse]
  have alive : ∀ x, ((s.lead q).proc x).Live ↔ (s.proc x).Live := by
    intro x
    by_cases same : x = q <;> simp [ProcTable.lead, same, Proc.Live]
  have pgrp : ∀ x, x ≠ q → ((s.lead q).proc x).p_pgrp = (s.proc x).p_pgrp := by
    intro x same
    simp [ProcTable.lead, same]
  constructor
  · rw [alive, (pid 0).1, (pid 0).2, pgrp 0 other.symm]
    exact orderly.scheduler
  · simpa only [used] using orderly.below
  · intro x unused
    rw [used] at unused
    have away : x ≠ q := by
      rintro rfl
      exact unused live.1
    rw [(pid x).1, (pid x).2, pgrp x away]
    exact orderly.free x unused
  · simpa only [used, pid] using orderly.range
  · simpa only [used, pid] using orderly.pids
  · simpa only [used, Names.lead_births, Names.lead_born] using orderly.births
  · simpa only [used, Names.lead_born] using orderly.born
  · intro x y usedX usedY grouped leads
    rw [used] at usedX usedY
    rw [(pid x).1] at leads
    by_cases same : y = q
    · subst same
      have own : ((s.lead y).proc y).p_pgrp = (s.proc y).p_pid := by simp [ProcTable.lead]
      rw [own] at leads
      obtain rfl := orderly.pids x y usedX usedY leads
      simp [Names.lead]
    · rw [pgrp y same] at grouped leads
      simpa [Names.lead, same] using orderly.group x y usedX usedY grouped leads
  · simpa only [used, pid, alive, Names.lead_born, Names.lead_parent] using orderly.parent
  · simpa only [used, pid, lead_mpid, Names.lead_births, Names.lead_born] using orderly.init
  · exact orderly.first
  · exact orderly.mpid

/-- Anything else leaves the ids alone. -/
theorem other {stat : Stat} (orderly : Orderly s g) (used : (s.proc q).InUse)
    (turn : stat = (s.proc q).p_stat ∨ (s.proc q).Live ∧ stat ≠ .free ∧ stat ≠ .SZOMB)
    (flag : BitVec 8) (sig : ℕ) : Orderly (s.other q stat flag sig) g := by
  refine orderly.congr rfl (fun x => ?_) (fun x => ?_) fun x => ?_
  · by_cases same : x = q <;> simp [ProcTable.other, same]
  · by_cases same : x = q
    · subst same
      rcases turn with rfl | ⟨live, real, -⟩
      · simp [ProcTable.other, Proc.InUse]
      · simpa [ProcTable.other, Proc.InUse, real] using live.1
    · simp [ProcTable.other, same]
  · by_cases same : x = q
    · subst same
      rcases turn with rfl | ⟨live, real, dead⟩
      · simp [ProcTable.other, Proc.Live]
      · simpa [ProcTable.other, Proc.Live, real, dead] using live
    · simp [ProcTable.other, same]

theorem of_run (run : Run s g) : Orderly s g := by
  induction run with
  | boot => exact start
  | @newproc s s' g q x rpp _ live below free settles ih =>
      obtain ⟨rpp', m, settles', inside, free', pos, small, unused, next⟩ :=
        newproc_settles s q below free ih.mpid
      obtain ⟨rfl, rfl⟩ := Prod.mk.inj (Option.some.inj (settles.unique settles'))
      exact ih.newproc live inside free' pos small unused fun new less => next less new
  | exit rv _ live other ih => exact ih.exit live other rv
  | wait _ live other ih => exact ih.wait live other
  | lead _ live other _ ih => exact ih.lead live other
  | other flag sig _ used turn ih => exact ih.other used turn flag sig

end Orderly

/-! ## The statuses -/

namespace Settled

theorem start : Settled boot .boot := by
  refine ⟨.nil, fun e => ?_, .nil, fun r mem => (nomatch mem), fun r mem => nomatch mem⟩
  have nobody : ∀ x, (boot.proc x).p_stat ≠ .SZOMB := by
    intro x
    by_cases same : x = 0 <;> simp [boot, same]
  simp [Names.boot, nobody]

/-- The statuses do not depend on what else happens to a process. -/
theorem congr (settled : Settled s g) (used : ∀ x, (s'.proc x).InUse ↔ (s.proc x).InUse)
    (zombie : ∀ x, (s'.proc x).p_stat = .SZOMB ↔ (s.proc x).p_stat = .SZOMB)
    (status : ∀ x, (s'.proc x).p_xstat = (s.proc x).p_xstat) : Settled s' g where
  exits := settled.exits
  exited := by simpa only [zombie, status] using settled.exited
  once := settled.once
  gone := by simpa only [used] using settled.gone
  parent := settled.parent

theorem newproc (settled : Settled s g) (free : (s.proc rpp).p_stat = .free) :
    Settled (s.enter q m rpp) (g.newproc q rpp) := by
  have there : ∀ x, x ≠ rpp → (s.enter q m rpp).proc x = s.proc x := fun x other =>
    update_of_ne other _ _
  have born : ∀ x, x ≠ rpp → (g.newproc q rpp).born x = g.born x := fun x other =>
    update_of_ne other _ _
  refine ⟨settled.exits, fun e => (settled.exited e).trans (or_congr_left ?_), settled.once,
    fun r mem => ?_, settled.parent⟩
  · constructor
    · rintro ⟨x, zombie, rfl⟩
      have other : x ≠ rpp := by
        rintro rfl
        rw [free] at zombie
        cases zombie
      exact ⟨x, by rw [there x other, zombie], by rw [there x other, born x other]⟩
    · rintro ⟨x, zombie, rfl⟩
      have other : x ≠ rpp := by
        rintro rfl
        simp [enter] at zombie
      rw [there x other] at zombie
      exact ⟨x, zombie, by rw [there x other, born x other]⟩
  · obtain ⟨old, absent⟩ := settled.gone r mem
    refine ⟨Nat.lt_succ_of_lt old, fun x used => ?_⟩
    by_cases same : x = rpp
    · subst same
      simp only [Names.newproc, update_self]
      omega
    · rw [born x same]
      exact absent x (there x same ▸ used)

theorem exit (settled : Settled s g) (orderly : Orderly s g) (live : (s.proc q).Live) (rv : ℤ) :
    Settled (s.exit q rv) (g.exit q rv) := by
  have after := Orderly.exit_proc s live rv
  have status := fun x => (after x).2.2.2.1
  have used := fun x => (after x).2.2.2.2.1
  have zombie := fun x => (after x).2.2.2.2.2.2
  have unlike : ∀ x, (s.proc x).p_stat = .SZOMB → x ≠ q := by
    rintro x dead rfl
    exact live.2 dead
  refine ⟨?_, fun e => ?_, settled.once, fun r mem => ?_, settled.parent⟩
  · refine List.nodup_cons.mpr ⟨fun mem => ?_, settled.exits⟩
    obtain ⟨e, mem, here⟩ := List.mem_map.mp mem
    rcases (settled.exited e).mp mem with ⟨x, dead, rfl⟩ | ⟨r, told, rfl⟩
    · have usedX : (s.proc x).InUse := by
        rw [Proc.InUse, dead]
        simp
      exact unlike x dead (orderly.born x q usedX live.1 here)
    · exact (settled.gone r told).2 q live.1 here.symm
  · change e ∈ (g.born q, short rv) :: g.exited ↔ _
    rw [List.mem_cons, settled.exited e, ← or_assoc]
    refine or_congr_left ?_
    constructor
    · rintro (rfl | ⟨x, dead, rfl⟩)
      · exact ⟨q, (zombie q).mpr (.inr rfl), by rw [status, if_pos rfl, Names.exit_born]⟩
      · refine ⟨x, (zombie x).mpr (.inl dead), ?_⟩
        rw [status, if_neg (unlike x dead), Names.exit_born]
    · rintro ⟨x, dead, rfl⟩
      rw [status, Names.exit_born]
      rcases (zombie x).mp dead with dead | rfl
      · rw [if_neg (unlike x dead)]
        exact .inr ⟨x, dead, rfl⟩
      · rw [if_pos rfl]
        exact .inl rfl
  · obtain ⟨old, absent⟩ := settled.gone r mem
    exact ⟨old, fun x usedX => absent x ((used x).mp usedX)⟩

/-- The parent of a zombie gets its status. -/
theorem free_slot (settled : Settled s g) (orderly : Orderly s g) (live : (s.proc q).Live)
    (other : q ≠ 0) (zombie : (s.proc x).p_stat = .SZOMB)
    (child : (s.proc x).p_ppid = (s.proc q).p_pid) :
    Settled { s with proc := update s.proc x { s.proc x with
      p_pid := 0, p_ppid := 0, p_pgrp := 0, p_sig := 0, p_flag := 0, p_stat := .free } }
      { g with returned :=
          ⟨g.born x, (s.proc x).p_xstat, g.parent x, g.born q⟩ :: g.returned } := by
  have usedX : (s.proc x).InUse := by
    rw [Proc.InUse, zombie]
    simp
  have mine := orderly.range q live.1 other
  refine ⟨settled.exits, fun e => (settled.exited e).trans ?_, ?_, fun r mem => ?_, fun r mem => ?_⟩
  · constructor
    · rintro (⟨y, dead, rfl⟩ | ⟨r, mem, rfl⟩)
      · by_cases same : y = x
        · subst same
          exact .inr ⟨_, List.mem_cons_self, rfl⟩
        · exact .inl ⟨y, by simp [same, dead], by simp [same]⟩
      · exact .inr ⟨r, List.mem_cons_of_mem _ mem, rfl⟩
    · rintro (⟨y, dead, rfl⟩ | ⟨r, mem, rfl⟩)
      · by_cases same : y = x
        · simp [same] at dead
        · refine .inl ⟨y, ?_, ?_⟩
          · simpa [same] using dead
          · simp [same]
      · rcases List.mem_cons.mp mem with rfl | mem
        · exact .inl ⟨x, zombie, rfl⟩
        · exact .inr ⟨r, mem, rfl⟩
  · refine List.nodup_cons.mpr ⟨fun mem => ?_, settled.once⟩
    obtain ⟨r, mem, here⟩ := List.mem_map.mp mem
    exact (settled.gone r mem).2 x usedX here.symm
  · have before : ∀ y, (update s.proc x { s.proc x with
        p_pid := 0, p_ppid := 0, p_pgrp := 0, p_sig := 0, p_flag := 0, p_stat := .free } y).InUse →
        y ≠ x ∧ (s.proc y).InUse := by
      intro y used
      by_cases same : y = x
      · simp [same, Proc.InUse] at used
      · exact ⟨same, by simpa [same] using used⟩
    rcases List.mem_cons.mp mem with rfl | mem
    · exact ⟨orderly.births x usedX, fun y used same =>
        (before y used).1 (orderly.born y x (before y used).2 usedX same)⟩
    · obtain ⟨old, absent⟩ := settled.gone r mem
      exact ⟨old, fun y used => absent y (before y used).2⟩
  · rcases List.mem_cons.mp mem with rfl | mem
    · have notScheduler : x ≠ 0 := by
        rintro rfl
        exact orderly.scheduler.1.2 zombie
      obtain ⟨y, used, born, pid, -⟩ := orderly.parent x usedX notScheduler
      obtain rfl := orderly.pids y q used live.1 (pid.trans child)
      exact born.symm
    · exact settled.parent r mem

theorem wait (settled : Settled s g) (orderly : Orderly s g) (live : (s.proc q).Live)
    (other : q ≠ 0) :
    Settled (s.wait q).2 (g.wait q (s.wait q).1) := by
  have found := waitScan_spec s.proc (s.proc q).p_pid slots false
  rw [ProcTable.wait]
  generalize waitScan s.proc (s.proc q).p_pid slots false = answer at found ⊢
  cases answer with
  | exited x pid status =>
      obtain ⟨-, child, zombie, -, rfl⟩ := found
      exact settled.free_slot orderly live other zombie child
  | stopped x pid status =>
      refine settled.congr (fun y => ?_) (fun y => ?_) fun y => ?_
      · by_cases same : y = x <;> simp [same, Proc.InUse]
      · by_cases same : y = x <;> simp [same]
      · by_cases same : y = x <;> simp [same]
  | sleep => exact settled
  | echild => exact settled

theorem of_run (run : Run s g) : Settled s g := by
  induction run with
  | boot => exact start
  | @newproc s s' g q x rpp run live below free settles ih =>
      obtain ⟨rpp', m, settles', inside, free', -⟩ :=
        newproc_settles s q below free (Orderly.of_run run).mpid
      obtain ⟨rfl, rfl⟩ := Prod.mk.inj (Option.some.inj (settles.unique settles'))
      exact ih.newproc free'
  | exit rv run live other ih => exact ih.exit (Orderly.of_run run) live rv
  | wait run live other ih => exact ih.wait (Orderly.of_run run) live other
  | @lead s g q _ _ _ _ ih =>
      have kept : Settled (s.lead q) g := by
        refine ih.congr (fun y => ?_) (fun y => ?_) fun y => ?_
        · by_cases same : y = q <;> simp [ProcTable.lead, same, Proc.InUse]
        · by_cases same : y = q <;> simp [ProcTable.lead, same]
        · by_cases same : y = q <;> simp [ProcTable.lead, same]
      exact ⟨kept.exits, kept.exited, kept.once, kept.gone, kept.parent⟩
  | @other s g q stat flag sig _ used turn ih =>
      refine ih.congr (fun y => ?_) (fun y => ?_) fun y => ?_
      · by_cases same : y = q
        · subst same
          rcases turn with rfl | ⟨live, real, -⟩
          · simp [ProcTable.other, Proc.InUse]
          · simpa [ProcTable.other, Proc.InUse, real] using live.1
        · simp [ProcTable.other, same]
      · by_cases same : y = q
        · subst same
          rcases turn with rfl | ⟨live, -, dead⟩
          · simp [ProcTable.other]
          · simpa [ProcTable.other, dead] using live.2
        · simp [ProcTable.other, same]
      · by_cases same : y = q <;> simp [ProcTable.other, same]

end Settled

/-- Through any sequence of `newproc`, `exit` and `wait` the ids of processes are from 1 to 29999,
and 0 for the scheduler only, no two processes have the same one, and none has that of a group
whose leader is gone; the search for an id ends; a process is the child of one that has not exited,
or of process 1; a status is returned once, to the parent at that time, and a parent that waits
does not miss a zombie. -/
theorem identities_of_run (run : Run s g) :
    (∀ x, (s.proc x).InUse → if x = 0 then (s.proc x).p_pid = 0
      else 1 ≤ (s.proc x).p_pid ∧ (s.proc x).p_pid ≤ 29999) ∧
    (∀ x y, (s.proc x).InUse → (s.proc y).InUse → (s.proc x).p_pid = (s.proc y).p_pid → x = y) ∧
    (∀ x y, (s.proc x).InUse → (s.proc y).InUse → (s.proc y).p_pgrp ≠ 0 →
      (s.proc x).p_pid = (s.proc y).p_pgrp → g.born x = g.leader y) ∧
    (∀ q x, x < NPROC → (s.proc x).p_stat = .free → ∃ rpp s',
      Fuel.Settles (fun fuel => s.newproc q fuel) (some (rpp, s'))) ∧
    (∀ x, (s.proc x).InUse → (s.proc x).p_ppid = 1 ∨
      ∃ y, (s.proc y).Live ∧ (s.proc y).p_pid = (s.proc x).p_ppid) ∧
    Settled s g ∧
    ∀ q x, (s.proc q).Live → x < NPROC → (s.proc x).p_stat = .SZOMB → g.parent x = g.born q →
      x ≠ 0 → ∃ y pid status, (s.wait q).1 = .exited y pid status ∨
        (s.wait q).1 = .stopped y pid status := by
  have orderly := Orderly.of_run run
  refine ⟨fun x used => ?_, orderly.pids, orderly.group, fun q x below free => ?_, fun x used => ?_,
    Settled.of_run run, fun q x live below zombie mine other => ?_⟩
  · split_ifs with same
    · rw [same]
      exact orderly.scheduler.2.1
    · have range := orderly.range x used same
      omega
  · obtain ⟨rpp, m, settles, -⟩ := newproc_settles s q below free orderly.mpid
    exact ⟨rpp, _, settles⟩
  · by_cases same : x = 0
    · rw [same]
      exact .inr ⟨0, orderly.scheduler.1, orderly.scheduler.2.1.trans orderly.scheduler.2.2.2.symm⟩
    · obtain ⟨y, -, -, pid, live | one⟩ := orderly.parent x used same
      · exact .inr ⟨y, live, pid⟩
      · exact .inl (pid.symm.trans one)
  · have used : (s.proc x).InUse := by
      rw [Proc.InUse, zombie]
      simp
    obtain ⟨y, usedY, born, pid, -⟩ := orderly.parent x used other
    obtain rfl := orderly.born y q usedY live.1 (born.trans mine)
    have found := waitScan_spec s.proc (s.proc y).p_pid slots false
    have slot : x ∈ slots := List.mem_range.mpr below
    rw [ProcTable.wait]
    generalize waitScan s.proc (s.proc y).p_pid slots false = answer at found ⊢
    cases answer with
    | exited z pid' status => exact ⟨z, pid', status, .inl rfl⟩
    | stopped z pid' status => exact ⟨z, pid', status, .inr rfl⟩
    | sleep => exact absurd zombie (found x slot pid.symm)
    | echild => exact absurd zombie (found x slot pid.symm)

set_option maxRecDepth 2000 in
/-- Process 1 creates a process, which exits, and is told its status. -/
theorem identities_one_child : ∃ s g, Run s g ∧ g.exited = [(2, 768)] ∧
    g.returned = [⟨2, 768, 1, 1⟩] ∧ (s.proc 1).p_pid = 1 ∧
    (∀ x y, (s.proc x).InUse → (s.proc y).InUse → (s.proc x).p_pid = (s.proc y).p_pid → x = y) := by
  have forked : ∀ (s : ProcTable) (q m rpp : ℕ), s.mpid + 1 = m →
      scan s.proc m slots none = (some rpp, false) → m < 30000 →
      Fuel.Settles (fun fuel => s.newproc q fuel) (some (rpp, s.enter q m rpp)) := by
    rintro s q m rpp rfl found small
    refine ⟨1, fun fuel enough => ?_⟩
    obtain ⟨fuel, rfl⟩ := Nat.exists_eq_add_of_le' enough
    simp only [ProcTable.newproc, search, if_neg (Nat.not_le.mpr small), found]
    rfl
  have live : ∀ p : Proc, p.p_stat = .SRUN → p.Live := by
    intro p running
    simp [Proc.Live, running]
  have init := Run.boot.newproc (q := 0) (x := 1) (live _ rfl) (by decide) rfl
    (forked boot 0 1 1 rfl (by rfl) (by decide))
  have child := init.newproc (q := 1) (x := 2) (live _ rfl) (by decide) rfl
    (forked _ 1 2 2 rfl (by rfl) (by decide))
  have dead := child.exit (q := 2) 768 (live _ rfl) (by decide)
  have told := dead.wait (q := 1) (live _ rfl) (by decide)
  exact ⟨_, _, told, rfl, rfl, rfl, (identities_of_run told).2.1⟩

end ProcTable

end UnixV7
