import UnixV7.Kernel.Malloc
import UnixV7.Library.Fuel
import Mathlib.Data.Finset.Card
import Mathlib.Order.Interval.Finset.Nat

/-!
# The process table

`newproc` searches for a process id that no slot has, as its own or as that of its group, and
enters the new process in the first free slot; `exit` leaves a zombie and gives its children to
process 1; `wait` looks for a zombie among the children and frees its slot.
-/

namespace UnixV7

open Function

namespace ProcTable

/-- Stat codes. -/
inductive Stat
  | free
  | SSLEEP
  | SWAIT
  | SRUN
  | SIDL
  | SZOMB
  | SSTOP
  deriving DecidableEq

def SLOAD : BitVec 8 := 0o1

def STRC : BitVec 8 := 0o20

def SWTED : BitVec 8 := 0o40

def SULOCK : BitVec 8 := 0o100

def NSIG : ℕ := 17

/-- A slot of the process table. -/
structure Proc where
  p_stat : Stat
  p_flag : BitVec 8
  p_sig : ℕ
  p_pgrp : ℕ
  p_pid : ℕ
  p_ppid : ℕ
  p_xstat : ℤ

namespace Proc

/-- There is a process, perhaps a zombie. -/
def InUse (p : Proc) : Prop := p.p_stat ≠ .free

/-- The process has not exited. -/
def Live (p : Proc) : Prop := p.p_stat ≠ .free ∧ p.p_stat ≠ .SZOMB

/-- `setrun` of a stopped process. -/
def setrun (p : Proc) : Proc := { p with p_stat := .SRUN }

/-- `fsig`: the lowest signal that is pending. -/
def fsig (p : Proc) : ℕ :=
  ((List.range NSIG).find? fun i => i ≠ 0 ∧ p.p_sig.testBit (i - 1)).getD 0

end Proc

end ProcTable

/-- The process table and the process id that was given out last. -/
structure ProcTable where
  proc : ℕ → ProcTable.Proc
  mpid : ℕ

namespace ProcTable

/-- A number as it is kept in a `short`. -/
def short (n : ℤ) : ℤ := n.bmod (2 ^ 16)

/-- What `wait` finds in one search: the slot of a zombie or of a stopped child, with the values
that are returned, a reason to sleep, or `ECHILD`. -/
inductive Waited
  | exited (p : ℕ) (r_val1 : ℕ) (r_val2 : ℤ)
  | stopped (p : ℕ) (r_val1 : ℕ) (r_val2 : ℤ)
  | sleep
  | echild

/-- The slots in their order. -/
def slots : List ℕ := List.range NPROC

/-- The loop over the slots in `newproc`: the free slot it remembers, and whether it leaves for
another process id. -/
def scan (proc : ℕ → Proc) (mpid : ℕ) : List ℕ → Option ℕ → Option ℕ × Bool
  | [], p => (p, false)
  | rpp :: rest, p =>
      let p := if (proc rpp).p_stat = .free ∧ p = none then some rpp else p
      if (proc rpp).p_pid = mpid ∨ (proc rpp).p_pgrp = mpid then (p, true)
      else scan proc mpid rest p

/-- The search of `newproc`, from the label `retry` on. -/
def search (proc : ℕ → Proc) : ℕ → ℕ → Option ℕ → Except Unit (ℕ × Option ℕ)
  | 0, _, _ => .error ()
  | fuel + 1, mpid, p =>
      let mpid := mpid + 1
      if 30000 ≤ mpid then
        search proc fuel 0 p
      else
        match scan proc mpid slots p with
        | (p, true) => search proc fuel mpid p
        | (p, false) => .ok (mpid, p)

/-- The entry of the new process: slot `rpp` for a child of process `q`. -/
def enter (s : ProcTable) (q mpid rpp : ℕ) : ProcTable where
  proc := update s.proc rpp { s.proc rpp with
    p_stat := .SRUN
    p_flag := SLOAD
    p_pgrp := (s.proc q).p_pgrp
    p_pid := mpid
    p_ppid := (s.proc q).p_pid }
  mpid := mpid

/-- `newproc` by process `q`: the slot of the new process; `none` stands for the panic "no
procs". -/
def newproc (s : ProcTable) (q fuel : ℕ) : Except Unit (Option (ℕ × ProcTable)) := do
  let (mpid, p) ← search s.proc fuel s.mpid none
  pure (p.map fun rpp => (rpp, s.enter q mpid rpp))

/-- What `exit` does to the slots of other processes: the children of `pid` are given to
process 1, and those that are stopped run again. -/
def reparent (pid : ℕ) (p : Proc) : Proc :=
  if p.p_ppid = pid then
    let p := { p with p_ppid := 1 }
    if p.p_stat = .SSTOP then p.setrun else p
  else p

/-- `exit` of process `q`. -/
def exit (s : ProcTable) (q : ℕ) (rv : ℤ) : ProcTable :=
  let p := s.proc q
  let p := { p with
    p_flag := p.p_flag &&& ~~~(STRC ||| SULOCK)
    p_stat := .SZOMB
    p_xstat := short rv }
  { s with proc := fun x => reparent p.p_pid (update s.proc q p x) }

/-- The loop over the slots in `wait`; `f` says whether there are children. -/
def waitScan (proc : ℕ → Proc) (pid : ℕ) : List ℕ → Bool → Waited
  | [], f => if f then .sleep else .echild
  | p :: rest, f =>
      if (proc p).p_ppid = pid then
        if (proc p).p_stat = .SZOMB then .exited p (proc p).p_pid (proc p).p_xstat
        else if (proc p).p_stat = .SSTOP ∧ (proc p).p_flag &&& SWTED = 0 then
          .stopped p (proc p).p_pid ((proc p).fsig * 256 + 0o177)
        else waitScan proc pid rest true
      else waitScan proc pid rest f

/-- One search of `wait` by process `q`. -/
def wait (s : ProcTable) (q : ℕ) : Waited × ProcTable :=
  let found := waitScan s.proc (s.proc q).p_pid slots false
  match found with
  | .exited p _ _ =>
      (found, { s with proc := update s.proc p { s.proc p with
        p_pid := 0, p_ppid := 0, p_pgrp := 0, p_sig := 0, p_flag := 0, p_stat := .free } })
  | .stopped p _ _ =>
      (found, { s with proc := update s.proc p { s.proc p with
        p_flag := (s.proc p).p_flag ||| SWTED } })
  | _ => (found, s)

/-! ## The search for a process id -/

variable {proc : ℕ → Proc} {m w fuel : ℕ} {p : Option ℕ} {l : List ℕ}

/-- No slot has the number as process id or as that of its group. -/
def Unused (proc : ℕ → Proc) (m : ℕ) : Prop :=
  ∀ x ∈ slots, (proc x).p_pid ≠ m ∧ (proc x).p_pgrp ≠ m

/-- The first free slot. -/
def freeSlot (proc : ℕ → Proc) : Option ℕ := slots.find? fun x => (proc x).p_stat = .free

theorem scan_spec (proc : ℕ → Proc) (m : ℕ) (l : List ℕ) (p : Option ℕ) :
    (scan proc m l p = (p.or (l.find? fun x => (proc x).p_stat = .free), false) ∧
      ∀ x ∈ l, (proc x).p_pid ≠ m ∧ (proc x).p_pgrp ≠ m) ∨
    ((scan proc m l p = (p, true) ∨
      scan proc m l p = (p.or (l.find? fun x => (proc x).p_stat = .free), true)) ∧
      ∃ x ∈ l, (proc x).p_pid = m ∨ (proc x).p_pgrp = m) := by
  induction l generalizing p with
  | nil => simp [scan]
  | cons rpp l ih =>
      have first : (if (proc rpp).p_stat = .free ∧ p = none then some rpp else p) =
          if (proc rpp).p_stat = .free then p.or (some rpp) else p := by
        cases p <;> simp
      rw [scan, first, List.find?_cons]
      by_cases free : (proc rpp).p_stat = .free
      · by_cases taken : (proc rpp).p_pid = m ∨ (proc rpp).p_pgrp = m
        · simp [free, taken]
        · rw [not_or] at taken
          rcases ih (p.or (some rpp)) with done | ⟨here, again⟩
          · left
            simpa [free, taken, Option.or_assoc] using done
          · right
            refine ⟨.inr ?_, by simpa [taken] using again⟩
            simpa [free, taken, Option.or_assoc] using here
      · by_cases taken : (proc rpp).p_pid = m ∨ (proc rpp).p_pgrp = m
        · simp [free, taken]
        · have rest := ih p
          rw [not_or] at taken
          simpa [free, taken] using rest

/-- The steps that a search needs to come from `m` to `w`. -/
def away (m w : ℕ) : ℕ := if m < w then w - m else 30000 - m + w

/-- If there is a number that no slot has, the search finds such a number, and the first free
slot. -/
theorem search_settles (proc : ℕ → Proc) (low : 0 < w) (high : w < 30000) (unused : Unused proc w)
    (m : ℕ) (small : m < 30000) (p : Option ℕ) (slot : p = none ∨ p = freeSlot proc) :
    ∃ mpid, Fuel.Settles (fun fuel => search proc fuel m p) (mpid, freeSlot proc) ∧
      0 < mpid ∧ mpid < 30000 ∧ Unused proc mpid ∧
      (m + 1 < 30000 → Unused proc (m + 1) → mpid = m + 1) := by
  induction hd : away m w using Nat.strongRecOn generalizing m p with
  | ind d ih =>
      by_cases wrap : 30000 ≤ m + 1
      · -- the counter starts again
        have next := ih (away 0 w) (by rw [← hd, away, away, if_pos low]; split_ifs <;> omega) 0
          (by decide) p slot rfl
        obtain ⟨mpid, settles, pos, below, new, -⟩ := next
        refine ⟨mpid, settles.succ fun fuel => ?_, pos, below, new, fun less => by omega⟩
        simp [search, wrap]
      · rcases scan_spec proc (m + 1) slots p with ⟨done, new⟩ | ⟨again, x, mem, taken⟩
        · have found : p.or (freeSlot proc) = freeSlot proc := by
            rcases slot with rfl | rfl <;> simp
          rw [← freeSlot, found] at done
          refine ⟨m + 1, ⟨1, fun fuel enough => ?_⟩, Nat.succ_pos m, by omega, new, fun _ _ => rfl⟩
          obtain ⟨fuel, rfl⟩ := Nat.exists_eq_add_of_le' enough
          simp [search, wrap, done]
        · obtain ⟨p', left, slot'⟩ : ∃ p', scan proc (m + 1) slots p = (p', true) ∧
              (p' = none ∨ p' = freeSlot proc) := by
            rcases again with here | here
            · exact ⟨p, here, slot⟩
            · refine ⟨_, here, .inr ?_⟩
              rcases slot with rfl | rfl <;> simp [freeSlot]
          have other : m + 1 ≠ w := by
            rintro rfl
            rcases taken with pid | pgrp
            · exact (unused x mem).1 pid
            · exact (unused x mem).2 pgrp
          have next := ih (away (m + 1) w) (by rw [← hd, away, away]; split_ifs <;> omega) (m + 1)
            (by omega) p' slot' rfl
          obtain ⟨mpid, settles, pos, below, new, -⟩ := next
          refine ⟨mpid, settles.succ fun fuel => ?_, pos, below, new, fun _ free => ?_⟩
          · simp [search, wrap, left]
          · rcases taken with pid | pgrp
            · exact absurd pid (free x mem).1
            · exact absurd pgrp (free x mem).2

/-- Two numbers for each slot do not use up all of them. -/
theorem exists_unused (proc : ℕ → Proc) : ∃ w, 0 < w ∧ w < 30000 ∧ Unused proc w := by
  let used := (slots.map fun x => (proc x).p_pid) ++ slots.map fun x => (proc x).p_pgrp
  have few : used.toFinset.card < (Finset.Ioo 0 30000).card := by
    refine Nat.lt_of_le_of_lt (List.toFinset_card_le used) ?_
    rw [List.length_append, List.length_map, List.length_map, slots, List.length_range, NPROC,
      Nat.card_Ioo]
    decide
  obtain ⟨w, mem, new⟩ := Finset.exists_mem_notMem_of_card_lt_card few
  obtain ⟨low, high⟩ := Finset.mem_Ioo.mp mem
  refine ⟨w, low, high, fun x here => ⟨?_, ?_⟩⟩
  · rintro rfl
    exact new (List.mem_toFinset.mpr (List.mem_append_left _ (List.mem_map_of_mem here)))
  · rintro rfl
    exact new (List.mem_toFinset.mpr (List.mem_append_right _ (List.mem_map_of_mem here)))

theorem freeSlot_spec {rpp : ℕ} (found : freeSlot proc = some rpp) :
    rpp < NPROC ∧ (proc rpp).p_stat = .free := by
  refine ⟨List.mem_range.mp (List.mem_of_find?_eq_some found), ?_⟩
  simpa using List.find?_some found

theorem freeSlot_ne_none {x : ℕ} (below : x < NPROC) (free : (proc x).p_stat = .free) :
    freeSlot proc ≠ none := by
  intro nothing
  have all := List.find?_eq_none.mp nothing x (List.mem_range.mpr below)
  simp [free] at all

/-- With a free slot `newproc` ends without a panic, and the process it enters has an id that no
slot has had. -/
theorem newproc_settles (s : ProcTable) (q : ℕ) {x : ℕ} (below : x < NPROC)
    (free : (s.proc x).p_stat = .free) (small : s.mpid < 30000) :
    ∃ rpp mpid, Fuel.Settles (fun fuel => s.newproc q fuel) (some (rpp, s.enter q mpid rpp)) ∧
      rpp < NPROC ∧ (s.proc rpp).p_stat = .free ∧ 0 < mpid ∧ mpid < 30000 ∧ Unused s.proc mpid ∧
      (s.mpid + 1 < 30000 → Unused s.proc (s.mpid + 1) → mpid = s.mpid + 1) := by
  obtain ⟨w, low, high, unused⟩ := exists_unused s.proc
  obtain ⟨mpid, settles, pos, less, new, next⟩ :=
    search_settles s.proc low high unused s.mpid small none (.inl rfl)
  cases found : freeSlot s.proc with
  | none => exact absurd found (freeSlot_ne_none below free)
  | some rpp =>
      obtain ⟨inside, free⟩ := freeSlot_spec found
      rw [found] at settles
      refine ⟨rpp, mpid, ?_, inside, free, pos, less, new, next⟩
      exact settles.bind
        (fun _ result => pure (result.2.map fun rpp => (rpp, s.enter q result.1 rpp))) (.pure _)

/-! ## The search of `wait` -/

/-- What is found is a child of the process that waits. -/
theorem waitScan_spec (proc : ℕ → Proc) (pid : ℕ) (l : List ℕ) (f : Bool) :
    match waitScan proc pid l f with
    | .exited x pid' status => x ∈ l ∧ (proc x).p_ppid = pid ∧ (proc x).p_stat = .SZOMB ∧
        pid' = (proc x).p_pid ∧ status = (proc x).p_xstat
    | .stopped x _ _ => x ∈ l ∧ (proc x).p_ppid = pid ∧ (proc x).p_stat = .SSTOP
    | .sleep | .echild => ∀ x ∈ l, (proc x).p_ppid = pid → (proc x).p_stat ≠ .SZOMB := by
  induction l generalizing f with
  | nil => cases f <;> simp [waitScan]
  | cons x l ih =>
      by_cases child : (proc x).p_ppid = pid
      · by_cases zombie : (proc x).p_stat = .SZOMB
        · simp [waitScan, child, zombie]
        · by_cases stopped : (proc x).p_stat = .SSTOP ∧ (proc x).p_flag &&& SWTED = 0
          · simp [waitScan, child, stopped]
          · have rest := ih true
            rw [waitScan, if_pos child, if_neg zombie, if_neg stopped]
            split <;> simp_all
      · have rest := ih f
        rw [waitScan, if_neg child]
        split <;> simp_all

end ProcTable

end UnixV7
