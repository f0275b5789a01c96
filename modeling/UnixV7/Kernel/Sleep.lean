import Mathlib.Logic.Function.Basic
import UnixV7.Library.Chain

/-!
# Sleep queues

The queues of `slp.c`. A sleeping process is linked through `p_link` on the queue
`slpque[HASH(chan)]` of its channel, a runnable one on `runq`; the two uses share the one link
field. `wakeup` walks a sleep queue with the interrupts off, and `setrun`, which it calls for
each process it takes off, may call `wakeup` again for the swapper's channel `&runout`.
-/

namespace UnixV7

/-- A kernel address used as a sleep channel; 0 is the null pointer. -/
abbrev Chan := ℕ

/-- An index into the process table. -/
abbrev ProcId := ℕ

/-- The values of `p_stat`; `free` is the zero of an unused entry. -/
inductive ProcStat
  | free | SSLEEP | SWAIT | SRUN | SIDL | SZOMB | SSTOP
  deriving DecidableEq

/-- The bit of `p_flag` for a process in core. -/
def SLOAD : ℕ := 1

/-- The number of sleep queues. -/
def SQSIZE : ℕ := 64

/-- The queue of a channel: `HASH(x)`. -/
def HASH (chan : Chan) : ℕ := (chan >>> 5) &&& (SQSIZE - 1)

/-- The fields of `struct proc` which the queues use. -/
structure Proc where
  p_stat : ProcStat
  p_flag : ℕ
  p_pri : ℕ
  p_wchan : Chan
  p_link : Option ProcId

/-- Whether the process is in core. -/
def Proc.loaded (p : Proc) : Bool := p.p_flag &&& SLOAD != 0

/-- The process table, the queues and the scheduling flags. -/
structure Queues where
  proc : ProcId → Proc
  slpque : ℕ → Option ProcId
  runq : Option ProcId
  runout : UInt8
  runrun : UInt8
  curpri : ℕ
  /-- The address `&runout`, on which the swapper sleeps. -/
  runoutAddr : Chan

/-- Why a computation of the queues does not return. -/
inductive Halt
  | panic (message : String)
  | fuel

namespace Queues

/-- The link field of every process. -/
def link (s : Queues) (p : ProcId) : Option ProcId := (s.proc p).p_link

/-- Change one process. -/
def modify (s : Queues) (p : ProcId) (f : Proc → Proc) : Queues :=
  { s with proc := Function.update s.proc p (f (s.proc p)) }

/-- Set the link of one process. -/
def setLink (s : Queues) (p : ProcId) (target : Option ProcId) : Queues :=
  s.modify p fun entry => { entry with p_link := target }

/-- Take a process off a sleep queue: past it goes either the head of the queue or the link of
the process `prev` before it. -/
def unlink (s : Queues) (bucket : ℕ) (prev : Option ProcId) (p : ProcId) : Queues :=
  match prev with
  | none => { s with slpque := Function.update s.slpque bucket (s.link p) }
  | some prev => s.setLink prev (s.link p)

/-- Whether a process is on the chain that starts at `start`. -/
def onChain (s : Queues) (p : ProcId) : ℕ → Option ProcId → Except Halt Bool
  | 0, _ => .error .fuel
  | _ + 1, none => .ok false
  | fuel + 1, some q => if q = p then .ok true else s.onChain p fuel (s.link q)

/-- `setrq`: put a process on the run queue unless it is there. -/
def setrq (fuel : ℕ) (s : Queues) (p : ProcId) : Except Halt Queues := do
  let found ← s.onChain p fuel s.runq
  if found then
    return s
  else
    return { s.setLink p s.runq with runq := some p }

/-- The end of `setrun`'s queueing: ask for a reschedule if `p` has a better priority. -/
def preempt (s : Queues) (p : ProcId) : Queues :=
  if (s.proc p).p_pri < s.curpri then
    { s with runrun := s.runrun + 1 }
  else
    s

/-- The test `wakeup` makes of each process it passes. -/
def wakes (s : Queues) (chan : Chan) (p : ProcId) : Bool :=
  (s.proc p).p_wchan == chan && (s.proc p).p_stat != .SZOMB

mutual

/-- `wakeup(chan)`: the walk starts at the head of the channel's queue. -/
def wakeup : ℕ → Queues → Chan → Except Halt Queues
  | 0, _, _ => .error .fuel
  | fuel + 1, s, chan => walk fuel s chan (s.slpque (HASH chan)) none

/-- The loop of `wakeup`, at process `p` with `prev` the last process passed over. -/
def walk : ℕ → Queues → Chan → Option ProcId → Option ProcId → Except Halt Queues
  | 0, _, _, _, _ => .error .fuel
  | _ + 1, s, _, none, _ => .ok s
  | fuel + 1, s, chan, some p, prev =>
      if s.wakes chan p then do
        let after := s.link p
        let unlinked := (s.unlink (HASH chan) prev p).modify p fun entry =>
          { entry with p_wchan := 0 }
        let running ← setrun fuel unlinked p
        walk fuel running chan after prev
      else
        walk fuel s chan (s.link p) (some p)

/-- `setrun(p)`: make a process runnable, and wake the swapper if it waits for one that is out
of core. -/
def setrun : ℕ → Queues → ProcId → Except Halt Queues
  | 0, _, _ => .error .fuel
  | fuel + 1, s, p =>
      if (s.proc p).p_stat = .free ∨ (s.proc p).p_stat = .SZOMB then
        .error (.panic "Running a dead proc")
      else if (s.proc p).p_wchan ≠ 0 then
        wakeup fuel s (s.proc p).p_wchan
      else do
        let queued ← (s.modify p fun entry => { entry with p_stat := .SRUN }).setrq fuel p
        let ready := queued.preempt p
        if ready.runout ≠ 0 ∧ (ready.proc p).loaded = false then
          wakeup fuel { ready with runout := 0 } ready.runoutAddr
        else
          return ready

end

end Queues

end UnixV7
