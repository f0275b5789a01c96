import Mathlib.Algebra.Group.Nat.Defs
import UnixV7.Kernel.UserWords

/-!
# Signals

How a signal reaches the handler of a process and how the process gets back: `issig`, `fsig` and
`psig` of `sig.c`, `sendsig` and `sigreturn` of `machdep.c`, and the entries into the system from
which they are called, `trap` and `user_trap_handler` of `trap.c`. The process is not traced. Times,
priorities and the profile are left out. A process that ends, and a machine that stops, have no
state to go on with.
-/

namespace UnixV7.Signal

open Function

/-- `u.u_ar0[XX]` -/
def R0 : ℕ := 0

def R1 : ℕ := 1

def R7 : ℕ := 7

def SP : ℕ := 13

def LR : ℕ := 14

def PC : ℕ := 15

def PSR : ℕ := 16

/-- The user error bit in PS. -/
def EBIT : Word := 0x20000000

def UMODE : Word := 0o37

def USRMODE : Word := 0o20

def UBITS : Word := 0xfe0ffe20

def TBITS : Word := 0x0600fe20

def SIGTRAMP : Word := 0x1000

def NSIG : ℕ := 17

def SIGINS : ℕ := 4

def SIGTRC : ℕ := 5

def SIGSEG : ℕ := 11

def EINTR : ℕ := 4

/-- The words of `u.u_fps`: the status, one that is not used, and two for each register. -/
def FPS : ℕ := 66

/-- What the user structure and the process table say about a process, with its memory and the
floating registers of the processor. -/
structure User where
  space : Space
  u_ar0 : ℕ → Word
  u_fps : ℕ → Word
  u_fpsaved : Bool
  fp : ℕ → Word
  u_error : ℕ
  u_arg : ℕ → Word
  r_val1 : Word
  r_val2 : Word
  u_signal : ℕ → Word
  p_sig : Word

/-- An entry of `sysent`; a call may be broken off by a signal, and then comes back at `u_qsav`. -/
structure Sysent where
  sy_narg : ℕ
  sy_call : User → User × Bool

namespace User

variable (fixed : ℕ → Option Word) (others : Space.Moment → Space → Space) (maxmem : ℕ)
  (sysent : ℕ → Sysent)

/-- `savfp` -/
def savfp (u : User) : User :=
  { u with u_fps := update u.fp 1 (u.u_fps 1) }

/-- `restfp` -/
def restfp (u : User) : User :=
  { u with fp := update u.u_fps 1 (u.fp 1) }

/-- `fsig` -/
def fsig (u : User) : ℕ :=
  ((List.range' 1 (NSIG - 1)).find? fun i => u.p_sig.getLsbD (i - 1)).getD 0

/-- `p_sig &= ~(1<<(n-1))` -/
def taken (u : User) (n : ℕ) : User := { u with p_sig := u.p_sig &&& ~~~((1 : Word) <<< (n - 1)) }

/-- `psignal`, of the process itself. -/
def psignal (u : User) (sig : ℕ) : User :=
  if NSIG ≤ sig ∨ sig = 0 then u else { u with p_sig := u.p_sig ||| (1 : Word) <<< (sig - 1) }

/-- `issig`; no more than `NSIG` signals can be ignored one after the other. -/
def issig : ℕ → User → ℕ × User
  | 0, u => (0, u)
  | k + 1, u =>
      if u.p_sig = 0 then (0, u)
      else
        let n := u.fsig
        if u.u_signal n &&& 1 = 0 then (n, u) else issig k (u.taken n)

/-- Where `sendsig` puts the registers: `(u.u_ar0[SP] - m - sizeof(u.u_fps)) & ~7`. -/
def frame (u : User) : ℕ :=
  ((u.u_ar0 SP).toNat + (2 ^ 32 - (PSR + 1) * 4 - FPS * 4)) % 2 ^ 32 / 8 * 8

/-- What `sendsig` does to the memory, and whether all could be stored. -/
def saveregs (u : User) : Option (Bool × Space) :=
  (u.space.grow others maxmem u.frame).map fun (_, space) =>
    match Space.copyout (PSR + 1) u.u_ar0 u.frame space with
    | (false, space) => (false, space)
    | (true, space) => Space.copyout FPS u.u_fps (u.frame + (PSR + 1) * 4) space

/-- The registers with which a handler starts. -/
def entry (u : User) (p : Word) (signo : ℕ) : ℕ → Word :=
  let r := update u.u_ar0 SP (BitVec.ofNat 32 u.frame)
  let r := update r LR SIGTRAMP
  let r := update r PC p
  let r := update r R0 (BitVec.ofNat 32 signo)
  update r PSR (r PSR &&& ~~~TBITS)

/-- `sendsig` -/
def sendsig (u : User) (p : Word) (signo : ℕ) : Option User :=
  (u.saveregs others maxmem).map fun
    | (true, space) => { u with space := space, u_ar0 := u.entry p signo }
    | (false, space) =>
        psignal { u with space := space, u_signal := update u.u_signal SIGSEG 0 } SIGSEG

/-- The part of `psig` that saves the floating registers. -/
def saved (u : User) : User :=
  if u.u_fpsaved then u else { u.savfp with u_fpsaved := true }

/-- The state of `psig` in which it calls `sendsig` for the signal `n`. -/
def caught (u : User) (n : ℕ) : User :=
  let u := { u.saved.taken n with u_error := 0 }
  if n ≠ SIGINS ∧ n ≠ SIGTRC then { u with u_signal := update u.u_signal n 0 } else u

/-- `psig`; a process without a handler for the signal ends. -/
def psig (u : User) : Option User :=
  let n := u.fsig
  if n = 0 then some u.saved
  else if u.u_signal n ≠ 0 then (u.caught n).sendsig others maxmem (u.u_signal n) n
  else none

/-- `sigreturn` -/
def sigreturn (u : User) : User :=
  let a := (u.u_ar0 SP).toNat
  match u.space.copyin fixed (PSR + 1) a 0 fun _ => 0 with
  | (false, _) => psignal { u with u_signal := update u.u_signal SIGSEG 0 } SIGSEG
  | (true, f) =>
      match u.space.copyin fixed FPS (a + (PSR + 1) * 4) 0 u.u_fps with
      | (false, fps) =>
          psignal { u with u_fps := fps, u_signal := update u.u_signal SIGSEG 0 } SIGSEG
      | (true, fps) =>
          { u with
            u_fps := fps
            u_fpsaved := true
            u_ar0 := fun i =>
              if i < PSR then f i
              else if i = PSR then f PSR &&& UBITS ||| USRMODE
              else u.u_ar0 i
            r_val1 := f R0
            r_val2 := f R1 }

/-- The calls of the system; number 63 is `sigreturn`. -/
def entries (n : ℕ) : Sysent :=
  if n = 63 then ⟨0, fun u => (u.sigreturn fixed, false)⟩ else sysent n

/-- `trap` up to the call. -/
def begun (u : User) : User :=
  let r := update u.u_ar0 PSR (u.u_ar0 PSR &&& ~~~EBIT)
  let callp := entries fixed sysent (r R7 &&& 0o77).toNat
  { u with
    u_fpsaved := false
    u_error := 0
    u_ar0 := r
    u_arg := fun i => if i < callp.sy_narg then r i else u.u_arg i
    r_val1 := 0
    r_val2 := r R1 }

/-- What `trap` writes into the registers when the call is over. -/
def ended (u : User) (broken : Bool) : User :=
  let u := if broken ∧ u.u_error = 0 then { u with u_error := EINTR } else u
  if u.u_error ≠ 0 then
    { u with
      u_ar0 := update (update u.u_ar0 PSR (u.u_ar0 PSR ||| EBIT)) R0 (BitVec.ofNat 32 u.u_error) }
  else
    { u with u_ar0 := update (update u.u_ar0 R0 u.r_val1) R1 u.r_val2 }

/-- `trap` up to where it looks for signals. -/
def syscall (u : User) : User :=
  let u := u.begun fixed sysent
  let (u, broken) := (entries fixed sysent (u.u_ar0 R7 &&& 0o77).toNat).sy_call u
  u.ended broken

/-- How the system is left: signals, and the floating registers. -/
def leave (u : User) : Option User :=
  let (n, u) := u.issig NSIG
  (if n ≠ 0 then u.psig others maxmem else some u).map fun u =>
    if u.u_fpsaved then u.restfp else u

/-- `trap` -/
def trap (u : User) : Option User := (u.syscall fixed sysent).leave others maxmem

/-- The part of `user_trap_handler` that tells whether an instruction is to be passed over. -/
def skipped (u : User) (signo : ℕ) : User :=
  let c := (u.space.byte fixed (u.u_ar0 PC - 1).toNat).getD 0xff
  if signo = SIGINS ∧ u.u_ar0 PSR &&& 0x20 ≠ 0 ∧ 0xe8 ≤ c &&& 0xf8 then
    { u with u_ar0 := update u.u_ar0 PC (u.u_ar0 PC + 2) }
  else
    u

/-- `user_trap_handler` up to where it looks for signals. -/
def fault (u : User) (signo a : ℕ) : Option User :=
  if u.u_ar0 PSR &&& UMODE ≠ USRMODE then none
  else
    let u := skipped fixed { u with u_fpsaved := false } signo
    if signo = 0 then some u
    else if signo ≠ SIGSEG ∨ (a + 256) % 2 ^ 32 < (u.u_ar0 SP).toNat then some (u.psignal signo)
    else
      (u.space.grow others maxmem a).map fun
        | (false, space) => { u with space := space }.psignal signo
        | (true, space) => { u with space := space }

/-- `user_trap_handler` -/
def userTrapHandler (u : User) (signo a : ℕ) : Option User :=
  (u.fault fixed others maxmem signo a).bind fun u => u.leave others maxmem

end User

end UnixV7.Signal
