import Mathlib.Algebra.Group.Nat.Defs
import Mathlib.Logic.Relation
import UnixV7.Kernel.Signal

/-!
# Returning from a signal handler

A process in whose handlers other signals are caught. Each handler that has been entered and has
not returned has a frame on the stack, the innermost lowest. What is saved there stays until the
handler comes back to the trampoline, and `sigreturn` puts it in the registers again.
-/

namespace UnixV7.Signal

open Function Space

/-- What has been saved for a handler: where, the registers and the floating registers. -/
structure Frame where
  n : ℕ
  u_ar0 : ℕ → Word
  fps : ℕ → Word

/-- The frame is in the memory of the process. -/
structure Frame.Held (f : Frame) (s : Space) : Prop where
  aligned : f.n % 4 = 0
  regs : ∀ i < PSR + 1, s.own (f.n / 4 + i) = some (f.u_ar0 i)
  floats : ∀ i < FPS, s.own ((f.n + (PSR + 1) * 4) / 4 + i) = some (f.fps i)

/-- A process, and the frames of the handlers it is in, the innermost first. -/
structure Process where
  u : User
  frames : List Frame

/-- What `psig` saves when it calls the handler of the signal `n`. -/
def User.context (u : User) (n : ℕ) : Frame :=
  ⟨(u.caught n).frame, (u.caught n).u_ar0, (u.caught n).u_fps⟩

section Steps

variable (fixed : ℕ → Option Word) (others : Moment → Space → Space) (maxmem : ℕ)
  (sysent : ℕ → Sysent)

/-- The system is left, and the user goes on where it was or in a handler, for which there has been
room below the stack pointer. -/
inductive Leaves (frames : List Frame) (u : User) : Process → Prop
  | back {v : User} (quiet : (u.issig NSIG).1 = 0) (left : u.leave others maxmem = some v) :
      Leaves frames u ⟨v, frames⟩
  | caught {v : User} {space : Space} (signal : (u.issig NSIG).1 ≠ 0)
      (left : u.leave others maxmem = some v)
      (room : ((u.issig NSIG).2.caught (u.issig NSIG).2.fsig).saveregs others maxmem =
        some (true, space))
      (below : ∀ f ∈ frames, (u.u_ar0 SP).toNat ≤ f.n) :
      Leaves frames u ⟨v, (u.issig NSIG).2.context (u.issig NSIG).2.fsig :: frames⟩

/-- The memory is a whole one and still holds the frames. -/
structure Keeps (frames : List Frame) (u : User) : Prop where
  whole : Whole maxmem u.space
  held : ∀ f ∈ frames, f.Held u.space

/-- What can happen to a process next. The instructions of the user, and calls of the system other
than `sigreturn`, do not store into the frames, and may do anything else. -/
inductive Step : Process → Process → Prop
  | user {u v : User} {frames : List Frame} (kept : Keeps maxmem frames v) :
      Step ⟨u, frames⟩ ⟨v, frames⟩
  | call {u : User} {frames : List Frame} {p : Process}
      (other : (u.u_ar0 R7 &&& 0o77).toNat ≠ 63)
      (kept : Keeps maxmem frames (u.syscall fixed sysent))
      (leaves : Leaves others maxmem frames (u.syscall fixed sysent) p) : Step ⟨u, frames⟩ p
  | fault {u v : User} {frames : List Frame} {p : Process} {signo a : ℕ}
      (taken : u.fault fixed others maxmem signo a = some v)
      (leaves : Leaves others maxmem frames v p) : Step ⟨u, frames⟩ p
  | sigreturn {u : User} {f : Frame} {frames : List Frame} {p : Process}
      (call : (u.u_ar0 R7 &&& 0o77).toNat = 63) (entered : (u.u_ar0 SP).toNat = f.n)
      (leaves : Leaves others maxmem frames (u.syscall fixed sysent) p) : Step ⟨u, f :: frames⟩ p

end Steps

/-- The registers of the user, the bits of the PSR that are its own and the floating registers that
it will get are those of the frame. -/
structure Restored (f : Frame) (u : User) : Prop where
  regs : ∀ i < PSR, u.u_ar0 i = f.u_ar0 i
  bits : u.u_ar0 PSR &&& UBITS = f.u_ar0 PSR &&& UBITS
  mode : u.u_ar0 PSR &&& UMODE = USRMODE
  fpsaved : u.u_fpsaved = true
  floats : ∀ i < FPS, u.u_fps i = f.fps i

variable {fixed : ℕ → Option Word} {others : Moment → Space → Space} {maxmem : ℕ}
  {sysent : ℕ → Sysent} {u v : User} {frames : List Frame} {f : Frame} {p q : Process}

theorem place_below {s : Space} {i k : ℕ} (whole : Whole maxmem s)
    (here : place s.u (i / NPM) = some k) : 4 * i < 2 ^ 32 - 2 ^ 30 := by
  have fit := whole.fits
  simp only [Ureg.fits, Bool.and_eq_true, Bool.not_eq_true', Bool.or_eq_false_iff,
    decide_eq_false_iff_not, gt_iff_lt, not_lt, Ureg.top] at fit
  rw [place, Ureg.top] at here
  rw [NPM] at here
  split_ifs at here with data stack <;> omega

/-! ### Saving -/

theorem frame_le (low : u.frame < 2 ^ 32 - 2 ^ 30) :
    u.frame + (PSR + 1) * 4 + FPS * 4 ≤ (u.u_ar0 SP).toNat ∧ u.frame % 8 = 0 := by
  have word := (u.u_ar0 SP).isLt
  simp only [User.frame, PSR, FPS] at low ⊢
  omega

/-- The words below the stack pointer get what is saved, and those above it stay. -/
theorem saveregs_spec {space : Space} (fair : Fair others) (whole : Whole maxmem u.space)
    (room : u.saveregs others maxmem = some (true, space)) :
    Whole maxmem space ∧ Frame.Held ⟨u.frame, u.u_ar0, u.u_fps⟩ space ∧
      ∀ g : Frame, (u.u_ar0 SP).toNat ≤ g.n → g.Held u.space → g.Held space := by
  obtain ⟨⟨ok, grown⟩, called, copied⟩ := Option.map_eq_some_iff.mp room
  have whole₀ := grow_whole fair whole called
  dsimp only at copied
  split at copied
  next => cases copied
  next s₁ first =>
    obtain ⟨whole₁, u₁, own₁⟩ := copyout_spec whole₀ first
    obtain ⟨whole₂, u₂, own₂⟩ := copyout_spec whole₁ copied
    have start : s₁.own (u.frame / 4) = some (u.u_ar0 0) := by
      rw [own₁, if_pos (by rw [PSR]; omega), Nat.sub_self]
    obtain ⟨k, here, -⟩ := Option.map_eq_some_iff.mp start
    obtain ⟨below, aligned⟩ := frame_le (u := u) (by have low := place_below whole₁ here; omega)
    refine ⟨whole₂, ⟨by dsimp only; omega, fun i less => ?_, fun i less => ?_⟩, ?_⟩
    · dsimp only
      rw [own₂, if_neg (by rw [PSR] at *; omega), own₁, if_pos (by omega), Nat.add_sub_cancel_left]
    · dsimp only
      rw [own₂, if_pos (by omega), Nat.add_sub_cancel_left]
    · intro g above held
      have aligned' := held.aligned
      have apart {i : ℕ} (behind : g.n / 4 ≤ i) (w : Word) (mine : u.space.own i = some w) :
          space.own i = some w := by
        rw [PSR, FPS] at *
        rw [own₂, if_neg (by omega), own₁, if_neg (by omega)]
        exact grow_own fair whole called mine
      refine ⟨aligned', fun i less => ?_, fun i less => ?_⟩
      · exact apart (by omega) _ (held.regs i less)
      · exact apart (by omega) _ (held.floats i less)

/-! ### Leaving the system -/

/-- `issig` changes nothing but the signals that are waiting, and answers with the first. -/
theorem issig_spec (k : ℕ) (u : User) : (∃ sig, (u.issig k).2 = { u with p_sig := sig }) ∧
    ((u.issig k).1 ≠ 0 → (u.issig k).2.fsig = (u.issig k).1) := by
  induction k generalizing u with
  | zero => exact ⟨⟨u.p_sig, rfl⟩, fun signal => absurd rfl signal⟩
  | succ k ih =>
      rw [User.issig]
      split
      next => exact ⟨⟨u.p_sig, rfl⟩, fun signal => absurd rfl signal⟩
      next =>
        dsimp only
        split
        next => exact ⟨⟨u.p_sig, rfl⟩, fun _ => rfl⟩
        next =>
          obtain ⟨⟨sig, same⟩, first⟩ := ih (u.taken u.fsig)
          exact ⟨⟨sig, same⟩, first⟩

theorem restore_space (u : User) :
    (if u.u_fpsaved then u.restfp else u).space = u.space := by
  split <;> rfl

/-- Without a signal the user goes on with its registers, and with the floating registers that have
been saved. -/
theorem leave_back (quiet : (u.issig NSIG).1 = 0) (left : u.leave others maxmem = some v) :
    v.space = u.space ∧ v.u_ar0 = u.u_ar0 ∧
      (u.u_fpsaved = true → ∀ i, i ≠ 1 → v.fp i = u.u_fps i) := by
  obtain ⟨⟨sig, same⟩, -⟩ := issig_spec NSIG u
  simp only [User.leave, quiet, ne_eq, not_true_eq_false, if_false, same, Option.map_some,
    Option.some.injEq] at left
  subst left
  refine ⟨?_, ?_, ?_⟩
  · split <;> rfl
  · split <;> rfl
  · intro fpsaved i other
    rw [if_pos fpsaved]
    exact update_of_ne other _ _

theorem caught_space (u : User) (n : ℕ) : (u.caught n).space = u.space := by
  simp only [User.caught, User.taken, User.saved, User.savfp]
  split <;> split <;> rfl

theorem caught_ar0 (u : User) (n : ℕ) : (u.caught n).u_ar0 = u.u_ar0 := by
  simp only [User.caught, User.taken, User.saved, User.savfp]
  split <;> split <;> rfl

theorem caught_fps (n : ℕ) (fpsaved : u.u_fpsaved = true) : (u.caught n).u_fps = u.u_fps := by
  simp only [User.caught, User.taken, User.saved, fpsaved, if_true]
  split <;> rfl

/-- With a signal the handler starts in the memory where all has been saved. -/
theorem leave_caught {space : Space} (signal : (u.issig NSIG).1 ≠ 0)
    (left : u.leave others maxmem = some v)
    (room : ((u.issig NSIG).2.caught (u.issig NSIG).2.fsig).saveregs others maxmem =
      some (true, space)) : v.space = space := by
  obtain ⟨-, first⟩ := issig_spec NSIG u
  have some := first signal
  simp only [User.leave, if_pos signal, User.psig, some ▸ signal, if_false] at left
  obtain ⟨w, called, rfl⟩ := Option.map_eq_some_iff.mp left
  rw [restore_space]
  split at called
  next =>
    rw [User.sendsig, room] at called
    obtain rfl := Option.some.inj called
    rfl
  next => cases called

/-- The frames stay in memory when the system is left, and a new one comes below them. -/
theorem Keeps.leaves (fair : Fair others) (kept : Keeps maxmem frames u)
    (leaves : Leaves others maxmem frames u p) : Keeps maxmem p.frames p.u := by
  cases leaves with
  | back quiet left =>
      obtain ⟨space, -, -⟩ := leave_back quiet left
      constructor
      · rw [space]
        exact kept.whole
      · rw [space]
        exact kept.held
  | caught signal left room below =>
      have space := leave_caught signal left room
      obtain ⟨⟨sig, same⟩, -⟩ := issig_spec NSIG u
      have before : ((u.issig NSIG).2.caught (u.issig NSIG).2.fsig).space = u.space := by
        rw [caught_space, same]
      have regs : ((u.issig NSIG).2.caught (u.issig NSIG).2.fsig).u_ar0 = u.u_ar0 := by
        rw [caught_ar0, same]
      obtain ⟨whole, held, stays⟩ := saveregs_spec fair (by rw [before]; exact kept.whole) room
      constructor
      · rw [space]
        exact whole
      · intro f mem
        rw [space]
        cases mem with
        | head => exact held
        | tail _ mem =>
            apply stays f
            · rw [regs]
              exact below f mem
            · rw [before]
              exact kept.held f mem

/-! ### Steps -/

theorem psignal_space (u : User) (sig : ℕ) : (u.psignal sig).space = u.space := by
  rw [User.psignal]
  split <;> rfl

theorem skipped_space (fixed : ℕ → Option Word) (u : User) (signo : ℕ) :
    (u.skipped fixed signo).space = u.space := by
  rw [User.skipped]
  split <;> rfl

theorem Keeps.same (kept : Keeps maxmem frames u) (space : v.space = u.space) :
    Keeps maxmem frames v := by
  constructor
  · rw [space]
    exact kept.whole
  · rw [space]
    exact kept.held

/-- The stack may grow. -/
theorem Keeps.grow {space : Space} {sp : ℕ} {ok : Bool} (fair : Fair others)
    (kept : Keeps maxmem frames u) (called : u.space.grow others maxmem sp = some (ok, space))
    (same : v.space = space) : Keeps maxmem frames v := by
  constructor
  · rw [same]
    exact grow_whole fair kept.whole called
  · intro f mem
    have held := kept.held f mem
    rw [same]
    exact ⟨held.aligned,
      fun i less => grow_own fair kept.whole called (held.regs i less),
      fun i less => grow_own fair kept.whole called (held.floats i less)⟩

theorem Keeps.fault {signo a : ℕ} (fair : Fair others) (kept : Keeps maxmem frames u)
    (taken : u.fault fixed others maxmem signo a = some v) : Keeps maxmem frames v := by
  rw [User.fault] at taken
  split at taken
  next => cases taken
  next =>
    have space := skipped_space fixed { u with u_fpsaved := false } signo
    dsimp only at taken
    split at taken
    next =>
      obtain rfl := Option.some.inj taken
      exact kept.same space
    next =>
      split at taken
      next =>
        obtain rfl := Option.some.inj taken
        exact kept.same ((psignal_space _ _).trans space)
      next =>
        obtain ⟨⟨ok, grown⟩, called, result⟩ := Option.map_eq_some_iff.mp taken
        rw [space] at called
        apply kept.grow fair called
        rw [← result]
        cases ok with
        | false => exact psignal_space _ _
        | true => rfl

theorem sigreturn_space (u : User) : (u.sigreturn fixed).space = u.space := by
  rw [User.sigreturn]
  split
  next => exact psignal_space _ _
  next =>
    split
    next => exact psignal_space _ _
    next => rfl

theorem ended_space (u : User) (broken : Bool) : (u.ended broken).space = u.space := by
  simp only [User.ended]
  split <;> split <;> rfl

/-- The error bit is in no register but the PSR. -/
theorem begun_ar0 {i : ℕ} (u : User) (other : i ≠ PSR) :
    (u.begun fixed sysent).u_ar0 i = u.u_ar0 i := by
  simp only [User.begun]
  exact update_of_ne other _ _

theorem syscall_eq (call : (u.u_ar0 R7 &&& 0o77).toNat = 63) :
    u.syscall fixed sysent = ((u.begun fixed sysent).sigreturn fixed).ended false := by
  have number : (u.begun fixed sysent).u_ar0 R7 = u.u_ar0 R7 := begun_ar0 u (by decide)
  simp only [User.syscall, number, call, User.entries, if_true]

/-- What a step does to the memory leaves the frames alone. -/
theorem Keeps.step (fair : Fair others) (kept : Keeps maxmem p.frames p.u)
    (step : Step fixed others maxmem sysent p q) : Keeps maxmem q.frames q.u := by
  cases step with
  | user kept' => exact kept'
  | call _ kept' leaves => exact kept'.leaves fair leaves
  | fault taken leaves => exact (kept.fault fair taken).leaves fair leaves
  | sigreturn call _ leaves =>
      have rest : Keeps maxmem _ _ :=
        ⟨kept.whole, fun f mem => kept.held f (List.mem_cons_of_mem _ mem)⟩
      apply (rest.same _).leaves fair leaves
      rw [syscall_eq call, ended_space, sigreturn_space]
      rfl

/-- In every run the frames of the handlers stay in memory. -/
theorem Keeps.run (fair : Fair others) (kept : Keeps maxmem p.frames p.u)
    (run : Relation.ReflTransGen (Step fixed others maxmem sysent) p q) :
    Keeps maxmem q.frames q.u := by
  induction run with
  | refl => exact kept
  | tail _ step ih => exact ih.step fair step

theorem psr_bits (x : Word) : (x &&& UBITS ||| USRMODE) &&& UBITS = x &&& UBITS := by
  have none : USRMODE &&& UBITS = 0#32 := by decide
  rw [BitVec.and_or_distrib_right, BitVec.and_assoc, BitVec.and_self, none, BitVec.or_zero]

theorem psr_mode (x : Word) : (x &&& UBITS ||| USRMODE) &&& UMODE = USRMODE := by
  have none : UBITS &&& UMODE = 0#32 := by decide
  have all : USRMODE &&& UMODE = USRMODE := by decide
  rw [BitVec.and_or_distrib_right, BitVec.and_assoc, none, BitVec.and_zero, BitVec.zero_or, all]

/-- `sigreturn` at a frame, through `trap`. -/
theorem Frame.Held.restored (held : f.Held u.space)
    (call : (u.u_ar0 R7 &&& 0o77).toNat = 63) (entered : (u.u_ar0 SP).toNat = f.n) :
    Restored f (u.syscall fixed sysent) := by
  have sp : ((u.begun fixed sysent).u_ar0 SP).toNat = f.n := by
    rw [begun_ar0 u (by decide), entered]
  have space : (u.begun fixed sysent).space = u.space := rfl
  have aligned := held.aligned
  obtain ⟨regs, first, words, -⟩ := copyin_own (i := 0) fixed f.u_ar0 (fun _ => 0) aligned held.regs
  obtain ⟨fps, second, words', -⟩ := copyin_own (i := 0) fixed f.fps (u.begun fixed sysent).u_fps
    (show (f.n + (PSR + 1) * 4) % 4 = 0 by omega) held.floats
  simp only [Nat.zero_add] at words words'
  have done : (u.begun fixed sysent).sigreturn fixed =
      { u.begun fixed sysent with
        u_fps := fps
        u_fpsaved := true
        u_ar0 := fun i =>
          if i < PSR then regs i
          else if i = PSR then regs PSR &&& UBITS ||| USRMODE
          else (u.begun fixed sysent).u_ar0 i
        r_val1 := regs R0
        r_val2 := regs R1 } := by
    simp only [User.sigreturn, sp, space, first, second]
  rw [syscall_eq call, done]
  have zero : (0 : ℕ) < PSR + 1 := by decide
  have one : (1 : ℕ) < PSR + 1 := by decide
  constructor
  · intro i less
    simp only [User.ended, User.begun, Bool.false_eq_true, false_and, if_false, ne_eq,
      not_true_eq_false]
    by_cases second : i = R1
    · rw [second, update_self, words R1 one]
    · rw [update_of_ne second]
      by_cases first : i = R0
      · rw [first, update_self, words R0 zero]
      · rw [update_of_ne first, if_pos less, words i (by omega)]
  · simp only [User.ended, User.begun, Bool.false_eq_true, false_and, if_false, ne_eq,
      not_true_eq_false]
    rw [update_of_ne (by decide), update_of_ne (by decide), if_neg (lt_irrefl _), if_pos rfl,
      words PSR (Nat.lt_succ_self _), psr_bits]
  · simp only [User.ended, User.begun, Bool.false_eq_true, false_and, if_false, ne_eq,
      not_true_eq_false]
    rw [update_of_ne (by decide), update_of_ne (by decide), if_neg (lt_irrefl _), if_pos rfl,
      psr_mode]
  · rfl
  · exact words'

/-- With the registers of a frame the user goes on at once, or they are in the frame of the next
handler. -/
theorem Restored.leaves (restored : Restored f u) (leaves : Leaves others maxmem frames u p) :
    (p.frames = frames ∧ p.u.u_ar0 = u.u_ar0 ∧ ∀ i < FPS, i ≠ 1 → p.u.fp i = f.fps i) ∨
      ∃ g, p.frames = g :: frames ∧ g.u_ar0 = u.u_ar0 ∧ ∀ i < FPS, g.fps i = f.fps i := by
  cases leaves with
  | back quiet left =>
      obtain ⟨-, regs, floats⟩ := leave_back quiet left
      refine .inl ⟨rfl, regs, fun i less other => ?_⟩
      rw [floats restored.fpsaved i other, restored.floats i less]
  | caught signal left room below =>
      obtain ⟨⟨sig, same⟩, -⟩ := issig_spec NSIG u
      refine .inr ⟨_, rfl, ?_, fun i less => ?_⟩
      · rw [User.context, caught_ar0, same]
      · rw [User.context, caught_fps _ (by rw [same]; exact restored.fpsaved), same]
        exact restored.floats i less

/-- A handler that returns changes nothing. However many signals have been caught one inside
another, when the innermost handler comes back to the trampoline with the stack pointer it was
entered with, the registers, the bits of the PSR that a user may set and the floating registers
behind `trap` are those that `sendsig` saved. The user goes on with them, or they are saved for the
next handler. -/
theorem sigreturn_restores (fair : Fair others) (whole : Whole maxmem v.space)
    (run : Relation.ReflTransGen (Step fixed others maxmem sysent) ⟨v, []⟩ ⟨u, f :: frames⟩)
    (call : (u.u_ar0 R7 &&& 0o77).toNat = 63) (entered : (u.u_ar0 SP).toNat = f.n) :
    Restored f (u.syscall fixed sysent) ∧
      ∀ p, Leaves others maxmem frames (u.syscall fixed sysent) p →
        (p.frames = frames ∧ p.u.u_ar0 = (u.syscall fixed sysent).u_ar0 ∧
          ∀ i < FPS, i ≠ 1 → p.u.fp i = f.fps i) ∨
        ∃ g, p.frames = g :: frames ∧ g.u_ar0 = (u.syscall fixed sysent).u_ar0 ∧
          ∀ i < FPS, g.fps i = f.fps i := by
  have start : Keeps maxmem [] v := ⟨whole, fun _ mem => absurd mem (List.not_mem_nil)⟩
  have kept := Keeps.run fair start run
  have restored : Restored f (u.syscall fixed sysent) :=
    (kept.held f List.mem_cons_self).restored call entered
  exact ⟨restored, fun p leaves => restored.leaves leaves⟩

/-- A process with a page of data and one of stack, for which an interrupt is waiting. -/
def interrupted : User where
  space := twoPages
  u_ar0 := fun i => if i = SP then 0xbfffff00 else BitVec.ofNat 32 i
  u_fps := fun _ => 0
  u_fpsaved := false
  fp := fun i => BitVec.ofNat 32 (100 + i)
  u_error := 0
  u_arg := fun _ => 0
  r_val1 := 0
  r_val2 := 0
  u_signal := fun _ => 0x8000
  p_sig := 2

/-- `psig` in the state in which `sendsig` is called. -/
def calls : User := (interrupted.issig NSIG).2.caught 2

/-- The handler of the interrupt returns at once. -/
theorem sigreturn_restores_interrupt : ∃ v : User,
    interrupted.leave (fun _ s => s) 64 = some v ∧
    Restored ⟨0xbffffdb0, interrupted.u_ar0, update interrupted.fp 1 0⟩
      (User.syscall (fun _ => none) (fun _ => ⟨0, fun u => (u, false)⟩)
        { v with u_ar0 := update v.u_ar0 R7 63 }) := by
  have fair : Fair fun _ s => s := fun _ _ distinct =>
    ⟨rfl, rfl, rfl, rfl, fun _ _ => rfl, distinct, fun _ _ => rfl⟩
  have grown : calls.space.grow (fun _ s => s) 64 calls.frame = some (false, twoPages) := rfl
  obtain ⟨s₁, first⟩ := copyout_true (s := twoPages) (n := PSR + 1) (a := calls.frame)
    calls.u_ar0 (by decide)
  obtain ⟨whole₁, u₁, -⟩ := copyout_spec twoPages_whole first
  obtain ⟨s₂, second⟩ := copyout_true (s := s₁) (n := FPS) (a := calls.frame + (PSR + 1) * 4)
    calls.u_fps (by rw [u₁]; decide)
  have room : calls.saveregs (fun _ s => s) 64 = some (true, s₂) := by
    simp only [User.saveregs, grown, Option.map_some, first, second]
  have number : (interrupted.issig NSIG).2.fsig = 2 := by decide
  have signal : (interrupted.issig NSIG).1 ≠ 0 := by decide
  have handler : (interrupted.issig NSIG).2.u_signal 2 = 0x8000 := rfl
  have delivered : (interrupted.issig NSIG).2.psig (fun _ s => s) 64 =
      some { calls with space := s₂, u_ar0 := calls.entry 0x8000 2 } := by
    simp only [User.psig, number, handler, User.sendsig]
    rw [if_neg (by decide), if_pos (by decide)]
    exact congrArg (Option.map _) room
  obtain ⟨v, left, entry⟩ : ∃ v, interrupted.leave (fun _ s => s) 64 = some v ∧
      v.u_ar0 = calls.entry 0x8000 2 := by
    refine ⟨User.restfp { calls with space := s₂, u_ar0 := calls.entry 0x8000 2 }, ?_, rfl⟩
    simp only [User.leave, if_pos signal, delivered]
    rfl
  have taken : interrupted.fault (fun _ => none) (fun _ s => s) 64 0 0 = some interrupted := rfl
  have leaves : Leaves (fun _ s => s) 64 [] interrupted _ :=
    Leaves.caught signal left (by rw [number]; exact room) fun _ mem => absurd mem List.not_mem_nil
  rw [number] at leaves
  have caught : Step (fun _ => none) (fun _ s => s) 64 (fun _ => ⟨0, fun u => (u, false)⟩)
      ⟨interrupted, []⟩ _ := Step.fault taken leaves
  have start : Keeps 64 [] interrupted :=
    ⟨twoPages_whole, fun _ mem => absurd mem List.not_mem_nil⟩
  have kept := Keeps.step (p := ⟨interrupted, []⟩) fair start caught
  have last : Step (fun _ => none) (fun _ s => s) 64 (fun _ => ⟨0, fun u => (u, false)⟩)
      ⟨v, [interrupted.context 2]⟩
      ⟨{ v with u_ar0 := update v.u_ar0 R7 63 }, [interrupted.context 2]⟩ :=
    Step.user (kept.same rfl)
  have run := (Relation.ReflTransGen.single caught).tail last
  refine ⟨v, left, (sigreturn_restores fair twoPages_whole run ?_ ?_).1⟩
  · dsimp only
    rw [update_self]
    rfl
  · dsimp only
    rw [entry]
    rfl

end UnixV7.Signal
