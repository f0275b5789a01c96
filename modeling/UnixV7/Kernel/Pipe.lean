import Mathlib.Data.List.Basic
import Mathlib.Order.Lattice
import UnixV7.Kernel.Buf
import UnixV7.Library.Interleaving

/-!
# Pipes

`readp` and `writep` of `pipe.c`, with `plock`, `prele` and what `closef` does to a pipe. Any
number of processes read, write and close one pipe. A process runs until it sleeps: on the inode
for the lock, on `ip+1` or `ip+2` for room or for data, or in `readi` and `writei`, with the lock,
for the disk. A transfer may end early with an error. `wakeup` does here what its comment promises:
everybody who sleeps on the channel can go on, which is so unless the swapper is led astray.
-/

namespace UnixV7

open Function

namespace Pipe

def PIPSIZ : ℕ := 4096

/-- What a process sleeps on: `ip`, `ip+1` and `ip+2`. -/
inductive Chan
  | inode | writers | readers
  deriving DecidableEq

/-- The errors of a call; `EFAULT` stands for every error of a transfer. -/
inductive Error
  | EPIPE | EINTR | EFAULT

/-- A write call that has returned: what it was given, whether a transfer failed in it, and
`u_error` at its end. -/
structure Call where
  bytes : List ℕ
  failed : Bool
  u_error : Option Error

/-- What one `writei` left in the file, in which write call of which process. -/
structure Piece (ι : Type*) where
  writer : ι
  call : ℕ
  bytes : List ℕ

/-- A process: its `u_error`, what its last write call was given, and its write calls that have
returned. -/
structure User where
  u_error : Option Error
  given : List ℕ
  calls : List Call

/-- The inode of the pipe, the offset of the reading end, and the processes with what they sleep
on. The flags are `ILOCK` and `IWANT` of `i_flag`, `IREAD` and `IWRITE` of `i_mode`. -/
structure State (ι : Type*) where
  /-- The bytes of the file, `i_size` of them. -/
  file : List ℕ
  f_offset : ℕ
  i_count : ℕ
  ilock : Bool
  iwant : Bool
  iread : Bool
  iwrite : Bool
  wchan : ι → Option Chan
  u : ι → User
  /-- What each `readi` moved, in their order. -/
  got : List (ι × List ℕ)
  /-- What each `writei` moved, in their order. -/
  put : List (Piece ι)

/-- Where a process is when it does not run. -/
inductive Place
  | idle
  | read (u_count : ℕ)
  | readi (u_offset u_count : ℕ)
  | write (c : List ℕ)
  | writei (u_offset : ℕ) (now rest : List ℕ)
  | close
  deriving DecidableEq

/-- The calls, a process that goes on, a transfer that fails when it has moved some bytes (or, of
a write, when these are what the file has then), and a signal that ends a call. -/
inductive Event
  | read (u_count : ℕ)
  | write (c : List ℕ)
  | close
  | run
  | fault (bytes : List ℕ)
  | signal

namespace State

variable {ι : Type*}

/-- What `pipe` makes. -/
def pipe : State ι where
  file := []
  f_offset := 0
  i_count := 2
  ilock := false
  iwant := false
  iread := false
  iwrite := false
  wchan := fun _ => none
  u := fun _ => ⟨none, [], []⟩
  got := []
  put := []

/-- All bytes that were read. -/
def gotten (s : State ι) : List ℕ := s.got.flatMap Prod.snd

/-- All bytes that were written. -/
def written (s : State ι) : List ℕ := s.put.flatMap Piece.bytes

/-- What a write call of a process has put in the pipe. -/
def wrote [DecidableEq ι] (s : State ι) (p : ι) (call : ℕ) : List (List ℕ) :=
  (s.put.filter fun piece => piece.writer = p ∧ piece.call = call).map Piece.bytes

def wakeup (c : Chan) (s : State ι) : State ι :=
  { s with wchan := fun p => if s.wchan p = some c then none else s.wchan p }

def prele (s : State ι) : State ι :=
  if s.iwant then { s with ilock := false, iwant := false }.wakeup .inode
  else { s with ilock := false }

/-- The reader has caught up with the writer. -/
def reset (s : State ι) : State ι :=
  let s := { s with f_offset := 0, file := [] }
  if s.iwrite then { s with iwrite := false }.wakeup .writers else s

variable [DecidableEq ι]

def sleep (p : ι) (c : Chan) (s : State ι) : State ι :=
  { s with wchan := update s.wchan p (some c) }

/-- `u_error` is set. -/
def fail (p : ι) (e : Error) (s : State ι) : State ι :=
  { s with u := update s.u p { s.u p with u_error := some e } }

/-- `readi`, which may fail when it has moved some bytes, and the rest of `readp`. -/
def readDone (p : ι) (u_offset u_count : ℕ) (fault : Option ℕ) (s : State ι) : State ι × Place :=
  let bytes := (s.file.drop u_offset).take (fault.elim u_count (min u_count))
  let s := { s with f_offset := u_offset + bytes.length, got := s.got ++ [(p, bytes)] }
  let s := if fault.isSome then s.fail p .EFAULT else s
  (if s.f_offset = s.file.length then s.reset.prele else s.prele, .idle)

/-- What `writei` moves: nothing behind the first block when `u_error` was set before, and what
the file has then when it fails. -/
def moves (p : ι) (u_offset : ℕ) (now : List ℕ) (fault : Option (List ℕ)) (s : State ι) : List ℕ :=
  fault.elim (if (s.u p).u_error.isNone then now else now.take (BSIZE - u_offset % BSIZE))
    (List.take now.length)

/-- `writei`, and the rest of the loop in `writep`. -/
def writeDone (p : ι) (u_offset : ℕ) (now : List ℕ) (fault : Option (List ℕ)) (s : State ι) :
    State ι :=
  let bytes := s.moves p u_offset now fault
  let s := { s with
    file := s.file.take u_offset ++ bytes ++ s.file.drop (u_offset + bytes.length)
    put := s.put ++ [Piece.mk p (s.u p).calls.length bytes] }
  let s := if fault.isSome then s.fail p .EFAULT else s
  let s := s.prele
  if s.iread then { s with iread := false }.wakeup .readers else s

/-- `plock` finds the pipe locked. -/
def wait (p : ι) (s : State ι) : State ι := { s with iwant := true }.sleep p .inode

def readp (p : ι) (u_count : ℕ) (s : State ι) : State ι × Place :=
  if s.ilock then (s.wait p, .read u_count)
  else
    let s := { s with ilock := true }
    if s.file.length = 0 then
      let s := s.prele
      if s.i_count < 2 then (s, .idle)
      else ({ s with iread := true }.sleep p .readers, .read u_count)
    else (s, .readi s.f_offset u_count)

def writep (p : ι) (c : List ℕ) (s : State ι) : State ι × Place :=
  if s.ilock then (s.wait p, .write c)
  else
    let s := { s with ilock := true }
    if c.length = 0 then (s.prele, .idle)
    else if s.i_count < 2 then (s.prele.fail p .EPIPE, .idle)
    else if PIPSIZ ≤ s.file.length then ({ s with iwrite := true }.prele.sleep p .writers, .write c)
    else (s, .writei s.file.length (c.take PIPSIZ) (c.drop PIPSIZ))

/-- `closef` for an end of the pipe that nothing else refers to. -/
def closef (p : ι) (s : State ι) : State ι × Place :=
  if s.ilock then (s.wait p, .close)
  else
    let s := { s with ilock := true, iread := false, iwrite := false }
    let s := (s.wakeup .writers).wakeup .readers
    ({ s with i_count := s.i_count - 1 }.prele, .idle)

/-- A signal ends the sleep of `p`. -/
def interrupt (p : ι) (s : State ι) : State ι :=
  let s := { s with wchan := update s.wchan p none }
  if (s.u p).u_error.isNone then s.fail p .EINTR else s

/-- A system call begins. -/
def enter (p : ι) (c : List ℕ) (s : State ι) : State ι :=
  { s with u := update s.u p { s.u p with u_error := none, given := c } }

/-- When a write call returns, it is noted. -/
def ended (p : ι) (failed : Bool) (r : State ι × Place) : State ι × Place :=
  let user := r.1.u p
  let call : Call := ⟨user.given, failed, user.u_error⟩
  let user := { user with calls := user.calls ++ [call] }
  ({ r.1 with u := if r.2 = .idle then update r.1.u p user else r.1.u }, r.2)

/-- A write call from `plock` on. -/
def writing (p : ι) (c : List ℕ) (s : State ι) : State ι × Place :=
  ended p (s.u p).u_error.isSome (s.writep p c)

end State

/-- The processes that have the pipe. -/
def system (ι : Type*) [DecidableEq ι] : System ι Event (State ι) Place where
  start := .idle
  next p e s l :=
    match e, l with
    | .read u_count, .idle => some ((s.enter p []).readp p u_count)
    | .write c, .idle => some ((s.enter p c).writing p c)
    | .close, .idle => some ((s.enter p []).closef p)
    | .run, .readi u_offset u_count => some (s.readDone p u_offset u_count none)
    | .fault bytes, .readi u_offset u_count => some (s.readDone p u_offset u_count bytes.length)
    | .run, .writei u_offset now rest => some ((s.writeDone p u_offset now none).writing p rest)
    | .fault bytes, .writei u_offset now rest =>
        some ((s.writeDone p u_offset now (some bytes)).writing p rest)
    | .run, .read u_count => if s.wchan p = none then some (s.readp p u_count) else none
    | .run, .write c => if s.wchan p = none then some (s.writing p c) else none
    | .run, .close => if s.wchan p = none then some (s.closef p) else none
    -- of the two priorities only PPIPE lets signals through
    | .signal, .read _ => if s.wchan p ≠ some .inode then some (s.interrupt p, .idle) else none
    | .signal, .write _ =>
        if s.wchan p ≠ some .inode then
          some (State.ended p (s.u p).u_error.isSome (s.interrupt p, .idle))
        else none
    | _, _ => none

/-- The process has the lock. -/
def Place.Holds : Place → Prop
  | .readi _ _ => True
  | .writei _ _ _ => True
  | _ => False

/-- What a process in a call can sleep on. -/
def Place.Waits : Place → Chan → Prop
  | .read _, c => c = .inode ∨ c = .readers
  | .write _, c => c = .inode ∨ c = .writers
  | .close, c => c = .inode
  | _, _ => False

/-! ## The state that is shared -/

/-- Nothing is lost, and nobody sleeps in vain. -/
structure Shared {ι : Type*} (s : State ι) : Prop where
  fifo : s.gotten ++ s.file.drop s.f_offset = s.written
  offset : s.f_offset < s.file.length ∨ s.file = [] ∧ s.f_offset = 0
  size : s.file.length < 2 * PIPSIZ
  inode : ∀ p, s.wchan p = some .inode → s.iwant = true ∧ s.ilock = true
  readers : ∀ p, s.wchan p = some .readers → s.iread = true ∧ s.file = [] ∧ 2 ≤ s.i_count
  writers : ∀ p, s.wchan p = some .writers →
    s.iwrite = true ∧ PIPSIZ ≤ s.file.length ∧ 2 ≤ s.i_count

/-- A transfer is at the right place of the file. -/
def Fits {ι : Type*} (s : State ι) : Place → Prop
  | .readi u_offset _ => u_offset = s.f_offset ∧ u_offset < s.file.length
  | .writei u_offset now _ => u_offset = s.file.length ∧ u_offset < PIPSIZ ∧ now.length ≤ PIPSIZ
  | _ => True

/-- What a process does until it sleeps; `held` tells whether it had the lock before. -/
structure Moved {ι : Type*} (s : State ι) (held : Prop) (p : ι) (s' : State ι) (l : Place) :
    Prop where
  shared : Shared s'
  lock : s'.ilock = true ↔ l.Holds ∨ s.ilock = true ∧ ¬held
  locked : s.ilock = true → ¬held →
    ¬l.Holds ∧ s'.file = s.file ∧ s'.f_offset = s.f_offset
  fits : Fits s' l
  asleep : ∀ q c, s'.wchan q = some c → s.wchan q = some c ∨ q = p ∧ l.Waits c

variable {ι : Type*} {s s' : State ι} {l : Place} {c d : Chan} {p q : ι} {held : Prop}
  {u_offset u_count : ℕ}

theorem wchan_wakeup :
    (s.wakeup c).wchan p = some d ↔ s.wchan p = some d ∧ d ≠ c := by
  show (if s.wchan p = some c then none else s.wchan p) = some d ↔ _
  by_cases same : s.wchan p = some c
  · rw [if_pos same, same, Option.some.injEq]
    exact ⟨fun absent => absurd absent.symm (Option.some_ne_none d),
      fun both => absurd both.1.symm both.2⟩
  · rw [if_neg same]
    refine ⟨fun here => ⟨here, ?_⟩, And.left⟩
    rintro rfl
    exact same here

/-- All that `prele` changes. -/
theorem prele_cases (s : State ι) :
    s.iwant = true ∧ s.prele = { s with ilock := false, iwant := false }.wakeup .inode ∨
      s.iwant = false ∧ s.prele = { s with ilock := false } := by
  rw [State.prele]
  cases want : s.iwant
  · exact .inr ⟨rfl, rfl⟩
  · exact .inl ⟨rfl, rfl⟩

@[simp] theorem file_prele : s.prele.file = s.file := by
  obtain ⟨-, same⟩ | ⟨-, same⟩ := prele_cases s <;> exact (congrArg State.file same :)

@[simp] theorem f_offset_prele : s.prele.f_offset = s.f_offset := by
  obtain ⟨-, same⟩ | ⟨-, same⟩ := prele_cases s <;> exact (congrArg State.f_offset same :)

@[simp] theorem i_count_prele : s.prele.i_count = s.i_count := by
  obtain ⟨-, same⟩ | ⟨-, same⟩ := prele_cases s <;> exact (congrArg State.i_count same :)

@[simp] theorem ilock_prele : s.prele.ilock = false := by
  obtain ⟨-, same⟩ | ⟨-, same⟩ := prele_cases s <;> exact (congrArg State.ilock same :)

@[simp] theorem iread_prele : s.prele.iread = s.iread := by
  obtain ⟨-, same⟩ | ⟨-, same⟩ := prele_cases s <;> exact (congrArg State.iread same :)

@[simp] theorem iwrite_prele : s.prele.iwrite = s.iwrite := by
  obtain ⟨-, same⟩ | ⟨-, same⟩ := prele_cases s <;> exact (congrArg State.iwrite same :)

@[simp] theorem u_prele : s.prele.u = s.u := by
  obtain ⟨-, same⟩ | ⟨-, same⟩ := prele_cases s <;> exact (congrArg State.u same :)

@[simp] theorem got_prele : s.prele.got = s.got := by
  obtain ⟨-, same⟩ | ⟨-, same⟩ := prele_cases s <;> exact (congrArg State.got same :)

@[simp] theorem put_prele : s.prele.put = s.put := by
  obtain ⟨-, same⟩ | ⟨-, same⟩ := prele_cases s <;> exact (congrArg State.put same :)

@[simp] theorem gotten_prele : s.prele.gotten = s.gotten :=
  congrArg (List.flatMap Prod.snd) got_prele

@[simp] theorem written_prele : s.prele.written = s.written :=
  congrArg (List.flatMap Piece.bytes) put_prele

/-- `prele` wakes whoever waits for the lock, and nobody else sleeps less. -/
theorem wchan_prele (want : ∀ p, s.wchan p = some .inode → s.iwant = true)
    (here : s.prele.wchan p = some c) : s.wchan p = some c ∧ c ≠ .inode := by
  obtain ⟨-, same⟩ | ⟨no, same⟩ := prele_cases s
  · rw [same] at here
    exact wchan_wakeup.mp here
  · rw [same] at here
    refine ⟨here, ?_⟩
    rintro rfl
    rw [want p here] at no
    cases no

theorem Shared.want (shared : Shared s) (p : ι) (here : s.wchan p = some .inode) :
    s.iwant = true :=
  (shared.inode p here).1

/-- The pipe is given up. -/
theorem Shared.prele (shared : Shared s) : Shared s.prele where
  fifo := by simpa using shared.fifo
  offset := by simpa using shared.offset
  size := by simpa using shared.size
  inode p here := absurd rfl (wchan_prele shared.want here).2
  readers p here := by simpa using shared.readers p (wchan_prele shared.want here).1
  writers p here := by simpa using shared.writers p (wchan_prele shared.want here).1

theorem Shared.locked (shared : Shared s) : Shared { s with ilock := true } :=
  { shared with inode := fun p here => ⟨shared.want p here, rfl⟩ }

/-- What is known about the processes does not matter to the pipe. -/
theorem Shared.users (shared : Shared s) (u : ι → User) : Shared { s with u := u } :=
  ⟨shared.fifo, shared.offset, shared.size, shared.inode, shared.readers, shared.writers⟩

theorem Moved.users (moved : Moved s held p s' l) (u v : ι → User) :
    Moved { s with u := u } held p { s' with u := v } l where
  shared := moved.shared.users v
  lock := moved.lock
  locked := moved.locked
  fits := by
    have fits := moved.fits
    cases l with
    | readi u_offset u_count => exact fits
    | writei u_offset now rest => exact fits
    | _ => trivial
  asleep := moved.asleep

/-- A process that has the lock gives it up, and returns. -/
theorem Moved.give (shared : Shared s') (free : s.ilock = true → held)
    (asleep : ∀ q c, s'.wchan q = some c → s.wchan q = some c) :
    Moved s held p s'.prele .idle where
  shared := shared.prele
  lock := by
    rw [ilock_prele]
    refine ⟨fun no => absurd no Bool.false_ne_true, ?_⟩
    rintro (none | ⟨here, other⟩)
    · exact none.elim
    · exact absurd (free here) other
  locked here other := absurd (free here) other
  fits := trivial
  asleep q c here := .inl (asleep q c (wchan_prele shared.want here).1)

/-- A process goes on from a state in which nobody has the lock. -/
theorem Moved.onward (moved : Moved s' held p s l) (free : s'.ilock = false)
    {s₀ : State ι} (asleep : ∀ q c, s'.wchan q = some c → s₀.wchan q = some c) :
    Moved s₀ True p s l where
  shared := moved.shared
  lock := by
    rw [moved.lock, free]
    exact ⟨Or.imp_right fun both => absurd both.1 Bool.false_ne_true,
      Or.imp_right fun both => absurd trivial both.2⟩
  locked _ other := absurd trivial other
  fits := moved.fits
  asleep q c here := (moved.asleep q c here).imp_left (asleep q c)

/-- `readDone` keeps the order of the bytes. -/
theorem taken {file got put : List ℕ} {offset : ℕ} (u_count : ℕ)
    (fifo : got ++ file.drop offset = put) :
    got ++ (file.drop offset).take u_count ++
      file.drop (offset + ((file.drop offset).take u_count).length) = put := by
  rw [List.append_assoc, ← List.drop_drop,
    List.prefix_iff_eq_append.mp (List.take_prefix u_count (file.drop offset)), fifo]

/-- Everything was read: the writers go on. -/
theorem reset_fields (s : State ι) (full : ∀ p, s.wchan p = some .writers → s.iwrite = true) :
    s.reset.gotten = s.gotten ∧ s.reset.written = s.written ∧ s.reset.file = [] ∧
      s.reset.f_offset = 0 ∧
      s.reset.i_count = s.i_count ∧ s.reset.ilock = s.ilock ∧ s.reset.iwant = s.iwant ∧
      s.reset.iread = s.iread ∧
      ∀ p c, s.reset.wchan p = some c → s.wchan p = some c ∧ c ≠ .writers := by
  rw [State.reset]
  by_cases asked : s.iwrite = true
  · rw [if_pos asked]
    exact ⟨rfl, rfl, rfl, rfl, rfl, rfl, rfl, rfl, fun p c here => wchan_wakeup.mp here⟩
  · rw [if_neg asked]
    refine ⟨rfl, rfl, rfl, rfl, rfl, rfl, rfl, rfl, fun p c here => ⟨here, ?_⟩⟩
    rintro rfl
    exact asked (full p here)

theorem Fits.congr (fits : Fits s l) (file : s'.file = s.file)
    (offset : s'.f_offset = s.f_offset) : Fits s' l := by
  cases l with
  | readi u_offset u_count =>
      obtain ⟨place, some⟩ := fits
      exact ⟨place.trans offset.symm, some.trans_eq (congrArg List.length file).symm⟩
  | writei u_offset now rest =>
      obtain ⟨place, room, few⟩ := fits
      exact ⟨place.trans (congrArg List.length file).symm, room, few⟩
  | _ => trivial

theorem fits_of_not_holds (free : ¬l.Holds) : Fits s l := by
  cases l with
  | readi u_offset u_count => exact absurd trivial free
  | writei u_offset now rest => exact absurd trivial free
  | _ => trivial

theorem Place.Waits.not_holds (waits : l.Waits c) : ¬l.Holds := by
  cases l with
  | readi u_offset u_count => exact waits.elim
  | writei u_offset now rest => exact waits.elim
  | _ => exact id

theorem Moved.own (moved : Moved s held p s' l) (awake : s.wchan p = none) (c : Chan)
    (here : s'.wchan p = some c) : l.Waits c := by
  obtain before | ⟨-, waits⟩ := moved.asleep p c here
  · rw [awake] at before
    cases before
  · exact waits

theorem length_moves (s : State ι) (p : ι) (u_offset : ℕ) (now : List ℕ)
    (fault : Option (List ℕ)) : (s.moves p u_offset now fault).length ≤ now.length := by
  rw [State.moves]
  cases fault with
  | some bytes => exact List.length_take_le _ _
  | none =>
      dsimp only [Option.elim_none]
      split
      · exact le_rfl
      · exact List.length_take_le' _ _

variable [DecidableEq ι]

/-- Whether a transfer failed does not matter to the pipe. -/
theorem fail_if (s : State ι) (p : ι) (e : Error) (b : Bool) :
    (if b then s.fail p e else s) = { s with u := if b then (s.fail p e).u else s.u } := by
  cases b <;> rfl

/-- The state when `readi` has returned. -/
def State.taken (p : ι) (u_offset u_count : ℕ) (fault : Option ℕ) (s : State ι) : State ι :=
  let bytes := (s.file.drop u_offset).take (fault.elim u_count (min u_count))
  { s with
    f_offset := u_offset + bytes.length
    got := s.got ++ [(p, bytes)]
    u := if fault.isSome then (s.fail p .EFAULT).u else s.u }

theorem readDone_eq (s : State ι) (p : ι) (u_offset u_count : ℕ) (fault : Option ℕ) :
    s.readDone p u_offset u_count fault =
      (let t := s.taken p u_offset u_count fault
       if t.f_offset = t.file.length then t.reset.prele else t.prele, .idle) := by
  rw [State.readDone]
  dsimp only
  rw [fail_if]
  rfl

theorem shared_taken (shared : Shared s) (fits : Fits s (.readi u_offset u_count))
    (fault : Option ℕ) :
    let t := s.taken p u_offset u_count fault
    t.gotten ++ t.file.drop t.f_offset = t.written ∧ t.f_offset ≤ t.file.length := by
  obtain ⟨rfl, some⟩ := fits
  let bytes := (s.file.drop s.f_offset).take (fault.elim u_count (min u_count))
  have moved : (s.taken p s.f_offset u_count fault).gotten = s.gotten ++ bytes := by
    show (s.got ++ [(p, bytes)]).flatMap Prod.snd = _
    rw [List.flatMap_append, List.flatMap_singleton]
    rfl
  refine ⟨?_, ?_⟩
  · rw [moved]
    exact taken _ shared.fifo
  · have short : bytes.length ≤ (s.file.drop s.f_offset).length := List.length_take_le' _ _
    rw [List.length_drop] at short
    show s.f_offset + bytes.length ≤ s.file.length
    omega

theorem moved_readDone (shared : Shared s) (fits : Fits s (.readi u_offset u_count))
    (fault : Option ℕ) : Moved s True p (s.readDone p u_offset u_count fault).1
      (s.readDone p u_offset u_count fault).2 := by
  obtain ⟨fifo, few⟩ := shared_taken (p := p) shared fits fault
  let t := s.taken p u_offset u_count fault
  rw [readDone_eq]
  show Moved s True p (if t.f_offset = t.file.length then t.reset.prele else t.prele) .idle
  by_cases whole : t.f_offset = t.file.length
  · rw [if_pos whole]
    obtain ⟨got, put, file, offset, count, lock, want, read, wchan⟩ :=
      reset_fields t fun q here => (shared.writers q here).1
    refine .give ⟨?_, ?_, ?_, fun q here => ?_, fun q here => ?_, fun q here => ?_⟩
      (fun _ => trivial) fun q c here => (wchan q c here).1
    · have behind : t.file.drop t.f_offset = [] := List.drop_eq_nil_of_le whole.ge
      rw [got, put, file, offset, List.drop_zero, ← fifo, behind]
    · exact .inr ⟨file, offset⟩
    · rw [file]
      decide
    · rw [want, lock]
      exact shared.inode q (wchan q _ here).1
    · rw [read, file, count]
      have before := shared.readers q (wchan q _ here).1
      exact ⟨before.1, rfl, before.2.2⟩
    · exact absurd rfl (wchan q _ here).2
  · rw [if_neg whole]
    exact .give ⟨fifo, .inl (few.lt_of_ne whole), shared.size, shared.inode, shared.readers,
      shared.writers⟩ (fun _ => trivial) fun q c here => here

/-- `readi` gets at least one byte, unless it fails. -/
theorem got_readDone (fits : Fits s (.readi u_offset u_count))
    (some : 0 < u_count) :
    ∃ bytes, bytes ≠ [] ∧ (s.readDone p u_offset u_count none).1.got = s.got ++ [(p, bytes)] := by
  obtain ⟨rfl, more⟩ := fits
  refine ⟨(s.file.drop s.f_offset).take u_count, ?_, ?_⟩
  · refine List.ne_nil_of_length_pos ?_
    rw [List.length_take, List.length_drop]
    omega
  · rw [readDone_eq]
    let t := s.taken p s.f_offset u_count none
    show (if t.f_offset = t.file.length then t.reset.prele else t.prele).got = t.got
    by_cases whole : t.f_offset = t.file.length
    · rw [if_pos whole, got_prele, State.reset]
      dsimp only
      split <;> rfl
    · rw [if_neg whole, got_prele]

/-- The state when `writei` has returned. -/
def State.added (p : ι) (u_offset : ℕ) (now : List ℕ) (fault : Option (List ℕ)) (s : State ι) :
    State ι :=
  let bytes := s.moves p u_offset now fault
  { s with
    file := s.file.take u_offset ++ bytes ++ s.file.drop (u_offset + bytes.length)
    put := s.put ++ [Piece.mk p (s.u p).calls.length bytes]
    u := if fault.isSome then (s.fail p .EFAULT).u else s.u }

theorem writeDone_eq (s : State ι) (p : ι) (u_offset : ℕ) (now : List ℕ)
    (fault : Option (List ℕ)) :
    s.writeDone p u_offset now fault =
      let t := (s.added p u_offset now fault).prele
      if t.iread then { t with iread := false }.wakeup .readers else t := by
  rw [State.writeDone]
  dsimp only
  rw [fail_if]
  rfl

/-- After `writei` nobody has the lock or waits for it or for data. -/
theorem writeDone_fields (s : State ι) (p : ι) (u_offset : ℕ) (now : List ℕ)
    (fault : Option (List ℕ)) (want : ∀ p, s.wchan p = some .inode → s.iwant = true)
    (empty : ∀ p, s.wchan p = some .readers → s.iread = true) :
    let t := s.writeDone p u_offset now fault
    let t' := s.added p u_offset now fault
    t.file = t'.file ∧ t.f_offset = s.f_offset ∧ t.got = s.got ∧ t.put = t'.put ∧ t.u = t'.u ∧
      t.i_count = s.i_count ∧ t.ilock = false ∧ t.iwrite = s.iwrite ∧
      ∀ p c, t.wchan p = some c → s.wchan p = some c ∧ c ≠ .inode ∧ c ≠ .readers := by
  rw [writeDone_eq]
  let t := s.added p u_offset now fault
  have woken : ∀ p c, t.prele.wchan p = some c → s.wchan p = some c ∧ c ≠ .inode :=
    fun p c here => wchan_prele (s := t) want here
  dsimp only
  by_cases asked : t.prele.iread = true
  · rw [if_pos asked]
    refine ⟨file_prele, f_offset_prele, got_prele, put_prele, u_prele, i_count_prele, ilock_prele,
      iwrite_prele, fun p c here => ?_⟩
    obtain ⟨asleep, other⟩ := wchan_wakeup.mp here
    exact ⟨(woken p c asleep).1, (woken p c asleep).2, other⟩
  · rw [if_neg asked]
    refine ⟨file_prele, f_offset_prele, got_prele, put_prele, u_prele, i_count_prele, ilock_prele,
      iwrite_prele, fun p c here => ⟨(woken p c here).1, (woken p c here).2, ?_⟩⟩
    rintro rfl
    exact asked (iread_prele.trans (empty p (woken p _ here).1))

theorem shared_writeDone {now rest : List ℕ} (shared : Shared s)
    (fits : Fits s (.writei u_offset now rest)) (fault : Option (List ℕ)) :
    Shared (s.writeDone p u_offset now fault) := by
  obtain ⟨rfl, room, few⟩ := fits
  obtain ⟨file, offset, got, put, -, count, -, write, wchan⟩ :=
    writeDone_fields s p s.file.length now fault shared.want
      fun q here => (shared.readers q here).1
  let bytes := s.moves p s.file.length now fault
  have short : bytes.length ≤ now.length := length_moves s p _ now fault
  have file : (s.writeDone p s.file.length now fault).file = s.file ++ bytes := by
    rw [file, State.added]
    dsimp only
    rw [List.take_length, List.drop_eq_nil_of_le (Nat.le_add_right _ _), List.append_nil]
  have gotten : (s.writeDone p s.file.length now fault).gotten = s.gotten :=
    congrArg (List.flatMap Prod.snd) got
  have written : (s.writeDone p s.file.length now fault).written = s.written ++ bytes := by
    rw [State.written, put]
    show (s.put ++ [_]).flatMap Piece.bytes = _
    rw [List.flatMap_append, List.flatMap_singleton]
    rfl
  refine ⟨?_, ?_, ?_, fun q here => ?_, fun q here => ?_, fun q here => ?_⟩
  · have behind : s.f_offset ≤ s.file.length := by
      obtain more | ⟨-, start⟩ := shared.offset
      · exact more.le
      · exact start.le.trans (Nat.zero_le _)
    rw [gotten, file, offset, written, List.drop_append_of_le_length behind, ← List.append_assoc,
      shared.fifo]
  · rw [offset, file, List.length_append]
    obtain more | ⟨nothing, start⟩ := shared.offset
    · exact .inl (more.trans_le (Nat.le_add_right _ _))
    · rw [nothing, start]
      cases same : bytes with
      | nil => exact .inr ⟨rfl, rfl⟩
      | cons c rest => exact .inl (Nat.succ_pos _)
  · rw [file, List.length_append]
    omega
  · exact absurd rfl (wchan q _ here).2.1
  · exact absurd rfl (wchan q _ here).2.2
  -- there was room for this writer, so that no other one sleeps
  · have before := shared.writers q (wchan q _ here).1
    exact absurd before.2.1 (Nat.not_le.mpr room)

theorem wchan_sleep (s : State ι) (p q : ι) (c : Chan) :
    (s.sleep p c).wchan q = if q = p then some c else s.wchan q :=
  update_apply s.wchan p (some c) q

theorem wchan_sleep_cases (here : (s.sleep p c).wchan q = some d) :
    q = p ∧ d = c ∨ s.wchan q = some d := by
  rw [wchan_sleep] at here
  by_cases same : q = p
  · rw [if_pos same] at here
    exact .inl ⟨same, (Option.some.inj here).symm⟩
  · rw [if_neg same] at here
    exact .inr here

/-- Who has a reason to sleep does not sleep in vain. -/
theorem Shared.sleep (shared : Shared s)
    (inode : c = .inode → s.iwant = true ∧ s.ilock = true)
    (readers : c = .readers → s.iread = true ∧ s.file = [] ∧ 2 ≤ s.i_count)
    (writers : c = .writers → s.iwrite = true ∧ PIPSIZ ≤ s.file.length ∧ 2 ≤ s.i_count) :
    Shared (s.sleep p c) where
  fifo := shared.fifo
  offset := shared.offset
  size := shared.size
  inode q here := (wchan_sleep_cases here).elim (fun both => inode both.2.symm) (shared.inode q)
  readers q here :=
    (wchan_sleep_cases here).elim (fun both => readers both.2.symm) (shared.readers q)
  writers q here :=
    (wchan_sleep_cases here).elim (fun both => writers both.2.symm) (shared.writers q)

/-- A process waits for the lock. -/
theorem moved_wait (shared : Shared s) (locked : s.ilock = true) (free : ¬l.Holds)
    (waits : l.Waits .inode) (fits : Fits (s.wait p) l) : Moved s False p (s.wait p) l := by
  have wanted : Shared { s with iwant := true } :=
    { shared with inode := fun q here => ⟨rfl, (shared.inode q here).2⟩ }
  refine ⟨wanted.sleep (fun _ => ⟨rfl, locked⟩) (fun same => by cases same)
    (fun same => by cases same), ⟨fun _ => .inr ⟨locked, not_false⟩, fun _ => locked⟩,
    fun _ _ => ⟨free, rfl, rfl⟩, fits, fun q c here => ?_⟩
  obtain ⟨same, rfl⟩ | before := wchan_sleep_cases here
  · exact .inr ⟨same, waits⟩
  · exact .inl before

/-- A process gives the lock up and sleeps, for data or for room. -/
theorem Moved.sleeps (shared : Shared (s'.sleep p c)) (free : s.ilock = false)
    (free' : s'.ilock = false) (out : ¬l.Holds) (waits : l.Waits c) (fits : Fits (s'.sleep p c) l)
    (asleep : ∀ q d, s'.wchan q = some d → s.wchan q = some d) :
    Moved s False p (s'.sleep p c) l where
  shared := shared
  lock := by
    show s'.ilock = true ↔ _
    rw [free, free']
    simp [out]
  locked here := by
    rw [free] at here
    cases here
  fits := fits
  asleep q d here := by
    obtain ⟨same, rfl⟩ | before := wchan_sleep_cases here
    · exact .inr ⟨same, waits⟩
    · exact .inl (asleep q d before)

theorem moved_readp (shared : Shared s) (u_count : ℕ) :
    Moved s False p (s.readp p u_count).1 (s.readp p u_count).2 := by
  rw [State.readp]
  by_cases locked : s.ilock = true
  · rw [if_pos locked]
    exact moved_wait shared locked id (.inl rfl) trivial
  rw [if_neg locked]
  have free : s.ilock = false := Bool.not_eq_true _ ▸ locked
  let t : State ι := { s with ilock := true }
  have held : Shared t := shared.locked
  dsimp only
  by_cases empty : s.file.length = 0
  · rw [if_pos empty]
    by_cases alone : t.prele.i_count < 2
    · rw [if_pos alone]
      exact .give held (fun here => locked here) fun q c here => here
    · rw [if_neg alone]
      -- nobody writes between `prele` and `sleep`
      have nothing : t.prele.file = [] :=
        file_prele.trans (List.eq_nil_of_length_eq_zero empty)
      have asked : Shared { t.prele with iread := true } :=
        { held.prele with readers := fun q here => ⟨rfl, (held.prele.readers q here).2⟩ }
      exact .sleeps (asked.sleep (fun same => by cases same)
        (fun _ => ⟨rfl, nothing, Nat.not_lt.mp alone⟩) fun same => by cases same)
        free ilock_prele id (.inr rfl) trivial fun q d here => (wchan_prele held.want here).1
  · rw [if_neg empty]
    have more : s.f_offset < s.file.length :=
      shared.offset.resolve_right fun both => empty (congrArg List.length both.1)
    exact ⟨held, ⟨fun _ => .inl trivial, fun _ => rfl⟩, fun here => absurd here locked,
      ⟨rfl, more⟩, fun q c here => .inl here⟩

theorem moved_writep (shared : Shared s) (c : List ℕ) :
    Moved s False p (s.writep p c).1 (s.writep p c).2 := by
  rw [State.writep]
  by_cases locked : s.ilock = true
  · rw [if_pos locked]
    exact moved_wait shared locked id (.inl rfl) trivial
  rw [if_neg locked]
  have free : s.ilock = false := Bool.not_eq_true _ ▸ locked
  let t : State ι := { s with ilock := true }
  have held : Shared t := shared.locked
  dsimp only
  by_cases done : c.length = 0
  · rw [if_pos done]
    exact .give held (fun here => locked here) fun q c here => here
  rw [if_neg done]
  by_cases alone : s.i_count < 2
  · rw [if_pos alone]
    have given : Moved s False p t.prele .idle :=
      .give held (fun here => locked here) fun q c here => here
    exact given.users s.u _
  rw [if_neg alone]
  by_cases full : PIPSIZ ≤ s.file.length
  · rw [if_pos full]
    have asked : Shared { t with iwrite := true } :=
      { held with writers := fun q here => ⟨rfl, (held.writers q here).2⟩ }
    have file := file_prele (s := { t with iwrite := true })
    have count := i_count_prele (s := { t with iwrite := true })
    exact .sleeps (asked.prele.sleep (fun same => by cases same) (fun same => by cases same)
      fun _ => ⟨iwrite_prele, full.trans (congrArg List.length file).ge,
        (Nat.not_lt.mp alone).trans count.ge⟩)
      free ilock_prele id (.inr rfl) trivial fun q d here => (wchan_prele asked.want here).1
  · rw [if_neg full]
    exact ⟨held, ⟨fun _ => .inl trivial, fun _ => rfl⟩, fun here => absurd here locked,
      ⟨rfl, Nat.not_le.mp full, List.length_take_le _ _⟩, fun q c here => .inl here⟩

theorem moved_writing (shared : Shared s) (c : List ℕ) :
    Moved s False p (s.writing p c).1 (s.writing p c).2 :=
  (moved_writep shared c).users s.u _

theorem moved_writeDone {now rest : List ℕ} (shared : Shared s)
    (fits : Fits s (.writei u_offset now rest)) (fault : Option (List ℕ)) :
    Moved s True p ((s.writeDone p u_offset now fault).writing p rest).1
      ((s.writeDone p u_offset now fault).writing p rest).2 := by
  obtain ⟨-, -, -, -, -, -, free, -, wchan⟩ :=
    writeDone_fields s p u_offset now fault shared.want fun q here => (shared.readers q here).1
  exact (moved_writing (shared_writeDone shared fits fault) rest).onward free
    fun q d here => (wchan q d here).1

theorem moved_closef (shared : Shared s) :
    Moved s False p (s.closef p).1 (s.closef p).2 := by
  rw [State.closef]
  by_cases locked : s.ilock = true
  · rw [if_pos locked]
    exact moved_wait shared locked id rfl trivial
  rw [if_neg locked]
  -- both sides are woken before the count goes down
  have woken : ∀ q d, (({ s with ilock := true, iread := false, iwrite := false } :
      State ι).wakeup .writers |>.wakeup .readers).wchan q = some d →
        s.wchan q = some d ∧ d ≠ .writers ∧ d ≠ .readers := by
    intro q d here
    obtain ⟨here, readers⟩ := wchan_wakeup.mp here
    obtain ⟨here, writers⟩ := wchan_wakeup.mp here
    exact ⟨here, writers, readers⟩
  refine .give ⟨shared.fifo, shared.offset, shared.size, fun q here => ?_, fun q here => ?_,
    fun q here => ?_⟩ (fun here => locked here) fun q d here => (woken q d here).1
  · exact ⟨shared.want q (woken q _ here).1, rfl⟩
  · exact absurd rfl (woken q _ here).2.2
  · exact absurd rfl (woken q _ here).2.1

/-- A signal ends a call that does not have the lock. -/
theorem moved_interrupt (shared : Shared s) (u : ι → User) :
    Moved s False p { s.interrupt p with u := u } .idle := by
  let t : State ι := { s with wchan := update s.wchan p none }
  have woken : ∀ q c, t.wchan q = some c → s.wchan q = some c := by
    intro q c here
    have here' : update s.wchan p none q = some c := here
    by_cases same : q = p
    · rw [same, update_self] at here'
      cases here'
    · rwa [update_of_ne same] at here'
  have quiet : Moved s False p t .idle :=
    ⟨⟨shared.fifo, shared.offset, shared.size, fun q here => shared.inode q (woken q _ here),
      fun q here => shared.readers q (woken q _ here),
      fun q here => shared.writers q (woken q _ here)⟩,
      ⟨fun here => .inr ⟨here, not_false⟩, fun either => either.elim False.elim And.left⟩,
      fun _ _ => ⟨id, rfl, rfl⟩, trivial, fun q c here => .inl (woken q c here)⟩
  have same : { s.interrupt p with u := u } = { t with u := u } := by
    rw [State.interrupt]
    dsimp only
    rw [fail_if]
  rw [same]
  exact quiet.users s.u u

theorem wchan_interrupt (s : State ι) (p : ι) : (s.interrupt p).wchan p = none := by
  rw [State.interrupt]
  dsimp only
  rw [fail_if]
  exact update_self _ _ _

/-- A process whose sleep a signal has ended sleeps on nothing. -/
theorem interrupted {s' : State ι} (shared : Shared s) (u : ι → User)
    (same : some ({ s.interrupt p with u := u }, Place.idle) = some (s', l)) :
    Moved s False p s' l ∧ ∀ c, s'.wchan p = some c → l.Waits c := by
  cases same
  refine ⟨moved_interrupt shared u, fun c here => ?_⟩
  have awake : (s.interrupt p).wchan p = some c := here
  rw [wchan_interrupt] at awake
  cases awake

/-- All that the processes do keeps the order of the bytes, and lets nobody sleep in vain. -/
theorem moved_next {e : Event} {l' : Place} (shared : Shared s) (fits : Fits s l)
    (asleep : ∀ c, s.wchan p = some c → l.Waits c)
    (stepped : (system ι).next p e s l = some (s', l')) :
    Moved s l.Holds p s' l' ∧ ∀ c, s'.wchan p = some c → l'.Waits c := by
  have calm : (∀ c, ¬l.Waits c) → s.wchan p = none := fun calm => by
    cases chan : s.wchan p with
    | none => rfl
    | some c => exact absurd (asleep c chan) (calm c)
  have done : ∀ {result held}, Moved s held p result.1 result.2 → s.wchan p = none →
      some result = some (s', l') →
      Moved s held p s' l' ∧ ∀ c, s'.wchan p = some c → l'.Waits c := by
    intro result held moved awake same
    obtain rfl := Option.some.inj same
    exact ⟨moved, moved.own awake⟩
  cases l with
  | idle =>
      have entered : ∀ c, Shared (s.enter p c) := fun c => shared.users _
      cases e with
      | read u_count =>
          exact done ((moved_readp (entered []) u_count).users s.u _) (calm fun _ => id) stepped
      | write c =>
          exact done ((moved_writing (entered c) c).users s.u _) (calm fun _ => id) stepped
      | close => exact done ((moved_closef (entered [])).users s.u _) (calm fun _ => id) stepped
      | run => cases stepped
      | fault bytes => cases stepped
      | signal => cases stepped
  | readi u_offset u_count =>
      cases e with
      | run => exact done (moved_readDone shared fits none) (calm fun _ => id) stepped
      | fault bytes =>
          exact done (moved_readDone shared fits bytes.length) (calm fun _ => id) stepped
      | _ => cases stepped
  | writei u_offset now rest =>
      cases e with
      | run => exact done (moved_writeDone shared fits none) (calm fun _ => id) stepped
      | fault bytes =>
          exact done (moved_writeDone shared fits (some bytes)) (calm fun _ => id) stepped
      | _ => cases stepped
  | read u_count =>
      cases e with
      | run =>
          obtain ⟨awake, same⟩ := Option.ite_none_right_eq_some.mp stepped
          exact done (moved_readp shared u_count) awake same
      | signal =>
          obtain ⟨-, same⟩ := Option.ite_none_right_eq_some.mp stepped
          exact interrupted shared _ same
      | _ => cases stepped
  | write c =>
      cases e with
      | run =>
          obtain ⟨awake, same⟩ := Option.ite_none_right_eq_some.mp stepped
          exact done (moved_writing shared c) awake same
      | signal =>
          obtain ⟨-, same⟩ := Option.ite_none_right_eq_some.mp stepped
          exact interrupted shared _ same
      | _ => cases stepped
  | close =>
      cases e with
      | run =>
          obtain ⟨awake, same⟩ := Option.ite_none_right_eq_some.mp stepped
          exact done (moved_closef shared) awake same
      | _ => cases stepped

end Pipe

end UnixV7
