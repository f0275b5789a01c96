import Mathlib.Algebra.Group.Int.Defs
import Mathlib.Algebra.GroupWithZero.Nat
import Mathlib.Data.List.Perm.Basic
import UnixV7.Kernel.Sd

/-!
# Buffers through the disk driver

The calls of `rkstrategy` and the interrupts of the card come in any order. Beside the driver it is
written down which buffers were put in the queue, which commands were tried for each of them, and
which were handed to `iodone`.
-/

namespace UnixV7

namespace Sd

/-- A command that has ended: the piece of the buffer it was for, and whether it ended in error. -/
structure Attempt where
  off : ℕ
  len : ℕ
  failed : Bool

/-- The command that ends with an interrupt, if it is the one that ends a command. -/
def attempt (sta : ℕ) (busy : Bool) (d : Driver) : Option Attempt :=
  if d.b_active = 0 ∨ d.b_actf = [] ∨ d.rkstop = 0 ∨ d.rkstop = 1 ∧ sta &&& CMDERR = 0 ∧ busy then
    none
  else
    let rksta := if sta &&& CMDERR ≠ 0 then d.rksta ||| sta else d.rksta
    some ⟨d.rkoff, d.rkn, decide (rksta &&& (ERR ||| CMDERR) ≠ 0)⟩

/-- A buffer of the queue that was handed to `iodone`: as it was put in the queue, as it is now, and
what was tried for it. -/
structure Job where
  asked : Request
  bp : Request
  attempts : List Attempt

/-- The driver, with the buffers put in the queue, those refused, what was tried for the first
buffer of the queue, and the buffers that are done. -/
structure World where
  d : Driver
  accepted : List Request
  refusals : List Request
  attempts : List Attempt
  finished : List Job

/-- A call of `rkstrategy`, or an interrupt. -/
inductive Event
  | strategy (bp : Request)
  | interrupt (sta : ℕ) (busy : Bool)

namespace World

/-- Before the first buffer. -/
def start : World := ⟨idle, [], [], [], []⟩

def strategy (card : Card) (bp : Request) (w : World) : World :=
  let d := rkstrategy card bp w.d
  if refused card bp then
    { w with d := d, refusals := w.refusals ++ d.done.drop w.d.done.length }
  else
    { w with d := d, accepted := w.accepted ++ [bp] }

def interrupt (card : Card) (sta : ℕ) (busy : Bool) (w : World) : World :=
  let d := rkintr card sta busy w.d
  let attempts := w.attempts ++ (attempt sta busy w.d).toList
  match w.d.b_actf, d.done.drop w.d.done.length with
  | asked :: _, bp :: _ =>
      { w with d := d, attempts := [], finished := w.finished ++ [⟨asked, bp, attempts⟩] }
  | _, _ => { w with d := d, attempts := attempts }

def next (card : Card) (w : World) : Event → World
  | .strategy bp => w.strategy card bp
  | .interrupt sta busy => w.interrupt card sta busy

/-- A run over calls and interrupts in any order. -/
def run (card : Card) (w : World) (events : List Event) : World := events.foldl (next card) w

end World

/-- The callers of `rkstrategy` clear `B_ERROR`. -/
def Event.Clear : Event → Prop
  | .strategy bp => bp.b_error = false
  | .interrupt _ _ => True

def Event.isInterrupt : Event → Bool
  | .strategy _ => false
  | .interrupt _ _ => true

/-- The pieces follow one another from `low` to `high`. -/
def Covers (low high : ℕ) : List Attempt → Prop
  | [] => low = high
  | t :: ts => t.off = low ∧ Covers (low + t.len) high ts

/-- The attempts that ended in error. -/
def failures (attempts : List Attempt) : ℕ := attempts.countP (·.failed)

/-- The attempts that did not. -/
def transfers (attempts : List Attempt) : List Attempt := attempts.filter (!·.failed)

/-- The command for a piece of a buffer. -/
def Attempt.command (card : Card) (bp : Request) (t : Attempt) : Command :=
  ⟨card.address bp t.off, t.len, bp.b_read, bp⟩

/-- A buffer has an error if eleven attempts have ended in error, and else has been moved. -/
structure Job.Right (job : Job) : Prop where
  same : job.bp = { job.asked with b_error := job.bp.b_error }
  error : job.bp.b_error = true ↔ failures job.attempts = 11
  moved : job.bp.b_error = false → Covers 0 job.asked.b_bcount (transfers job.attempts)

/-- The commands for the first buffer of the queue. -/
def World.underway (card : Card) (w : World) : List Command :=
  match w.d.b_actf with
  | [] => []
  | bp :: _ =>
      w.attempts.map (·.command card bp) ++ [Attempt.command card bp ⟨w.d.rkoff, w.d.rkn, false⟩]

/-- The buffers of the queue are done in the order they came, each once, with the commands that were
sent. -/
structure Accounted (card : Card) (w : World) : Prop where
  order : w.accepted = w.finished.map Job.asked ++ w.d.b_actf
  once : w.d.done.Perm (w.refusals ++ w.finished.map Job.bp)
  right : ∀ job ∈ w.finished, job.Right
  sent : w.d.sent =
    w.finished.flatMap (fun job => job.attempts.map (·.command card job.asked)) ++ w.underway card

variable {card : Card} {bp : Request} {rest : List Request} {d : Driver} {w : World} {sta : ℕ}
  {busy : Bool} {low mid high : ℕ} {ts us : List Attempt} {t : Attempt}

theorem Covers.append (first : Covers low mid ts) (second : Covers mid high us) :
    Covers low high (ts ++ us) := by
  induction ts generalizing low with
  | nil =>
      cases first
      exact second
  | cons t ts ih =>
      obtain ⟨here, rest⟩ := first
      exact ⟨here, ih rest⟩

theorem failures_concat (ts : List Attempt) (t : Attempt) :
    failures (ts ++ [t]) = failures ts + if t.failed then 1 else 0 := by
  simp [failures, List.countP_append, List.countP_cons]

theorem transfers_concat (ts : List Attempt) (t : Attempt) :
    transfers (ts ++ [t]) = transfers ts ++ if t.failed then [] else [t] := by
  cases failed : t.failed <;> simp [transfers, List.filter_append, failed]

/-! ## One interrupt -/

/-- What `rkintr` does while a command is under way. -/
inductive Interrupted (card : Card) (bp : Request) (rest : List Request) (d : Driver) :
    Option Attempt → Driver → Prop
  /-- The command has not ended yet. -/
  | waits {stop sta : ℕ} (later : d.rkstop < stop) (few : stop ≤ 2) :
      Interrupted card bp rest d none { d with rkstop := stop, rksta := sta }
  /-- It ended in error and is sent again. -/
  | again {sta : ℕ} (few : d.b_errcnt + 1 ≤ 10) :
      Interrupted card bp rest d (some ⟨d.rkoff, d.rkn, true⟩)
        (rkstart card { d with rksta := sta, b_active := 0, b_errcnt := d.b_errcnt + 1 })
  /-- It ended in error once too often. -/
  | fails {sta : ℕ} (many : 10 < d.b_errcnt + 1) :
      Interrupted card bp rest d (some ⟨d.rkoff, d.rkn, true⟩)
        (finish card { bp with b_error := true } rest
          { d with rksta := sta, b_active := 0, b_errcnt := d.b_errcnt + 1 })
  /-- The next piece follows. -/
  | goes {sta : ℕ} (more : d.rkoff + d.rkn < bp.b_bcount) :
      Interrupted card bp rest d (some ⟨d.rkoff, d.rkn, false⟩)
        (rkstart card { d with rksta := sta, b_active := 0, rkoff := d.rkoff + d.rkn })
  /-- The buffer has been moved. -/
  | moves {sta : ℕ} (all : ¬d.rkoff + d.rkn < bp.b_bcount) :
      Interrupted card bp rest d (some ⟨d.rkoff, d.rkn, false⟩)
        (finish card bp rest { d with rksta := sta, b_active := 0, rkoff := d.rkoff + d.rkn })

theorem rkintr_cases (card : Card) (active : d.b_active ≠ 0) (first : d.b_actf = bp :: rest)
    (sta : ℕ) (busy : Bool) :
    Interrupted card bp rest d (attempt sta busy d) (rkintr card sta busy d) := by
  obtain ⟨n, some⟩ := Nat.exists_eq_succ_of_ne_zero active
  have filled : d.b_actf ≠ [] := by simp [first]
  by_cases data : d.rkstop = 0
  · have none : attempt sta busy d = none := if_pos (.inr (.inr (.inl data)))
    have next : rkintr card sta busy d = { d with rksta := sta, rkstop := 1 } := by
      simp only [rkintr, some, first, if_pos data]
    rw [none, next]
    exact .waits (by omega) (by decide)
  · by_cases still : d.rkstop = 1 ∧ sta &&& CMDERR = 0 ∧ busy
    · have none : attempt sta busy d = none := if_pos (.inr (.inr (.inr still)))
      have next : rkintr card sta busy d = { d with rkstop := 2 } := by
        simp only [rkintr, some, first, if_neg data, if_pos still]
      rw [none, next]
      exact .waits (by omega) (by decide)
    · have ends : ¬(d.b_active = 0 ∨ d.b_actf = [] ∨ d.rkstop = 0 ∨
          d.rkstop = 1 ∧ sta &&& CMDERR = 0 ∧ busy) := by
        rintro (passive | empty | zero | waits)
        · exact active passive
        · exact filled empty
        · exact data zero
        · exact still waits
      have next : rkintr card sta busy d =
          ended card bp rest (if sta &&& CMDERR ≠ 0 then d.rksta ||| sta else d.rksta)
            { d with rksta := if sta &&& CMDERR ≠ 0 then d.rksta ||| sta else d.rksta } := by
        simp only [rkintr, some, first, if_neg data, if_neg still]
      rw [attempt, if_neg ends, next]
      generalize (if sta &&& CMDERR ≠ 0 then d.rksta ||| sta else d.rksta) = rksta
      simp only [ended]
      by_cases error : rksta &&& (ERR ||| CMDERR) ≠ 0
      · rw [decide_eq_true error, if_pos error]
        by_cases few : d.b_errcnt + 1 ≤ 10
        · rw [if_pos few]
          exact .again few
        · rw [if_neg few]
          exact .fails (Nat.lt_of_not_le few)
      · rw [decide_eq_false error, if_neg error]
        by_cases more : d.rkoff + d.rkn < bp.b_bcount
        · rw [if_pos more]
          exact .goes more
        · rw [if_neg more]
          exact .moves more

/-! ## What is kept -/

/-- What holds also between two commands. -/
structure Told (w : World) : Prop where
  order : w.accepted = w.finished.map Job.asked ++ w.d.b_actf
  once : w.d.done.Perm (w.refusals ++ w.finished.map Job.bp)
  right : ∀ job ∈ w.finished, job.Right
  covered : Covers 0 w.d.rkoff (transfers w.attempts)
  errors : failures w.attempts = w.d.b_errcnt
  few : w.d.b_errcnt ≤ 10
  clear : ∀ bp ∈ w.d.b_actf, bp.b_error = false
  place : ∀ bp rest, w.d.b_actf = bp :: rest → w.d.rkoff ≤ bp.b_bcount
  empty : w.d.b_actf = [] → w.d.b_active = 0 ∧ w.d.rkoff = 0 ∧ w.attempts = []

/-- The commands of the buffers that are done. -/
def World.ended (card : Card) (w : World) : List Command :=
  w.finished.flatMap fun job => job.attempts.map (·.command card job.asked)

/-- The commands for the first buffer of the queue that have ended. -/
def World.tried (card : Card) (w : World) : List Command :=
  match w.d.b_actf with
  | [] => []
  | bp :: _ => w.attempts.map (·.command card bp)

/-- Between two commands. -/
structure Between (card : Card) (w : World) : Prop extends Told w where
  sent : w.d.sent = w.ended card ++ w.tried card
  passive : w.d.b_active = 0

/-- Between two calls. -/
structure Kept (card : Card) (w : World) : Prop extends Told w where
  sent : w.d.sent = w.ended card ++ w.underway card
  active : w.d.b_actf ≠ [] → w.d.b_active ≠ 0
  piece : ∀ bp rest, w.d.b_actf = bp :: rest → w.d.rkn = min (bp.b_bcount - w.d.rkoff) MAXIO
  stop : w.d.rkstop ≤ 2

theorem Kept.accounted (kept : Kept card w) : Accounted card w :=
  ⟨kept.order, kept.once, kept.right, kept.sent⟩

theorem rkstart_done (card : Card) (d : Driver) : (rkstart card d).done = d.done := by
  rw [rkstart]
  split <;> rfl

/-- The next command is sent. -/
theorem Between.rkstart (between : Between card w) (stop : w.d.rkstop ≤ 2) :
    Kept card { w with d := rkstart card w.d } := by
  have sent := between.sent
  cases first : w.d.b_actf with
  | nil =>
      have same : Sd.rkstart card w.d = w.d := by simp only [Sd.rkstart, first]
      rw [same]
      refine ⟨between.toTold, ?_, fun some => absurd first some, fun bp rest some => ?_, stop⟩
      · rw [World.tried, first] at sent
        rw [World.underway, first]
        exact sent
      · rw [first] at some
        cases some
  | cons bp rest =>
      have next : Sd.rkstart card w.d =
          { w.d with
            b_active := w.d.b_active + 1
            rkn := min (bp.b_bcount - w.d.rkoff) MAXIO
            rkstop := 0
            sent := w.d.sent ++ [⟨card.address bp w.d.rkoff,
              min (bp.b_bcount - w.d.rkoff) MAXIO, bp.b_read, bp⟩] } := by
        simp only [Sd.rkstart, first]
      rw [next]
      have told := between.toTold
      refine ⟨⟨told.order, told.once, told.right, told.covered, told.errors, told.few, told.clear,
        told.place, fun none => ?_⟩, ?_, fun _ => Nat.succ_ne_zero _, fun b more here => ?_,
        Nat.zero_le _⟩
      · rw [first] at none
        cases none
      · rw [World.tried, first] at sent
        simp only [World.underway, first, sent, List.append_assoc]
        rfl
      · simp only [first, List.cons.injEq] at here
        rw [← here.1]

theorem Kept.start (card : Card) : Kept card World.start := by
  refine ⟨⟨rfl, List.Perm.refl _, fun _ mem => ?_, rfl, rfl, by decide, fun _ mem => ?_,
    fun _ _ here => ?_, fun _ => ⟨rfl, rfl, rfl⟩⟩, rfl, fun some => absurd rfl some,
    fun _ _ here => ?_, by decide⟩
  · cases mem
  · cases mem
  · cases here
  · cases here

/-- A call of `rkstrategy`. -/
theorem Kept.strategy (kept : Kept card w) (clear : bp.b_error = false) :
    Kept card (w.strategy card bp) := by
  by_cases refusal : refused card bp
  · have failed : rkstrategy card bp w.d = fail w.d bp := by rw [rkstrategy, if_pos refusal]
    have added : (fail w.d bp).done.drop w.d.done.length = [{ bp with b_error := true }] := by
      rw [fail, List.drop_left]
    simp only [World.strategy, if_pos refusal, failed, added]
    have told := kept.toTold
    refine ⟨⟨told.order, ?_, told.right, told.covered, told.errors, told.few, told.clear,
      told.place, told.empty⟩, kept.sent, kept.active, kept.piece, kept.stop⟩
    have moved := told.once.append_right [{ bp with b_error := true }]
    refine moved.trans ?_
    rw [List.append_assoc, List.append_assoc]
    exact List.Perm.append_left _ List.perm_append_comm
  · have told := kept.toTold
    have order : w.accepted ++ [bp] = w.finished.map Job.asked ++ (w.d.b_actf ++ [bp]) := by
      rw [told.order, List.append_assoc]
    have clear' : ∀ b ∈ w.d.b_actf ++ [bp], b.b_error = false := by
      intro b mem
      rcases List.mem_append.mp mem with before | last
      · exact told.clear b before
      · rw [List.mem_singleton.mp last]
        exact clear
    simp only [World.strategy, if_neg refusal, rkstrategy]
    by_cases passive : w.d.b_active = 0
    · have none : w.d.b_actf = [] := by
        by_contra some
        exact kept.active some passive
      obtain ⟨-, start, fresh⟩ := told.empty none
      rw [if_pos passive]
      refine Between.rkstart (w := { w with
        d := { w.d with b_actf := w.d.b_actf ++ [bp] }, accepted := w.accepted ++ [bp] })
        ⟨⟨order, told.once, told.right, told.covered, told.errors, told.few, clear', ?_, ?_⟩, ?_,
          passive⟩ kept.stop
      · intro b more _
        simp only [start]
        exact Nat.zero_le _
      · intro absurd
        simp at absurd
      · have sent := kept.sent
        simp only [World.underway, none] at sent
        simp only [World.tried, none, fresh, List.nil_append, List.map_nil]
        exact sent
    · have some : w.d.b_actf ≠ [] := fun none => passive (told.empty none).1
      obtain ⟨b, more, first⟩ := List.exists_cons_of_ne_nil some
      rw [if_neg passive]
      refine ⟨⟨order, told.once, told.right, told.covered, told.errors, told.few, clear', ?_, ?_⟩,
        ?_, fun _ => passive, ?_, kept.stop⟩
      · intro b' more' here
        simp only [first, List.cons_append, List.cons.injEq] at here
        rw [← here.1]
        exact told.place b more first
      · intro absurd
        simp at absurd
      · have sent := kept.sent
        simp only [World.underway, first] at sent
        simp only [World.underway, first, List.cons_append]
        exact sent
      · intro b' more' here
        simp only [first, List.cons_append, List.cons.injEq] at here
        rw [← here.1]
        exact kept.piece b more first

/-- The first buffer of the queue is done. -/
theorem Told.finish (told : Told w) (job : Job) (first : w.d.b_actf = bp :: rest)
    (asked : job.asked = bp) (right : job.Right) (rksta : ℕ) {b_errcnt rkoff : ℕ}
    (sent : w.d.sent = w.ended card ++ job.attempts.map (·.command card bp))
    (stop : w.d.rkstop ≤ 2) :
    Kept card { w with
      d := finish card job.bp rest
        { w.d with rksta := rksta, b_active := 0, b_errcnt := b_errcnt, rkoff := rkoff }
      attempts := []
      finished := w.finished ++ [job] } := by
  refine Between.rkstart (w := { w with
    d := { w.d with
      rksta := rksta, b_active := 0, b_actf := rest, rkoff := 0, b_errcnt := 0
      done := w.d.done ++ [job.bp] }
    attempts := []
    finished := w.finished ++ [job] }) ⟨⟨?_, ?_, ?_, rfl, rfl, Nat.zero_le 10, ?_, fun _ _ _ =>
      Nat.zero_le _, fun _ => ⟨rfl, rfl, rfl⟩⟩, ?_, rfl⟩ stop
  · rw [List.map_append, List.append_assoc, told.order, first, ← asked]
    rfl
  · rw [List.map_append, ← List.append_assoc]
    exact told.once.append_right [job.bp]
  · intro j mem
    rcases List.mem_append.mp mem with before | last
    · exact told.right j before
    · rw [List.mem_singleton.mp last]
      exact right
  · intro b mem
    exact told.clear b (first ▸ List.mem_cons_of_mem _ mem)
  · have none : World.tried card { w with
        d := { w.d with
          rksta := rksta, b_active := 0, b_actf := rest, rkoff := 0, b_errcnt := 0
          done := w.d.done ++ [job.bp] }
        attempts := []
        finished := w.finished ++ [job] } = [] := by
      simp only [World.tried]
      cases rest <;> rfl
    rw [none, List.append_nil]
    simp only [World.ended, List.flatMap_append, List.flatMap_singleton, sent, asked]

/-- An interrupt with no buffer in the queue. -/
theorem World.interrupt_empty (card : Card) (passive : w.d.b_active = 0)
    (none : w.d.b_actf = []) (sta : ℕ) (busy : Bool) : w.interrupt card sta busy = w := by
  have same : rkintr card sta busy w.d = w.d := by simp only [rkintr, passive]
  have quiet : attempt sta busy w.d = .none := if_pos (.inl passive)
  simp only [World.interrupt, same, quiet, none, Option.toList_none, List.append_nil]

/-- An interrupt that hands no buffer to `iodone`. -/
theorem World.interrupt_quiet {d' : Driver} (next : rkintr card sta busy w.d = d')
    (same : d'.done = w.d.done) : w.interrupt card sta busy =
      { w with d := d', attempts := w.attempts ++ (attempt sta busy w.d).toList } := by
  have none : d'.done.drop w.d.done.length = [] := by rw [same, List.drop_length]
  simp only [World.interrupt, next, none]
  cases w.d.b_actf <;> rfl

/-- An interrupt that hands the first buffer of the queue to `iodone`. -/
theorem World.interrupt_done {d' : Driver} {b : Request} (next : rkintr card sta busy w.d = d')
    (first : w.d.b_actf = bp :: rest) (done : d'.done = w.d.done ++ [b]) :
    w.interrupt card sta busy =
      { w with
        d := d'
        attempts := []
        finished := w.finished ++ [⟨bp, b, w.attempts ++ (attempt sta busy w.d).toList⟩] } := by
  have one : d'.done.drop w.d.done.length = [b] := by rw [done, List.drop_left]
  simp only [World.interrupt, next, first, one]

theorem finish_done (card : Card) (b : Request) (rest : List Request) (d : Driver) :
    (finish card b rest d).done = d.done ++ [b] := rkstart_done _ _

/-- What an interrupt does to the buffers while a command is under way. -/
theorem Kept.interrupt_cons (kept : Kept card w) (first : w.d.b_actf = bp :: rest) (sta : ℕ)
    (busy : Bool) : Kept card (w.interrupt card sta busy) := by
  have told := kept.toTold
  have active : w.d.b_active ≠ 0 := kept.active (by simp [first])
  have place := told.place bp rest first
  have piece := kept.piece bp rest first
  have clear := told.clear bp (by simp [first])
  have sent := kept.sent
  simp only [World.underway, first] at sent
  have cases := rkintr_cases card active first sta busy
  generalize next : rkintr card sta busy w.d = d' at cases
  generalize ended : attempt sta busy w.d = o at cases
  cases cases with
  | waits later few =>
      rw [World.interrupt_quiet next rfl, ended, Option.toList_none, List.append_nil]
      exact ⟨⟨told.order, told.once, told.right, told.covered, told.errors, told.few, told.clear,
        told.place, fun none => absurd none (by simp [first])⟩, kept.sent, kept.active, kept.piece,
        few⟩
  | again few =>
      rw [World.interrupt_quiet next (rkstart_done _ _), ended]
      refine Between.rkstart (w := { w with
        d := { w.d with rksta := _, b_active := 0, b_errcnt := w.d.b_errcnt + 1 }
        attempts := w.attempts ++ [⟨w.d.rkoff, w.d.rkn, true⟩] }) ⟨⟨told.order, told.once,
          told.right, ?_, ?_, few, told.clear, told.place,
            fun none => absurd none (by simp [first])⟩, ?_, rfl⟩
          kept.stop
      · simp only [transfers_concat, if_pos, List.append_nil]
        exact told.covered
      · simp only [failures_concat, if_pos, told.errors]
      · simp only [World.tried, first, List.map_append]
        exact sent
  | fails many =>
      have full : w.d.b_errcnt = 10 := Nat.le_antisymm told.few (Nat.le_of_lt_succ many)
      rw [World.interrupt_done next first (finish_done _ _ _ _), ended]
      refine told.finish ⟨bp, { bp with b_error := true }, _⟩ first rfl ⟨rfl, ?_, ?_⟩ _ ?_
        kept.stop
      · simp only [Option.toList_some, failures_concat, told.errors, full, if_pos]
      · intro right
        cases right
      · simp only [Option.toList_some, List.map_append]
        exact sent
  | goes more =>
      rw [World.interrupt_quiet next (rkstart_done _ _), ended]
      refine Between.rkstart (w := { w with
        d := { w.d with rksta := _, b_active := 0, rkoff := w.d.rkoff + w.d.rkn }
        attempts := w.attempts ++ [⟨w.d.rkoff, w.d.rkn, false⟩] }) ⟨⟨told.order, told.once,
          told.right, ?_, ?_, told.few, told.clear, ?_,
            fun none => absurd none (by simp [first])⟩, ?_, rfl⟩
          kept.stop
      · simp only [transfers_concat]
        exact told.covered.append ⟨rfl, rfl⟩
      · simp only [failures_concat]
        exact told.errors
      · intro b tail here
        simp only [first, List.cons.injEq] at here
        rw [← here.1]
        exact Nat.le_of_lt more
      · simp only [World.tried, first, List.map_append]
        exact sent
  | moves all =>
      have whole : w.d.rkoff + w.d.rkn = bp.b_bcount := by
        have bound := Nat.min_le_left (bp.b_bcount - w.d.rkoff) MAXIO
        omega
      rw [World.interrupt_done next first (finish_done _ _ _ _), ended]
      refine told.finish ⟨bp, bp, _⟩ first rfl ⟨rfl, ?_, fun _ => ?_⟩ _ ?_ kept.stop
      · have few := told.few
        simp only [Option.toList_some, failures_concat, told.errors, clear]
        simp only [Bool.false_eq_true, if_false, false_iff]
        omega
      · simp only [Option.toList_some, transfers_concat]
        exact told.covered.append ⟨rfl, whole⟩
      · simp only [Option.toList_some, List.map_append]
        exact sent

theorem Kept.interrupt (kept : Kept card w) (sta : ℕ) (busy : Bool) :
    Kept card (w.interrupt card sta busy) := by
  cases first : w.d.b_actf with
  | nil =>
      rw [World.interrupt_empty card (kept.empty first).1 first]
      exact kept
  | cons bp rest => exact kept.interrupt_cons first sta busy

theorem Kept.next {e : Event} (kept : Kept card w) (clear : e.Clear) :
    Kept card (w.next card e) := by
  cases e with
  | strategy bp => exact kept.strategy clear
  | interrupt sta busy => exact kept.interrupt sta busy

theorem Kept.run {events : List Event} (kept : Kept card w) (clear : ∀ e ∈ events, e.Clear) :
    Kept card (w.run card events) := by
  induction events generalizing w with
  | nil => exact kept
  | cons e events ih =>
      apply ih (kept.next (clear e List.mem_cons_self))
      exact fun f mem => clear f (List.mem_cons_of_mem e mem)

/-! ## Every buffer is done in the end -/

/-- A bound on the interrupts that a buffer takes from its first command on. -/
def whole (bp : Request) : ℕ := 3 * (bp.b_bcount + 11)

/-- A bound on the interrupts that the first `k` buffers of the queue still take. -/
def pending (k : ℕ) (d : Driver) : ℕ :=
  match d.b_actf.take k with
  | [] => 0
  | bp :: rest =>
      3 * (bp.b_bcount - d.rkoff + (11 - d.b_errcnt)) - d.rkstop + (rest.map whole).sum

theorem pending_succ (first : d.b_actf = bp :: rest) (k : ℕ) : pending (k + 1) d =
    3 * (bp.b_bcount - d.rkoff + (11 - d.b_errcnt)) - d.rkstop + ((rest.take k).map whole).sum := by
  rw [pending, first, List.take_succ_cons]

theorem rkstart_cons (card : Card) (first : d.b_actf = bp :: rest) :
    ∃ b_active rkn sent, rkstart card d =
      { d with b_active := b_active, rkn := rkn, rkstop := 0, sent := sent } := by
  simp only [rkstart, first]
  exact ⟨_, _, _, rfl⟩

theorem pending_rkstart (first : d.b_actf = bp :: rest) (k : ℕ) : pending (k + 1) (rkstart card d) =
    3 * (bp.b_bcount - d.rkoff + (11 - d.b_errcnt)) + ((rest.take k).map whole).sum := by
  obtain ⟨b_active, rkn, sent, next⟩ := rkstart_cons card first
  rw [next, pending_succ (by simpa using first)]
  rfl

theorem pending_finish (card : Card) (b : Request) (rest : List Request) (d : Driver) (k : ℕ) :
    pending k (finish card b rest d) = ((rest.take k).map whole).sum := by
  cases k with
  | zero => rfl
  | succ k =>
      cases rest with
      | nil =>
          simp only [pending, finish, rkstart]
          rfl
      | cons bp rest =>
          rw [finish, pending_rkstart rfl]
          simp only [List.take_succ_cons, List.map_cons, List.sum_cons, whole, Nat.sub_zero]

/-- An interrupt brings the first buffers of the queue nearer to their end. -/
theorem Kept.progress (kept : Kept card w) (first : w.d.b_actf = bp :: rest) (k sta : ℕ)
    (busy : Bool) :
    ((w.interrupt card sta busy).finished = w.finished ∧
        (w.interrupt card sta busy).d.b_actf = bp :: rest ∧
        pending (k + 1) (w.interrupt card sta busy).d < pending (k + 1) w.d) ∨
      (w.interrupt card sta busy).finished.length = w.finished.length + 1 ∧
        (w.interrupt card sta busy).d.b_actf = rest ∧
        pending k (w.interrupt card sta busy).d < pending (k + 1) w.d := by
  have active : w.d.b_active ≠ 0 := kept.active (by simp [first])
  have place := kept.place bp rest first
  have piece := kept.piece bp rest first
  have few := kept.few
  have stop := kept.stop
  have cases := rkintr_cases card active first sta busy
  rw [pending_succ first]
  generalize next : rkintr card sta busy w.d = d' at cases
  generalize attempt sta busy w.d = o at cases
  cases cases with
  | waits later bound =>
      left
      rw [World.interrupt_quiet next rfl]
      refine ⟨rfl, first, ?_⟩
      rw [pending_succ (by exact first)]
      dsimp only
      omega
  | again few =>
      left
      rw [World.interrupt_quiet next (rkstart_done _ _)]
      refine ⟨rfl, (rkstart_actf _ _).trans first, ?_⟩
      rw [pending_rkstart (by exact first)]
      dsimp only
      omega
  | goes more =>
      left
      have some : 0 < MAXIO := by decide
      rw [World.interrupt_quiet next (rkstart_done _ _)]
      refine ⟨rfl, (rkstart_actf _ _).trans first, ?_⟩
      rw [pending_rkstart (by exact first)]
      dsimp only
      omega
  | fails many =>
      right
      rw [World.interrupt_done next first (finish_done _ _ _ _)]
      refine ⟨List.length_append, rkstart_actf _ _, ?_⟩
      rw [pending_finish]
      omega
  | moves all =>
      right
      rw [World.interrupt_done next first (finish_done _ _ _ _)]
      refine ⟨List.length_append, rkstart_actf _ _, ?_⟩
      rw [pending_finish]
      omega

/-- A call of `rkstrategy` does not hold up the buffers in the queue. -/
theorem Kept.pending_strategy {k : ℕ} (kept : Kept card w) (few : k ≤ w.d.b_actf.length)
    (bp : Request) : (w.strategy card bp).finished = w.finished ∧
      k ≤ (w.strategy card bp).d.b_actf.length ∧
      pending k (w.strategy card bp).d = pending k w.d := by
  by_cases refusal : refused card bp
  · simp only [World.strategy, if_pos refusal, rkstrategy]
    exact ⟨trivial, few, rfl⟩
  · simp only [World.strategy, if_neg refusal]
    rw [rkstrategy_actf refusal, List.length_append]
    refine ⟨trivial, Nat.le_add_right_of_le few, ?_⟩
    cases first : w.d.b_actf with
    | nil =>
        rw [first] at few
        obtain rfl : k = 0 := Nat.le_zero.mp few
        rfl
    | cons b rest =>
        have active : w.d.b_active ≠ 0 := kept.active (by simp [first])
        have same : w.d.b_actf.take k = (w.d.b_actf ++ [bp]).take k :=
          (List.take_append_of_le_length few).symm
        simp only [rkstrategy, if_neg refusal, if_neg active, pending, same]

/-- So many interrupts, whatever they say and whatever comes in between, see the first buffers of
the queue done. -/
theorem Kept.done {events : List Event} {k : ℕ} (kept : Kept card w)
    (clear : ∀ e ∈ events, e.Clear) (few : k ≤ w.d.b_actf.length)
    (enough : pending k w.d ≤ events.countP Event.isInterrupt) :
    w.finished.length + k ≤ (w.run card events).finished.length := by
  induction events generalizing w k with
  | nil =>
      cases k with
      | zero => exact Nat.le_refl _
      | succ k =>
          obtain ⟨bp, rest, first⟩ := List.exists_cons_of_ne_nil (List.ne_nil_of_length_pos
            (Nat.lt_of_lt_of_le k.succ_pos few))
          have some := kept.few
          have stop := kept.stop
          rw [pending_succ first, List.countP_nil] at enough
          omega
  | cons e events ih =>
      have kept' := kept.next (clear e List.mem_cons_self)
      have clear' : ∀ f ∈ events, f.Clear := fun f mem => clear f (List.mem_cons_of_mem e mem)
      cases e with
      | strategy bp =>
          obtain ⟨same, few', pending'⟩ := kept.pending_strategy few bp
          have rest := ih kept' clear' few' (by
            rw [World.next, pending']
            simpa [Event.isInterrupt] using enough)
          rw [World.next, same] at rest
          exact rest
      | interrupt sta busy =>
          rw [List.countP_cons] at enough
          cases first : w.d.b_actf with
          | nil =>
              rw [first] at few
              obtain rfl : k = 0 := Nat.le_zero.mp few
              have same := World.interrupt_empty card (kept.empty first).1 first sta busy
              calc w.finished.length + 0
                  = (w.interrupt card sta busy).finished.length + 0 := by rw [same]
                _ ≤ _ := ih kept' clear' (Nat.zero_le _) (Nat.zero_le _)
          | cons bp rest =>
              cases k with
              | zero =>
                  have rest := ih kept' clear' (Nat.zero_le _) (Nat.zero_le _)
                  rcases kept.progress first 0 sta busy with ⟨same, -, -⟩ | ⟨more, -, -⟩
                  · rw [World.next, same] at rest
                    exact rest
                  · rw [World.next, more] at rest
                    exact Nat.le_of_succ_le rest
              | succ k =>
                  rw [first, List.length_cons] at few
                  simp only [Event.isInterrupt, if_true] at enough
                  rcases kept.progress first k sta busy with ⟨same, queue, less⟩ |
                    ⟨more, queue, less⟩
                  · have rest := ih kept' clear' (k := k + 1) (by rw [World.next, queue]; exact few)
                      (by rw [World.next]; omega)
                    rw [World.next, same] at rest
                    exact rest
                  · have rest := ih kept' clear' (k := k)
                      (by rw [World.next, queue]; exact Nat.le_of_succ_le_succ few)
                      (by rw [World.next]; omega)
                    rw [World.next, more] at rest
                    rw [← Nat.add_assoc, Nat.add_right_comm]
                    exact rest

theorem World.accepted_next (card : Card) (w : World) (e : Event) :
    w.accepted <+: (w.next card e).accepted := by
  cases e with
  | strategy bp =>
      rw [World.next, World.strategy]
      split
      · exact List.prefix_refl _
      · exact List.prefix_append _ _
  | interrupt sta busy =>
      rw [World.next, World.interrupt]
      split <;> exact List.prefix_refl _

theorem World.accepted_run (card : Card) (w : World) (events : List Event) :
    w.accepted <+: (w.run card events).accepted := by
  induction events generalizing w with
  | nil => exact List.prefix_refl _
  | cons e events ih => exact (w.accepted_next card e).trans (ih (w.next card e))

/-- The buffers in the queue now are done after so many interrupts. -/
theorem Kept.prefix_done {events : List Event} (kept : Kept card w)
    (clear : ∀ e ∈ events, e.Clear)
    (enough : pending w.d.b_actf.length w.d ≤ events.countP Event.isInterrupt) :
    w.accepted <+: (w.run card events).finished.map Job.asked := by
  have more := kept.done clear (Nat.le_refl _) enough
  have before := w.accepted_run card events
  have count := congrArg List.length kept.order
  rw [(kept.run clear).order] at before
  rw [List.length_append, List.length_map] at count
  apply List.prefix_of_prefix_length_le before (List.prefix_append _ _)
  rw [List.length_map, count]
  exact more

/-- In every run the buffers put in the queue are handed to `iodone` once each, in the order queued:
with an error exactly when eleven of the commands for it ended in error, and else when the pieces
of the other commands follow one another through the whole of it. After so many interrupts more,
whatever they say and whatever buffers come in between, all buffers accepted so far are done. -/
theorem run_completes (card : Card) (events : List Event) (clear : ∀ e ∈ events, e.Clear) :
    Accounted card (World.start.run card events) ∧
      ∃ n, ∀ more : List Event, (∀ e ∈ more, e.Clear) → n ≤ more.countP Event.isInterrupt →
        (World.start.run card events).accepted <+:
          ((World.start.run card events).run card more).finished.map Job.asked := by
  have kept := (Kept.start card).run clear
  exact ⟨kept.accounted, _, fun more clear' enough => kept.prefix_done clear' enough⟩

/-- A buffer that is read after one command has ended in error. -/
theorem run_completes_read :
    (∀ e ∈ [Event.strategy (oneBlock 5 (by decide)), .interrupt 5 false, .interrupt 0 false,
      .interrupt 256 false, .interrupt 0 false], e.Clear) ∧
    Accounted smallCard (World.start.run smallCard [.strategy (oneBlock 5 (by decide)),
      .interrupt 5 false, .interrupt 0 false, .interrupt 256 false, .interrupt 0 false]) := by
  have clear : ∀ e ∈ [Event.strategy (oneBlock 5 (by decide)), .interrupt 5 false,
      .interrupt 0 false, .interrupt 256 false, .interrupt 0 false], e.Clear := by
    intro e mem
    simp only [List.mem_cons, List.not_mem_nil, or_false] at mem
    rcases mem with rfl | rfl | rfl | rfl | rfl
    · rfl
    · trivial
    · trivial
    · trivial
    · trivial
  exact ⟨clear, (run_completes smallCard _ clear).1⟩

end Sd

end UnixV7
