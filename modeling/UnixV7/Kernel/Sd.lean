import Mathlib.Algebra.Group.Int.Defs
import Mathlib.Algebra.Group.Nat.Defs
import Mathlib.Data.Int.Notation
import Mathlib.Tactic.Common

/-!
# The disk driver

`rkstrategy`, `rkstart` and `rkintr` (`sd.c`). A buffer is refused or put in the queue of the card,
and the first buffer of the queue is moved with one command after the other. The minor devices are
ranges of the blocks of the card.
-/

namespace UnixV7

namespace Sd

/-- `MAXIO` -/
def MAXIO : ℕ := 0x1000000

/-- `ERR` and `CMDERR`, the bits of the status that tell of an error. -/
def ERR : ℕ := 0x800003f

def CMDERR : ℕ := 0o5

/-- A `long`, which has 32 bits. -/
def long (x : ℤ) : ℤ := x.bmod (2 ^ 32)

/-- A minor device, an element of `rksizes`. -/
structure Minor where
  base : ℤ
  len : ℤ
  len_long : len < 2 ^ 31

/-- What is known of the card: whether it counts bytes, and the minor devices. -/
structure Card where
  rkbyte : Bool
  rksizes : ℕ → Minor

/-- `struct buf`, of which the driver uses these fields, with the flags `B_READ` and `B_ERROR`. -/
structure Request where
  b_dev : ℕ
  b_blkno : ℤ
  b_bcount : ℕ
  b_addr : ℕ
  b_read : Bool
  b_error : Bool
  blkno_long : -2 ^ 31 ≤ b_blkno ∧ b_blkno < 2 ^ 31
  bcount_unsigned : b_bcount < 2 ^ 32

/-- `minor(bp->b_dev)` -/
def Request.minor (bp : Request) : ℕ := bp.b_dev % 256

/-- A command to move `len` bytes from or to the address `arg` of the card, for the buffer `bp`. -/
structure Command where
  arg : ℕ
  len : ℕ
  read : Bool
  bp : Request

/-- `rktab` with the queue of buffers, what `rkstart` and `rkintr` keep between them, the commands
sent so far and the buffers done. -/
structure Driver where
  b_actf : List Request
  b_active : ℕ
  b_errcnt : ℕ
  rkoff : ℕ
  rkn : ℕ
  rkstop : ℕ
  rksta : ℕ
  sent : List Command
  done : List Request

/-- The driver before the first buffer. -/
def idle : Driver := ⟨[], 0, 0, 0, 0, 0, 0, [], []⟩

/-- The address in a command: the number of a block, or of a byte. -/
def Card.address (card : Card) (bp : Request) (rkoff : ℕ) : ℕ :=
  let blkno := ((card.rksizes bp.minor).base + bp.b_blkno + (rkoff / 512 : ℕ)) % 2 ^ 32
  (blkno.toNat <<< if card.rkbyte then 9 else 0) % 2 ^ 32

/-- `rkstart` -/
def rkstart (card : Card) (d : Driver) : Driver :=
  match d.b_actf with
  | [] => d
  | bp :: _ =>
      let rkn := min (bp.b_bcount - d.rkoff) MAXIO
      { d with
        b_active := d.b_active + 1
        rkn := rkn
        rkstop := 0
        sent := d.sent ++ [⟨card.address bp d.rkoff, rkn, bp.b_read, bp⟩] }

/-- The test of `rkstrategy`. -/
def refused (card : Card) (bp : Request) : Prop :=
  3 ≤ bp.minor ∨ (card.rksizes bp.minor).len < long (bp.b_blkno + (bp.b_bcount / 512 : ℕ)) ∨
    bp.b_bcount % 512 ≠ 0 ∨ bp.b_addr % 4 ≠ 0

instance (card : Card) (bp : Request) : Decidable (refused card bp) :=
  inferInstanceAs (Decidable (_ ∨ _ ∨ _ ∨ _))

/-- `iodone` of a buffer with an error. -/
def fail (d : Driver) (bp : Request) : Driver :=
  { d with done := d.done ++ [{ bp with b_error := true }] }

/-- `rkstrategy` -/
def rkstrategy (card : Card) (bp : Request) (d : Driver) : Driver :=
  if refused card bp then
    fail d bp
  else
    let d := { d with b_actf := d.b_actf ++ [bp] }
    if d.b_active = 0 then rkstart card d else d

/-- The end of `rkintr` for the first buffer. -/
def finish (card : Card) (bp : Request) (rest : List Request) (d : Driver) : Driver :=
  rkstart card { d with b_actf := rest, rkoff := 0, b_errcnt := 0, done := d.done ++ [bp] }

/-- `rkintr` from where the command for the buffer `bp` has ended, with the status `sta`. -/
def ended (card : Card) (bp : Request) (rest : List Request) (sta : ℕ) (d : Driver) : Driver :=
  let d := { d with b_active := 0 }
  if sta &&& (ERR ||| CMDERR) ≠ 0 then
    let d := { d with b_errcnt := d.b_errcnt + 1 }
    if d.b_errcnt ≤ 10 then rkstart card d else finish card { bp with b_error := true } rest d
  else
    let d := { d with rkoff := d.rkoff + d.rkn }
    if d.rkoff < bp.b_bcount then rkstart card d else finish card bp rest d

/-- `rkintr` with the status `sta` of the card, and whether it is busy still. -/
def rkintr (card : Card) (sta : ℕ) (busy : Bool) (d : Driver) : Driver :=
  match d.b_active, d.b_actf with
  | 0, _ => d
  | _, [] => d
  | _, bp :: rest =>
      if d.rkstop = 0 then
        { d with rksta := sta, rkstop := 1 }
      else if d.rkstop = 1 ∧ sta &&& CMDERR = 0 ∧ busy then
        { d with rkstop := 2 }
      else
        let rksta := if sta &&& CMDERR ≠ 0 then d.rksta ||| sta else d.rksta
        ended card bp rest rksta { d with rksta := rksta }

/-! ## The test -/

/-- The blocks of the card that the buffer is to be moved from or to are blocks of its minor
device. -/
def Within (card : Card) (bp : Request) : Prop :=
  let m := card.rksizes bp.minor
  ∀ i < bp.b_bcount / 512, m.base ≤ m.base + bp.b_blkno + i ∧
    m.base + bp.b_blkno + i < m.base + m.len

/-- The buffer is put in the queue of the card only if its blocks are those of its minor device, and
has an error otherwise. -/
def Guarded (card : Card) (bp : Request) : Prop :=
  ∀ d, ((rkstrategy card bp d).b_actf = d.b_actf ++ [bp] ∧ bp.minor < 3 ∧ Within card bp) ∨
    rkstrategy card bp d = fail d bp

/-- There is no such minor device, the buffer is not aligned, the sum that is tested is too large,
there is no block to move, or the numbers of the blocks are neither negative nor do they exceed
those of a `long`. -/
def Harmless (card : Card) (bp : Request) : Prop :=
  3 ≤ bp.minor ∨ bp.b_addr % 4 ≠ 0 ∨
    (card.rksizes bp.minor).len < long (bp.b_blkno + (bp.b_bcount / 512 : ℕ)) ∨
    bp.b_bcount = 0 ∨ 0 ≤ bp.b_blkno ∧ bp.b_blkno + (bp.b_bcount / 512 : ℕ) < 2 ^ 31

variable {card : Card} {bp : Request} {d : Driver}

theorem rkstart_actf (card : Card) (d : Driver) : (rkstart card d).b_actf = d.b_actf := by
  rw [rkstart]
  split <;> rfl

/-- A buffer that is not refused is put in the queue. -/
theorem rkstrategy_actf (accepted : ¬refused card bp) (d : Driver) :
    (rkstrategy card bp d).b_actf = d.b_actf ++ [bp] := by
  simp only [rkstrategy, if_neg accepted]
  split
  · exact rkstart_actf _ _
  · rfl

theorem long_of_lt {x : ℤ} (low : -2 ^ 31 ≤ x) (high : x < 2 ^ 31) : long x = x := by
  rw [long, Int.bmod_def]
  split_ifs <;> omega

theorem within_of_test (low : 0 ≤ bp.b_blkno)
    (high : bp.b_blkno + (bp.b_bcount / 512 : ℕ) ≤ (card.rksizes bp.minor).len) :
    Within card bp := by
  intro i less
  omega

/-- The test lets a buffer through that it should refuse exactly when the numbers of the blocks are
negative, or exceed those of a `long`. -/
theorem guarded_iff (whole : bp.b_bcount % 512 = 0) : Guarded card bp ↔ Harmless card bp := by
  have range := bp.blkno_long
  have count := bp.bcount_unsigned
  constructor
  · intro guarded
    by_contra harm
    simp only [Harmless, not_or] at harm
    obtain ⟨minor, aligned, test, some, wrong⟩ := harm
    have accepted : ¬refused card bp := by
      simp only [refused, not_or]
      exact ⟨minor, test, fun part => part whole, aligned⟩
    rcases guarded idle with ⟨-, -, within⟩ | failed
    · have first := within 0 (by omega)
      have last := within (bp.b_bcount / 512 - 1) (by omega)
      have long := (card.rksizes bp.minor).len_long
      omega
    · have queued := rkstrategy_actf accepted idle
      rw [failed] at queued
      cases queued
  · intro harmless d
    by_cases accepted : refused card bp
    · right
      rw [rkstrategy, if_pos accepted]
    · left
      refine ⟨rkstrategy_actf accepted d, ?_⟩
      simp only [refused, not_or] at accepted
      obtain ⟨minor, test, -, aligned⟩ := accepted
      refine ⟨Nat.lt_of_not_le minor, ?_⟩
      rcases harmless with other | odd | large | none | ⟨low, high⟩
      · exact absurd other minor
      · exact absurd odd aligned
      · exact absurd large test
      · intro i less
        omega
      · rw [long_of_lt (by omega) high] at test
        exact within_of_test low (Int.not_lt.mp test)

/-- A card of 4096 blocks that counts blocks, with its minor devices. -/
def smallCard : Card where
  rkbyte := false
  rksizes m := match m with
    | 0 => ⟨0, 4096, by decide⟩
    | 1 => ⟨0, 1024, by decide⟩
    | _ => ⟨1024, 3072, by decide⟩

/-- A request to read one block of the file system. -/
def oneBlock (b_blkno : ℤ) (range : -2 ^ 31 ≤ b_blkno ∧ b_blkno < 2 ^ 31) : Request :=
  ⟨2, b_blkno, 512, 0, true, false, range, by decide⟩

theorem guarded_iff_block_five : Guarded smallCard (oneBlock 5 (by decide)) ↔
    Harmless smallCard (oneBlock 5 (by decide)) :=
  guarded_iff rfl

/-- Block -1 of the file system is a block of the boot area, which the command addresses. -/
theorem negative_block_passes : ¬Guarded smallCard (oneBlock (-1) (by decide)) ∧
    (rkstrategy smallCard (oneBlock (-1) (by decide)) idle).sent.map Command.arg = [1023] := by
  refine ⟨fun guarded => ?_, by decide⟩
  have accepted : ¬refused smallCard (oneBlock (-1) (by decide)) := by decide
  rcases guarded idle with ⟨-, -, within⟩ | failed
  · exact absurd (within 0 (by decide)).1 (by decide)
  · have queued := rkstrategy_actf accepted idle
    rw [failed] at queued
    cases queued

/-! ## Runs -/

/-- The minor devices lie on the card, the addresses of which are numbers of 32 bits. -/
structure Fits (card : Card) : Prop where
  base : ∀ m < 3, 0 ≤ (card.rksizes m).base
  len : ∀ m < 3, (card.rksizes m).base + (card.rksizes m).len ≤
    if card.rkbyte then 2 ^ 23 else 2 ^ 32

/-- The first block of a command. -/
def Command.block (card : Card) (c : Command) : ℕ := if card.rkbyte then c.arg / 512 else c.arg

/-- The blocks of the card that a command addresses are blocks of the minor device. -/
def Confined (card : Card) (c : Command) : Prop :=
  let m := card.rksizes c.bp.minor
  ∀ i < c.len / 512, m.base ≤ c.block card + i ∧ (c.block card + i : ℤ) < m.base + m.len

/-- The runs of the driver, with buffers of whole blocks that meet the condition. -/
inductive Run (card : Card) : Driver → Prop
  | idle : Run card idle
  | strategy {bp : Request} {d : Driver} : Run card d → bp.b_bcount % 512 = 0 → Harmless card bp →
      Run card (rkstrategy card bp d)
  | interrupt {sta : ℕ} {busy : Bool} {d : Driver} : Run card d → Run card (rkintr card sta busy d)

/-- A buffer that may be put in the queue. -/
structure Proper (card : Card) (bp : Request) : Prop where
  minor : bp.minor < 3
  whole : bp.b_bcount % 512 = 0
  within : Within card bp

/-- The queue, the place within its first buffer, and the commands sent. -/
structure Queued (card : Card) (d : Driver) : Prop where
  proper : ∀ bp ∈ d.b_actf, Proper card bp
  aligned : d.rkoff % 512 = 0
  place : ∀ bp rest, d.b_actf = bp :: rest → d.rkoff ≤ bp.b_bcount
  sent : ∀ c ∈ d.sent, Confined card c

/-- The driver between two calls. -/
structure Sound (card : Card) (d : Driver) : Prop extends Queued card d where
  passive : d.b_active = 0 → d.rkoff = 0
  part : d.b_active ≠ 0 → d.rkn % 512 = 0 ∧
    ∃ bp rest, d.b_actf = bp :: rest ∧ d.rkoff + d.rkn ≤ bp.b_bcount

/-- A command that stays within its buffer stays within the minor device. -/
theorem confined_of_proper {off len : ℕ} (fits : Fits card) (proper : Proper card bp)
    (aligned : off % 512 = 0) (inside : off + len ≤ bp.b_bcount) (read : Bool) :
    Confined card ⟨card.address bp off, len, read, bp⟩ := by
  intro i less
  have base := fits.base _ proper.minor
  have top := fits.len _ proper.minor
  have less : i < len / 512 := less
  have start := proper.within (off / 512) (by omega)
  have here := proper.within (off / 512 + i) (by omega)
  obtain ⟨n, same⟩ : ∃ n : ℕ, (card.rksizes bp.minor).base + bp.b_blkno + (off / 512 : ℕ) = n :=
    ⟨_, (Int.toNat_of_nonneg (by omega)).symm⟩
  have block : Command.block card ⟨card.address bp off, len, read, bp⟩ = n := by
    simp only [Command.block, Card.address, same]
    cases bytes : card.rkbyte with
    | true =>
        rw [bytes, if_pos rfl] at top
        rw [if_pos rfl, if_pos rfl, Nat.shiftLeft_eq]
        omega
    | false =>
        rw [bytes, if_neg (by decide)] at top
        rw [if_neg (by decide), if_neg (by decide), Nat.shiftLeft_zero]
        omega
  rw [block]
  constructor
  · simp only
    omega
  · simp only
    omega

theorem Queued.rkstart (fits : Fits card) (queued : Queued card d)
    (rest : d.b_actf = [] → d.b_active = 0 ∧ d.rkoff = 0) : Sound card (rkstart card d) := by
  cases first : d.b_actf with
  | nil =>
      simp only [Sd.rkstart, first]
      exact ⟨queued, fun _ => (rest first).2, fun active => absurd (rest first).1 active⟩
  | cons bp more =>
      have proper := queued.proper bp (first ▸ List.mem_cons_self)
      have place := queued.place bp more first
      have aligned := queued.aligned
      have whole := proper.whole
      have part : min (bp.b_bcount - d.rkoff) MAXIO % 512 = 0 := by
        rw [ MAXIO]
        omega
      simp only [Sd.rkstart, first]
      refine ⟨⟨by simpa [first] using queued.proper, aligned, ?_, fun c mem => ?_⟩,
        fun active => absurd active (Nat.succ_ne_zero _), fun _ => ⟨part, bp, more, rfl, ?_⟩⟩
      · simpa only [first] using queued.place
      · cases List.mem_append.mp mem with
        | inl before => exact queued.sent c before
        | inr last =>
            rw [List.mem_singleton.mp last]
            refine confined_of_proper fits proper aligned ?_ _
            omega
      · simp only
        omega

theorem Guarded.within (guarded : Guarded card bp) (accepted : ¬refused card bp) :
    bp.minor < 3 ∧ Within card bp := by
  rcases guarded idle with ⟨-, minor, within⟩ | failed
  · exact ⟨minor, within⟩
  · have queued := rkstrategy_actf accepted idle
    rw [failed] at queued
    cases queued

theorem Sound.rkstrategy (fits : Fits card) (sound : Sound card d)
    (whole : bp.b_bcount % 512 = 0) (harmless : Harmless card bp) :
    Sound card (rkstrategy card bp d) := by
  by_cases accepted : refused card bp
  · rw [Sd.rkstrategy, if_pos accepted]
    exact ⟨⟨sound.proper, sound.aligned, sound.place, sound.sent⟩, sound.passive, sound.part⟩
  · obtain ⟨minor, within⟩ := ((guarded_iff whole).mpr harmless).within accepted
    have proper : ∀ b ∈ d.b_actf ++ [bp], Proper card b := by
      intro b mem
      cases List.mem_append.mp mem with
      | inl before => exact sound.proper b before
      | inr last =>
          rw [List.mem_singleton.mp last]
          exact ⟨minor, whole, within⟩
    simp only [Sd.rkstrategy, if_neg accepted]
    split
    next passive =>
      have start := sound.passive passive
      refine Queued.rkstart fits ⟨proper, sound.aligned, fun b rest _ => ?_, sound.sent⟩
        fun none => ?_
      · simp only [start]
        omega
      · simp at none
    next active =>
      obtain ⟨part, b, rest, first, inside⟩ := sound.part active
      refine ⟨⟨proper, sound.aligned, fun b' rest' here => ?_, sound.sent⟩, fun passive =>
        absurd passive active, fun _ => ⟨part, b, rest ++ [bp], by simp [first], inside⟩⟩
      simp only [first, List.cons_append, List.cons.injEq] at here
      rw [← here.1]
      simp only
      omega

theorem Queued.finish {rest : List Request} (fits : Fits card) (queued : Queued card d)
    (first : d.b_actf = bp :: rest) (passive : d.b_active = 0) (b : Request) :
    Sound card (finish card b rest d) := by
  refine Queued.rkstart fits ⟨fun b mem => ?_, rfl, fun b _ _ => Nat.zero_le _, queued.sent⟩
    fun _ => ⟨passive, rfl⟩
  exact queued.proper b (first ▸ List.mem_cons_of_mem _ mem)

theorem Sound.ended {rest : List Request} (fits : Fits card) (sound : Sound card d)
    (active : d.b_active ≠ 0) (first : d.b_actf = bp :: rest) (sta : ℕ) :
    Sound card (ended card bp rest sta d) := by
  obtain ⟨part, b, rest', same, inside⟩ := sound.part active
  rw [first] at same
  obtain ⟨rfl, rfl⟩ := List.cons.inj same
  simp only [Sd.ended]
  have aligned := sound.aligned
  have next : Queued card { d with b_active := 0, rkoff := d.rkoff + d.rkn } := by
    refine ⟨sound.proper, by simp only; omega, fun b rest here => ?_, sound.sent⟩
    simp only [first, List.cons.injEq] at here
    rw [← here.1]
    exact inside
  split_ifs with error few more
  · refine Queued.rkstart fits ⟨sound.proper, aligned, sound.place, sound.sent⟩ fun none => ?_
    rw [first] at none
    cases none
  · refine Queued.finish (d := { d with b_active := 0, b_errcnt := d.b_errcnt + 1 }) fits ?_ first
      rfl _
    exact ⟨sound.proper, aligned, sound.place, sound.sent⟩
  · refine next.rkstart fits fun none => ?_
    rw [first] at none
    cases none
  · exact next.finish fits first rfl _

theorem Sound.rkintr (fits : Fits card) (sound : Sound card d) (sta : ℕ) (busy : Bool) :
    Sound card (rkintr card sta busy d) := by
  cases active : d.b_active with
  | zero =>
      simp only [Sd.rkintr, active]
      exact sound
  | succ n =>
      cases first : d.b_actf with
      | nil =>
          simp only [Sd.rkintr, active, first]
          exact sound
      | cons bp rest =>
          have still : ∀ stop sta, Sound card
              ⟨bp :: rest, n + 1, d.b_errcnt, d.rkoff, d.rkn, stop, sta, d.sent, d.done⟩ :=
            fun stop sta => ⟨⟨by simpa [first] using sound.proper, sound.aligned,
              by simpa [first] using sound.place, sound.sent⟩, by simp,
              by simpa [first, active] using sound.part⟩
          simp only [Sd.rkintr, active, first]
          split_ifs
          · exact still _ _
          · exact still _ _
          · exact (still _ _).ended fits (Nat.succ_ne_zero n) rfl _
          · exact (still _ _).ended fits (Nat.succ_ne_zero n) rfl _

/-- In every run, whatever the card answers, each command addresses blocks of the minor device of
its buffer only. -/
theorem Run.confined (fits : Fits card) (run : Run card d) : ∀ c ∈ d.sent, Confined card c := by
  have sound : Sound card d := by
    induction run with
    | idle =>
        refine ⟨⟨fun _ mem => absurd mem List.not_mem_nil, rfl, fun _ _ here => ?_,
          fun _ mem => absurd mem List.not_mem_nil⟩, fun _ => rfl, fun active => absurd rfl active⟩
        cases here
    | strategy _ whole harmless ih => exact ih.rkstrategy fits whole harmless
    | interrupt _ ih => exact ih.rkintr fits _ _
  exact sound.sent

end Sd

end UnixV7
