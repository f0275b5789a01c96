import Mathlib.Data.Finset.Card
import UnixV7.Kernel.Buf

/-!
# What the block buffers keep

Whatever is evicted, written and read on the way, the buffers show a process the same contents of
every block: the rules by which `getblk`, `bread`, `brelse` and `bdwrite` are used above.
-/

namespace UnixV7

namespace Cache

variable {c c' : Cache} {bp i : BufId} {dev : Dev} {blkno : Daddr} {held : List BufId}
  {block : Option (Dev × Daddr)} {change : Buf → Buf}

@[simp] theorem modify_self : (c.modify bp change).buf bp = change (c.buf bp) := by simp [modify]

theorem modify_of_ne (other : i ≠ bp) : (c.modify bp change).buf i = c.buf i := by
  simp [modify, other]

@[simp] theorem modify_disk : (c.modify bp change).disk = c.disk := rfl

@[simp] theorem modify_bad : (c.modify bp change).bad = c.bad := rfl

@[simp] theorem modify_rounds : (c.modify bp change).rounds = c.rounds := rfl

/-- What holds of the changed buffer, and of the others before, holds of all after. -/
theorem forall_modify (holds : BufId → Buf → Prop) (here : holds bp (change (c.buf bp)))
    (others : ∀ i, i ≠ bp → holds i (c.buf i)) : ∀ i, holds i ((c.modify bp change).buf i) := by
  intro i
  by_cases same : i = bp
  · subst same
    simpa using here
  · rw [modify_of_ne same]
    exact others i same

theorem names_iff {b : Buf} :
    b.names dev blkno = true ↔ b.b_dev = some dev ∧ b.b_blkno = blkno := by
  simp [Buf.names]

/-- The search finds a buffer of the block, -/
theorem incore_eq_some (found : c.incore dev blkno = some i) :
    i < NBUF ∧ (c.buf i).b_dev = some dev ∧ (c.buf i).b_blkno = blkno := by
  have names := List.find?_some found
  have mem := List.mem_of_find?_eq_some found
  exact ⟨List.mem_range.mp mem, names_iff.mp names⟩

/-- or there is none. -/
theorem incore_eq_none : c.incore dev blkno = none ↔
    ∀ i, i < NBUF → ¬((c.buf i).b_dev = some dev ∧ (c.buf i).b_blkno = blkno) := by
  simp only [incore, List.find?_eq_none, List.mem_range, names_iff]

theorem incore_congr (devs : ∀ i, (c'.buf i).b_dev = (c.buf i).b_dev)
    (blknos : ∀ i, (c'.buf i).b_blkno = (c.buf i).b_blkno) :
    c'.incore dev blkno = c.incore dev blkno := by
  simp only [incore, Buf.names, devs, blknos]

theorem mem_avail : i ∈ c.avail ↔ i < NBUF ∧ (c.buf i).b_busy = false := by
  simp [avail]

/-- How many buffers there are whose writing was put off. -/
def dirty (c : Cache) : ℕ := ((Finset.range NBUF).filter fun i => (c.buf i).b_delwri = true).card

theorem dirty_le (fewer : ∀ i, (c'.buf i).b_delwri = true → (c.buf i).b_delwri = true) :
    c'.dirty ≤ c.dirty := by
  apply Finset.card_le_card
  intro i mem
  simp only [Finset.mem_filter] at mem ⊢
  exact ⟨mem.1, fewer i mem.2⟩

theorem dirty_lt (fewer : ∀ i, (c'.buf i).b_delwri = true → (c.buf i).b_delwri = true)
    (inside : bp < NBUF) (before : (c.buf bp).b_delwri = true)
    (after : (c'.buf bp).b_delwri = false) : c'.dirty < c.dirty := by
  apply Finset.card_lt_card
  refine (Finset.ssubset_iff_of_subset fun i mem => ?_).mpr ⟨bp, ?_, ?_⟩
  · simp only [Finset.mem_filter] at mem ⊢
    exact ⟨mem.1, fewer i mem.2⟩
  · simp [inside, before]
  · simp [after]

theorem dirty_le_NBUF : c.dirty ≤ NBUF := by
  calc
    c.dirty ≤ (Finset.range NBUF).card := Finset.card_filter_le _ _
    _ = NBUF := Finset.card_range NBUF

theorem write_delwri (bp : BufId) (named : (c.buf bp).b_dev ≠ none) :
    ((c.write bp).buf bp).b_delwri = false := by
  obtain ⟨dev, here⟩ := Option.ne_none_iff_exists'.mp named
  simp only [write, here]
  split <;> simp

theorem write_of_ne (other : i ≠ bp) : (c.write bp).buf i = c.buf i := by
  simp only [write]
  split
  · rfl
  · split <;> simp [modify_of_ne other]

theorem read_of_ne (other : i ≠ bp) : (c.read bp).buf i = c.buf i := by
  simp only [read]
  split
  · rfl
  · split <;> simp [modify_of_ne other]

/-- A property of the buffers that nothing another process does breaks, and no round of the loop
in `getblk`. -/
structure Stable (holds : Cache → Prop) : Prop where
  rounds : ∀ c rounds, holds c → holds { c with rounds := rounds }
  named : ∀ c bp, holds c → bp < NBUF → (c.buf bp).b_delwri = true → (c.buf bp).b_dev ≠ none
  written : ∀ c bp, holds c → bp < NBUF → (c.buf bp).b_busy = false →
    (c.buf bp).b_delwri = true → holds (((c.notavail bp).write bp).brelse bp)
  reassigned : ∀ c bp dev blkno, holds c → bp < NBUF → (c.buf bp).b_busy = false →
    (c.buf bp).b_delwri = false → c.incore dev blkno = none →
    holds (((c.notavail bp).assign bp (some (dev, blkno))).brelse bp)
  read : ∀ c bp, holds c → bp < NBUF → (c.buf bp).b_busy = false → (c.buf bp).b_done = false →
    holds (((c.notavail bp).read bp).brelse bp)

namespace Stable

variable {holds : Cache → Prop}

theorem turn (stable : Stable holds) (t : Turn) (before : holds c) : holds (c.turn t) := by
  cases t with
  | bwrite bp =>
      simp only [Cache.turn]
      split
      · next can => exact stable.written c bp before can.1 can.2.1 can.2.2
      · exact before
  | getblk bp dev blkno =>
      simp only [Cache.turn]
      split
      · next can => exact stable.reassigned c bp dev blkno before can.1 can.2.1 can.2.2.1 can.2.2.2
      · exact before
  | bread bp =>
      simp only [Cache.turn]
      split
      · next can => exact stable.read c bp before can.1 can.2.1 can.2.2
      · exact before

theorem turns (stable : Stable holds) (turns : List Turn) (before : holds c) :
    holds (turns.foldl Cache.turn c) := by
  induction turns generalizing c with
  | nil => exact before
  | cons t turns ih => exact ih (stable.turn t before)

theorem round (stable : Stable holds) (before : holds c) : holds c.round.2 := by
  simp only [Cache.round]
  split
  · exact before
  · exact stable.turns _ (stable.rounds c _ before)

/-! ### The loop of `getblk` -/

theorem written_delwri (i : BufId)
    (still : ((((c.notavail bp).write bp).brelse bp).buf i).b_delwri = true) :
    (c.buf i).b_delwri = true := by
  by_cases same : i = bp
  · subst same
    rw [brelse, modify_self] at still
    simp only [write] at still
    split at still
    · simpa [notavail] using still
    · split at still <;> simp at still
  · rwa [brelse, modify_of_ne same, write_of_ne same, notavail, modify_of_ne same] at still

theorem reassigned_delwri (i : BufId)
    (still : ((((c.notavail bp).assign bp block).brelse bp).buf i).b_delwri = true) :
    (c.buf i).b_delwri = true := by
  by_cases same : i = bp
  · subst same
    simp [brelse, assign, Buf.assign] at still
  · rwa [brelse, modify_of_ne same, assign, modify_of_ne same, notavail,
      modify_of_ne same] at still

theorem read_delwri (i : BufId)
    (still : ((((c.notavail bp).read bp).brelse bp).buf i).b_delwri = true) :
    (c.buf i).b_delwri = true := by
  by_cases same : i = bp
  · subst same
    rw [brelse, modify_self] at still
    simp only [Cache.read] at still
    split at still
    · simpa [notavail] using still
    · split at still <;> simpa [notavail] using still
  · rwa [brelse, modify_of_ne same, read_of_ne same, notavail, modify_of_ne same] at still

/-- Nobody puts off more writes meanwhile. -/
theorem bounded (stable : Stable holds) (n : ℕ) : Stable fun c => holds c ∧ c.dirty ≤ n where
  rounds c rounds before := ⟨stable.rounds c rounds before.1, before.2⟩
  named c bp before := stable.named c bp before.1
  written c bp before inside idle dirty :=
    ⟨stable.written c bp before.1 inside idle dirty,
      (dirty_le written_delwri).trans before.2⟩
  reassigned c bp dev blkno before inside idle clean fresh :=
    ⟨stable.reassigned c bp dev blkno before.1 inside idle clean fresh,
      (dirty_le reassigned_delwri).trans before.2⟩
  read c bp before inside idle undone :=
    ⟨stable.read c bp before.1 inside idle undone, (dirty_le read_delwri).trans before.2⟩

/-- The loop finds the block or takes a buffer that need not be written: every time round writes
one that had to be. -/
theorem take (stable : Stable holds)
    (idle : ∀ c bp, holds c → (block.bind fun b => c.incore b.1 b.2) = some bp →
      (c.buf bp).b_busy = false)
    (room : ∀ c, holds c → c.avail ≠ []) {fuel : ℕ} (before : holds c)
    (enough : c.dirty < fuel) :
    ∃ c' bp, holds c' ∧
      ((block.bind fun b => c'.incore b.1 b.2) = some bp ∧
          c.take fuel block = some (bp, c'.notavail bp) ∨
        (block.bind fun b => c'.incore b.1 b.2) = none ∧ bp < NBUF ∧
          (c'.buf bp).b_busy = false ∧ (c'.buf bp).b_delwri = false ∧
          c.take fuel block = some (bp, (c'.notavail bp).assign bp block)) := by
  induction fuel generalizing c with
  | zero => omega
  | succ fuel ih =>
      obtain ⟨after, fewer⟩ := (stable.bounded c.dirty).round ⟨before, Nat.le_refl _⟩
      rw [Cache.take]
      generalize c.round = next at after fewer
      obtain ⟨head, c₁⟩ := next
      simp only at after fewer ⊢
      cases found : block.bind fun b => c₁.incore b.1 b.2 with
      | some bp =>
          refine ⟨c₁, bp, after, .inl ⟨found, ?_⟩⟩
          simp [idle c₁ bp after found]
      | none =>
          have some := List.length_pos_iff.mpr (room c₁ after)
          have here := Nat.mod_lt head some
          have mem := List.getElem_mem here
          rw [List.getElem?_eq_getElem here]
          generalize c₁.avail[head % c₁.avail.length] = bp at mem ⊢
          obtain ⟨inside, free⟩ := mem_avail.mp mem
          cases dirty : (c₁.buf bp).b_delwri with
          | false =>
              refine ⟨c₁, bp, after, .inr ⟨found, inside, free, dirty, ?_⟩⟩
              simp [notavail, dirty]
          | true =>
              have less : (((c₁.notavail bp).write bp).brelse bp).dirty < c₁.dirty := by
                apply dirty_lt written_delwri inside dirty
                rw [brelse, modify_self]
                exact write_delwri bp
                  (by simpa [notavail] using stable.named c₁ bp after inside dirty)
              obtain ⟨c', bp', result⟩ :=
                ih (stable.written c₁ bp after inside free dirty) (by omega)
              refine ⟨c', bp', ?_⟩
              have again : ((c₁.notavail bp).buf bp).b_delwri = true := by simp [notavail, dirty]
              simpa only [again, if_true] using result

end Stable

/-! ### Buffers that agree with the devices -/

/-- The buffers of a process that has `held` in its hands: a block is in one buffer at most, a
buffer that need not be written holds what is on the device, and no device fails. -/
structure Good (held : List BufId) (c : Cache) : Prop where
  reliable : ∀ dev blkno, c.bad dev blkno = false
  distinct : ∀ i j dev, i < NBUF → j < NBUF → (c.buf i).b_dev = some dev →
    (c.buf j).b_dev = some dev → (c.buf i).b_blkno = (c.buf j).b_blkno → i = j
  clean : ∀ i dev, i < NBUF → (c.buf i).b_dev = some dev → (c.buf i).b_done = true →
    (c.buf i).b_delwri = false → (c.buf i).b_addr = c.disk dev (c.buf i).b_blkno
  dirty : ∀ i, i < NBUF → (c.buf i).b_delwri = true →
    (c.buf i).b_done = true ∧ (c.buf i).b_dev ≠ none
  errorless : ∀ i, i < NBUF → (c.buf i).b_error = false
  resid : ∀ i, i < NBUF → (c.buf i).b_resid = 0
  busy : ∀ i, i < NBUF → ((c.buf i).b_busy = true ↔ i ∈ held)

/-- A buffer's data on its device, as they were to be written. -/
def flushed (c : Cache) (bp : BufId) (dev : Dev) : Cache :=
  { c.modify bp fun b => { b with b_delwri := false } with
    disk := fun d n =>
      if d = dev ∧ n = (c.buf bp).b_blkno then (c.buf bp).b_addr else c.disk d n }

theorem flushed_buf (i : BufId) : (c.flushed bp dev).buf i =
    { c.buf i with b_delwri := if i = bp then false else (c.buf i).b_delwri } := by
  by_cases same : i = bp
  · subst same
    simp [flushed]
  · simp only [flushed, modify_of_ne same, if_neg same]

theorem flushed_disk (d : Dev) (n : Daddr) : (c.flushed bp dev).disk d n =
    if d = dev ∧ n = (c.buf bp).b_blkno then (c.buf bp).b_addr else c.disk d n := rfl

namespace Good

variable {held' : List BufId} {m : Bytes}

theorem idle (good : c.Good held) (inside : i < NBUF) :
    (c.buf i).b_busy = false ↔ i ∉ held := by
  rw [← good.busy i inside]
  simp

theorem incore (good : c.Good held) (inside : i < NBUF) (here : (c.buf i).b_dev = some dev) :
    c.incore dev (c.buf i).b_blkno = some i := by
  cases found : c.incore dev (c.buf i).b_blkno with
  | none => exact absurd ⟨here, rfl⟩ (incore_eq_none.mp found i inside)
  | some j =>
      obtain ⟨also, there, same⟩ := incore_eq_some found
      rw [good.distinct j i dev also inside there here same]

/-- A block that is in a buffer is what the buffer holds, once it is valid. -/
theorem view (good : c.Good held) (inside : i < NBUF) (here : (c.buf i).b_dev = some dev) :
    c.view dev (c.buf i).b_blkno =
      if (c.buf i).b_done then (c.buf i).b_addr else c.disk dev (c.buf i).b_blkno := by
  simp only [Cache.view, good.incore inside here]

theorem view_of_none (none : c.incore dev blkno = none) : c.view dev blkno = c.disk dev blkno := by
  simp only [Cache.view, none]

/-- A change of one buffer. -/
theorem modify (good : c.Good held)
    (distinct : ∀ j dev, j ≠ bp → j < NBUF → (change (c.buf bp)).b_dev = some dev →
      (c.buf j).b_dev = some dev → (change (c.buf bp)).b_blkno ≠ (c.buf j).b_blkno)
    (clean : ∀ dev, (change (c.buf bp)).b_dev = some dev → (change (c.buf bp)).b_done = true →
      (change (c.buf bp)).b_delwri = false →
      (change (c.buf bp)).b_addr = c.disk dev (change (c.buf bp)).b_blkno)
    (dirty : (change (c.buf bp)).b_delwri = true →
      (change (c.buf bp)).b_done = true ∧ (change (c.buf bp)).b_dev ≠ none)
    (errorless : (change (c.buf bp)).b_error = false)
    (resid : (change (c.buf bp)).b_resid = 0)
    (busy : (change (c.buf bp)).b_busy = true ↔ bp ∈ held')
    (others : ∀ i, i ≠ bp → (i ∈ held' ↔ i ∈ held)) :
    (c.modify bp change).Good held' where
  reliable := good.reliable
  distinct i j dev left right := by
    by_cases one : i = bp
    · by_cases other : j = bp
      · intros
        rw [one, other]
      · subst one
        rw [modify_self, modify_of_ne other]
        exact fun mine theirs same => absurd same (distinct j dev other right mine theirs)
    · rw [modify_of_ne one]
      by_cases other : j = bp
      · subst other
        rw [modify_self]
        exact fun theirs mine same => absurd same.symm (distinct i dev one left mine theirs)
      · rw [modify_of_ne other]
        exact good.distinct i j dev left right
  clean := by
    refine forall_modify (fun i b => ∀ dev, i < NBUF → b.b_dev = some dev →
      b.b_done = true → b.b_delwri = false → b.b_addr = c.disk dev b.b_blkno) ?_ ?_
    · exact fun dev _ => clean dev
    · exact fun i _ => good.clean i
  dirty := by
    refine forall_modify (fun i b => i < NBUF → b.b_delwri = true →
      b.b_done = true ∧ b.b_dev ≠ none) ?_ ?_
    · exact fun _ => dirty
    · exact fun i _ => good.dirty i
  errorless := by
    refine forall_modify (fun i b => i < NBUF → b.b_error = false) ?_ ?_
    · exact fun _ => errorless
    · exact fun i _ => good.errorless i
  resid := by
    refine forall_modify (fun i b => i < NBUF → b.b_resid = 0) ?_ ?_
    · exact fun _ => resid
    · exact fun i _ => good.resid i
  busy := by
    refine forall_modify (fun i b => i < NBUF → (b.b_busy = true ↔ i ∈ held')) ?_ ?_
    · exact fun _ => busy
    · exact fun i other inside => (good.busy i inside).trans (others i other).symm

/-- A change that keeps the buffer at its block shows that block alone another way. -/
theorem view_modify (good : c.Good held) (inside : bp < NBUF)
    (devs : (change (c.buf bp)).b_dev = (c.buf bp).b_dev)
    (blknos : (change (c.buf bp)).b_blkno = (c.buf bp).b_blkno) :
    (c.modify bp change).view dev blkno =
      if (c.buf bp).b_dev = some dev ∧ (c.buf bp).b_blkno = blkno then
        if (change (c.buf bp)).b_done then (change (c.buf bp)).b_addr else c.disk dev blkno
      else
        c.view dev blkno := by
  have search : (c.modify bp change).incore dev blkno = c.incore dev blkno := by
    apply incore_congr
    · exact forall_modify (fun i b => b.b_dev = (c.buf i).b_dev) devs fun _ _ => rfl
    · exact forall_modify (fun i b => b.b_blkno = (c.buf i).b_blkno) blknos fun _ _ => rfl
  split
  · next here =>
      obtain ⟨here, rfl⟩ := here
      simp only [Cache.view, search, good.incore inside here, modify_self, modify_disk]
  · next there =>
      simp only [Cache.view, search]
      cases found : c.incore dev blkno with
      | none => rfl
      | some i =>
          have other : i ≠ bp := by
            rintro rfl
            exact there (incore_eq_some found).2
          simp only [modify_of_ne other, modify_disk]

/-- A write that was put off, from `notavail` to `brelse`. -/
theorem written_eq (good : c.Good held) (inside : bp < NBUF) (idle : (c.buf bp).b_busy = false)
    (dirty : (c.buf bp).b_delwri = true) (here : (c.buf bp).b_dev = some dev) :
    ((c.notavail bp).write bp).brelse bp = c.flushed bp dev := by
  have done := (good.dirty bp inside dirty).1
  have errorless := good.errorless bp inside
  have resid := good.resid bp inside
  apply Cache.ext
  · funext i
    by_cases same : i = bp
    · subst same
      ext <;> simp [flushed, write, brelse, notavail, here, good.reliable, idle, done, errorless,
        resid]
    · simp [flushed, brelse, modify_of_ne same, write_of_ne same, notavail]
  · simp [flushed, write, brelse, notavail, here, good.reliable]
  · simp [flushed, write, brelse, notavail, here, good.reliable]
  · simp [flushed, write, brelse, notavail, here, good.reliable]

/-- A read, from `notavail` to `brelse`. -/
theorem read_eq (good : c.Good held) (inside : bp < NBUF) (idle : (c.buf bp).b_busy = false)
    (here : (c.buf bp).b_dev = some dev) :
    ((c.notavail bp).read bp).brelse bp =
      c.modify bp fun b =>
        { b with b_done := true, b_addr := c.disk dev (c.buf bp).b_blkno } := by
  have errorless := good.errorless bp inside
  have resid := good.resid bp inside
  apply Cache.ext
  · funext i
    by_cases same : i = bp
    · subst same
      ext <;> simp [Cache.read, brelse, notavail, here, good.reliable, idle, errorless, resid]
    · simp [brelse, modify_of_ne same, read_of_ne same, notavail]
  · simp [Cache.read, brelse, notavail, here, good.reliable]
  · simp [Cache.read, brelse, notavail, here, good.reliable]
  · simp [Cache.read, brelse, notavail, here, good.reliable]

/-- A buffer that another process gets and releases, or that is only picked up and put down. -/
theorem reassigned_eq (idle : (c.buf bp).b_busy = false) :
    ((c.notavail bp).assign bp (some (dev, blkno))).brelse bp =
      c.modify bp fun b =>
        { b with
          b_done := false, b_error := false, b_delwri := false
          b_dev := some dev, b_blkno := blkno } := by
  apply Cache.ext
  · funext i
    by_cases same : i = bp
    · subst same
      ext <;> simp [brelse, notavail, assign, Buf.assign, idle]
    · simp [brelse, modify_of_ne same, assign, notavail]
  all_goals rfl

/-- A buffer that need not be written may be given to a block that is in no buffer. -/
theorem view_reassign (good : c.Good held) (after : (c.modify bp change).Good held')
    (inside : bp < NBUF) (clean : (c.buf bp).b_delwri = false)
    (undone : (change (c.buf bp)).b_done = false)
    (fresh : ∀ d, (change (c.buf bp)).b_dev = some d →
      c.incore d (change (c.buf bp)).b_blkno = none) :
    (c.modify bp change).view = c.view := by
  funext d n
  cases found : c.incore d n with
  | none =>
      rw [view_of_none found]
      cases again : (c.modify bp change).incore d n with
      | none => exact view_of_none again
      | some j =>
          obtain ⟨below, here, rfl⟩ := incore_eq_some again
          have same : j = bp := by
            by_contra other
            rw [modify_of_ne other] at here found
            exact incore_eq_none.mp found j below ⟨here, rfl⟩
          subst same
          rw [after.view below here, if_neg (by simp [undone])]
          rfl
  | some i =>
      obtain ⟨below, here, rfl⟩ := incore_eq_some found
      by_cases same : i = bp
      · subst same
        have gone : (c.modify i change).incore d (c.buf i).b_blkno = none := by
          rw [incore_eq_none]
          rintro j under ⟨there, also⟩
          by_cases again : j = i
          · subst again
            rw [modify_self] at there also
            have none := fresh d there
            rw [also, found] at none
            simp at none
          · rw [modify_of_ne again] at there also
            exact again (good.distinct j i d under below there here also)
        rw [view_of_none gone, good.view below here]
        split
        · next done => exact (good.clean i d below here done clean).symm
        · rfl
      · have there : ((c.modify bp change).buf i).b_dev = some d := by rwa [modify_of_ne same]
        have shown := after.view below there
        rw [modify_of_ne same] at shown
        rw [shown, good.view below here, modify_disk]

/-- A buffer whose write was put off is written. -/
theorem flush (good : c.Good held) (inside : bp < NBUF) (here : (c.buf bp).b_dev = some dev) :
    (c.flushed bp dev).Good held where
  reliable := good.reliable
  distinct i j d left right := by
    simpa only [flushed_buf] using good.distinct i j d left right
  clean i d below there done clean := by
    simp only [flushed_buf] at there done clean ⊢
    by_cases same : i = bp
    · subst same
      obtain rfl := Option.some.inj (there.symm.trans here)
      simp [flushed_disk]
    · rw [if_neg same] at clean
      rw [good.clean i d below there done clean, flushed_disk, if_neg]
      rintro ⟨rfl, also⟩
      exact same (good.distinct i bp d below inside there here also)
  dirty i below still := by
    simp only [flushed_buf] at still ⊢
    by_cases same : i = bp
    · simp [same] at still
    · rw [if_neg same] at still
      exact good.dirty i below still
  errorless i below := by simpa only [flushed_buf] using good.errorless i below
  resid i below := by simpa only [flushed_buf] using good.resid i below
  busy i below := by simpa only [flushed_buf] using good.busy i below

theorem view_flush (good : c.Good held) (inside : bp < NBUF)
    (dirty : (c.buf bp).b_delwri = true) (here : (c.buf bp).b_dev = some dev) :
    (c.flushed bp dev).view = c.view := by
  funext d n
  have search : (c.flushed bp dev).incore d n = c.incore d n :=
    incore_congr (fun i => by rw [flushed_buf]) fun i => by rw [flushed_buf]
  simp only [Cache.view, search]
  cases found : c.incore d n with
  | none =>
      have other : ¬(d = dev ∧ n = (c.buf bp).b_blkno) := by
        rintro ⟨rfl, rfl⟩
        exact incore_eq_none.mp found bp inside ⟨here, rfl⟩
      simp only [flushed_disk, if_neg other]
  | some i =>
      obtain ⟨below, there, rfl⟩ := incore_eq_some found
      by_cases same : i = bp
      · subst same
        simp only [flushed_buf, (good.dirty i inside dirty).1, if_true]
      · have other : ¬(d = dev ∧ (c.buf i).b_blkno = (c.buf bp).b_blkno) := by
          rintro ⟨rfl, also⟩
          exact same (good.distinct i bp d below inside there here also)
        simp only [flushed_buf, flushed_disk, if_neg other, if_neg same]

/-- Somebody who has a few buffers has not got all. -/
theorem room (good : c.Good held) (few : held.length < NBUF) : c.avail ≠ [] := by
  intro empty
  have all : ∀ i, i < NBUF → i ∈ held := by
    intro i inside
    by_contra free
    have mem := mem_avail.mpr ⟨inside, (good.idle inside).mpr free⟩
    simp [empty] at mem
  have subset : Finset.range NBUF ⊆ held.toFinset := fun i mem => by
    simpa using all i (Finset.mem_range.mp mem)
  have card := Finset.card_le_card subset
  rw [Finset.card_range] at card
  have bound := List.toFinset_card_le held
  omega

end Good

/-- Buffers that show the same contents as before and are the same where they are in hand. -/
structure Agrees (first : Cache) (held : List BufId) (c : Cache) : Prop where
  good : c.Good held
  view : c.view = first.view
  kept : ∀ i ∈ held, c.buf i = first.buf i

theorem Agrees.refl (good : c.Good held) : Agrees c held c := ⟨good, rfl, fun _ _ => rfl⟩

/-- Nothing that other processes do shows. -/
theorem stable_agrees (first : Cache) (held : List BufId) : Stable (Agrees first held) where
  rounds c rounds before :=
    { good := ⟨before.good.reliable, before.good.distinct, before.good.clean, before.good.dirty,
        before.good.errorless, before.good.resid, before.good.busy⟩
      view := before.view
      kept := before.kept }
  named c bp before inside dirty := (before.good.dirty bp inside dirty).2
  written c bp before inside idle dirty := by
    obtain ⟨dev, here⟩ := Option.ne_none_iff_exists'.mp (before.good.dirty bp inside dirty).2
    rw [before.good.written_eq inside idle dirty here]
    refine ⟨before.good.flush inside here,
      (before.good.view_flush inside dirty here).trans before.view, fun i mem => ?_⟩
    have other : i ≠ bp := by
      rintro rfl
      exact (before.good.idle inside).mp idle mem
    rw [flushed_buf, if_neg other, before.kept i mem]
  reassigned c bp dev blkno before inside idle clean fresh := by
    rw [Good.reassigned_eq idle]
    have good : Good held (c.modify bp fun b =>
        { b with
          b_done := false, b_error := false, b_delwri := false
          b_dev := some dev, b_blkno := blkno }) := by
      refine before.good.modify ?_ ?_ ?_ rfl (before.good.resid bp inside)
        (before.good.busy bp inside) fun _ _ => Iff.rfl
      · rintro j d - below mine theirs same
        obtain rfl := Option.some.inj mine
        exact incore_eq_none.mp fresh j below ⟨theirs, same.symm⟩
      · simp
      · simp
    refine ⟨good, (before.good.view_reassign good inside clean rfl ?_).trans before.view,
      fun i mem => ?_⟩
    · intro d mine
      obtain rfl := Option.some.inj mine
      exact fresh
    · rw [modify_of_ne, before.kept i mem]
      rintro rfl
      exact (before.good.idle inside).mp idle mem
  read c bp before inside idle undone := by
    have good := before.good
    cases here : (c.buf bp).b_dev with
    | none =>
        have same : ((c.notavail bp).read bp).brelse bp = c := by
          apply Cache.ext
          · funext i
            by_cases same : i = bp
            · subst same
              ext <;> simp [Cache.read, brelse, notavail, here, idle]
            · simp [brelse, modify_of_ne same, read_of_ne same, notavail]
          all_goals simp [Cache.read, brelse, notavail, here]
        rwa [same]
    | some dev =>
        rw [good.read_eq inside idle here]
        refine ⟨good.modify ?_ ?_ ?_ (good.errorless bp inside) (good.resid bp inside)
          (good.busy bp inside) fun _ _ => Iff.rfl, ?_, fun i mem => ?_⟩
        · intro j d other below mine theirs same
          exact other (good.distinct j bp d below inside theirs mine same.symm)
        · intro d mine _ _
          rw [Option.some.inj (here.symm.trans mine)]
        · exact fun dirty => ⟨rfl, (good.dirty bp inside dirty).2⟩
        · rw [← before.view]
          funext d n
          rw [good.view_modify inside rfl rfl]
          split
          · next mine =>
              obtain ⟨mine, rfl⟩ := mine
              obtain rfl := Option.some.inj (here.symm.trans mine)
              rw [good.view inside here]
              simp [undone]
          · rfl
        · rw [modify_of_ne, before.kept i mem]
          rintro rfl
          exact (good.idle inside).mp idle mem

/-! ### Buffers in hand -/

/-- A buffer is handed out; nothing else that the process can see changes. -/
structure Handed (held : List BufId) (block : Option (Dev × Daddr)) (c : Cache) (bp : BufId)
    (c' : Cache) : Prop where
  good : c'.Good (bp :: held)
  view : c'.view = c.view
  kept : ∀ i ∈ held, c'.buf i = c.buf i
  inside : bp < NBUF
  fresh : bp ∉ held
  b_dev : (c'.buf bp).b_dev = block.map Prod.fst
  b_blkno : ∀ b, block = some b → (c'.buf bp).b_blkno = b.2

/-- No buffer in hand is of the block. -/
def Apart (c : Cache) (held : List BufId) (block : Option (Dev × Daddr)) : Prop :=
  ∀ i ∈ held, ∀ dev blkno, block = some (dev, blkno) →
    ¬((c.buf i).b_dev = some dev ∧ (c.buf i).b_blkno = blkno)

/-- The block that is found is in nobody's hands. -/
theorem Apart.fresh {c₁ : Cache} (apart : c.Apart held block) (agrees : Agrees c held c₁)
    (found : (block.bind fun b => c₁.incore b.1 b.2) = some bp) : bp ∉ held := by
  obtain ⟨⟨dev, blkno⟩, rfl, found⟩ := Option.bind_eq_some_iff.mp found
  obtain ⟨-, here⟩ := incore_eq_some found
  intro mem
  rw [agrees.kept bp mem] at here
  exact apart bp mem dev blkno rfl here

/-- A buffer found in the cache is taken off the free list. -/
theorem Agrees.notavail {c₁ : Cache} (agrees : Agrees c held c₁) (fresh : bp ∉ held)
    (found : c₁.incore dev blkno = some bp) :
    Handed held (some (dev, blkno)) c bp (c₁.notavail bp) := by
  obtain ⟨inside, here, also⟩ := incore_eq_some found
  have good := agrees.good
  refine
    { good := good.modify
        (fun j d other below mine theirs same =>
          other (good.distinct j bp d below inside theirs mine same.symm))
        (fun d => good.clean bp d inside) (good.dirty bp inside) (good.errorless bp inside)
        (good.resid bp inside) (by simp) (fun i other => by simp [other])
      view := ?_
      kept := fun i mem => ?_
      inside := inside
      fresh := fresh
      b_dev := by simpa [Cache.notavail] using here
      b_blkno := by
        rintro b ⟨⟩
        simpa [Cache.notavail] using also }
  · rw [← agrees.view]
    funext d n
    rw [Cache.notavail, good.view_modify inside rfl rfl]
    split
    · next mine =>
        obtain ⟨mine, rfl⟩ := mine
        rw [good.view inside mine]
    · rfl
  · rw [Cache.notavail, modify_of_ne, agrees.kept i mem]
    rintro rfl
    exact fresh mem

/-- The oldest buffer is given to a block that is in no buffer. -/
theorem Agrees.assign {c₁ : Cache} (agrees : Agrees c held c₁) (inside : bp < NBUF)
    (idle : (c₁.buf bp).b_busy = false) (clean : (c₁.buf bp).b_delwri = false)
    (missing : (block.bind fun b => c₁.incore b.1 b.2) = none) :
    Handed held block c bp ((c₁.notavail bp).assign bp block) := by
  have good := agrees.good
  have fresh := (good.idle inside).mp idle
  have whole : (c₁.notavail bp).assign bp block = c₁.modify bp fun b => b.assign block := by
    apply Cache.ext
    · funext i
      by_cases same : i = bp
      · subst same
        simp [Cache.assign, Cache.notavail, Buf.assign]
      · simp [Cache.assign, Cache.notavail, modify_of_ne same]
    all_goals rfl
  have absent : ∀ d, ((c₁.buf bp).assign block).b_dev = some d →
      c₁.incore d ((c₁.buf bp).assign block).b_blkno = none := by
    intro d mine
    obtain ⟨⟨dev, n⟩, rfl, rfl⟩ := Option.map_eq_some_iff.mp mine
    exact missing
  have good' : Good (bp :: held) (c₁.modify bp fun b => b.assign block) := by
    refine good.modify ?_ (by simp [Buf.assign]) (by simp [Buf.assign]) rfl
      (good.resid bp inside) (by simp [Buf.assign]) fun i other => by simp [other]
    intro j d _ below mine theirs same
    exact incore_eq_none.mp (absent d mine) j below ⟨theirs, same.symm⟩
  rw [whole]
  exact
    { good := good'
      view := (good.view_reassign good' inside clean rfl absent).trans agrees.view
      kept := fun i mem => by
        rw [modify_of_ne, agrees.kept i mem]
        rintro rfl
        exact fresh mem
      inside := inside
      fresh := fresh
      b_dev := by simp [Buf.assign]
      b_blkno := by
        rintro b rfl
        simp [Buf.assign] }

/-- `getblk` and `geteblk` return. -/
theorem Good.take (good : c.Good held) (block : Option (Dev × Daddr)) (few : held.length < NBUF)
    (apart : c.Apart held block) :
    ∃ bp c', c.take (NBUF + 1) block = some (bp, c') ∧ Handed held block c bp c' := by
  have idle : ∀ c₁ bp, Agrees c held c₁ → (block.bind fun b => c₁.incore b.1 b.2) = some bp →
      (c₁.buf bp).b_busy = false := by
    intro c₁ bp agrees found
    obtain ⟨⟨dev, blkno⟩, rfl, here⟩ := Option.bind_eq_some_iff.mp found
    exact (agrees.good.idle (incore_eq_some here).1).mpr (apart.fresh agrees found)
  obtain ⟨c₁, bp, agrees, taken⟩ := (stable_agrees c held).take idle
    (fun c₁ agrees => agrees.good.room few) (Agrees.refl good) (Nat.lt_succ_of_le dirty_le_NBUF)
  rcases taken with ⟨found, taken⟩ | ⟨none, inside, free, clean, taken⟩
  · have fresh := apart.fresh agrees found
    obtain ⟨⟨dev, blkno⟩, rfl, here⟩ := Option.bind_eq_some_iff.mp found
    exact ⟨bp, _, taken, agrees.notavail fresh here⟩
  · exact ⟨bp, _, taken, agrees.assign inside free clean none⟩

/-- `bread` returns the block's contents. -/
theorem Good.bread (good : c.Good held) (dev : Dev) (blkno : Daddr) (few : held.length < NBUF)
    (apart : c.Apart held (some (dev, blkno))) :
    ∃ bp c', c.bread dev blkno = some (bp, c') ∧ Handed held (some (dev, blkno)) c bp c' ∧
      (c'.buf bp).b_done = true ∧ (c'.buf bp).b_addr = c.view dev blkno := by
  obtain ⟨bp, c₁, taken, handed⟩ := good.take _ few apart
  have here : (c₁.buf bp).b_dev = some dev := handed.b_dev
  have also : (c₁.buf bp).b_blkno = blkno := handed.b_blkno _ rfl
  have good₁ := handed.good
  have shown := good₁.view handed.inside here
  rw [also, handed.view] at shown
  simp only [Cache.bread, getblk, taken, Option.bind_eq_bind, Option.bind_some]
  cases done : (c₁.buf bp).b_done with
  | true =>
      refine ⟨bp, c₁, by simp, handed, done, ?_⟩
      simp [shown, done]
  | false =>
      have whole : c₁.read bp = c₁.modify bp fun b =>
          { b with b_done := true, b_resid := 0, b_addr := c₁.disk dev blkno } := by
        simp only [Cache.read, here, also, good₁.reliable, Bool.false_eq_true, if_false]
        apply Cache.ext
        · funext i
          by_cases same : i = bp
          · subst same
            simp [also]
          · simp [modify_of_ne same]
        all_goals rfl
      simp only [done, Bool.false_eq_true, if_false] at shown ⊢
      refine ⟨bp, _, rfl, ?_, ?_, ?_⟩
      · rw [whole]
        exact
          { good := good₁.modify
              (fun j d other below mine theirs same =>
                other (good₁.distinct j bp d below handed.inside theirs mine same.symm))
              (fun d mine _ _ => by rw [also, Option.some.inj (here.symm.trans mine)])
              (fun _ => ⟨rfl, by simp [here]⟩) (good₁.errorless bp handed.inside) rfl
              (good₁.busy bp handed.inside) fun i other => Iff.rfl
            view := by
              rw [← handed.view]
              funext d n
              rw [good₁.view_modify handed.inside rfl rfl]
              split
              · next mine =>
                  obtain ⟨mine, rfl⟩ := mine
                  obtain rfl := Option.some.inj (here.symm.trans mine)
                  rw [good₁.view handed.inside here]
                  simp [done, also]
              · rfl
            kept := fun i mem => by
              rw [modify_of_ne, handed.kept i mem]
              rintro rfl
              exact handed.fresh mem
            inside := handed.inside
            fresh := handed.fresh
            b_dev := by simpa using here
            b_blkno := by
              rintro b ⟨⟩
              simpa using also }
      · simp [whole]
      · simp [whole, shown]

/-- A buffer is put back as it is. -/
theorem Good.brelse (good : c.Good (bp :: held)) (inside : bp < NBUF) (fresh : bp ∉ held) :
    (c.brelse bp).Good held ∧ (c.brelse bp).view = c.view := by
  have errorless := good.errorless bp inside
  have whole : c.brelse bp = c.modify bp fun b => { b with b_busy := false } := by
    apply Cache.ext
    · funext i
      by_cases same : i = bp
      · subst same
        simp [Cache.brelse, errorless]
      · simp [Cache.brelse, modify_of_ne same]
    all_goals rfl
  rw [whole]
  constructor
  · refine good.modify (fun j d other below mine theirs same =>
      other (good.distinct j bp d below inside theirs mine same.symm)) (fun d =>
        good.clean bp d inside)
      (good.dirty bp inside) errorless (good.resid bp inside) (by simpa using fresh)
      fun i other => by simp [other]
  · funext d n
    rw [good.view_modify inside rfl rfl]
    split
    · next mine =>
        obtain ⟨mine, rfl⟩ := mine
        rw [good.view inside mine]
    · rfl

/-- A buffer is put back with other contents, which are to be written some time. -/
theorem Good.bdwrite (good : c.Good (bp :: held)) (change : Buf → Buf) (inside : bp < NBUF)
    (fresh : bp ∉ held)
    (here : (c.buf bp).b_dev = some dev) (devs : (change (c.buf bp)).b_dev = (c.buf bp).b_dev)
    (blknos : (change (c.buf bp)).b_blkno = (c.buf bp).b_blkno)
    (errorless : (change (c.buf bp)).b_error = false)
    (resid : (change (c.buf bp)).b_resid = 0) :
    ((c.modify bp change).bdwrite bp).Good held ∧
      ((c.modify bp change).bdwrite bp).view = fun d n =>
        if d = dev ∧ n = (c.buf bp).b_blkno then (change (c.buf bp)).b_addr else c.view d n := by
  have whole : (c.modify bp change).bdwrite bp = c.modify bp fun b =>
      { change b with b_busy := false, b_delwri := true, b_done := true } := by
    apply Cache.ext
    · funext i
      by_cases same : i = bp
      · subst same
        simp [Cache.bdwrite, Cache.brelse, errorless]
      · simp [Cache.bdwrite, Cache.brelse, modify_of_ne same]
    all_goals rfl
  rw [whole]
  constructor
  · refine good.modify (fun j d other below mine theirs same => ?_) (by simp)
      (fun _ => ⟨rfl, by simp [devs, here]⟩) errorless resid (by simpa using fresh)
      fun i other => by simp [other]
    exact other (good.distinct j bp d below inside theirs (devs ▸ mine) (blknos ▸ same.symm))
  · funext d n
    rw [good.view_modify inside (by exact devs) (by exact blknos)]
    simp only [here, Option.some.injEq, if_true]
    by_cases mine : d = dev ∧ n = (c.buf bp).b_blkno
    · obtain ⟨rfl, rfl⟩ := mine
      simp
    · rw [if_neg mine, if_neg fun same => mine ⟨same.1.symm, same.2.symm⟩]

/-- Reading ahead shows nowhere. -/
theorem Good.readAhead (good : c.Good held) (dev : Dev) (rablkno : Daddr)
    (few : held.length < NBUF) (apart : ∀ i ∈ held, i < NBUF) :
    ∃ c', c.readAhead dev rablkno = some c' ∧ Agrees c held c' := by
  rw [Cache.readAhead]
  split
  · next ahead =>
      have missing : c.Apart held (some (dev, rablkno)) := by
        rintro i mem d n ⟨⟩
        exact incore_eq_none.mp ahead.2 i (apart i mem)
      obtain ⟨bp, c₁, taken, handed⟩ := good.take _ few missing
      have read := good.bread dev rablkno few missing
      simp only [Cache.bread, getblk, taken, Option.bind_eq_bind, Option.bind_some] at read ⊢
      have kept : ∀ c₂, Handed held (some (dev, rablkno)) c bp c₂ →
          Agrees c held (c₂.brelse bp) := by
        intro c₂ handed
        obtain ⟨good₂, view⟩ := handed.good.brelse handed.inside handed.fresh
        refine ⟨good₂, view.trans handed.view, fun i mem => ?_⟩
        rw [Cache.brelse, modify_of_ne, handed.kept i mem]
        rintro rfl
        exact handed.fresh mem
      obtain ⟨bp', c₂, found, handed₂, -⟩ := read
      cases done : (c₁.buf bp).b_done with
      | true => exact ⟨_, by simp, kept c₁ handed⟩
      | false =>
          simp only [done, Bool.false_eq_true, if_false, Option.some.injEq,
            Prod.mk.injEq] at found ⊢
          obtain ⟨rfl, rfl⟩ := found
          exact ⟨_, rfl, kept _ handed₂⟩
  · exact ⟨c, rfl, Agrees.refl good⟩

/-- `breada` returns the block's contents. -/
theorem Good.breada (good : c.Good []) (dev : Dev) (blkno rablkno : Daddr) :
    ∃ bp c', c.breada dev blkno rablkno = some (bp, c') ∧
      Handed [] (some (dev, blkno)) c bp c' ∧
      (c'.buf bp).b_done = true ∧ (c'.buf bp).b_addr = c.view dev blkno := by
  rw [Cache.breada]
  split
  · obtain ⟨bp, c₁, read, handed, done, data⟩ :=
      good.bread dev blkno (by decide) (by simp [Apart])
    obtain ⟨c₂, ahead, agrees⟩ := handed.good.readAhead dev rablkno
      (show [bp].length < NBUF by simp [NBUF]) (by simpa using handed.inside)
    have same := agrees.kept bp List.mem_cons_self
    refine ⟨bp, c₂, by simp [read, ahead], ?_, by rw [same, done], by rw [same, data]⟩
    exact
      { good := agrees.good
        view := agrees.view.trans handed.view
        kept := by simp
        inside := handed.inside
        fresh := handed.fresh
        b_dev := by rw [same, handed.b_dev]
        b_blkno := fun b mine => by rw [same, handed.b_blkno b mine] }
  · obtain ⟨c₁, ahead, agrees⟩ := good.readAhead dev rablkno
      (show [].length < NBUF by simp [NBUF]) (by simp)
    obtain ⟨bp, c₂, read, handed, done, data⟩ :=
      agrees.good.bread dev blkno (by decide) (by simp [Apart])
    rw [agrees.view] at data
    refine ⟨bp, c₂, by simp [read, ahead], ?_, done, data⟩
    exact
      { good := handed.good
        view := handed.view.trans agrees.view
        kept := by simp
        inside := handed.inside
        fresh := handed.fresh
        b_dev := handed.b_dev
        b_blkno := handed.b_blkno }

end Cache

end UnixV7
