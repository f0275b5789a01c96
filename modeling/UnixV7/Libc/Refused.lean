import UnixV7.Libc.Contents

/-!
# What a refused search loses

A search joins the idle blocks it passes, `allocp` is set only when room is found. When `sbrk` fails
in a search that has joined the block at `allocp` to the one before it, `allocp` is left inside a
block, and the next searches begin there. This is the only way in which a program that frees what it
has been given can spoil the arena.
-/

namespace UnixV7.Libc

open Function Cell

variable {h h' : Heap} {cells cells' : List Cell} {w w' w₁ : World} {e : Event} {es : List Event}
  {b : Block} {nbytes : ℕ} {brk : ℕ → Break}

/-- The calls are those of a program that keeps to the documentation. -/
def World.Legal (w : World) : Event → Prop
  | .malloc _ brk => w.heap.init.Above brk
  | .free b => b ∈ w.live
  | .realloc b _ brk => (b ∈ w.live ∨ b ∈ w.spared) ∧ (w.heap.released b.start).Above brk
  | .write x _ => ∃ b ∈ w.live, b.Holds x

/-- A run of such a program, whenever `sbrk` fails. -/
inductive Trace : World → List Event → World → Prop
  | nil (w : World) : Trace w [] w
  | cons {w w' w'' : World} {e : Event} {es : List Event} (legal : w.Legal e)
      (step : w.step e = some w') (rest : Trace w' es w'') : Trace w (e :: es) w''

/-- The blocks are the program's own, and once the arena is set up its headers form a chain that
`allocp` points into, none of them inside a block. -/
structure InOrder (w : World) : Prop extends Owns w where
  chain : (w.heap.mem w.heap.allocs).ptr = 0 ∨
    ∃ cells, Heap.Chain w.heap cells ∧ (∃ c ∈ cells, c.pos = w.heap.allocp) ∧
      ∀ b ∈ w.live, ⟨b.start - 1, true⟩ ∈ cells ∧ ∀ c ∈ cells, ¬b.Holds c.pos

theorem Sound.inOrder (sound : Sound w) : InOrder w where
  toOwns := sound.owns
  chain := by
    obtain fresh | ⟨cells, kept⟩ := sound
    · exact .inl fresh.empty
    · exact .inr ⟨cells, kept.chain, kept.allocp, fun b mem => ⟨(kept.live b mem).cell,
        fun c inside holds => (kept.live b mem).ne_pos holds inside rfl⟩⟩

/-- An arena is not in order without `allocp`. -/
theorem not_inOrder (chain : Heap.Chain w.heap cells)
    (lost : ¬∃ c ∈ cells, c.pos = w.heap.allocp) : ¬InOrder w := by
  intro order
  obtain empty | ⟨cells', chain', pointer, -⟩ := order.chain
  · obtain ⟨front, back, parts⟩ := List.append_of_mem chain.allocs_mem
    have busy := (parts ▸ chain).next.2
    rw [empty] at busy
    cases busy
  · exact lost (chain.unique chain' ▸ pointer)

/-- A search that `sbrk` refuses room when it has lost `allocp`. -/
theorem malloc_lost (arena : Arena h cells) (above : h.Above brk) (refused : ¬h.Spares nbytes brk) :
    ∃ h' cells', h.malloc nbytes brk = some (none, h') ∧ Heap.Chain h' cells' ∧
      ¬∃ c ∈ cells', c.pos = h'.allocp := by
  simp only [Heap.Spares, Classical.not_imp, not_not] at refused
  obtain ⟨small, fails, full, stale⟩ := refused
  obtain ⟨result, h', called, answer, what⟩ := malloc_spec arena above
  obtain rfl := answer.mpr (.inr ⟨full, fails⟩)
  obtain ⟨cells', prepared, pointer⟩ := what
  exact ⟨h', cells', called, prepared.chain, fun kept => pointer.mp kept small stale⟩

/-- The condition on a step, which is not met when `sbrk` refuses such a search, is needed. -/
theorem not_inOrder_step (sound : Sound w) (legal : w.Legal e) (refused : ¬w.Allowed e)
    (step : w.step e = some w') : ¬InOrder w' := by
  cases e with
  | free b => exact absurd legal refused
  | write x v => exact absurd legal refused
  | malloc nbytes brk =>
      obtain ⟨cells, kept⟩ := sound.init
      obtain ⟨h', cells', called, chain, lost⟩ :=
        malloc_lost kept.toArena legal fun spares => refused ⟨legal, spares⟩
      rw [World.step, malloc_init w.heap nbytes brk kept.toArena, called] at step
      obtain rfl := Option.some.inj step
      exact not_inOrder chain lost
  | realloc b nbytes brk =>
      obtain ⟨mem, above⟩ := legal
      obtain fresh | ⟨cells, kept⟩ := sound
      · rw [fresh.live, fresh.spared] at mem
        exact absurd mem (by simp)
      obtain ⟨cells₀, kept₀⟩ := kept_released kept mem
      obtain ⟨h', cells', called, chain, lost⟩ :=
        malloc_lost kept₀.toArena above fun spares => refused ⟨mem, above, spares⟩
      dsimp only at called
      rw [World.step, realloc_eq, called] at step
      obtain rfl := Option.some.inj step
      exact not_inOrder chain lost

theorem World.Allowed.legal (allowed : w.Allowed e) : w.Legal e := by
  cases e with
  | malloc nbytes brk => exact Grows.above allowed
  | realloc b nbytes brk => exact ⟨allowed.1, allowed.2.above⟩
  | free b => exact allowed
  | write x v => exact allowed

theorem Runs.trace (runs : Runs w es w') : Trace w es w' := by
  induction runs with
  | nil w => exact .nil w
  | cons allowed step rest ih => exact .cons allowed.legal step ih

/-- The part of a run in which the condition is met up to there. -/
theorem Runs.of_prefix {fs : List Event} (runs : Runs w es w') (early : fs <+: es)
    (trace : Trace w fs w₁) : Runs w fs w₁ := by
  induction trace generalizing es with
  | nil w => exact .nil w
  | cons legal step rest ih =>
      obtain ⟨more, rfl⟩ := early
      cases runs with
      | cons allowed step' runs =>
          obtain rfl := Option.some.inj (step.symm.trans step')
          exact .cons allowed step (ih runs (List.prefix_append _ _))

theorem runs_of_inOrder (sound : Sound w) (trace : Trace w es w')
    (order : ∀ fs w₁, fs <+: es → Trace w fs w₁ → InOrder w₁) : Runs w es w' := by
  induction trace with
  | nil w => exact .nil w
  | @cons w w' w'' e es legal step rest ih =>
      have allowed : w.Allowed e := by
        by_contra refused
        refine not_inOrder_step sound legal refused step (order [e] w' ?_ ?_)
        · exact ⟨es, rfl⟩
        · exact .cons legal step (.nil w')
      obtain ⟨w₂, stepped, kept⟩ := sound_step sound allowed
      obtain rfl := Option.some.inj (step.symm.trans stepped)
      refine .cons allowed step (ih (.inr kept) fun fs w₁ early trace => ?_)
      exact order (e :: fs) w₁ (List.cons_prefix_cons.mpr ⟨rfl, early⟩) (.cons legal step trace)

/-- Whatever the calls of a program and whenever `sbrk` fails, the blocks and the arena are in order
in every state that is reached if and only if `sbrk` never refuses a search that has lost
`allocp`. -/
theorem heap_in_order_iff (fresh : Fresh w) (trace : Trace w es w') :
    (∀ fs w₁, fs <+: es → Trace w fs w₁ → InOrder w₁) ↔ Runs w es w' :=
  ⟨runs_of_inOrder (.inl fresh) trace, fun runs _ _ early trace =>
    (sound_runs (runs.of_prefix early trace) (.inl fresh)).inOrder⟩

/-- A program for which `sbrk` has memory in three calls. -/
theorem heap_in_order_iff_begun : ∃ w', Trace begun [.malloc 20 (givenAt 100),
    .malloc 8 (givenAt 300), .realloc ⟨101, 20⟩ 1100 (givenAt 400)] w' ∧
      ∀ fs w₁, fs <+: [.malloc 20 (givenAt 100), .malloc 8 (givenAt 300),
        .realloc ⟨101, 20⟩ 1100 (givenAt 400)] → Trace begun fs w₁ → InOrder w₁ := by
  have runs : Runs begun [.malloc 20 (givenAt 100), .malloc 8 (givenAt 300),
      .realloc ⟨101, 20⟩ 1100 (givenAt 400)] _ :=
    .cons (grows_givenAt (by decide) (by decide)) rfl <|
    .cons (grows_givenAt (by decide) (by decide)) rfl <|
    .cons ⟨.inl (by decide), grows_givenAt (by decide) (by decide)⟩ rfl (.nil _)
  have fresh : Fresh begun := ⟨rfl, rfl, rfl⟩
  exact ⟨_, runs.trace, (heap_in_order_iff fresh runs.trace).mpr runs⟩

/-- The calls one after the other. -/
def World.exec (w : World) (es : List Event) : Option World := es.foldlM World.step w

/-- A run with one more call. -/
theorem Trace.snoc (trace : Trace w es w') (legal : w'.Legal e) (step : w'.step e = some w₁) :
    Trace w (es ++ [e]) w₁ := by
  induction trace with
  | nil w => exact .cons legal step (.nil w₁)
  | cons legal' step' rest ih => exact .cons legal' step' (ih legal step)

theorem exec_snoc (runs : ∃ w', w.exec es = some w' ∧ Trace w es w')
    (legal : ∀ w', w.exec es = some w' → w'.Legal e) (returns : (w.exec (es ++ [e])).isSome) :
    ∃ w₁, w.exec (es ++ [e]) = some w₁ ∧ Trace w (es ++ [e]) w₁ := by
  obtain ⟨w', run, trace⟩ := runs
  obtain ⟨w₁, run'⟩ := Option.isSome_iff_exists.mp returns
  refine ⟨w₁, run', trace.snoc (legal w' run) ?_⟩
  rw [World.exec, List.foldlM_append] at run'
  rw [World.exec] at run
  simpa [run] using run'

/-- What the program has after the calls. -/
theorem live_of_exec {live : List Block} (run : w.exec es = some w')
    (known : (w.exec es).map World.live = some live) : w'.live = live := by
  rw [run] at known
  exact Option.some.inj known

/-- An `sbrk` that has no more memory to give. -/
def exhausted (_ : ℕ) : Break := ⟨some 228, none⟩

theorem above_exhausted : h.Above exhausted := fun _ _ grown => by cases grown

/-- Two blocks are freed, and `allocp` stands at the second one. The search for room that there is
not joins it to the first. Two requests after that get the same word. -/
theorem refused_overlaps : ∃ w', Fresh begun ∧
    Trace begun [.malloc 8 (givenAt 100), .malloc 8 exhausted, .free ⟨101, 8⟩, .free ⟨103, 8⟩,
      .malloc 2000 exhausted, .malloc 8 exhausted, .malloc 1000 exhausted] w' ∧
    w'.live = [⟨101, 1000⟩, ⟨103, 8⟩] ∧ ¬InOrder w' := by
  have first : ∀ w', begun.exec [] = some w' → w'.Legal (.malloc 8 (givenAt 100)) := by
    intro w' run
    obtain rfl := Option.some.inj run
    have grows : Grows begun.heap.init 8 (givenAt 100) := grows_givenAt (by decide) (by decide)
    exact grows.above
  have frees : ∀ live {es b}, (begun.exec es).map World.live = some live → b ∈ live →
      ∀ w', begun.exec es = some w' → w'.Legal (.free b) :=
    fun _ _ _ known mem w' run => (live_of_exec run known).symm.subst mem
  have one := exec_snoc ⟨begun, rfl, .nil begun⟩ first (by decide +kernel)
  have two := exec_snoc one (e := .malloc 8 exhausted) (fun _ _ => above_exhausted)
    (by decide +kernel)
  have three := exec_snoc two (e := .free ⟨101, 8⟩)
    (frees [⟨103, 8⟩, ⟨101, 8⟩] (by decide +kernel) (by decide)) (by decide +kernel)
  have four := exec_snoc three (e := .free ⟨103, 8⟩)
    (frees [⟨103, 8⟩] (by decide +kernel) (by decide)) (by decide +kernel)
  have five := exec_snoc four (e := .malloc 2000 exhausted) (fun _ _ => above_exhausted)
    (by decide +kernel)
  have six := exec_snoc five (e := .malloc 8 exhausted) (fun _ _ => above_exhausted)
    (by decide +kernel)
  obtain ⟨w', run, trace⟩ :=
    exec_snoc six (e := .malloc 1000 exhausted) (fun _ _ => above_exhausted) (by decide +kernel)
  have live : w'.live = [⟨101, 1000⟩, ⟨103, 8⟩] := live_of_exec run (by decide +kernel)
  refine ⟨w', ⟨rfl, rfl, rfl⟩, trace, live, fun order => ?_⟩
  have apart := order.apart
  rw [live] at apart
  have both := (List.pairwise_cons.mp apart).1 ⟨103, 8⟩ List.mem_cons_self
  exact both 103 ⟨by decide, by decide⟩ ⟨by decide, by decide⟩

end UnixV7.Libc
