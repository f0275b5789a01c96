import Mathlib.Data.List.Nodup
import UnixV7.Libc.Blocks

/-!
# The blocks of a program

Every block that a program has been given lies between its header and the next one. The calls keep
that, and what the program has written into its blocks.
-/

namespace UnixV7.Libc

open Function Cell

variable {h h' : Heap} {cells cells' front back rest : List Cell} {c d : Cell} {p q nw x v i n : ℕ}
  {b b' : Block} {busy : Bool}

/-- A block of the arena: its header is a cell, and the next one is behind the block's words. -/
structure Heads (h : Heap) (cells : List Cell) (busy : Bool) (b : Block) : Prop where
  cell : ⟨b.start - 1, busy⟩ ∈ cells
  low : h.allocs + 1 < b.start
  high : b.start ≤ h.alloct
  room : ∀ d ∈ cells, b.start ≤ d.pos → b.stop ≤ d.pos

namespace Heads

/-- No header is inside a block. -/
theorem ne_pos (heads : Heads h cells busy b) (holds : b.Holds x) (mem : d ∈ cells) :
    d.pos ≠ x := by
  rintro rfl
  exact absurd holds.2 (Nat.not_lt.mpr (heads.room d mem holds.1))

theorem stop_le (chain : Heap.Chain h cells) (heads : Heads h cells busy b) : b.stop ≤ h.alloct :=
  heads.room _ chain.alloct_mem heads.high

theorem lt_alloct (chain : Heap.Chain h cells) (heads : Heads h cells busy b) (holds : b.Holds x) :
    x < h.alloct := holds.2.trans_le (heads.stop_le chain)

/-- Blocks with different headers are apart. -/
theorem apart {busy' : Bool} (heads : Heads h cells busy b) (heads' : Heads h cells busy' b')
    (other : b.start ≠ b'.start) (holds : b.Holds x) : ¬b'.Holds x := by
  intro holds'
  have low := heads.low
  have low' := heads'.low
  have start := holds.1
  have start' := holds'.1
  have stop := holds.2
  have stop' := holds'.2
  obtain less | more := Nat.lt_or_gt_of_ne other
  · have room := heads.room _ heads'.cell (by dsimp only; omega)
    dsimp only at room
    omega
  · have room := heads'.room _ heads.cell (by dsimp only; omega)
    dsimp only at room
    omega

/-- The search and the growth of the arena leave the busy blocks. -/
theorem prepared (prepared : Heap.Prepared h cells h' cells') (chain : Heap.Chain h cells)
    (heads : Heads h cells true b) : Heads h' cells' true b where
  cell := by
    have low := heads.low
    have high := heads.high
    exact prepared.kept _ heads.cell rfl (by dsimp only; omega)
  low := by
    rw [prepared.allocs]
    exact heads.low
  high := heads.high.trans prepared.alloct
  room d mem behind := by
    obtain old | new := prepared.old d mem
    · exact heads.room d old behind
    · exact (heads.stop_le chain).trans new

end Heads

/-- What the words of a block hold is not touched. -/
theorem mem_prepared (prepared : Heap.Prepared h cells h' cells') (chain : Heap.Chain h cells)
    (heads : Heads h cells busy b) (holds : b.Holds x) : h'.mem x = h.mem x :=
  prepared.mem x (heads.lt_alloct chain holds) fun _ mem => heads.ne_pos holds mem

theorem mem_cut : d ∈ Heap.cut front p nw q rest ↔
    d ∈ front ∨ d = ⟨p, true⟩ ∨ (p + nw < q ∧ d = ⟨p + nw, false⟩) ∨ d = ⟨q, true⟩ ∨ d ∈ rest := by
  rw [Heap.cut]
  split
  next room => simp [room]
  next room => simp [room]

/-- The other blocks when one is cut off. -/
theorem Heads.take (chain : Heap.Chain h (front ++ ⟨p, false⟩ :: ⟨q, true⟩ :: rest))
    (heads : Heads h (front ++ ⟨p, false⟩ :: ⟨q, true⟩ :: rest) true b) :
    Heads (h.take nw p q) (Heap.cut front p nw q rest) true b where
  cell := by
    have cell := heads.cell
    simp only [List.mem_append, List.mem_cons, Cell.mk.injEq, Bool.true_eq_false, and_false,
      and_true, false_or] at cell
    rw [mem_cut, Cell.mk.injEq]
    tauto
  low := by
    rw [Heap.allocs_take]
    exact heads.low
  high := by
    rw [Heap.alloct_take]
    exact heads.high
  room d mem behind := by
    have whole := heads.room
    obtain early | rfl | ⟨room, rfl⟩ | rfl | late := mem_cut.mp mem
    · exact whole d (by simp [early]) behind
    · exact whole ⟨p, false⟩ (by simp) behind
    · -- the header of the block is not behind the idle one
      have low := heads.low
      have first := whole ⟨p, false⟩ (by simp)
      dsimp only at first behind ⊢
      obtain before | same | after := chain.rising.between heads.cell
      · dsimp only at before
        omega
      · cases same
      · dsimp only at after
        omega
    · exact whole ⟨q, true⟩ (by simp) behind
    · exact whole d (by simp [late]) behind

/-- The block that is handed out. -/
theorem Heads.given (chain : Heap.Chain h (front ++ ⟨p, false⟩ :: ⟨q, true⟩ :: rest)) (nbytes : ℕ)
    (wide : Heap.needed nbytes ≤ q - p) :
    Heads (h.take (Heap.needed nbytes) p q) (Heap.cut front p (Heap.needed nbytes) q rest) true
      ⟨p + 1, nbytes⟩ := by
  have stop : (⟨p + 1, nbytes⟩ : Block).stop = p + Heap.needed nbytes := by
    rw [Block.stop, Heap.needed, WORD]
    dsimp only
    omega
  have order := chain.rising.split
  have next : p < q := order.2.1 ⟨q, true⟩ List.mem_cons_self
  have mem : (⟨p, false⟩ : Cell) ∈ front ++ ⟨p, false⟩ :: ⟨q, true⟩ :: rest := by simp
  have mem' : (⟨q, true⟩ : Cell) ∈ front ++ ⟨p, false⟩ :: ⟨q, true⟩ :: rest := by simp
  refine ⟨mem_cut.mpr (.inr (.inl rfl)), ?_, ?_, fun d inside behind => ?_⟩
  · have low : h.allocs ≤ p := (chain.bounds mem).1
    have other : h.allocs ≠ p := fun same => by
      cases chain.rising.unique chain.allocs_mem mem same
    rw [Heap.allocs_take]
    dsimp only
    omega
  · have high : q ≤ h.alloct := (chain.bounds mem').2
    rw [Heap.alloct_take]
    exact Nat.le_trans next high
  · rw [stop]
    dsimp only at behind
    obtain early | rfl | ⟨-, rfl⟩ | rfl | late := mem_cut.mp inside
    · have before : d.pos < p := order.1 d early
      omega
    · dsimp only at behind
      omega
    · exact Nat.le_refl _
    · dsimp only
      omega
    · have later : q < d.pos := (List.pairwise_cons.mp order.2.2.2).1 d late
      omega

/-- Where the search goes on is a header. -/
theorem cut_mem (nw : ℕ) (wide : nw ≤ q - p) (less : p < q) :
    ∃ c ∈ Heap.cut front p nw q rest, c.pos = p + nw := by
  obtain room | full := Nat.lt_or_ge (p + nw) q
  · exact ⟨⟨p + nw, false⟩, mem_cut.mpr (.inr (.inr (.inl ⟨room, rfl⟩))), rfl⟩
  · refine ⟨⟨q, true⟩, mem_cut.mpr (.inr (.inr (.inr (.inl rfl)))), ?_⟩
    dsimp only
    omega

/-! ## Freeing -/

/-- The header is marked as idle. -/
theorem free_chain (chain : Heap.Chain h (front ++ ⟨p, true⟩ :: back)) (low : h.allocs < p)
    (high : p < h.alloct) : Heap.Chain (h.free (p + 1)) (front ++ ⟨p, false⟩ :: back) where
  first := by
    obtain ⟨others, first⟩ := chain.first
    cases front with
    | nil =>
        have same : p = h.allocs := congrArg Cell.pos (List.cons.inj first).1
        omega
    | cons e front =>
        obtain ⟨rfl, -⟩ := List.cons.inj first
        exact ⟨front ++ ⟨p, false⟩ :: back, rfl⟩
  last := by
    obtain ⟨whole, last⟩ := chain.last
    cases List.eq_nil_or_concat back with
    | inl nil =>
        subst nil
        have same : p = h.alloct :=
          congrArg Cell.pos (List.cons.inj (List.append_inj' last rfl).2).1
        omega
    | inr some =>
        obtain ⟨middle, e, rfl⟩ := some
        rw [List.concat_eq_append, ← List.cons_append, ← List.append_assoc] at last
        have same : e = ⟨h.alloct, true⟩ := (List.cons.inj (List.append_inj' last rfl).2).1
        refine ⟨front ++ ⟨p, false⟩ :: middle, ?_⟩
        rw [List.concat_eq_append, same, ← List.cons_append, ← List.append_assoc]
        rfl
  linked := by
    obtain ⟨before, after, -, -⟩ := chain.rising.split
    obtain ⟨early, here, late⟩ := linked_append.mp chain.linked
    refine Linked.replace (c := ⟨p, false⟩) early (fun d mem => ?_) ?_ (late.congr fun d mem => ?_)
    · have less : d.pos < p := before d mem
      exact Heap.link_setPtr_of_ne (Nat.ne_of_lt less)
    · have next : loc (h.mem p).ptr = start back h.allocs := congrArg Prod.fst here
      show (Heap.setPtr _ p _).link p = _
      rw [Heap.link_setPtr_self, loc_clearbusy, testbusy_clearbusy]
      exact congrArg (·, false) next
    · have more : p < d.pos := after d mem
      exact Heap.link_setPtr_of_ne (Nat.ne_of_gt more)
  rising := chain.rising.mark rfl
  proper := chain.proper

/-! ## A call of `malloc` -/

/-- `allocp` points to an idle block behind another, with which a search may join it. -/
def Heap.Stale (h : Heap) : Prop :=
  ∃ cells, Heap.Chain h cells ∧ ∃ c ∈ cells, c.pos = h.allocp ∧ Follows cells c

/-- There is an idle block of so many words, when the idle ones are joined. -/
def Heap.Roomy (h : Heap) (nw : ℕ) : Prop := ∃ cells, Heap.Chain h cells ∧ Room nw cells

/-- What `sbrk` gives is behind the arena. -/
def Heap.Above (h : Heap) (brk : ℕ → Break) : Prop := ∀ i q, (brk i).grow = some q → h.alloct < q

/-- `sbrk` does not fail when a search that has found no room has lost `allocp`. -/
def Heap.Spares (h : Heap) (nbytes : ℕ) (brk : ℕ → Break) : Prop :=
  nbytes ≤ Heap.limit → (brk 1).Fails (Heap.needed nbytes) → ¬h.Roomy (Heap.needed nbytes) →
    ¬h.Stale

/-- What `sbrk` gives is behind the arena, and it does not fail when a search has lost `allocp`. -/
structure Grows (h : Heap) (nbytes : ℕ) (brk : ℕ → Break) : Prop where
  above : h.Above brk
  refused : h.Spares nbytes brk

/-- The arena is a chain, and `allocp` points into it. -/
structure Arena (h : Heap) (cells : List Cell) : Prop where
  chain : Heap.Chain h cells
  allocp : ∃ c ∈ cells, c.pos = h.allocp

/-- A block has been handed out at `a`. -/
structure Placed (h : Heap) (cells : List Cell) (h' : Heap) (cells' : List Cell) (a nbytes : ℕ) :
    Prop extends Arena h' cells' where
  given : Heads h' cells' true ⟨a, nbytes⟩
  stop : h'.allocp = (⟨a, nbytes⟩ : Block).stop
  place : (∃ c ∈ cells, c.pos = a - 1) ∨ h.alloct ≤ a - 1
  other : ∀ b, Heads h cells true b → b.start ≠ a
  kept : ∀ b, Heads h cells true b → Heads h' cells' true b
  mem : ∀ b busy, Heads h cells busy b → ∀ x, b.Holds x →
    (x ≠ (⟨a, nbytes⟩ : Block).stop → h'.mem x = h.mem x) ∧
      (x = (⟨a, nbytes⟩ : Block).stop →
        (h'.mem x).rest = (h.mem x).rest ∧ h'.allocx = (h.mem x).ptr)

variable {nbytes a : ℕ} {brk : ℕ → Break}

theorem stop_given (p nbytes : ℕ) :
    (⟨p + 1, nbytes⟩ : Block).stop = p + Heap.needed nbytes := by
  rw [Block.stop, Heap.needed, WORD]
  dsimp only
  omega

theorem needed_pos (nbytes : ℕ) : 0 < Heap.needed nbytes := by
  rw [Heap.needed, WORD]
  omega

/-- A block is cut off the idle one at `p`. -/
theorem placed_take (chain : Heap.Chain h cells)
    (prepared : Heap.Prepared h cells h' (front ++ ⟨p, false⟩ :: ⟨q, true⟩ :: rest))
    (wide : Heap.needed nbytes ≤ q - p) :
    Placed h cells (h'.take (Heap.needed nbytes) p q) (Heap.cut front p (Heap.needed nbytes) q rest)
      (p + 1) nbytes := by
  have some := needed_pos nbytes
  have mem : (⟨p, false⟩ : Cell) ∈ front ++ ⟨p, false⟩ :: ⟨q, true⟩ :: rest := by simp
  have place : (∃ c ∈ cells, c.pos = p) ∨ h.alloct ≤ p := by
    obtain old | new := prepared.old _ mem
    · exact .inl ⟨_, old, rfl⟩
    · exact .inr new
  refine ⟨⟨Heap.take_chain some wide prepared.chain, ?_⟩, .given prepared.chain nbytes wide,
    by rw [Heap.allocp_take, stop_given], place, fun b heads same => ?_,
      fun b heads => (heads.prepared prepared chain).take prepared.chain,
    fun b busy heads x holds => ?_⟩
  · rw [Heap.allocp_take]
    exact cut_mem _ wide (prepared.chain.rising.split.2.1 ⟨q, true⟩ List.mem_cons_self)
  · have cell := (heads.prepared prepared chain).cell
    rw [same, Nat.add_sub_cancel] at cell
    cases prepared.chain.rising.unique cell mem rfl
  · have old := mem_prepared prepared chain heads holds
    have other : x ≠ p := by
      rintro rfl
      obtain ⟨c, inside, here⟩ | new := place
      · exact heads.ne_pos holds inside here
      · exact absurd (heads.lt_alloct chain holds) (Nat.not_lt.mpr new)
    rw [← old, stop_given]
    refine ⟨fun away => Heap.take_mem other fun _ => away, ?_⟩
    rintro rfl
    have room : p + Heap.needed nbytes < q := by
      refine Nat.lt_of_le_of_ne (by omega) fun full => ?_
      obtain inside | new := prepared.old ⟨q, true⟩ (by simp)
      · exact heads.ne_pos holds inside full.symm
      · have low := heads.lt_alloct chain holds
        dsimp only at new
        omega
    exact ⟨Heap.take_mem_cut some, Heap.allocx_take room⟩

/-- The arena is set up only once. -/
theorem Arena.init_eq (arena : Arena h cells) : h.init = h := by
  have odd : testbusy (h.mem h.allocs).ptr = true := by
    obtain ⟨front, back, parts⟩ := List.append_of_mem arena.chain.allocs_mem
    exact (parts ▸ arena.chain).next.2
  rw [Heap.init, if_neg]
  intro zero
  rw [zero] at odd
  cases odd

theorem roomy_iff {nw : ℕ} (chain : Heap.Chain h cells) : h.Roomy nw ↔ Room nw cells :=
  ⟨fun ⟨_, chain', room⟩ => chain.unique chain' ▸ room, fun room => ⟨cells, chain, room⟩⟩

/-- `malloc` gives a block, or leaves the blocks as they are. It gives none when there is no room
and `sbrk` fails, and then `allocp` may be lost. -/
theorem malloc_spec (arena : Arena h cells) (above : h.Above brk) :
    ∃ result h', h.malloc nbytes brk = some (result, h') ∧
      (result = none ↔ Heap.limit < nbytes ∨
        ¬h.Roomy (Heap.needed nbytes) ∧ (brk 1).Fails (Heap.needed nbytes)) ∧
      match result with
      | some a => ∃ cells', Placed h cells h' cells' a nbytes
      | none => ∃ cells', Heap.Prepared h cells h' cells' ∧
          ((∃ c ∈ cells', c.pos = h'.allocp) ↔ (nbytes ≤ Heap.limit → ¬h.Stale)) := by
  obtain ⟨c, mem, here⟩ := arena.allocp
  have chain := arena.chain
  have stale : h.Stale ↔ Follows cells c := by
    refine ⟨fun ⟨more, chain', d, mem', here', follows⟩ => ?_,
      fun follows => ⟨cells, chain, c, mem, here, follows⟩⟩
    obtain rfl := chain.unique chain'
    exact chain.rising.unique mem' mem (here'.trans here.symm) ▸ follows
  rw [Heap.malloc, arena.init_eq]
  by_cases large : Heap.limit < nbytes
  · rw [if_pos large]
    exact ⟨none, h, rfl, iff_of_true rfl (.inl large), cells,
      .of_joined chain chain (Cell.Joined.refl _) (.refl _ _),
      iff_of_true arena.allocp fun small => absurd large (Nat.not_lt.mpr small)⟩
  rw [if_neg large]
  obtain ⟨result, h', called, what⟩ := Heap.mallocFrom_spec (needed_pos nbytes) chain mem above
  rw [here] at called
  refine ⟨result, h', called, ?_⟩
  rw [roomy_iff chain]
  cases result with
  | some a =>
      obtain ⟨reason, h₁, p, q, ⟨front, rest, prepared, wide⟩, rfl, rfl⟩ := what
      refine ⟨iff_of_false (Option.some_ne_none _) ?_, _, placed_take chain prepared wide⟩
      rintro (more | ⟨full, fails⟩)
      · exact large more
      · exact reason.elim full fun given => given fails
  | none =>
      obtain ⟨full, fails, cells', chain', joined, tight, agree⟩ := what
      refine ⟨iff_of_true rfl (.inr ⟨full, fails⟩), cells',
        .of_joined chain chain' joined agree, ?_⟩
      rw [stale, imp_iff_right (Nat.not_lt.mp large), ← joined.mem_iff chain.rising tight mem,
        agree.allocp]
      refine ⟨fun ⟨d, inside, here'⟩ => ?_, fun kept => ⟨c, kept, here⟩⟩
      exact chain.rising.unique (joined.sublist.subset inside) mem (here'.trans here.symm) ▸ inside

/-- A call that gives no block keeps `allocp` if `sbrk` spares it. -/
theorem Grows.kept (grows : Grows h nbytes brk)
    (answer : Heap.limit < nbytes ∨
      ¬h.Roomy (Heap.needed nbytes) ∧ (brk 1).Fails (Heap.needed nbytes))
    (small : nbytes ≤ Heap.limit) : ¬h.Stale := by
  obtain large | ⟨full, fails⟩ := answer
  · exact absurd large (Nat.not_lt.mpr small)
  · exact grows.refused small fails full

/-! ## The program -/

/-- The arena is in order, and the blocks are in it with their contents. -/
structure Kept (w : World) (cells : List Cell) : Prop extends Arena w.heap cells where
  live : ∀ b ∈ w.live, Heads w.heap cells true b
  spared : ∀ b ∈ w.spared, Heads w.heap cells false b
  starts : (w.live.map Block.start).Nodup
  known : ∀ b, b ∈ w.live ∨ b ∈ w.spared → ∀ x, b.Holds x → w.heap.mem x = w.expect x

/-- Before the first call. -/
structure Fresh (w : World) : Prop where
  empty : (w.heap.mem w.heap.allocs).ptr = 0
  live : w.live = []
  spared : w.spared = []

/-- What holds between the calls. -/
def Sound (w : World) : Prop := Fresh w ∨ ∃ cells, Kept w cells

variable {w : World}

theorem arena_init (fresh : (h.mem h.allocs).ptr = 0) :
    Arena h.init [⟨h.allocs, true⟩, ⟨h.allocs + 1, true⟩] := by
  have first : h.init.link h.allocs = (h.allocs + 1, true) := by
    rw [Heap.init, if_pos fresh]
    show (Heap.setPtr (h.setPtr h.allocs _) (h.allocs + 1) _).link h.allocs = _
    rw [Heap.link_setPtr_of_ne (Nat.ne_of_lt (Nat.lt_succ_self h.allocs)), Heap.link_setPtr_self,
      loc_setbusy, loc_ptrTo, testbusy_setbusy]
  have second : h.init.link (h.allocs + 1) = (h.allocs, true) := by
    rw [Heap.init, if_pos fresh]
    show (Heap.setPtr (h.setPtr h.allocs _) (h.allocs + 1) _).link (h.allocs + 1) = _
    rw [Heap.link_setPtr_self, loc_setbusy, loc_ptrTo, testbusy_setbusy]
    rfl
  have begun : h.init.allocs = h.allocs ∧ h.init.allocp = h.allocs ∧
      h.init.alloct = h.allocs + 1 := by
    rw [Heap.init, if_pos fresh]
    exact ⟨rfl, rfl, rfl⟩
  obtain ⟨allocs, allocp, alloct⟩ := begun
  refine ⟨⟨⟨_, by rw [allocs]⟩, ⟨[⟨h.allocs, true⟩], by rw [alloct]; rfl⟩, ?_, ?_, ?_⟩, _,
    List.mem_cons_self, allocp.symm⟩
  · rw [allocs]
    exact ⟨first, second, trivial⟩
  · simp [Rising]
  · rw [allocs, alloct]
    exact Nat.lt_succ_self _

/-- Before a call of `malloc` the arena is in order, once it is set up. -/
theorem Sound.init (sound : Sound w) : ∃ cells, Kept { w with heap := w.heap.init } cells := by
  obtain fresh | ⟨cells, kept⟩ := sound
  · refine ⟨_, arena_init fresh.empty, ?_, ?_, ?_, ?_⟩
    · rw [fresh.live]
      exact List.forall_mem_nil _
    · rw [fresh.spared]
      exact List.forall_mem_nil _
    · rw [fresh.live]
      exact List.nodup_nil
    · rw [fresh.live, fresh.spared]
      exact fun b mem => absurd mem (by simp)
  · have same := kept.toArena.init_eq
    refine ⟨cells, ?_⟩
    rw [same]
    exact kept

theorem malloc_init (h : Heap) (nbytes : ℕ) (brk : ℕ → Break) (arena : Arena h.init cells) :
    h.malloc nbytes brk = h.init.malloc nbytes brk := by
  rw [Heap.malloc, Heap.malloc, arena.init_eq]

/-! ## The steps -/

/-- A chain depends on its headers only. -/
theorem Arena.congr (arena : Arena h cells) (mem : ∀ c ∈ cells, h'.mem c.pos = h.mem c.pos)
    (allocs : h'.allocs = h.allocs) (allocp : h'.allocp = h.allocp)
    (alloct : h'.alloct = h.alloct) :
    Arena h' cells := by
  obtain ⟨⟨first, last, linked, rising, proper⟩, pointer⟩ := arena
  refine ⟨⟨by rwa [allocs], by rwa [alloct], ?_, rising, by rwa [allocs, alloct]⟩, by rwa [allocp]⟩
  rw [allocs]
  refine linked.congr fun c inside => ?_
  rw [Heap.link, Heap.link, mem c inside]

theorem Heads.congr (heads : Heads h cells busy b) (allocs : h'.allocs = h.allocs)
    (alloct : h'.alloct = h.alloct) : Heads h' cells busy b :=
  ⟨heads.cell, by rw [allocs]; exact heads.low, by rw [alloct]; exact heads.high, heads.room⟩

/-- The other blocks keep their words. -/
theorem Placed.mem_kept (placed : Placed h cells h' cells' a nbytes) (heads : Heads h cells true b)
    (holds : b.Holds x) : h'.mem x = h.mem x := by
  obtain ⟨c, mem, pointer⟩ := placed.allocp
  refine (placed.mem b true heads x holds).1 fun here => ?_
  exact (placed.kept b heads).ne_pos holds mem (pointer.trans (placed.stop.trans here.symm))

/-- A word of a block is written. -/
theorem kept_write (kept : Kept w cells) (mem : b ∈ w.live) (holds : b.Holds x) (v : Store) :
    Kept { w with heap := { w.heap with mem := update w.heap.mem x v }
                  expect := update w.expect x v } cells where
  toArena := kept.toArena.congr (fun c inside =>
    update_of_ne ((kept.live b mem).ne_pos holds inside) v w.heap.mem) rfl rfl rfl
  live b mem := (kept.live b mem).congr rfl rfl
  spared b mem := (kept.spared b mem).congr rfl rfl
  starts := kept.starts
  known b mem y inside := by
    by_cases same : y = x
    · rw [same]
      exact (update_self x v w.heap.mem).trans (update_self x v w.expect).symm
    · have before := kept.known b mem y inside
      exact (update_of_ne same v w.heap.mem).trans
        (before.trans (update_of_ne same v w.expect).symm)

/-- Blocks of the program are told apart by where they start. -/
theorem Kept.start_ne (kept : Kept w cells) (mem : b ∈ w.live) (mem' : b' ∈ w.live.erase b) :
    b' ∈ w.live ∧ b'.start ≠ b.start := by
  have nodup : w.live.Nodup := List.Nodup.of_map Block.start kept.starts
  obtain ⟨other, inside⟩ := (nodup.mem_erase_iff).mp mem'
  exact ⟨inside, fun same => other (List.inj_on_of_nodup_map kept.starts inside mem same)⟩

/-- The marks of the other headers are as they were. -/
theorem Heads.mark (heads : Heads h (front ++ ⟨p, true⟩ :: back) busy b) (other : b.start - 1 ≠ p)
    (allocs : h'.allocs = h.allocs) (alloct : h'.alloct = h.alloct) :
    Heads h' (front ++ ⟨p, false⟩ :: back) busy b where
  cell := by
    have cell := heads.cell
    simp only [List.mem_append, List.mem_cons, Cell.mk.injEq, other, false_and, false_or] at cell ⊢
    exact cell
  low := by
    rw [allocs]
    exact heads.low
  high := by
    rw [alloct]
    exact heads.high
  room d mem behind := by
    have whole := heads.room
    simp only [List.mem_append, List.mem_cons] at mem
    obtain early | rfl | late := mem
    · exact whole d (by simp [early]) behind
    · exact whole ⟨p, true⟩ (by simp) behind
    · exact whole d (by simp [late]) behind

/-- A block is given back. -/
theorem kept_free (kept : Kept w cells) (mem : b ∈ w.live) :
    ∃ cells', Kept { w with heap := w.heap.free b.start
                            live := w.live.erase b
                            spared := b :: w.spared } cells' := by
  have heads := kept.live b mem
  have low := heads.low
  have high := heads.high
  obtain ⟨front, back, rfl⟩ := List.append_of_mem heads.cell
  have start : b.start = b.start - 1 + 1 := by omega
  have words : ∀ x, x ≠ b.start - 1 → (w.heap.free b.start).mem x = w.heap.mem x :=
    fun x other => Heap.mem_setPtr_of_ne other
  have chain : Heap.Chain (w.heap.free b.start) (front ++ ⟨b.start - 1, false⟩ :: back) := by
    have freed := free_chain kept.chain (show w.heap.allocs < b.start - 1 by omega)
      (show b.start - 1 < w.heap.alloct by omega)
    rwa [← start] at freed
  have inner : ∀ b', Heads w.heap (front ++ ⟨b.start - 1, true⟩ :: back) true b' ∨
      Heads w.heap (front ++ ⟨b.start - 1, true⟩ :: back) false b' → ∀ x, b'.Holds x →
      (w.heap.free b.start).mem x = w.heap.mem x := by
    rintro b' (heads' | heads') x holds
    · exact words x fun same => heads'.ne_pos holds heads.cell same.symm
    · exact words x fun same => heads'.ne_pos holds heads.cell same.symm
  refine ⟨_, ⟨chain, ⟨b.start - 1, false⟩, by simp, rfl⟩, fun b' mem' => ?_,
    List.forall_mem_cons.mpr ⟨?_, fun b' mem' => ?_⟩, ?_, ?_⟩
  · obtain ⟨inside, other⟩ := kept.start_ne mem mem'
    have low' := (kept.live b' inside).low
    exact (kept.live b' inside).mark (by omega) rfl rfl
  · refine ⟨by simp, low, high, fun d mem behind => ?_⟩
    have whole := heads.room
    simp only [List.mem_append, List.mem_cons] at mem
    obtain early | rfl | late := mem
    · exact whole d (by simp [early]) behind
    · dsimp only at behind
      omega
    · exact whole d (by simp [late]) behind
  · refine (kept.spared b' mem').mark (fun same => ?_) rfl rfl
    have cell := (kept.spared b' mem').cell
    rw [same] at cell
    cases kept.chain.rising.unique cell heads.cell rfl
  · exact kept.starts.sublist (List.erase_sublist.map Block.start)
  · rintro b' mem' x holds
    have before : b' ∈ w.live ∨ b' ∈ w.spared := by
      obtain mem' | mem' := mem'
      · exact .inl (List.mem_of_mem_erase mem')
      · obtain rfl | mem' := List.mem_cons.mp mem'
        · exact .inl mem
        · exact .inr mem'
    have same := inner b' (before.imp (kept.live b') (kept.spared b')) x holds
    exact same.trans (kept.known b' before x holds)

/-- The block that a call has placed is the program's, with what is known of its words. -/
theorem kept_give {h₂ : Heap} {known : ℕ → Store} (placed : Placed h cells h' cells' a nbytes)
    (live : ∀ b ∈ w.live, Heads h cells true b) (starts : (w.live.map Block.start).Nodup)
    (before : ∀ b ∈ w.live, ∀ x, b.Holds x → h.mem x = w.expect x)
    (outside : ∀ x, ¬(⟨a, nbytes⟩ : Block).Holds x → h₂.mem x = h'.mem x)
    (allocs : h₂.allocs = h'.allocs) (allocp : h₂.allocp = h'.allocp)
    (alloct : h₂.alloct = h'.alloct)
    (inside : ∀ i < n, a + i < (⟨a, nbytes⟩ : Block).stop → h₂.mem (a + i) = known i) :
    Kept (w.give ⟨a, nbytes⟩ known n h₂) cells' where
  toArena := placed.toArena.congr (fun c mem => outside c.pos fun holds =>
    placed.given.ne_pos holds mem rfl) allocs allocp alloct
  live := List.forall_mem_cons.mpr ⟨placed.given.congr allocs alloct,
    fun b mem => (placed.kept b (live b mem)).congr allocs alloct⟩
  spared := List.forall_mem_nil _
  starts := by
    refine List.nodup_cons.mpr ⟨fun mem => ?_, starts⟩
    obtain ⟨b, member, same⟩ := List.mem_map.mp mem
    exact placed.other b (live b member) same
  known b mem x holds := by
    have first : ∀ x, (⟨a, nbytes⟩ : Block).Holds x → h₂.mem x =
        (w.give ⟨a, nbytes⟩ known n h₂).expect x := by
      intro x holds
      obtain ⟨i, rfl⟩ := Nat.exists_eq_add_of_le holds.1
      show _ = ite _ _ _
      rw [if_pos ⟨holds.1, holds.2⟩]
      split
      next less =>
        dsimp only at less ⊢
        rw [Nat.add_sub_cancel_left]
        exact inside i (Nat.lt_of_add_lt_add_left less) holds.2
      next => rfl
    obtain mem | none := mem
    · obtain rfl | member := List.mem_cons.mp mem
      · exact first x holds
      · have apart : ¬(⟨a, nbytes⟩ : Block).Holds x :=
          (placed.kept b (live b member)).apart placed.given (placed.other b (live b member)) holds
        have same : (w.give ⟨a, nbytes⟩ known n h₂).expect x = w.expect x := if_neg apart
        rw [same, ← before b member x holds, ← placed.mem_kept (live b member) holds]
        exact outside x apart
    · cases none

/-- A call of `malloc` gives a block or changes nothing that the program sees. -/
theorem kept_malloc (kept : Kept w cells) (grows : Grows w.heap nbytes brk) :
    ∃ w', w.step (.malloc nbytes brk) = some w' ∧ ∃ cells', Kept w' cells' := by
  obtain ⟨result, h', called, answer, what⟩ := malloc_spec kept.toArena grows.above
  rw [World.step, called]
  cases result with
  | some a =>
      obtain ⟨cells', placed⟩ := what
      exact ⟨_, rfl, cells', kept_give placed kept.live kept.starts
        (fun b mem => kept.known b (.inl mem)) (fun _ _ => rfl) rfl rfl rfl
          fun i less => by cases less⟩
  | none =>
      obtain ⟨cells', prepared, pointer⟩ := what
      have arena : Arena h' cells' := ⟨prepared.chain, pointer.mpr (grows.kept (answer.mp rfl))⟩
      refine ⟨_, rfl, cells', arena, fun b mem => (kept.live b mem).prepared prepared kept.chain,
        List.forall_mem_nil _, kept.starts, fun b mem x holds => ?_⟩
      obtain mem | none := mem
      · have same := mem_prepared prepared kept.chain (kept.live b mem) holds
        exact same.trans (kept.known b (.inl mem) x holds)
      · cases none

/-! ## Moving a block -/

/-- The copy is made word by word, and the words that are read are not yet written to. -/
theorem copy_spec {s t : ℕ} (h : Heap) (apart : t ≤ s ∨ s + n ≤ t) :
    (∀ i < n, (h.copy n s t).mem (t + i) = h.mem (s + i)) ∧
      ∀ x, x < t ∨ t + n ≤ x → (h.copy n s t).mem x = h.mem x := by
  induction n generalizing h s t with
  | zero => exact ⟨fun i less => absurd less (Nat.not_lt_zero i), fun _ _ => rfl⟩
  | succ n ih =>
      rw [Heap.copy]
      obtain ⟨inside, outside⟩ := ih (s := s + 1) (t := t + 1)
        { h with mem := update h.mem t (h.mem s) } (by omega)
      refine ⟨fun i less => ?_, fun x away => ?_⟩
      · cases i with
        | zero =>
            exact (outside t (.inl (Nat.lt_succ_self t))).trans (update_self t (h.mem s) h.mem)
        | succ i =>
            rw [show t + (i + 1) = t + 1 + i by omega, inside i (by omega)]
            exact (update_of_ne (by omega) _ h.mem).trans
              (by rw [show s + 1 + i = s + (i + 1) by omega])
      · rw [outside x (by omega)]
        exact update_of_ne (by omega) _ h.mem

theorem copy_fields (h : Heap) (n s t : ℕ) : (h.copy n s t).allocs = h.allocs ∧
    (h.copy n s t).allocp = h.allocp ∧ (h.copy n s t).alloct = h.alloct ∧
    (h.copy n s t).allocx = h.allocx := by
  induction n generalizing h s t with
  | zero => exact ⟨rfl, rfl, rfl, rfl⟩
  | succ n ih => exact ih _ _ _

/-- What `realloc` begins with: the block is free. -/
def Heap.released (h : Heap) (p : ℕ) : Heap := if testbusy (h.mem (p - 1)).ptr then h.free p else h

/-- The new block after the old words have been moved. -/
structure Moved (h h₁ h₂ : Heap) (b : Block) (a nbytes : ℕ) : Prop where
  outside : ∀ x, ¬(⟨a, nbytes⟩ : Block).Holds x → h₂.mem x = h₁.mem x
  allocs : h₂.allocs = h₁.allocs
  allocp : h₂.allocp = h₁.allocp
  alloct : h₂.alloct = h₁.alloct
  words : ∀ i, b.start + i < b.stop → a + i < (⟨a, nbytes⟩ : Block).stop →
    h₂.mem (a + i) = h.mem (b.start + i)

/-- The end of `realloc` after its call of `malloc`. -/
def Heap.move (h : Heap) (onw p q nbytes : ℕ) : Heap :=
  if q = p then h
  else
    let nw := (nbytes + WORD - 1) / WORD
    let onw := if nw < onw then nw else onw
    let h := h.copy onw p q
    if q < p ∧ p ≤ q + nw then h.setPtr (q + (q + nw - p)) h.allocx else h

theorem realloc_eq (h : Heap) (p nbytes : ℕ) (brk : ℕ → Break) :
    h.realloc p nbytes brk = ((h.released p).malloc nbytes brk).map fun (q, h') =>
      (q, match q with
        | none => h'
        | some q => h'.move (loc ((h.released p).mem (p - 1)).ptr - p) p q nbytes) := by
  rw [Heap.realloc, ← Heap.released]
  cases called : (h.released p).malloc nbytes brk with
  | none => rfl
  | some answer =>
      obtain ⟨q, h'⟩ := answer
      cases q with
      | none => rfl
      | some q =>
          simp only [Option.bind_eq_bind, Option.bind_some, Option.map_some, Heap.move]
          split
          · rfl
          · rfl

/-- The words of the old block are moved, and the one in which a header was put is restored. -/
theorem moved_move {onw : ℕ} {D : Cell} (chain : Heap.Chain h cells) (heads : Heads h cells false b)
    (mem : D ∈ cells) (next : ∀ c ∈ cells, b.start ≤ c.pos → D.pos ≤ c.pos)
    (behind : b.start ≤ D.pos) (size : onw = D.pos - b.start)
    (placed : Placed h cells h' cells' a nbytes) :
    Moved h h' (h'.move onw b.start a nbytes) b a nbytes := by
  have stop : (⟨a, nbytes⟩ : Block).stop = a + (nbytes + WORD - 1) / WORD := rfl
  have room := heads.room D mem behind
  have old := placed.mem b false heads
  have above : b.start < a → D.pos ≤ a - 1 := by
    intro more
    obtain ⟨c, inside, here⟩ | new := placed.place
    · rw [← here]
      exact next c inside (by omega)
    · exact (chain.bounds mem).2.trans new
  rw [stop] at old
  rw [Heap.move]
  generalize (nbytes + WORD - 1) / WORD = nw at stop old ⊢
  split
  next same =>
    refine ⟨fun _ _ => rfl, rfl, rfl, rfl, fun i less less' => ?_⟩
    rw [stop] at less'
    rw [same] at less' old ⊢
    exact (old _ ⟨Nat.le_add_right _ _, less⟩).1 (Nat.ne_of_lt less')
  next other =>
    dsimp only
    obtain ⟨k, count⟩ : ∃ k, k = if nw < onw then nw else onw := ⟨_, rfl⟩
    have most : k ≤ nw ∧ k ≤ onw := by
      rw [count]
      split <;> omega
    have all : ∀ i, b.start + i < b.stop → i < nw → i < k := by
      intro i less less'
      rw [count]
      split <;> omega
    rw [← count]
    obtain ⟨inside, outside⟩ := copy_spec (s := b.start) (t := a) (n := k) h' (by omega)
    obtain ⟨allocs, allocp, alloct, allocx⟩ := copy_fields h' k b.start a
    split
    next joined =>
      refine ⟨fun x away => ?_, allocs, allocp, alloct, fun i less less' => ?_⟩
      · rw [Block.Holds, stop] at away
        dsimp only at away
        rw [Heap.mem_setPtr_of_ne (by omega)]
        exact outside x (by omega)
      · rw [stop] at less'
        have copied := inside i (all i less (by omega))
        have before := old (b.start + i) ⟨Nat.le_add_right _ _, less⟩
        by_cases cut : b.start + i = a + nw
        · obtain ⟨rest, pointer⟩ := before.2 cut
          have here : a + (a + nw - b.start) = a + i := by omega
          rw [here, allocx, pointer]
          show (update _ (a + i) _) (a + i) = _
          rw [update_self, copied, rest]
        · rw [Heap.mem_setPtr_of_ne (by omega), copied]
          exact before.1 cut
    next away =>
      refine ⟨fun x away => ?_, allocs, allocp, alloct, fun i less less' => ?_⟩
      · rw [Block.Holds, stop] at away
        dsimp only at away
        exact outside x (by omega)
      · rw [stop] at less'
        rw [inside i (all i less (by omega))]
        exact (old (b.start + i) ⟨Nat.le_add_right _ _, less⟩).1 (by omega)

/-- Before the call of `malloc` the block is free with its contents. -/
theorem kept_released (kept : Kept w cells) (mem : b ∈ w.live ∨ b ∈ w.spared) :
    ∃ cells', Kept { w with heap := w.heap.released b.start
                            live := w.live.erase b
                            spared := [b] } cells' := by
  have marked : ∀ busy, Heads w.heap cells busy b →
      testbusy (w.heap.mem (b.start - 1)).ptr = busy := by
    intro busy heads
    obtain ⟨front, back, parts⟩ := List.append_of_mem heads.cell
    exact (parts ▸ kept.chain).next.2
  obtain live | spared := mem
  · have busy := marked true (kept.live b live)
    obtain ⟨cells', freed⟩ := kept_free kept live
    rw [Heap.released, if_pos busy]
    refine ⟨cells', freed.toArena, freed.live, fun b' mem => ?_, freed.starts, fun b' mem => ?_⟩
    · obtain rfl := List.mem_singleton.mp mem
      exact freed.spared b' List.mem_cons_self
    · refine freed.known b' (mem.imp id fun mem => ?_)
      obtain rfl := List.mem_singleton.mp mem
      exact List.mem_cons_self
  · have heads := kept.spared b spared
    have idle := marked false heads
    have none : b ∉ w.live := by
      intro live
      have same := kept.chain.rising.unique (kept.live b live).cell heads.cell rfl
      exact Bool.false_ne_true (congrArg Cell.busy same).symm
    rw [Heap.released, if_neg (by rw [idle]; exact Bool.false_ne_true), List.erase_of_not_mem none]
    refine ⟨cells, kept.toArena, kept.live, fun b' mem => ?_, kept.starts, fun b' mem => ?_⟩
    · obtain rfl := List.mem_singleton.mp mem
      exact heads
    · refine kept.known b' (mem.imp id fun mem => ?_)
      obtain rfl := List.mem_singleton.mp mem
      exact spared

/-- The header behind that of an idle block. -/
theorem next_of_heads (chain : Heap.Chain h cells) (heads : Heads h cells false b) :
    ∃ D ∈ cells, (∀ c ∈ cells, b.start ≤ c.pos → D.pos ≤ c.pos) ∧ b.start ≤ D.pos ∧
      loc (h.mem (b.start - 1)).ptr - b.start = D.pos - b.start := by
  have low := heads.low
  obtain ⟨front, back, rfl⟩ := List.append_of_mem heads.cell
  have next := chain.next.1
  cases back with
  | nil =>
      obtain ⟨-, last⟩ | ⟨e, mem, -⟩ := chain.ends
      · exact absurd (congrArg Cell.busy last) Bool.false_ne_true
      · cases mem
  | cons D back =>
      have order : b.start - 1 < D.pos := chain.rising.split.2.1 D List.mem_cons_self
      refine ⟨D, by simp, fun c mem behind => ?_, by omega, congrArg (· - b.start) next⟩
      obtain before | same | after := chain.rising.between mem
      · dsimp only at before
        omega
      · rw [same] at behind
        dsimp only at behind
        omega
      · exact after

/-- `realloc` moves the contents of the block, or gives it up. -/
theorem kept_realloc (kept : Kept w cells) (mem : b ∈ w.live ∨ b ∈ w.spared)
    (grows : Grows (w.heap.released b.start) nbytes brk) :
    ∃ w', w.step (.realloc b nbytes brk) = some w' ∧ ∃ cells', Kept w' cells' := by
  obtain ⟨cells₀, kept₀⟩ := kept_released kept mem
  have heads := kept₀.spared b (List.mem_singleton_self b)
  obtain ⟨D, inside, next, behind, size⟩ := next_of_heads kept₀.chain heads
  obtain ⟨result, h', called, answer, what⟩ := malloc_spec kept₀.toArena grows.above
  dsimp only at called size
  rw [World.step, realloc_eq, called]
  cases result with
  | none =>
      obtain ⟨cells', prepared, pointer⟩ := what
      have arena : Arena h' cells' := ⟨prepared.chain, pointer.mpr (grows.kept (answer.mp rfl))⟩
      refine ⟨_, rfl, cells', arena, fun b mem => (kept₀.live b mem).prepared prepared kept₀.chain,
        List.forall_mem_nil _, kept₀.starts, fun b mem x holds => ?_⟩
      obtain mem | none := mem
      · have same := mem_prepared prepared kept₀.chain (kept₀.live b mem) holds
        exact same.trans (kept₀.known b (.inl mem) x holds)
      · cases none
  | some a =>
      obtain ⟨cells', placed⟩ := what
      obtain ⟨outside, allocs, allocp, alloct, words⟩ :=
        moved_move kept₀.chain heads inside next behind size placed
      refine ⟨_, rfl, cells', kept_give (w := { w with live := w.live.erase b }) placed kept₀.live
        kept₀.starts (fun b mem => kept₀.known b (.inl mem)) outside allocs allocp alloct
        fun i less less' => ?_⟩
      have within : b.start + i < b.stop := by
        have first := Nat.lt_of_lt_of_le less (Nat.min_le_left _ _)
        omega
      rw [words i within less']
      exact kept₀.known b (.inr (List.mem_singleton_self b)) _ ⟨Nat.le_add_right _ _, within⟩

/-! ## Runs -/

/-- What a program may do. -/
def World.Allowed (w : World) : Event → Prop
  | .malloc nbytes brk => Grows w.heap.init nbytes brk
  | .free b => b ∈ w.live
  | .realloc b nbytes brk =>
      (b ∈ w.live ∨ b ∈ w.spared) ∧ Grows (w.heap.released b.start) nbytes brk
  | .write x _ => ∃ b ∈ w.live, b.Holds x

/-- Every call returns, and keeps what the program has. -/
theorem sound_step (sound : Sound w) {e : Event} (allowed : w.Allowed e) :
    ∃ w', w.step e = some w' ∧ ∃ cells, Kept w' cells := by
  have kept : ∀ b, b ∈ w.live ∨ b ∈ w.spared → ∃ cells, Kept w cells := by
    intro b mem
    obtain fresh | kept := sound
    · rw [fresh.live, fresh.spared] at mem
      exact absurd mem (by simp)
    · exact kept
  cases e with
  | malloc nbytes brk =>
      obtain ⟨cells, kept⟩ := sound.init
      obtain ⟨w', stepped, result⟩ := kept_malloc kept allowed
      refine ⟨w', ?_, result⟩
      rw [World.step, malloc_init w.heap nbytes brk kept.toArena]
      exact stepped
  | free b =>
      obtain ⟨cells, kept⟩ := kept b (.inl allowed)
      exact ⟨_, rfl, kept_free kept allowed⟩
  | realloc b nbytes brk =>
      obtain ⟨mem, grows⟩ := allowed
      obtain ⟨cells, kept⟩ := kept b mem
      exact kept_realloc kept mem grows
  | write x v =>
      obtain ⟨b, mem, holds⟩ := allowed
      obtain ⟨cells, kept⟩ := kept b (.inl mem)
      exact ⟨_, rfl, cells, kept_write kept mem holds v⟩

/-- A run of a program. -/
inductive Runs : World → List Event → World → Prop
  | nil (w : World) : Runs w [] w
  | cons {w w' w'' : World} {e : Event} {es : List Event} (allowed : w.Allowed e)
      (step : w.step e = some w') (rest : Runs w' es w'') : Runs w (e :: es) w''

theorem kept_runs {w w' : World} {es : List Event} (runs : Runs w es w') (sound : Sound w)
    (some : es ≠ []) : ∃ cells, Kept w' cells := by
  induction runs with
  | nil => exact absurd rfl some
  | cons allowed step rest ih =>
      obtain ⟨next, stepped, kept⟩ := sound_step sound allowed
      rw [step] at stepped
      obtain rfl := Option.some.inj stepped
      cases rest with
      | nil => exact kept
      | cons allowed step rest => exact ih (.inr kept) (List.cons_ne_nil _ _)

theorem sound_runs {w w' : World} {es : List Event} (runs : Runs w es w') (sound : Sound w) :
    Sound w' := by
  cases runs with
  | nil => exact sound
  | cons allowed step rest =>
      exact .inr (kept_runs (.cons allowed step rest) sound (List.cons_ne_nil _ _))

/-- The blocks that the program has are apart, in the arena, and with what was written into them. -/
structure Owns (w : World) : Prop where
  apart : w.live.Pairwise fun b b' => ∀ x, b.Holds x → ¬b'.Holds x
  inside : ∀ b ∈ w.live, w.heap.allocs + 1 < b.start ∧ b.stop ≤ w.heap.alloct
  contents : ∀ b ∈ w.live, ∀ x, b.Holds x → w.heap.mem x = w.expect x

theorem Sound.owns (sound : Sound w) : Owns w := by
  obtain fresh | ⟨cells, kept⟩ := sound
  · refine ⟨?_, ?_, ?_⟩
    · rw [fresh.live]
      exact .nil
    · rw [fresh.live]
      exact List.forall_mem_nil _
    · rw [fresh.live]
      exact List.forall_mem_nil _
  · refine ⟨?_, fun b mem => ?_, fun b mem => kept.known b (.inl mem)⟩
    · have starts := List.pairwise_map.mp kept.starts
      exact starts.imp_of_mem fun {b b'} mem mem' other x holds =>
        (kept.live b mem).apart (kept.live b' mem') other holds
    · exact ⟨(kept.live b mem).low, (kept.live b mem).stop_le kept.chain⟩

/-- A call of `malloc` gives a block unless the request is too large, or there is no room and `sbrk`
fails. -/
theorem Sound.answer (sound : Sound w) (above : w.heap.init.Above brk) :
    ∃ result h', w.heap.malloc nbytes brk = some (result, h') ∧
      (result = none ↔ Heap.limit < nbytes ∨
        ¬w.heap.init.Roomy (Heap.needed nbytes) ∧ (brk 1).Fails (Heap.needed nbytes)) := by
  obtain ⟨cells, kept⟩ := sound.init
  obtain ⟨result, h', called, answer, -⟩ := malloc_spec kept.toArena above
  rw [malloc_init w.heap nbytes brk kept.toArena]
  exact ⟨result, h', called, answer⟩

/-- In every run the program has its blocks for itself, the headers form a chain that `allocp`
points into, none of them inside a block, and every further call returns, a `malloc` with a block
unless there is no room for it. -/
theorem heap_runs {w w' : World} {es : List Event} (fresh : Fresh w) (runs : Runs w es w') :
    Owns w' ∧
      (es = [] ∨ ∃ cells, Heap.Chain w'.heap cells ∧ (∃ c ∈ cells, c.pos = w'.heap.allocp) ∧
        ∀ b ∈ w'.live, ⟨b.start - 1, true⟩ ∈ cells ∧ ∀ c ∈ cells, ¬b.Holds c.pos) ∧
      (∀ e, w'.Allowed e → ∃ w'', w'.step e = some w'') ∧
      ∀ nbytes brk, w'.heap.init.Above brk →
        ∃ result h', w'.heap.malloc nbytes brk = some (result, h') ∧
          (result = none ↔ Heap.limit < nbytes ∨
            ¬w'.heap.init.Roomy (Heap.needed nbytes) ∧ (brk 1).Fails (Heap.needed nbytes)) := by
  have sound := sound_runs runs (.inl fresh)
  refine ⟨sound.owns, ?_, fun e allowed => ?_, fun nbytes brk => sound.answer⟩
  · by_cases none : es = []
    · exact .inl none
    · obtain ⟨cells, kept⟩ := kept_runs runs (.inl fresh) none
      exact .inr ⟨cells, kept.chain, kept.allocp, fun b mem => ⟨(kept.live b mem).cell,
        fun c inside holds => (kept.live b mem).ne_pos holds inside rfl⟩⟩
  · obtain ⟨w'', stepped, -⟩ := sound_step sound allowed
    exact ⟨w'', stepped⟩

/-- A program before its first call, with the arena at word 10. -/
def begun : World := ⟨⟨fun _ => ⟨0, 0⟩, 10, 0, 0, 0⟩, [], [], fun _ => ⟨0, 0⟩⟩

/-- An `sbrk` that gives what is at a word. -/
def givenAt (q : ℕ) (_ : ℕ) : Break := ⟨some q, some q⟩

/-- It does not fail below the end of memory. -/
theorem grows_givenAt {q : ℕ} (above : h.alloct < q)
    (low : WORD * (q + Heap.extent (Heap.needed nbytes)) < 2 ^ 32) :
    Grows h nbytes (givenAt q) where
  above _ _ grown := Option.some.inj grown ▸ above
  refused _ fails := by
    obtain high | none := fails q rfl
    · exact absurd low (Nat.not_lt.mpr high)
    · cases none

theorem heap_runs_begun : ∃ w', Runs begun [.malloc 20 (givenAt 100), .write 101 ⟨7, 8⟩,
    .malloc 8 (givenAt 300), .realloc ⟨101, 20⟩ 1100 (givenAt 400)] w' ∧ Owns w' ∧
      w'.live = [⟨401, 1100⟩, ⟨105, 8⟩] ∧ w'.heap.mem 401 = ⟨7, 8⟩ := by
  have fresh : Fresh begun := ⟨rfl, rfl, rfl⟩
  have runs : Runs begun [.malloc 20 (givenAt 100), .write 101 ⟨7, 8⟩,
      .malloc 8 (givenAt 300), .realloc ⟨101, 20⟩ 1100 (givenAt 400)] _ :=
    .cons (grows_givenAt (by decide) (by decide)) rfl <|
    .cons ⟨⟨101, 20⟩, List.mem_cons_self, by decide, by decide⟩ rfl <|
    .cons (grows_givenAt (by decide) (by decide)) rfl <|
    .cons ⟨.inl (by decide), grows_givenAt (by decide) (by decide)⟩ rfl (.nil _)
  exact ⟨_, runs, (heap_runs fresh runs).1, rfl, rfl⟩

end UnixV7.Libc
