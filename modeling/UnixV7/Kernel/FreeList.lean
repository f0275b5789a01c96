import Mathlib.Data.List.Count
import UnixV7.Kernel.Alloc

/-!
# The free list

The list that the superblock and the chain of blocks behind it stand for, in the order in which
`alloc` takes blocks from it. However the calls of `alloc` and `free` are interleaved at their
sleeps, a block is on the list, or with one call, or with whoever allocated it.
-/

namespace UnixV7

open Function

namespace Alloc

/-- The blocks listed from `n` numbers `free` on: the numbers from the last one down, and after
the first one, unless it is 0, the blocks which that block lists. -/
inductive Listed (block : Daddr → Fblk) : ℕ → (ℕ → Daddr) → List Daddr → Prop
  | empty {free : ℕ → Daddr} : Listed block 0 free []
  | last {free : ℕ → Daddr} : free 0 = 0 → Listed block 1 free []
  | link {free : ℕ → Daddr} {rest : List Daddr} : free 0 ≠ 0 →
      0 < (block (free 0)).df_nfree → (block (free 0)).df_nfree ≤ NICFREE →
      Listed block (block (free 0)).df_nfree (block (free 0)).df_free rest →
      Listed block 1 free (free 0 :: rest)
  | next {free : ℕ → Daddr} {n : ℕ} {rest : List Daddr} : free (n + 1) ≠ 0 →
      Listed block (n + 1) free rest → Listed block (n + 2) free (free (n + 1) :: rest)

namespace Listed

variable {block block' : Daddr → Fblk} {free free' : ℕ → Daddr} {n : ℕ} {list : List Daddr}
  {bno : Daddr}

/-- The list depends only on the numbers in use and on the blocks it lists. -/
theorem congr (listed : Listed block n free list) (same : ∀ i, i < n → free' i = free i)
    (blocks : ∀ b ∈ list, block' b = block b) : Listed block' n free' list := by
  induction listed generalizing free' with
  | empty => exact .empty
  | last stop => exact .last (by rw [same 0 (by omega), stop])
  | link more some bound _ ih =>
      have first := same 0 (by omega)
      have here := blocks _ List.mem_cons_self
      rw [← first] at here more some bound ih ⊢
      refine .link more (by rwa [here]) (by rwa [here]) ?_
      rw [here]
      exact ih (fun _ _ => rfl) fun b mem => blocks b (by simp [mem])
  | next more _ ih =>
      rw [← same _ (Nat.lt_succ_self _)] at more ⊢
      exact .next more (ih (fun i below => same i (by omega))
        fun b mem => blocks b (List.mem_cons_of_mem _ mem))

/-- Numbers stand for one list. -/
theorem unique {other : List Daddr} (listed : Listed block n free list)
    (again : Listed block n free other) : list = other := by
  induction listed generalizing other with
  | empty =>
      cases again
      rfl
  | last stop =>
      cases again with
      | last => rfl
      | link more => exact absurd stop more
  | link more _ _ _ ih =>
      cases again with
      | last stop => exact absurd stop more
      | link _ _ _ again => rw [ih again]
  | next _ _ ih =>
      cases again with
      | next _ again => rw [ih again]

/-- One more number in front. -/
theorem push (listed : Listed block n free list) (some : 0 < n) (real : bno ≠ 0) :
    Listed block (n + 1) (update free n bno) (bno :: list) := by
  obtain ⟨n, rfl⟩ : ∃ m, n = m + 1 := ⟨n - 1, by omega⟩
  have below : Listed block (n + 1) (update free (n + 1) bno) list :=
    listed.congr (fun i below => update_of_ne (by omega) _ _) fun _ _ => rfl
  have real' : update free (n + 1) bno (n + 1) ≠ 0 := by simpa using real
  simpa using Listed.next real' below

end Listed

/-- A number that `badblock` accepts and that is not the end mark. -/
def InRange (fp : Filsys) (bno : Daddr) : Prop := bno ≠ 0 ∧ fp.badblock bno = false

/-- The block that a call has in hand: one it has taken off the list, or one it is to free. -/
def Place.hand : Place → Hand Daddr
  | .idle | .allocWait => .empty
  | .allocBread bno | .allocGetblk bno => .taking bno
  | .freeWait bno | .freeGetblk bno | .freeBwrite bno => .returning bno

/-- Whether a call that sleeps here holds the lock. -/
def Place.locking : Place → Bool
  | .allocBread _ | .freeGetblk _ | .freeBwrite _ => true
  | .idle | .allocWait | .allocGetblk _ | .freeWait _ => false

/-- Where the list is while a call at this place holds the lock. -/
def Facts (s : State) (list : List Daddr) : Place → Prop
  | .idle | .allocWait | .allocGetblk _ | .freeWait _ => True
  | .allocBread bno =>
      s.fp.s_nfree = 0 ∧ 0 < (s.block bno).df_nfree ∧ (s.block bno).df_nfree ≤ NICFREE ∧
        Listed s.block (s.block bno).df_nfree (s.block bno).df_free list
  | .freeGetblk _ => s.fp.s_nfree = NICFREE ∧ Listed s.block s.fp.s_nfree s.fp.s_free list
  | .freeBwrite bno =>
      s.fp.s_nfree = 0 ∧ (s.block bno).df_nfree = NICFREE ∧
        Listed s.block (s.block bno).df_nfree (s.block bno).df_free list

/-- The free list of the device: what the superblock and the chain name, or the block with which
the call that holds the lock is busy. -/
def FreeList {ι : Type*} (w : World ι State Place) (list : List Daddr) : Prop :=
  (w.shared.fp.s_flock = 0 →
    Listed w.shared.block w.shared.fp.s_nfree w.shared.fp.s_free list) ∧
  ∀ p, Facts w.shared list (w.loc p)

/-- A device whose free list is well formed. -/
structure Initial (first : List Daddr) (s : State) : Prop where
  listed : Listed s.block s.fp.s_nfree s.fp.s_free first
  distinct : first.Nodup
  range : ∀ b ∈ first, InRange s.fp b
  unlocked : s.fp.s_flock = 0
  nfree : s.fp.s_nfree ≤ NICFREE
  ninode : s.fp.s_ninode ≤ NICINOD
  fresh : s.log = []

/-- A block that is neither on the list nor in the hands of a call. -/
def Owned {ι : Type*} (w : World ι State Place) (bno : Daddr) : Prop :=
  InRange w.shared.fp bno ∧ (∀ list, FreeList w list → bno ∉ list) ∧
    ∀ p, bno ∉ (w.loc p).hand.things

/-- Blocks are freed and written only by those who own them. -/
def Careful {ι : Type*} (w : World ι State Place) (_ : ι) : Event → Prop
  | .free bno | .data bno _ => Owned w bno
  | .alloc | .unlocked | .buffer | .written => True

/-- What the free list is in a state of a run that began with the list `first`. -/
structure Conserved {ι : Type*} [DecidableEq ι] (first : List Daddr) (w : World ι State Place)
    (list : List Daddr) : Prop where
  listed : FreeList w list
  distinct : list.Nodup
  range : ∀ b ∈ list, InRange w.shared.fp b
  balance : ∀ b, (∀ p, (w.loc p).hand ≠ .taking b) →
    list.count b + w.shared.log.count (.taken b) =
      first.count b + w.shared.log.count (.returned b)
  pending : ∀ b p, (w.loc p).hand = .taking b →
    list.count b + 1 + w.shared.log.count (.taken b) =
      first.count b + w.shared.log.count (.returned b)
  alternates : Alternates w.shared.log
  enospc : ∀ p e w', Careful w p e → (system ι).move w p e = some w' →
    w'.shared.log = .refused :: w.shared.log → list = []

/-! ## Where the list is -/

variable {ι : Type*} {first list rest : List Daddr} {s s' : State} {l l' : Place} {bno : Daddr}
  {w : World ι State Place} {p : ι}

theorem facts_of_unlocked (unlocked : l.locking = false) : Facts s list l := by
  cases l <;> trivial

/-- The facts of a place survive changes of other blocks. -/
theorem Facts.congr (facts : Facts s list l) (nfree : s'.fp.s_nfree = s.fp.s_nfree)
    (free : s'.fp.s_free = s.fp.s_free) (blocks : ∀ b ∈ list, s'.block b = s.block b)
    (mine : ∀ b ∈ l.hand.things, s'.block b = s.block b) : Facts s' list l := by
  cases l with
  | idle | allocWait | allocGetblk | freeWait => trivial
  | allocBread bno =>
      have here := mine bno (by simp [Place.hand, Hand.things])
      simp only [Facts, here, nfree] at facts ⊢
      exact ⟨facts.1, facts.2.1, facts.2.2.1, facts.2.2.2.congr (fun _ _ => rfl) blocks⟩
  | freeGetblk bno =>
      simp only [Facts, nfree, free] at facts ⊢
      exact ⟨facts.1, facts.2.congr (fun _ _ => rfl) blocks⟩
  | freeBwrite bno =>
      have here := mine bno (by simp [Place.hand, Hand.things])
      simp only [Facts, here, nfree] at facts ⊢
      exact ⟨facts.1, facts.2.1, facts.2.2.congr (fun _ _ => rfl) blocks⟩

/-- What the loop of `alloc` takes from a well-formed list. -/
theorem pop_spec {block : Daddr → Fblk} {fp : Filsys}
    (listed : Listed block fp.s_nfree fp.s_free list) (bound : fp.s_nfree ≤ NICFREE)
    (range : ∀ b ∈ list, InRange fp b) :
    (list = [] ∧ fp.pop fp.s_nfree = none) ∨
      ∃ bno rest n, list = bno :: rest ∧ n ≤ NICFREE ∧
        fp.pop fp.s_nfree = some (bno, { fp with s_nfree := n }) ∧
        (n ≠ 0 → Listed block n fp.s_free rest) ∧
        (n = 0 → 0 < (block bno).df_nfree ∧ (block bno).df_nfree ≤ NICFREE ∧
          Listed block (block bno).df_nfree (block bno).df_free rest) := by
  generalize left : fp.s_nfree = n at listed bound
  cases listed with
  | empty => exact .inl ⟨rfl, rfl⟩
  | last stop => exact .inl ⟨rfl, by simp [Filsys.pop, stop]⟩
  | link more some fits onward =>
      refine .inr ⟨_, _, 0, rfl, by omega, ?_, by simp, fun _ => ⟨some, fits, onward⟩⟩
      simp [Filsys.pop, more, (range _ List.mem_cons_self).2, Nat.not_lt.mpr bound]
  | @next _ n _ more onward =>
      refine .inr ⟨_, _, n + 1, rfl, by omega, ?_, fun _ => onward, by simp⟩
      simp [Filsys.pop, more, (range _ List.mem_cons_self).2, Nat.not_lt.mpr bound]

/-! ## The invariant -/

/-- The list, the hands and the log of a world. -/
def ledger (w : World ι State Place) (list : List Daddr) : Ledger ι Daddr :=
  ⟨list, fun p => (w.loc p).hand, w.shared.log⟩

/-- The invariant of `alloc` and `free`. -/
structure Whole (first : List Daddr) (w : World ι State Place) (list : List Daddr) : Prop where
  kept : Ledger.Kept first (ledger w list)
  free : w.shared.fp.s_flock = 0 →
    Listed w.shared.block w.shared.fp.s_nfree w.shared.fp.s_free list
  facts : ∀ p, Facts w.shared list (w.loc p)
  unlocked : w.shared.fp.s_flock = 0 → ∀ p, (w.loc p).locking = false
  single : ∀ p q, (w.loc p).locking = true → (w.loc q).locking = true → p = q
  nfree : w.shared.fp.s_nfree ≤ NICFREE
  ninode : w.shared.fp.s_ninode ≤ NICINOD
  range : ∀ b ∈ list, InRange w.shared.fp b
  hands : ∀ p, ∀ b ∈ (w.loc p).hand.things, InRange w.shared.fp b

theorem InRange.congr {fp fp' : Filsys} (here : InRange fp bno) (isize : fp'.s_isize = fp.s_isize)
    (fsize : fp'.s_fsize = fp.s_fsize) : InRange fp' bno := by
  simpa [InRange, Filsys.badblock, isize, fsize] using here

namespace Whole

theorem freeList (whole : Whole first w list) : FreeList w list := ⟨whole.free, whole.facts⟩

theorem getfs (whole : Whole first w list) : w.shared.fp.getfs = w.shared.fp := by
  have nfree := whole.nfree
  have ninode := whole.ninode
  simp only [Filsys.getfs]
  rw [if_neg (by omega)]

/-- Nobody else holds the lock. -/
theorem others (whole : Whole first w list)
    (mine : w.shared.fp.s_flock = 0 ∨ (w.loc p).locking = true) :
    ∀ q, q ≠ p → (w.loc q).locking = false := by
  intro q other
  rcases mine with unlocked | locked
  · exact whole.unlocked unlocked q
  · by_contra also
    exact other (whole.single q p (by simpa using also) locked)

variable [DecidableEq ι]

/-- The ledger after a process has moved. -/
theorem ledger_update (w : World ι State Place) (s : State) (p : ι) (l : Place)
    (list : List Daddr) :
    ledger ⟨s, update w.loc p l⟩ list =
      ⟨list, update (fun p => (w.loc p).hand) p l.hand, s.log⟩ := by
  simp only [ledger, Ledger.mk.injEq, true_and, and_true]
  funext q
  by_cases same : q = p
  · subst same
    simp
  · simp [same]

/-- A move of the process that holds the lock, or finds it free: the facts of its new place are
all there are. -/
theorem advance (whole : Whole first w list)
    (mine : w.shared.fp.s_flock = 0 ∨ (w.loc p).locking = true)
    (kept : Ledger.Kept first ⟨rest, update (fun p => (w.loc p).hand) p l.hand, s.log⟩)
    (free : s.fp.s_flock = 0 → l.locking = false ∧ Listed s.block s.fp.s_nfree s.fp.s_free rest)
    (facts : Facts s rest l) (nfree : s.fp.s_nfree ≤ NICFREE)
    (ninode : s.fp.s_ninode = w.shared.fp.s_ninode) (isize : s.fp.s_isize = w.shared.fp.s_isize)
    (fsize : s.fp.s_fsize = w.shared.fp.s_fsize)
    (range : ∀ b, b ∈ rest ∨ b ∈ l.hand.things → InRange w.shared.fp b) :
    Whole first ⟨s, update w.loc p l⟩ rest where
  kept := by rwa [ledger_update]
  free unlocked := (free unlocked).2
  facts := by
    rw [forall_update_iff w.loc fun _ place => Facts s rest place]
    exact ⟨facts, fun q other => facts_of_unlocked (whole.others mine q other)⟩
  unlocked unlocked := by
    rw [forall_update_iff w.loc fun _ place => place.locking = false]
    exact ⟨(free unlocked).1, whole.others mine⟩
  single q r left right := by
    have only : ∀ q, (update w.loc p l q).locking = true → q = p := by
      intro q locked
      by_contra other
      rw [update_of_ne other, whole.others mine q other] at locked
      simp at locked
    rw [only q left, only r right]
  nfree := nfree
  ninode := ninode ▸ whole.ninode
  range b mem := (range b (.inl mem)).congr isize fsize
  hands := by
    rw [forall_update_iff w.loc fun _ place => ∀ b ∈ place.hand.things, InRange s.fp b]
    exact ⟨fun b mem => (range b (.inr mem)).congr isize fsize,
      fun q _ b mem => (whole.hands q b mem).congr isize fsize⟩

/-- A move that leaves the lock and the numbers alone. -/
theorem bystand (whole : Whole first w list) (before : (w.loc p).locking = false)
    (after : l.locking = false)
    (kept : Ledger.Kept first ⟨list, update (fun p => (w.loc p).hand) p l.hand, s.log⟩)
    (fp : ∃ fmod, s.fp = { w.shared.fp with s_fmod := fmod })
    (blocks : ∀ b ∈ list, s.block b = w.shared.block b)
    (theirs : ∀ q, q ≠ p → ∀ b ∈ (w.loc q).hand.things, s.block b = w.shared.block b)
    (range : ∀ b ∈ l.hand.things, InRange w.shared.fp b) :
    Whole first ⟨s, update w.loc p l⟩ list := by
  obtain ⟨fmod, fp⟩ := fp
  refine
    { kept := by rwa [ledger_update]
      free := fun unlocked => ?_, facts := ?_, unlocked := fun unlocked => ?_
      single := fun q r left right => ?_
      nfree := by simpa [fp] using whole.nfree
      ninode := by simpa [fp] using whole.ninode
      range := fun b mem => (whole.range b mem).congr (by simp [fp]) (by simp [fp])
      hands := ?_ }
  · simp only [fp] at unlocked ⊢
    exact (whole.free unlocked).congr (fun _ _ => rfl) blocks
  · rw [forall_update_iff w.loc fun _ place => Facts s list place]
    exact ⟨facts_of_unlocked after, fun q other =>
      (whole.facts q).congr (by simp [fp]) (by simp [fp]) blocks (theirs q other)⟩
  · simp only [fp] at unlocked
    rw [forall_update_iff w.loc fun _ place => place.locking = false]
    exact ⟨after, fun q _ => whole.unlocked unlocked q⟩
  · have earlier : ∀ q, (update w.loc p l q).locking = true → (w.loc q).locking = true := by
      intro q locked
      by_cases same : q = p
      · subst same
        simp [after] at locked
      · rwa [update_of_ne same] at locked
    exact whole.single q r (earlier q left) (earlier r right)
  · rw [forall_update_iff w.loc fun _ place => ∀ b ∈ place.hand.things, InRange s.fp b]
    exact ⟨fun b mem => (range b mem).congr (by simp [fp]) (by simp [fp]),
      fun q _ b mem => (whole.hands q b mem).congr (by simp [fp]) (by simp [fp])⟩

/-- A move that leaves the hand as it was. -/
theorem hand_update (same : (w.loc p).hand = l.hand) :
    update (fun p => (w.loc p).hand) p l.hand = fun p => (w.loc p).hand := by
  rw [← same]
  exact update_eq_self p _

/-- `alloc` that finds the list unlocked. -/
theorem alloc (whole : Whole first w list) (unlocked : w.shared.fp.s_flock = 0)
    (free : (w.loc p).hand = .empty) :
    ∃ rest, Whole first ⟨w.shared.alloc.1, update w.loc p w.shared.alloc.2⟩ rest ∧
      (w.shared.alloc.1.log = .refused :: w.shared.log → list = []) := by
  rcases pop_spec (whole.free unlocked) whole.nfree whole.range with
    ⟨rfl, none⟩ | ⟨bno, rest, n, rfl, bound, popped, more, last⟩
  · refine ⟨[], ?_, fun _ => rfl⟩
    simp only [State.alloc, none]
    refine whole.advance (.inl unlocked) ?_ (fun _ => ⟨rfl, .empty⟩) trivial (by simp) rfl rfl rfl
      (by simp [Place.hand, Hand.things])
    rw [hand_update (l := .idle) free]
    exact whole.kept.refuse
  · refine ⟨rest, ?_, ?_⟩
    · have range : ∀ b, b ∈ rest ∨ b ∈ [bno] → InRange w.shared.fp b := by
        intro b mem
        apply whole.range
        simp only [List.mem_cons, List.not_mem_nil, or_false] at mem ⊢
        exact mem.symm
      by_cases empty : n = 0
      · subst empty
        simp only [State.alloc, popped, if_true]
        refine whole.advance (.inl unlocked) (whole.kept.take rfl free) (by simp) ?_ (by simp) rfl
          rfl rfl range
        exact ⟨rfl, last rfl⟩
      · simp only [State.alloc, popped, if_neg empty]
        exact whole.advance (.inl unlocked) (whole.kept.take rfl free)
          (fun _ => ⟨rfl, more empty⟩) trivial bound rfl rfl rfl range
    · simp only [State.alloc, popped]
      split <;> simp

/-- `free` that finds the list unlocked. -/
theorem freeBlock (whole : Whole first w list) (unlocked : w.shared.fp.s_flock = 0)
    (here : w.loc p = .freeWait bno) :
    ∃ rest, Whole first ⟨(w.shared.free bno).1, update w.loc p (w.shared.free bno).2⟩ rest ∧
      (w.shared.free bno).1.log ≠ .refused :: w.shared.log := by
  have mine : bno ∈ (w.loc p).hand.things := by
    rw [here]
    simp [Place.hand, Hand.things]
  have range := whole.hands p bno mine
  have hand : (w.loc p).hand = .returning bno := by
    rw [here]
    rfl
  have both : ∀ b, b ∈ bno :: list ∨ b ∈ (Place.idle).hand.things → InRange w.shared.fp b := by
    intro b mem
    rcases mem with mem | none
    · rcases List.mem_cons.mp mem with rfl | mem
      · exact range
      · exact whole.range b mem
    · simp [Place.hand, Hand.things] at none
  have listed := whole.free unlocked
  by_cases empty : w.shared.fp.s_nfree = 0
  · -- an empty superblock gets the end mark first
    have few : ¬NICFREE ≤ 1 := by decide
    simp only [State.free, range.2, empty, if_true, Bool.false_eq_true, if_false, if_neg few]
    rw [empty] at listed
    cases listed
    refine ⟨[bno], whole.advance (.inl unlocked) (whole.kept.returned hand) (fun _ => ⟨rfl, ?_⟩)
      trivial ?_ rfl rfl rfl both, by simp⟩
    · exact (Listed.last (by simp)).push (by omega) range.1
    · simp [Filsys.push, NICFREE]
  · by_cases full : NICFREE ≤ w.shared.fp.s_nfree
    · simp only [State.free, range.2, if_neg empty, Bool.false_eq_true, if_false, if_pos full]
      refine ⟨list, whole.advance (.inl unlocked) ?_ (by simp) ?_ whole.nfree rfl rfl rfl ?_,
        by simp⟩
      · rw [hand_update (l := .freeGetblk bno) hand]
        exact whole.kept
      · exact ⟨Nat.le_antisymm whole.nfree full, listed⟩
      · rintro b (mem | held)
        · exact whole.range b mem
        · exact whole.hands p b (by rwa [hand])
    · simp only [State.free, range.2, if_neg empty, Bool.false_eq_true, if_false, if_neg full]
      refine ⟨bno :: list, whole.advance (.inl unlocked) (whole.kept.returned hand)
        (fun _ => ⟨rfl, listed.push (by omega) range.1⟩) trivial ?_ rfl rfl rfl both, by simp⟩
      simp only [Filsys.push]
      omega

/-- `alloc` has read the block that lists more. -/
theorem refill (whole : Whole first w list) (here : w.loc p = .allocBread bno) :
    Whole first ⟨(w.shared.refill bno).1, update w.loc p (w.shared.refill bno).2⟩ list ∧
      (w.shared.refill bno).1.log = w.shared.log := by
  have facts := whole.facts p
  rw [here] at facts
  obtain ⟨-, some, bound, listed⟩ := facts
  have more : (w.shared.block bno).df_nfree ≠ 0 := by omega
  simp only [State.refill, if_neg more, and_true]
  refine whole.advance (.inr (by rw [here]; rfl)) ?_ (fun _ => ⟨rfl, listed⟩) trivial bound rfl rfl
    rfl (fun b mem => mem.elim (whole.range b) fun mine => ?_)
  · rw [hand_update (l := .allocGetblk bno) (by rw [here]; rfl)]
    exact whole.kept
  · exact whole.hands p b (by rwa [here])

/-- `alloc` has cleared the buffer and returns it. -/
theorem taken (whole : Whole first w list) (here : w.loc p = .allocGetblk bno) :
    Whole first ⟨{ w.shared with
      block := update w.shared.block bno ⟨0, fun _ => 0⟩
      fp := { w.shared.fp with s_fmod := 1 }
      log := .taken bno :: w.shared.log }, update w.loc p .idle⟩ list := by
  have mine : bno ∈ (w.loc p).hand.things := by
    rw [here]
    simp [Place.hand, Hand.things]
  refine whole.bystand (by rw [here]; rfl) rfl
    (whole.kept.taken (by simp [ledger, here, Place.hand]))
    ⟨1, rfl⟩ (fun b mem => ?_) (fun q other b theirs => ?_) (by simp [Place.hand, Hand.things])
  · refine update_of_ne ?_ _ _
    rintro rfl
    exact whole.kept.not_listed (x := p) mine mem
  · exact update_of_ne (whole.kept.hands_ne (x := p) mine theirs other) _ _

/-- `free` has filled the block with the numbers of the superblock and writes it. -/
theorem spill (whole : Whole first w list) (here : w.loc p = .freeGetblk bno) :
    Whole first ⟨{ w.shared with
      block := update w.shared.block bno ⟨w.shared.fp.s_nfree, w.shared.fp.s_free⟩
      fp := { w.shared.fp with s_nfree := 0 } }, update w.loc p (.freeBwrite bno)⟩ list := by
  have mine : bno ∈ (w.loc p).hand.things := by
    rw [here]
    simp [Place.hand, Hand.things]
  have locked : (w.loc p).locking = true := by
    rw [here]
    rfl
  have facts := whole.facts p
  rw [here] at facts
  obtain ⟨full, listed⟩ := facts
  have off : ∀ b ∈ list, b ≠ bno := by
    rintro b mem rfl
    exact whole.kept.not_listed (x := p) mine mem
  refine whole.advance (.inr locked) ?_ (fun unlocked => ?_) ?_ (by simp) rfl rfl rfl
    (fun b mem => mem.elim (whole.range b) fun held => ?_)
  · rw [hand_update (l := .freeBwrite bno) (by rw [here]; rfl)]
    exact whole.kept
  · simp [whole.unlocked unlocked p] at locked
  · refine ⟨rfl, by simpa using full, ?_⟩
    simp only [update_self]
    exact listed.congr (fun _ _ => rfl) fun b mem => update_of_ne (off b mem) _ _
  · exact whole.hands p b (by rwa [here])

/-- The block has been written and becomes the only number in the superblock. -/
theorem written (whole : Whole first w list) (here : w.loc p = .freeBwrite bno) :
    Whole first ⟨{ w.shared with
      fp := Filsys.push { w.shared.fp with s_flock := 0 } bno
      log := .returned bno :: w.shared.log }, update w.loc p .idle⟩ (bno :: list) := by
  have mine : bno ∈ (w.loc p).hand.things := by
    rw [here]
    simp [Place.hand, Hand.things]
  have range := whole.hands p bno mine
  have facts := whole.facts p
  rw [here] at facts
  obtain ⟨empty, full, listed⟩ := facts
  refine whole.advance (.inr (by rw [here]; rfl))
    (whole.kept.returned (by simp [ledger, here, Place.hand])) (fun _ => ⟨rfl, ?_⟩) trivial ?_ rfl
    rfl rfl (fun b mem => ?_)
  · have some : 0 < NICFREE := by decide
    have chain : Listed w.shared.block 1 (update w.shared.fp.s_free 0 bno)
        (update w.shared.fp.s_free 0 bno 0 :: list) := by
      refine .link ?_ ?_ ?_ ?_
      · simpa using range.1
      · simpa [full] using some
      · simp [full]
      · simpa using listed
    simpa [Filsys.push, empty] using chain
  · simp [Filsys.push, empty, NICFREE]
  · rcases mem with mem | none
    · rcases List.mem_cons.mp mem with rfl | mem
      · exact range
      · exact whole.range b mem
    · simp [Place.hand, Hand.things] at none

/-- A call of `free` begins, with a block that its caller owns. -/
theorem accept (whole : Whole first w list) (here : w.loc p = .idle) (owned : Owned w bno) :
    Whole first ⟨{ w.shared with fp := { w.shared.fp with s_fmod := 1 } },
      update w.loc p (.freeWait bno)⟩ list := by
  obtain ⟨range, off, nobody⟩ := owned
  refine whole.bystand (by rw [here]; rfl) rfl (whole.kept.giveBack ?_ (off list whole.freeList)
    nobody) ⟨1, rfl⟩ (fun _ _ => rfl) (fun _ _ _ _ => rfl) ?_
  · simp [ledger, here, Place.hand]
  · simpa [Place.hand, Hand.things] using range

/-- The owner of a block writes to it. -/
theorem data {contents : Fblk} (whole : Whole first w list) (here : w.loc p = .idle)
    (owned : Owned w bno) :
    Whole first ⟨{ w.shared with block := update w.shared.block bno contents },
      update w.loc p .idle⟩ list := by
  obtain ⟨-, off, nobody⟩ := owned
  refine whole.bystand (by rw [here]; rfl) rfl ?_ ⟨w.shared.fp.s_fmod, rfl⟩ (fun b mem => ?_)
    (fun q _ b theirs => ?_) (by simp [Place.hand, Hand.things])
  · rw [hand_update (l := .idle) (by rw [here])]
    exact whole.kept
  · refine update_of_ne ?_ _ _
    rintro rfl
    exact off list whole.freeList mem
  · refine update_of_ne ?_ _ _
    rintro rfl
    exact nobody q theirs

/-- Every careful move keeps the invariant, and `alloc` finds no space only on an empty list. -/
theorem step {e : Event} (whole : Whole first w list) (may : Careful w p e)
    (moved : (system ι).next p e w.shared (w.loc p) = some (s, l)) :
    ∃ rest, Whole first ⟨s, update w.loc p l⟩ rest ∧
      (s.log = .refused :: w.shared.log → list = []) := by
  cases e with
  | alloc =>
      cases here : w.loc p with
      | idle =>
          simp only [system, here, whole.getfs] at moved
          split at moved
          · obtain ⟨rfl, rfl⟩ := Prod.mk.inj (Option.some.inj moved)
            refine ⟨list, ?_, by simp⟩
            refine whole.bystand (by rw [here]; rfl) rfl ?_ ⟨w.shared.fp.s_fmod, rfl⟩
              (fun _ _ => rfl) (fun _ _ _ _ => rfl) (by simp [Place.hand, Hand.things])
            rw [hand_update (l := .allocWait) (by rw [here]; rfl)]
            exact whole.kept
          · next unlocked =>
              have done := whole.alloc (not_not.mp unlocked) (show (w.loc p).hand = .empty by
                rw [here]
                rfl)
              rwa [Option.some.inj moved] at done
      | allocWait | allocBread | allocGetblk | freeWait | freeGetblk | freeBwrite =>
          simp [system, here] at moved
  | free bno =>
      cases here : w.loc p with
      | idle =>
          have accepted := whole.accept here may
          simp only [system, here, whole.getfs] at moved
          split at moved
          · obtain ⟨rfl, rfl⟩ := Prod.mk.inj (Option.some.inj moved)
            exact ⟨list, accepted, by simp⟩
          · next unlocked =>
              obtain ⟨rest, whole', log⟩ :=
                accepted.freeBlock (not_not.mp unlocked) (update_self p _ _)
              rw [Option.some.inj moved, update_idem] at whole'
              rw [Option.some.inj moved] at log
              exact ⟨rest, whole', fun refused => absurd refused log⟩
      | allocWait | allocBread | allocGetblk | freeWait | freeGetblk | freeBwrite =>
          simp [system, here] at moved
  | unlocked =>
      cases here : w.loc p with
      | allocWait =>
          simp only [system, here] at moved
          split at moved
          · simp at moved
          · next unlocked =>
              have done := whole.alloc (not_not.mp unlocked) (show (w.loc p).hand = .empty by
                rw [here]
                rfl)
              rwa [Option.some.inj moved] at done
      | freeWait bno =>
          simp only [system, here] at moved
          split at moved
          · simp at moved
          · next unlocked =>
              obtain ⟨rest, whole', log⟩ := whole.freeBlock (not_not.mp unlocked) here
              rw [Option.some.inj moved] at whole' log
              exact ⟨rest, whole', fun refused => absurd refused log⟩
      | idle | allocBread | allocGetblk | freeGetblk | freeBwrite => simp [system, here] at moved
  | buffer =>
      cases here : w.loc p with
      | allocBread bno =>
          simp only [system, here] at moved
          obtain ⟨whole', log⟩ := whole.refill here
          rw [Option.some.inj moved] at whole' log
          exact ⟨list, whole', fun refused => absurd (refused.symm.trans log)
            (List.cons_ne_self _ _)⟩
      | allocGetblk bno =>
          simp only [system, here] at moved
          obtain ⟨rfl, rfl⟩ := Prod.mk.inj (Option.some.inj moved)
          exact ⟨list, whole.taken here, by simp⟩
      | freeGetblk bno =>
          simp only [system, here] at moved
          obtain ⟨rfl, rfl⟩ := Prod.mk.inj (Option.some.inj moved)
          exact ⟨list, whole.spill here, by simp⟩
      | idle | allocWait | freeWait | freeBwrite => simp [system, here] at moved
  | written =>
      cases here : w.loc p with
      | freeBwrite bno =>
          simp only [system, here] at moved
          obtain ⟨rfl, rfl⟩ := Prod.mk.inj (Option.some.inj moved)
          exact ⟨bno :: list, whole.written here, by simp⟩
      | idle | allocWait | allocBread | allocGetblk | freeWait | freeGetblk =>
          simp [system, here] at moved
  | data bno contents =>
      cases here : w.loc p with
      | idle =>
          simp only [system, here] at moved
          obtain ⟨rfl, rfl⟩ := Prod.mk.inj (Option.some.inj moved)
          exact ⟨list, whole.data here may, by simp⟩
      | allocWait | allocBread | allocGetblk | freeWait | freeGetblk | freeBwrite =>
          simp [system, here] at moved

theorem of_run (run : (system ι).Run (Initial first) Careful w) : ∃ list, Whole first w list := by
  refine run.invariant (fun w => ∃ list, Whole first w list) (fun s fresh => ?_)
    fun w p e s l ⟨list, whole⟩ may moved => ?_
  · refine ⟨first,
      { kept := ?_, free := fun _ => fresh.listed, facts := fun _ => trivial
        unlocked := fun _ _ => rfl
        single := fun _ _ left => by simp [system, Place.locking] at left
        nfree := fresh.nfree, ninode := fresh.ninode, range := fresh.range
        hands := by simp [system, Place.hand, Hand.things] }⟩
    simpa [ledger, fresh.fresh, system, Place.hand] using Ledger.Kept.start fresh.distinct
  · obtain ⟨rest, whole', -⟩ := whole.step may moved
    exact ⟨rest, whole'⟩

end Whole

/-- However `alloc` and `free` are interleaved, the free list loses no block and hands out none
twice, as long as a block is freed by whoever owns it. -/
theorem conserved_of_run [DecidableEq ι] (run : (system ι).Run (Initial first) Careful w) :
    ∃ list, Conserved first w list := by
  obtain ⟨list, whole⟩ := Whole.of_run run
  refine ⟨list,
    { listed := whole.freeList
      distinct := whole.kept.apart.free
      range := whole.range
      balance := whole.kept.balance
      pending := whole.kept.pending
      alternates := whole.kept.alternates
      enospc := fun p e w' may moved refused => ?_ }⟩
  obtain ⟨s, l, stepped, rfl⟩ := System.move_eq_some.mp moved
  obtain ⟨-, -, empty⟩ := whole.step may stepped
  exact empty refused

/-! ## A block freed while a call still has it -/

/-- Blocks are freed when they are not on the list, even if a call has just taken them off. -/
def Unlisted {ι : Type*} (w : World ι State Place) (_ : ι) : Event → Prop
  | .free bno => InRange w.shared.fp bno ∧ ∀ list, FreeList w list → bno ∉ list
  | .data bno _ => Owned w bno
  | .alloc | .unlocked | .buffer | .written => True

/-- A device of ten blocks whose free list is block 7. -/
def sevenLeft : State where
  fp := ⟨2, 10, 2, fun i => if i = 1 then 7 else 0, 0, fun _ => 0, 0, 0, 0, 0⟩
  block _ := ⟨0, fun _ => 0⟩
  log := []

theorem sevenLeft_initial : Initial [7] sevenLeft where
  listed := .next (by decide) (.last rfl)
  distinct := by decide
  range := by simp [InRange, Filsys.badblock, sevenLeft]
  unlocked := rfl
  nfree := by decide
  ninode := by decide
  fresh := rfl

/-- A second process finds no block while the first one takes block 7, and takes it when it has been
freed. -/
theorem conserved_sevenLeft :
    ∃ w, (system Bool).Run (Initial [7]) Careful w ∧
      w.shared.log = [.taken 7, .returned 7, .taken 7, .refused] ∧
      ∃ list, Conserved [7] w list := by
  have start : (system Bool).Run (Initial [7]) Careful _ := .start sevenLeft_initial
  have called := start.next (p := false) (e := Event.alloc) trivial rfl
  have refused := called.next (p := true) (e := Event.alloc) trivial rfl
  have got := refused.next (p := false) (e := Event.buffer) trivial rfl
  have freed := got.next (p := false) (e := Event.free 7) (by
    refine ⟨⟨by decide, rfl⟩, fun list listed => ?_, fun p => ?_⟩
    · cases listed.1 rfl with
      | empty => simp
    · cases p <;> simp [system, Place.hand, Hand.things]) rfl
  have again := freed.next (p := true) (e := Event.alloc) trivial rfl
  have run := again.next (p := true) (e := Event.buffer) trivial rfl
  exact ⟨_, run, rfl, conserved_of_run run⟩

/-- One call takes block 7 and sleeps in `getblk`, another frees it, a third takes and returns
it, and then the first returns it as well. -/
theorem not_forall_run_alternates :
    ¬∀ w, (system ℕ).Run (Initial [7]) Unlisted w → Alternates w.shared.log := by
  intro all
  have start : (system ℕ).Run (Initial [7]) Unlisted _ := .start sevenLeft_initial
  have popped := start.next (p := 0) (e := Event.alloc) trivial rfl
  have freed := popped.next (p := 1) (e := Event.free 7) (by
    refine ⟨⟨by decide, rfl⟩, fun list listed => ?_⟩
    cases listed.1 rfl with
    | last => simp
    | link more => exact absurd rfl more) rfl
  have again := freed.next (p := 2) (e := Event.alloc) trivial rfl
  have second := again.next (p := 2) (e := Event.buffer) trivial rfl
  have first := second.next (p := 0) (e := Event.buffer) trivial rfl
  exact (all _ first).1 (.inl rfl)

end Alloc

end UnixV7
