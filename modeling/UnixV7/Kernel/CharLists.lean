import UnixV7.Kernel.Clist

/-!
# Character lists as queues

All calls on any number of character lists that share the free blocks. Whatever calls are made,
each list answers like a queue of bytes, and every block is free or belongs to one list.
-/

namespace UnixV7

open Function

namespace Prim

variable {κ : Type*} [DecidableEq κ]

/-- The calls; `b_to_q` comes with the buffer it reads. -/
inductive Call (κ : Type*)
  | putc (c : BitVec 32) (p : κ)
  | getc (p : κ)
  | b_to_q (cp : ℕ → UInt8) (cc : ℤ) (p : κ)
  | q_to_b (p : κ) (cc : ℤ)
  | getw (p : κ)
  | putw (c : BitVec 32) (p : κ)
  | ndqb (p : κ) (flag : BitVec 32)
  | ndflush (p : κ) (cc : ℤ)

/-- What a call returns, 0 for `ndflush`, and the bytes that it stores in a buffer. -/
structure Reply where
  value : ℤ
  stored : List UInt8

/-- The reply to a call, and the state after it. -/
def call (m : Prim κ) : Call κ → Reply × Prim κ
  | .putc c p => (⟨(m.putc c p).1, []⟩, (m.putc c p).2)
  | .getc p => (⟨(m.getc p).1, []⟩, (m.getc p).2)
  | .b_to_q cp cc p => (⟨(m.b_to_q cp cc p).1, []⟩, (m.b_to_q cp cc p).2)
  | .q_to_b p cc => (⟨(m.q_to_b p cc).1.length, (m.q_to_b p cc).1⟩, (m.q_to_b p cc).2)
  | .getw p => (⟨(m.getw p).1, []⟩, (m.getw p).2)
  | .putw c p => (⟨(m.putw c p).1, []⟩, (m.putw c p).2)
  | .ndqb p flag => (⟨m.ndqb p flag, []⟩, m)
  | .ndflush p cc => (⟨0, []⟩, m.ndflush p cc)

/-- `ndflush` comes after `ndqb`, with a count of at most what that has returned. -/
def Proper (m : Prim κ) : Call κ → Prop
  | .ndflush p cc => ∃ flag, cc ≤ m.ndqb p flag
  | _ => True

/-- The calls made with their replies, from `cinit` on. -/
inductive Run (cfree : ℕ) : List (Call κ × Reply) → Prim κ → Prop
  | start {m : Prim κ} : m.cfreelist = none → (∀ p, m.clist p = ⟨0, 0, 0⟩) →
      Run cfree [] (m.cinit cfree)
  | call {m : Prim κ} {log : List (Call κ × Reply)} {c : Call κ} : Run cfree log m → Proper m c →
      Run cfree (log ++ [(c, (m.call c).1)]) (m.call c).2

/-! ## Queues of bytes -/

/-- How a queue of bytes answers a call. It may refuse bytes, and both bytes of a number; `ndqb`
counts in a first piece of it that is never empty. -/
def Answers (r : Reply) (q : List UInt8) : Call κ → List UInt8 → Prop
  | .putc c _, q' => (r = ⟨0, []⟩ ∧ q' = q ++ [char c]) ∨ (r = ⟨-1, []⟩ ∧ q' = q)
  | .getc _, q' => (∃ c : UInt8, r = ⟨c.toNat, []⟩ ∧ q = c :: q') ∨
      (r = ⟨-1, []⟩ ∧ q = [] ∧ q' = [])
  | .b_to_q cp cc _, q' => ∃ moved left : ℕ, left + moved = cc.toNat ∧ r = ⟨left, []⟩ ∧
      q' = q ++ buffer cp moved
  | .q_to_b _ cc, q' => r = ⟨(q.take cc.toNat).length, q.take cc.toNat⟩ ∧ q' = q.drop cc.toNat
  | .getw _, q' => (∃ c d : UInt8, r = ⟨c.toNat + 256 * d.toNat, []⟩ ∧ q = c :: d :: q') ∨
      (r = ⟨-1, []⟩ ∧ q.length ≤ 1 ∧ q' = q)
  | .putw c _, q' => (r = ⟨0, []⟩ ∧ q' = q ++ [char c, char (c.sshiftRight 8)]) ∨
      (r = ⟨-1, []⟩ ∧ q' = q)
  | .ndqb _ flag, q' => q' = q ∧ ∃ room : ℕ, 0 < room ∧ room ≤ CBSIZE ∧
      r = ⟨(unflagged flag (q.take room)).length, []⟩
  | .ndflush _ cc, q' => r = ⟨0, []⟩ ∧ q' = q.drop cc.toNat

/-- The list that a call is about. -/
def Call.list : Call κ → κ
  | .putc _ p | .getc p | .b_to_q _ _ p | .q_to_b p _ | .getw p | .putw _ p | .ndqb p _
  | .ndflush p _ => p

/-- The queues that have given the replies of a log, empty at first. -/
inductive Served : List (Call κ × Reply) → (κ → List UInt8) → Prop
  | start : Served [] fun _ => []
  | call {log : List (Call κ × Reply)} {queue : κ → List UInt8} {c : Call κ} {r : Reply}
      {q' : List UInt8} : Served log queue → Answers r (queue c.list) c q' →
      Served (log ++ [(c, r)]) (update queue c.list q')

/-- A call on one list answers as its queue does. -/
theorem Own.call {m : Prim κ} {c : Call κ} {bs free : List ℕ} {bytes : List UInt8}
    (own : m.Own c.list bs free bytes) (proper : Proper m c) :
    ∃ bytes', Answers (m.call c).1 bytes c bytes' ∧ Step m c.list bs free (m.call c).2 bytes' := by
  cases c with
  | putc c p =>
      simp only [Call.list] at own ⊢
      rcases own.putc c with ⟨fine, -, step⟩ | ⟨failed, -, -⟩
      · exact ⟨_, .inl ⟨by simp [Prim.call, fine], rfl⟩, step⟩
      · refine ⟨_, .inr ⟨by simp [Prim.call, failed], rfl⟩, ?_⟩
        simpa [Prim.call, failed] using own.refl
  | getc p =>
      simp only [Call.list] at own ⊢
      cases bytes with
      | nil =>
          have none := own.getc_nil
          refine ⟨[], .inr ⟨by simp [Prim.call, none], rfl, rfl⟩, ?_⟩
          simpa [Prim.call, none] using own.refl
      | cons b bytes =>
          obtain ⟨first, step⟩ := own.getc
          exact ⟨bytes, .inl ⟨b, by simp [Prim.call, first], rfl⟩, step⟩
  | b_to_q cp cc p =>
      simp only [Call.list] at own ⊢
      obtain ⟨moved, left, -, step⟩ := own.b_to_q cc cp
      exact ⟨_, ⟨moved, _, left, rfl, rfl⟩, step⟩
  | q_to_b p cc =>
      simp only [Call.list] at own ⊢
      obtain ⟨stored, step⟩ := own.q_to_b cc
      exact ⟨_, ⟨by simp [Prim.call, stored], rfl⟩, step⟩
  | getw p =>
      simp only [Call.list] at own ⊢
      by_cases short : bytes.length ≤ 1
      · have none := own.getw_short short
        refine ⟨bytes, .inr ⟨by simp [Prim.call, none], short, rfl⟩, ?_⟩
        simpa [Prim.call, none] using own.refl
      · obtain ⟨b, d, rest, rfl⟩ : ∃ b d rest, bytes = b :: d :: rest := by
          match bytes, short with
          | [], short => exact absurd (Nat.zero_le 1) short
          | [_], short => exact absurd (Nat.le_refl 1) short
          | b :: d :: rest, _ => exact ⟨b, d, rest, rfl⟩
        obtain ⟨first, step⟩ := own.getw
        exact ⟨rest, .inl ⟨b, d, by simp [Prim.call, first], rfl⟩, step⟩
  | putw c p =>
      simp only [Call.list] at own ⊢
      rcases own.putw c with ⟨fine, step⟩ | ⟨failed, -⟩
      · exact ⟨_, .inl ⟨by simp [Prim.call, fine], rfl⟩, step⟩
      · refine ⟨_, .inr ⟨by simp [Prim.call, failed], rfl⟩, ?_⟩
        simpa [Prim.call, failed] using own.refl
  | ndqb p flag =>
      simp only [Call.list] at own ⊢
      obtain ⟨room, some, small, value⟩ := own.ndqb_room flag
      exact ⟨_, ⟨rfl, room, some, small, by simp [Prim.call, value]⟩, own.refl⟩
  | ndflush p cc =>
      simp only [Call.list] at own ⊢
      obtain ⟨flag, counted⟩ := proper
      exact ⟨_, ⟨rfl, rfl⟩, own.ndflush flag cc counted⟩

/-! ## All lists together -/

/-- The lists hold `queue` in `blocks`, the other blocks are free, and no block is in two places. -/
structure Laid (cfree : ℕ) (m : Prim κ) (blocks : κ → List ℕ) (free : List ℕ)
    (queue : κ → List UInt8) : Prop where
  chain : Chain m.c_next m.cfreelist free
  holds : ∀ p, m.Holds (m.clist p) (blocks p) (queue p)
  apart : Apart blocks free
  all : ∀ b, b ∈ cblocks cfree ↔ b ∈ free ∨ ∃ p, b ∈ blocks p

/-- The last block of a list, if there is one, is filled to its end. -/
def Filled (m : Prim κ) (p : κ) (blocks : List ℕ) : Prop :=
  ∀ bp ∈ blocks.getLast?, (m.clist p).c_cl = cblock (bp + 1)

section

variable {cfree : ℕ} {m : Prim κ} {p : κ} {blocks : κ → List ℕ} {bs free : List ℕ}
  {queue : κ → List UInt8} {bytes : List UInt8} {log : List (Call κ × Reply)}

omit [DecidableEq κ] in
theorem Own.full_iff (own : m.Own p bs free bytes) : m.Full p ↔ m.Filled p bs := by
  rw [Full, and_cround]
  by_cases empty : bytes = []
  · subst empty
    obtain ⟨rfl, null⟩ := own.holds.of_nil
    simp [Filled, null]
  · have stretch := own.holds.stretch_of_pos (List.length_pos_iff.mpr empty)
    have null := stretch.pos
    obtain ⟨front, rfl, -, room⟩ := stretch.last_block
    simp only [Filled, List.getLast?_append, List.getLast?_singleton, Option.some_or,
      Option.mem_some_iff, forall_eq', cblock_eq, blockOf_eq] at room ⊢
    omega

namespace Laid

omit [DecidableEq κ] in
theorem own (laid : Laid cfree m blocks free queue) (p : κ) :
    m.Own p (blocks p) free (queue p) :=
  ⟨laid.chain, laid.holds p, laid.apart.own p⟩

/-- A change of one list keeps the others. -/
theorem step {m' : Prim κ} (laid : Laid cfree m blocks free queue)
    (step : Step m p (blocks p) free m' bytes) :
    ∃ blocks' free', Laid cfree m' blocks' free' (update queue p bytes) := by
  obtain ⟨bs, free', own, perm, within⟩ := step
  have traded : (update blocks p bs p ++ free').Perm (blocks p ++ free) := by rwa [update_self]
  have same : ∀ y, y ≠ p → update blocks p bs y = blocks y := fun y other => update_of_ne other _ _
  refine ⟨update blocks p bs, free', own.chain, fun y => ?_, laid.apart.trade traded same,
    fun b => (laid.all b).trans (mem_iff_of_trade traded same).symm⟩
  by_cases here : y = p
  · subst here
    rw [update_self, update_self]
    exact own.holds
  · rw [same y here, update_of_ne here, within.lists y here]
    refine (laid.holds y).congr (fun b mem => ?_) fun a mem => ?_
    · exact within.links b (laid.apart.not_mem_append mem here)
    · exact within.chars a (laid.apart.not_mem_append mem here)

end Laid

omit [DecidableEq κ] in
/-- Blocks released one after the other are free. -/
theorem foldl_release (l : List ℕ) (chain : Chain m.c_next m.cfreelist free)
    (distinct : (l ++ free).Nodup) :
    Chain (l.foldl release m).c_next (l.foldl release m).cfreelist (l.reverse ++ free) ∧
      (l.foldl release m).clist = m.clist := by
  induction l generalizing m free with
  | nil => exact ⟨chain, rfl⟩
  | cons b l ih =>
      rw [List.cons_append, List.nodup_cons, List.mem_append, not_or] at distinct
      obtain ⟨⟨fresh, unfree⟩, distinct⟩ := distinct
      have pushed : Chain (m.release b).c_next (m.release b).cfreelist (b :: free) :=
        chain.push unfree
      have apart : (l ++ b :: free).Nodup :=
        List.perm_middle.nodup_iff.mpr (List.nodup_cons.mpr ⟨by simp [fresh, unfree], distinct⟩)
      obtain ⟨rest, same⟩ := ih pushed apart
      rw [List.reverse_cons, List.append_assoc]
      exact ⟨rest, same⟩

omit [DecidableEq κ] in
/-- After `cinit` all blocks are free and the lists are empty. -/
theorem laid_cinit (empty : m.cfreelist = none) (null : ∀ p, m.clist p = ⟨0, 0, 0⟩) :
    Laid cfree (m.cinit cfree) (fun _ => []) (cblocks cfree).reverse fun _ => [] := by
  have distinct : (cblocks cfree).Nodup := List.nodup_range'
  have chain : Chain m.c_next m.cfreelist [] := empty
  obtain ⟨chain, same⟩ := foldl_release (cblocks cfree) chain (by rwa [List.append_nil])
  rw [List.append_nil] at chain
  refine ⟨chain, fun p => ?_, ⟨List.nodup_reverse.mpr distinct, fun p => ?_, fun _ _ _ => ?_⟩, ?_⟩
  · rw [cinit, same, null p]
    exact .empty
  · rw [List.nil_append]
    exact List.nodup_reverse.mpr distinct
  · exact List.disjoint_nil_left _
  · simp

/-- Whatever calls are made, the lists hold what queues of bytes would that gave the same
replies. -/
theorem laid_of_run (run : Run cfree log m) :
    ∃ queue blocks free, Served log queue ∧ Laid cfree m blocks free queue := by
  induction run with
  | start empty null => exact ⟨_, _, _, .start, laid_cinit empty null⟩
  | @call m log c run proper ih =>
      obtain ⟨queue, blocks, free, served, laid⟩ := ih
      obtain ⟨bytes, answer, step⟩ := (laid.own c.list).call proper
      obtain ⟨blocks', free', laid'⟩ := laid.step step
      exact ⟨_, blocks', free', served.call answer, laid'⟩

/-- Each list is a queue of bytes with the count of its length, every block is free or in one list
only, an empty list has no block, `putc` fails if and only if it needs a new block and none is free,
`putw` if and only if none is free, in which cases nothing has changed, `ndqb` counts the first
characters that lie in one block and have no bit of the flag, and `b_to_q` leaves something only if
no block is free. -/
theorem queues_of_run (run : Run cfree log m) :
    ∃ queue blocks free, Served log queue ∧ Laid cfree m blocks free queue ∧
      (∀ p, (m.clist p).c_cc = (queue p).length ∧ (queue p = [] → blocks p = [])) ∧
      (∀ c p, ((m.putc c p).1 = -1 ↔ m.Filled p (blocks p) ∧ free = []) ∧
        ((m.putc c p).1 = -1 → (m.putc c p).2 = m)) ∧
      (∀ c p, ((m.putw c p).1 = -1 ↔ free = []) ∧ ((m.putw c p).1 = -1 → (m.putw c p).2 = m)) ∧
      (∀ p flag, m.ndqb p flag =
        (unflagged flag ((queue p).take (ahead (m.clist p).c_cf))).length) ∧
      ∀ cp cc p, (m.b_to_q cp cc p).1 ≠ 0 → (m.b_to_q cp cc p).2.cfreelist = none := by
  obtain ⟨queue, blocks, free, served, laid⟩ := laid_of_run run
  have none : m.cfreelist = none ↔ free = [] := by
    rw [laid.chain.start_eq, List.head?_eq_none_iff]
  refine ⟨queue, blocks, free, served, laid, fun p => ?_, fun c p => ?_, fun c p => ?_,
    fun p flag => (laid.own p).ndqb_eq flag, fun cp cc p => ?_⟩
  · have holds := laid.holds p
    refine ⟨holds.c_cc, fun empty => ?_⟩
    rw [empty] at holds
    exact holds.of_nil.1
  · have own := laid.own p
    rw [← own.full_iff, ← none]
    rcases own.putc c with ⟨fine, room, -⟩ | ⟨failed, full, empty⟩
    · simp [fine, room]
    · simp [failed, full, empty]
  · refine ⟨(putw_none c).trans none, fun refused => ?_⟩
    rcases (laid.own p).putw c with ⟨fine, -⟩ | ⟨failed, -⟩
    · rw [fine] at refused
      exact absurd refused (by decide)
    · rw [failed]
  · obtain ⟨-, -, short, -⟩ := (laid.own p).b_to_q cc cp
    exact short

end

/-- Characters put into two lists in turn come out of the list they were put into, also across
the end of a block. -/
theorem queues_two_lists :
    ∃ (m : Prim Bool) (queue : Bool → List UInt8),
      let log : List (Call Bool × Reply) :=
        [(.putc 97 true, ⟨0, []⟩), (.b_to_q (fun i => .ofNat (100 + i)) 14 false, ⟨0, []⟩),
          (.putw 0x6362 true, ⟨0, []⟩), (.ndqb false 0, ⟨12, []⟩), (.ndflush false 12, ⟨0, []⟩),
          (.getc false, ⟨112, []⟩), (.getw true, ⟨0x6261, []⟩)]
      Run 4096 log m ∧ Served log queue ∧ (m.clist true).c_cc = (queue true).length := by
  have start : Run 4096 [] ((⟨fun _ => none, fun _ => 0, none, 0, fun _ => ⟨0, 0, 0⟩⟩ :
      Prim Bool).cinit 4096) := .start rfl fun _ => rfl
  have filled := ((start.call (c := .putc 97 true) trivial).call
    (c := .b_to_q (fun i => .ofNat (100 + i)) 14 false) trivial).call (c := .putw 0x6362 true)
      trivial
  have run := (((filled.call (c := .ndqb false 0) trivial).call (c := .ndflush false 12)
    ⟨0, by decide +kernel⟩).call (c := .getc false) trivial).call (c := .getw true) trivial
  obtain ⟨queue, _, _, served, _, counts, -⟩ := queues_of_run run
  exact ⟨_, queue, run, served, (counts true).1⟩

end Prim

end UnixV7
