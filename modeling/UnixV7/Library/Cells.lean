import Mathlib.Data.List.Basic
import Mathlib.Data.List.Chain
import Mathlib.Data.List.Pairwise
import Mathlib.Logic.Function.Basic
import Mathlib.Logic.Relation
import Mathlib.Tactic.Common

/-!
# Chains of cells

Memory is cut into blocks by cells that lie at increasing positions. Each cell says where the
next one is and whether the block behind it is in use. The lemmas give the effect of the edits
of such a chain: an idle cell is joined with the idle one behind it, a cell changes its mark, a
block is cut in two, and the chain grows at its end.
-/

namespace UnixV7

open Function Relation

/-- A cell of a chain: where it is, and whether its block is in use. -/
@[ext] structure Cell where
  pos : ℕ
  busy : Bool
  deriving DecidableEq

namespace Cell

variable {next other : ℕ → ℕ × Bool} {cells cells' front back more : List Cell} {c d : Cell}
  {stop p q : ℕ} {busy : Bool}

/-- The position of the first cell, or of what follows if there is none. -/
def start (cells : List Cell) (stop : ℕ) : ℕ :=
  match cells with
  | [] => stop
  | c :: _ => c.pos

/-- Each cell leads to the one behind it, the last one to `stop`. -/
def Linked (next : ℕ → ℕ × Bool) : List Cell → ℕ → Prop
  | [], _ => True
  | c :: cells, stop => next c.pos = (start cells stop, c.busy) ∧ Linked next cells stop

/-- The positions increase. -/
def Rising (cells : List Cell) : Prop := cells.Pairwise fun c d => c.pos < d.pos

@[simp] theorem start_nil : start [] stop = stop := rfl

@[simp] theorem start_cons : start (c :: cells) stop = c.pos := rfl

@[simp] theorem linked_nil : Linked next [] stop := trivial

@[simp] theorem linked_cons : Linked next (c :: cells) stop ↔
    next c.pos = (start cells stop, c.busy) ∧ Linked next cells stop := Iff.rfl

theorem start_append : start (front ++ back) stop = start front (start back stop) := by
  cases front <;> rfl

theorem linked_append : Linked next (front ++ back) stop ↔
    Linked next front (start back stop) ∧ Linked next back stop := by
  induction front with
  | nil => simp
  | cons c front ih => simp [ih, start_append, and_assoc]

/-- The links depend only on what the cells say. -/
theorem Linked.congr (linked : Linked next cells stop)
    (same : ∀ c ∈ cells, other c.pos = next c.pos) : Linked other cells stop := by
  induction cells with
  | nil => trivial
  | cons c cells ih =>
      refine ⟨(same c List.mem_cons_self).trans linked.1, ih linked.2 fun d mem => ?_⟩
      exact same d (List.mem_cons_of_mem c mem)

/-- A cell of a rising chain, and the cells before and behind it. -/
theorem Rising.split (rising : Rising (front ++ c :: back)) :
    (∀ d ∈ front, d.pos < c.pos) ∧ (∀ d ∈ back, c.pos < d.pos) ∧ Rising front ∧ Rising back := by
  obtain ⟨left, right, across⟩ := List.pairwise_append.mp rising
  obtain ⟨after, right⟩ := List.pairwise_cons.mp right
  exact ⟨fun d mem => across d mem c List.mem_cons_self, after, left, right⟩

/-- Positions tell the cells of a rising chain apart. -/
theorem Rising.unique (rising : Rising cells) (mem : c ∈ cells) (mem' : d ∈ cells)
    (same : c.pos = d.pos) : c = d := by
  induction cells with
  | nil => cases mem
  | cons e cells ih =>
      obtain ⟨after, rising⟩ := List.pairwise_cons.mp rising
      rcases List.mem_cons.mp mem with rfl | late
      · rcases List.mem_cons.mp mem' with rfl | late'
        · rfl
        · have behind := after d late'
          omega
      · rcases List.mem_cons.mp mem' with rfl | late'
        · have behind := after c late
          omega
        · exact ih rising late late'

/-- No cell lies between two neighbours. -/
theorem Rising.between {e : Cell} (rising : Rising (front ++ c :: d :: back))
    (mem : e ∈ front ++ c :: d :: back) : e.pos < c.pos ∨ e = c ∨ d.pos ≤ e.pos := by
  obtain ⟨before, -, -, right⟩ := rising.split
  rcases List.mem_append.mp mem with early | late
  · exact .inl (before e early)
  · rcases List.mem_cons.mp late with rfl | late
    · exact .inr (.inl rfl)
    · rcases List.mem_cons.mp late with rfl | late
      · exact .inr (.inr (Nat.le_refl _))
      · exact .inr (.inr (Nat.le_of_lt ((List.pairwise_cons.mp right).1 e late)))

theorem Rising.nodup (rising : Rising cells) : cells.Nodup := by
  refine List.Pairwise.imp ?_ rising
  rintro c d before rfl
  omega

/-- A rising chain is not longer than what it stretches over. -/
theorem Rising.length_le {low high : ℕ} (rising : Rising cells) (above : ∀ c ∈ cells, low ≤ c.pos)
    (below : ∀ c ∈ cells, c.pos < high) : cells.length ≤ high - low := by
  induction cells generalizing low with
  | nil => simp
  | cons c cells ih =>
      obtain ⟨after, rising⟩ := List.pairwise_cons.mp rising
      have rest := ih rising (fun d mem => after d mem) fun d mem =>
        below d (List.mem_cons_of_mem c mem)
      have here := above c List.mem_cons_self
      have first := below c List.mem_cons_self
      rw [List.length_cons]
      omega

/-- The links and the first cell determine a chain that leads back. -/
theorem Linked.unique (linked : Linked next (c :: cells) stop)
    (linked' : Linked next (d :: cells') stop) (rising : Rising (c :: cells))
    (rising' : Rising (d :: cells')) (low : stop ≤ c.pos) (first : c.pos = d.pos) :
    c :: cells = d :: cells' := by
  induction cells generalizing c d cells' with
  | nil =>
      obtain ⟨here, -⟩ := linked
      obtain ⟨here', -⟩ := linked'
      rw [first, here', Prod.mk.injEq] at here
      have same : c = d := Cell.ext first here.2.symm
      cases cells' with
      | nil => rw [same]
      | cons e cells' =>
          have after := (List.pairwise_cons.mp rising').1 e List.mem_cons_self
          have back : e.pos = stop := here.1
          omega
  | cons e cells ih =>
      obtain ⟨here, linked⟩ := linked
      obtain ⟨here', linked'⟩ := linked'
      rw [first, here', Prod.mk.injEq] at here
      have same : c = d := Cell.ext first here.2.symm
      obtain ⟨after, rising⟩ := List.pairwise_cons.mp rising
      have behind := after e List.mem_cons_self
      cases cells' with
      | nil =>
          have back : stop = e.pos := here.1
          omega
      | cons e' cells' =>
          rw [same, ih linked linked' rising (List.pairwise_cons.mp rising').2 (by omega)
            here.1.symm]

/-- The marks of the cells do not matter for their order. -/
theorem Rising.mark (rising : Rising (front ++ c :: back)) (same : d.pos = c.pos) :
    Rising (front ++ d :: back) := by
  obtain ⟨before, after, left, right⟩ := rising.split
  refine List.pairwise_append.mpr ⟨left, List.pairwise_cons.mpr ⟨fun e mem => ?_, right⟩, ?_⟩
  · rw [same]
    exact after e mem
  · intro a early b late
    rcases List.mem_cons.mp late with rfl | late
    · rw [same]
      exact before a early
    · exact Nat.lt_trans (before a early) (after b late)

/-- A cell between two others. -/
theorem Rising.insert {m : Cell} (rising : Rising (front ++ c :: d :: back)) (low : c.pos < m.pos)
    (high : m.pos < d.pos) : Rising (front ++ c :: m :: d :: back) := by
  obtain ⟨before, after, left, right⟩ := rising.split
  have behind := (List.pairwise_cons.mp right).1
  have late : ∀ e ∈ d :: back, m.pos < e.pos := by
    intro e mem
    rcases List.mem_cons.mp mem with rfl | mem
    · exact high
    · exact Nat.lt_trans high (behind e mem)
  refine List.pairwise_append.mpr ⟨left, ?_, fun a early b mem => ?_⟩
  · refine List.pairwise_cons.mpr ⟨fun e mem => ?_, List.pairwise_cons.mpr ⟨late, right⟩⟩
    rcases List.mem_cons.mp mem with rfl | mem
    · exact low
    · exact after e mem
  · rcases List.mem_cons.mp mem with rfl | mem
    · exact before a early
    · rcases List.mem_cons.mp mem with rfl | mem
      · exact Nat.lt_trans (before a early) low
      · exact Nat.lt_trans (before a early) (after b mem)

/-! ## Edits -/

/-- What one cell says, and the chain from there on, is replaced. -/
theorem Linked.replace (linked : Linked next front c.pos)
    (away : ∀ d ∈ front, other d.pos = next d.pos) (here : other c.pos = (start back stop, c.busy))
    (rest : Linked other back stop) : Linked other (front ++ c :: back) stop :=
  linked_append.mpr ⟨linked.congr away, here, rest⟩

/-- An idle cell is joined with the idle cell behind it. -/
inductive Join : List Cell → List Cell → Prop
  | join (front : List Cell) (p q : ℕ) (back : List Cell) :
      Join (front ++ ⟨p, false⟩ :: ⟨q, false⟩ :: back) (front ++ ⟨p, false⟩ :: back)

/-- Idle cells are joined. -/
def Joined : List Cell → List Cell → Prop := ReflTransGen Join

/-- An idle cell has an idle one before it, with no busy one in between. -/
def Follows (cells : List Cell) (c : Cell) : Prop :=
  c.busy = false ∧ ∃ e ∈ cells, e.busy = false ∧ e.pos < c.pos ∧
    ∀ d ∈ cells, d.busy → e.pos < d.pos → c.pos ≤ d.pos

theorem Join.sublist (join : Join cells cells') : cells'.Sublist cells := by
  cases join with
  | join front p q back =>
      exact (List.Sublist.refl front).append
        ((List.sublist_cons_self (⟨q, false⟩ : Cell) back).cons_cons _)

theorem Joined.refl (cells : List Cell) : Cell.Joined cells cells := ReflTransGen.refl

theorem Joined.trans (first : Cell.Joined cells cells') (second : Cell.Joined cells' more) :
    Cell.Joined cells more := ReflTransGen.trans first second

theorem Joined.sublist (joined : Cell.Joined cells cells') : cells'.Sublist cells := by
  induction joined with
  | refl => exact List.Sublist.refl _
  | tail _ join ih => exact join.sublist.trans ih

theorem Joined.rising (joined : Cell.Joined cells cells') (rising : Rising cells) : Rising cells' :=
  List.Pairwise.sublist joined.sublist rising

/-- A join takes away one idle cell that follows another. -/
theorem Join.lost (join : Join cells cells') (rising : Rising cells) (mem : c ∈ cells) :
    c ∈ cells' ∨ Follows cells c := by
  cases join with
  | join front p q back =>
      rcases List.mem_append.mp mem with early | late
      · exact .inl (List.mem_append_left _ early)
      · rcases List.mem_cons.mp late with rfl | late
        · exact .inl (by simp)
        · rcases List.mem_cons.mp late with rfl | late
          · have order := (Rising.split rising).2.1 ⟨q, false⟩ List.mem_cons_self
            refine .inr ⟨rfl, ⟨p, false⟩, by simp, rfl, order, fun d mem busy between => ?_⟩
            obtain ⟨before, after, -, rising⟩ := Rising.split rising
            rcases List.mem_append.mp mem with early | late
            · have earlier := before d early
              simp only at between earlier
              omega
            · rcases List.mem_cons.mp late with rfl | late
              · cases busy
              · rcases List.mem_cons.mp late with rfl | late
                · exact Nat.le_refl _
                · exact Nat.le_of_lt ((List.pairwise_cons.mp rising).1 d late)
          · exact .inl (by simp [late])

/-- Following is not brought about by joins. -/
theorem Join.follows (join : Join cells cells') (follows : Follows cells' c) : Follows cells c := by
  obtain ⟨idle, e, inside, idle', before, between⟩ := follows
  refine ⟨idle, e, join.sublist.subset inside, idle', before, fun d mem busy after => ?_⟩
  cases join with
  | join front p q back =>
      refine between d ?_ busy after
      rcases List.mem_append.mp mem with early | late
      · exact List.mem_append_left _ early
      · rcases List.mem_cons.mp late with rfl | late
        · cases busy
        · rcases List.mem_cons.mp late with rfl | late
          · cases busy
          · exact List.mem_append_right _ (List.mem_cons_of_mem _ late)

/-- A cell that is kept still follows another. -/
theorem Join.follows_kept (join : Join cells cells') (rising : Rising cells) (mem : c ∈ cells')
    (follows : Follows cells c) : Follows cells' c := by
  obtain ⟨idle, e, inside, idle', before, between⟩ := follows
  have fewer := join.sublist.subset
  cases join with
  | join front p q back =>
      by_cases lost : e = ⟨q, false⟩
      · -- what follows the cell that is lost follows the one it was joined with
        subst lost
        have order := rising.split.2.1 ⟨q, false⟩ List.mem_cons_self
        refine ⟨idle, ⟨p, false⟩, by simp, rfl, Nat.lt_trans order before,
          fun d mem busy after => ?_⟩
        obtain low | rfl | high := rising.between (fewer mem)
        · exact absurd after (Nat.lt_asymm low)
        · cases busy
        · refine between d (fewer mem) busy (Nat.lt_of_le_of_ne high fun same => ?_)
          have twice := rising.unique (d := ⟨q, false⟩) (fewer mem) (by simp) same.symm
          rw [twice] at busy
          cases busy
      · refine ⟨idle, e, ?_, idle', before, fun d mem => between d (fewer mem)⟩
        simp only [List.mem_append, List.mem_cons, lost, false_or] at inside ⊢
        exact inside

/-- Only idle cells that follow another are lost. -/
theorem Joined.lost (joined : Cell.Joined cells cells') (rising : Rising cells) (mem : c ∈ cells) :
    c ∈ cells' ∨ Follows cells c := by
  induction joined using ReflTransGen.head_induction_on with
  | refl => exact .inl mem
  | head join joined ih =>
      rcases join.lost rising mem with kept | follows
      · rcases ih (rising.sublist join.sublist) kept with kept | follows
        · exact .inl kept
        · exact .inr (join.follows follows)
      · exact .inr follows

/-- Busy cells are kept. -/
theorem Joined.keeps (joined : Cell.Joined cells cells') (rising : Rising cells) (mem : c ∈ cells)
    (busy : c.busy = true) : c ∈ cells' := by
  rcases joined.lost rising mem with kept | follows
  · exact kept
  · rw [follows.1] at busy
    cases busy

/-- The first cell is kept, since none is before it. -/
theorem Joined.head (joined : Cell.Joined (c :: cells) cells') : ∃ rest, cells' = c :: rest := by
  induction joined with
  | refl => exact ⟨cells, rfl⟩
  | tail _ join ih =>
      obtain ⟨rest, rfl⟩ := ih
      generalize whole : c :: rest = before at join
      cases join with
      | join front p q back =>
          cases front with
          | nil =>
              obtain ⟨rfl, -⟩ := List.cons.inj whole
              exact ⟨back, rfl⟩
          | cons e front =>
              obtain ⟨rfl, -⟩ := List.cons.inj whole
              exact ⟨front ++ ⟨p, false⟩ :: back, rfl⟩

/-! ## Room -/

/-- An idle cell with so much room up to the next busy one. -/
def Room (n : ℕ) (cells : List Cell) : Prop :=
  ∃ e ∈ cells, e.busy = false ∧ ∃ d ∈ cells, d.busy = true ∧ e.pos + n ≤ d.pos ∧
    ∀ x ∈ cells, x.busy = true → e.pos < x.pos → d.pos ≤ x.pos

/-- Behind every idle cell there is a busy one, and not enough room for it. -/
def Tight (n : ℕ) (cells : List Cell) : Prop :=
  cells.IsChain fun c d => c.busy = false → d.busy = true ∧ d.pos < c.pos + n

/-- Room is not lost by a join. -/
theorem Join.room {n : ℕ} (join : Join cells cells') (rising : Rising cells)
    (room : Room n cells) : Room n cells' := by
  obtain ⟨e, inside, idle, d, mem, busy, wide, between⟩ := room
  have kept : ∀ x ∈ cells, x.busy = true → x ∈ cells' := fun x mem busy =>
    Cell.Joined.keeps (ReflTransGen.single join) rising mem busy
  cases join with
  | join front p q back =>
      by_cases joined : e.pos = q
      · refine ⟨⟨p, false⟩, by simp, rfl, d, kept d mem busy, busy, ?_,
          fun x mem' busy' after => ?_⟩
        · have order := (Rising.split rising).2.1 ⟨q, false⟩ List.mem_cons_self
          simp only at order ⊢
          omega
        · refine between x ((Join.join front p q back).sublist.subset mem') busy' ?_
          obtain ⟨before, -, -, late⟩ := Rising.split rising
          rcases List.mem_append.mp mem' with early | tail
          · have earlier := before x early
            simp only at earlier after
            omega
          · rcases List.mem_cons.mp tail with rfl | tail
            · cases busy'
            · have later := (List.pairwise_cons.mp late).1 x tail
              simp only at later
              omega
      · refine ⟨e, ?_, idle, d, kept d mem busy, busy, wide, fun x mem' busy' after =>
          between x ((Join.join front p q back).sublist.subset mem') busy' after⟩
        rcases List.mem_append.mp inside with early | tail
        · exact List.mem_append_left _ early
        · rcases List.mem_cons.mp tail with rfl | tail
          · simp
          · rcases List.mem_cons.mp tail with rfl | tail
            · exact absurd rfl joined
            · simp [tail]

theorem Joined.room {n : ℕ} (joined : Cell.Joined cells cells') (rising : Rising cells)
    (room : Room n cells) : Room n cells' := by
  induction joined with
  | refl => exact room
  | tail joined join ih => exact join.room (Cell.Joined.rising joined rising) ih

/-- Room in a joined chain was there before. -/
theorem Joined.room_before {n : ℕ} (joined : Cell.Joined cells cells') (rising : Rising cells)
    (room : Room n cells') : Room n cells := by
  obtain ⟨e, inside, idle, d, mem, busy, wide, between⟩ := room
  exact ⟨e, joined.sublist.subset inside, idle, d, joined.sublist.subset mem, busy, wide,
    fun x mem busy => between x (joined.keeps rising mem busy) busy⟩

/-- In a tight chain no idle cell follows another. -/
theorem Tight.not_follows {n : ℕ} (tight : Tight n cells) (rising : Rising cells)
    (mem : c ∈ cells) : ¬Follows cells c := by
  rintro ⟨idle, e, inside, idle', before, between⟩
  obtain ⟨front, back, rfl⟩ := List.append_of_mem inside
  cases back with
  | nil =>
      obtain early | late := List.mem_append.mp mem
      · exact absurd (rising.split.1 c early) (Nat.lt_asymm before)
      · obtain rfl := List.mem_singleton.mp late
        exact absurd before (Nat.lt_irrefl _)
  | cons d back =>
      have link := (List.isChain_append.mp tight).2.1
      have full := ((List.isChain_cons_cons.mp link).1 idle').1
      have near := between d (by simp) full (rising.split.2.1 d List.mem_cons_self)
      obtain low | rfl | high := rising.between mem
      · exact absurd low (Nat.lt_asymm before)
      · exact absurd before (Nat.lt_irrefl _)
      · have same := rising.unique mem (d := d) (by simp) (Nat.le_antisymm near high)
        rw [same, full] at idle
        cases idle

/-- When a search has joined all it can, the cells that followed another are the ones lost. -/
theorem Joined.mem_iff {n : ℕ} (joined : Cell.Joined cells cells') (rising : Rising cells)
    (tight : Tight n cells') (mem : c ∈ cells) : c ∈ cells' ↔ ¬Follows cells c := by
  refine ⟨fun kept follows => ?_, (joined.lost rising mem).resolve_right⟩
  have still : ∀ {more}, Cell.Joined cells more → c ∈ more → Follows more c := by
    intro more joined
    induction joined with
    | refl => exact fun _ => follows
    | tail joined join ih =>
        intro kept
        exact join.follows_kept (Joined.rising joined rising) kept (ih (join.sublist.subset kept))
  exact tight.not_follows (joined.rising rising) kept (still joined kept)

/-- In a tight chain there is no room. -/
theorem Tight.no_room {n : ℕ} (tight : Tight n cells) (rising : Rising cells) (pos : 0 < n) :
    ¬Room n cells := by
  rintro ⟨e, inside, idle, d, mem, busy, wide, between⟩
  obtain ⟨front, back, rfl⟩ := List.append_of_mem inside
  obtain ⟨before, after, -, -⟩ := rising.split
  cases back with
  | nil =>
      rcases List.mem_append.mp mem with early | late
      · have earlier := before d early
        omega
      · obtain rfl : d = e := by simpa using late
        rw [idle] at busy
        cases busy
  | cons x back =>
      have link := (List.isChain_append.mp tight).2.1
      obtain ⟨full, near⟩ := (List.isChain_cons_cons.mp link).1 idle
      have reach := between x (by simp) full (after x List.mem_cons_self)
      omega

end Cell

end UnixV7
