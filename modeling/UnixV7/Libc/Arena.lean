import Mathlib.Algebra.Group.Nat.Defs
import UnixV7.Libc.Malloc
import UnixV7.Library.Cells

/-!
# The arena

The headers of the arena form a chain of cells from `allocs` to `alloct`. A search joins idle
cells and does nothing else to the chain, the growth adds a block at its end, and a block that is
handed out is cut off the front of an idle one.
-/

namespace UnixV7.Libc

open Function Cell

namespace Heap

/-- What the header at a word says: where the next one is, and whether the block is busy. -/
def link (h : Heap) (x : ℕ) : ℕ × Bool := (loc (h.mem x).ptr, testbusy (h.mem x).ptr)

/-- The headers from `allocs` to `alloct`, and back. -/
structure Chain (h : Heap) (cells : List Cell) : Prop where
  first : ∃ rest, cells = ⟨h.allocs, true⟩ :: rest
  last : ∃ front, cells = front ++ [⟨h.alloct, true⟩]
  linked : Linked h.link cells h.allocs
  rising : Rising cells
  proper : h.allocs < h.alloct

/-- Nothing but headers has changed. -/
structure Agree (cells : List Cell) (h h' : Heap) : Prop where
  allocs : h'.allocs = h.allocs
  allocp : h'.allocp = h.allocp
  alloct : h'.alloct = h.alloct
  mem : ∀ x, (∀ c ∈ cells, c.pos ≠ x) → h'.mem x = h.mem x

end Heap

section

variable {h h' : Heap} {cells cells' front back : List Cell} {c : Cell} {p q nw x v i : ℕ}

@[simp] theorem loc_ptrTo : loc (ptrTo i) = i := by simp [loc, ptrTo, WORD]

@[simp] theorem testbusy_ptrTo : testbusy (ptrTo i) = false := by
  refine decide_eq_false ?_
  simp only [ptrTo, WORD]
  omega

@[simp] theorem loc_setbusy : loc (setbusy v) = loc v := by
  simp only [loc, setbusy, WORD]
  omega

@[simp] theorem testbusy_setbusy : testbusy (setbusy v) = true := by
  refine decide_eq_true ?_
  simp only [setbusy]
  omega

@[simp] theorem loc_clearbusy : loc (clearbusy v) = loc v := by
  simp only [loc, clearbusy, WORD]
  omega

@[simp] theorem testbusy_clearbusy : testbusy (clearbusy v) = false := by
  refine decide_eq_false ?_
  simp only [clearbusy]
  omega

namespace Heap

@[simp] theorem mem_setPtr_self : ((h.setPtr p v).mem p).ptr = v := by simp [setPtr]

theorem mem_setPtr_of_ne (ne : x ≠ p) : (h.setPtr p v).mem x = h.mem x := update_of_ne ne ..

theorem link_setPtr_self : (h.setPtr p v).link p = (loc v, testbusy v) := by simp [link]

theorem link_setPtr_of_ne (ne : x ≠ p) : (h.setPtr p v).link x = h.link x := by
  rw [link, link, mem_setPtr_of_ne ne]

@[simp] theorem allocs_setPtr : (h.setPtr p v).allocs = h.allocs := rfl

@[simp] theorem allocp_setPtr : (h.setPtr p v).allocp = h.allocp := rfl

@[simp] theorem alloct_setPtr : (h.setPtr p v).alloct = h.alloct := rfl

namespace Agree

theorem refl (cells : List Cell) (h : Heap) : Agree cells h h := ⟨rfl, rfl, rfl, fun _ _ => rfl⟩

theorem trans {h'' : Heap} (first : Agree cells h h') (second : Agree cells' h' h'')
    (fewer : ∀ c ∈ cells', c ∈ cells) : Agree cells h h'' where
  allocs := second.allocs.trans first.allocs
  allocp := second.allocp.trans first.allocp
  alloct := second.alloct.trans first.alloct
  mem x away := (second.mem x fun c mem => away c (fewer c mem)).trans (first.mem x away)

theorem setPtr (mem : c ∈ cells) : Agree cells h (h.setPtr c.pos v) where
  allocs := rfl
  allocp := rfl
  alloct := rfl
  mem _ away := mem_setPtr_of_ne fun same => away c mem same.symm

end Agree

/-! ## The search -/

/-- The loop that joins idle blocks ends at the next busy one. -/
theorem coalesce_spec {stop fuel : ℕ} (enough : back.length ≤ fuel)
    (linked : Linked h.link (front ++ ⟨p, false⟩ :: back) stop)
    (rising : Rising (front ++ ⟨p, false⟩ :: back)) (ends : ∃ c ∈ back, c.busy = true) :
    ∃ q rest h', h.coalesce p fuel = some (q, h') ∧
      Linked h'.link (front ++ ⟨p, false⟩ :: ⟨q, true⟩ :: rest) stop ∧
      Cell.Joined (front ++ ⟨p, false⟩ :: back) (front ++ ⟨p, false⟩ :: ⟨q, true⟩ :: rest) ∧
      Agree (front ++ ⟨p, false⟩ :: back) h h' := by
  induction back generalizing h fuel with
  | nil =>
      obtain ⟨c, mem, -⟩ := ends
      cases mem
  | cons d back ih =>
      obtain ⟨fuel, rfl⟩ : ∃ more, fuel = more + 1 := ⟨fuel - 1, by simp at enough; omega⟩
      obtain ⟨early, here, there, late⟩ := linked_append.mp linked
      have target : loc (h.mem p).ptr = d.pos := congrArg Prod.fst here
      have mark : testbusy (h.mem d.pos).ptr = d.busy := congrArg Prod.snd there
      obtain ⟨q, busy⟩ := d
      simp only at target mark
      rw [coalesce]
      simp only [target, mark]
      cases busy with
      | true => exact ⟨q, back, h, rfl, linked, Cell.Joined.refl _, Agree.refl _ _⟩
      | false =>
          have order := rising.split
          have apart : p ≠ q := by
            have after := order.2.1 ⟨q, false⟩ List.mem_cons_self
            exact Nat.ne_of_lt after
          have join := Join.join front p q back
          have linked' : Linked (h.setPtr p (h.mem q).ptr).link (front ++ ⟨p, false⟩ :: back)
              stop := by
            refine Linked.replace early (fun d mem => ?_) ?_ (late.congr fun d mem => ?_)
            · refine link_setPtr_of_ne ?_
              have before := order.1 d mem
              exact Nat.ne_of_lt before
            · rw [link_setPtr_self]
              exact there
            · refine link_setPtr_of_ne ?_
              have after := order.2.1 d (List.mem_cons_of_mem _ mem)
              exact Nat.ne_of_gt after
          have ends' : ∃ c ∈ back, c.busy = true := by
            obtain ⟨c, mem, busy⟩ := ends
            rcases List.mem_cons.mp mem with rfl | mem
            · cases busy
            · exact ⟨c, mem, busy⟩
          obtain ⟨q', rest, h', returned, linked', joined, agree⟩ :=
            ih (by simp at enough; omega) linked' (rising.sublist join.sublist) ends'
          refine ⟨q', rest, h', by simpa using returned, linked',
            Relation.ReflTransGen.head join joined, ?_⟩
          exact (Agree.setPtr (c := ⟨p, false⟩) (by simp)).trans agree
            fun c => (join.sublist.subset ·)

namespace Chain

/-- The chain lies between `allocs` and `alloct`. -/
theorem bounds (chain : Chain h cells) (mem : c ∈ cells) : h.allocs ≤ c.pos ∧ c.pos ≤ h.alloct := by
  obtain ⟨rest, first⟩ := chain.first
  obtain ⟨front, last⟩ := chain.last
  constructor
  · rw [first] at mem
    rcases List.mem_cons.mp mem with rfl | mem
    · exact Nat.le_refl _
    · have rising := chain.rising
      rw [first] at rising
      exact Nat.le_of_lt ((List.pairwise_cons.mp rising).1 c mem)
  · rw [last] at mem
    rcases List.mem_append.mp mem with early | mem
    · have rising := chain.rising
      rw [last] at rising
      exact Nat.le_of_lt (rising.split.1 c early)
    · obtain rfl := List.mem_singleton.mp mem
      exact Nat.le_refl _

theorem alloct_mem (chain : Chain h cells) : ⟨h.alloct, true⟩ ∈ cells := by
  obtain ⟨front, rfl⟩ := chain.last
  simp

theorem allocs_mem (chain : Chain h cells) : ⟨h.allocs, true⟩ ∈ cells := by
  obtain ⟨rest, rfl⟩ := chain.first
  simp

theorem length_le (chain : Chain h cells) : cells.length ≤ h.span := by
  refine chain.rising.length_le (fun c mem => (chain.bounds mem).1) fun c mem => ?_
  exact Nat.lt_succ_of_le (chain.bounds mem).2

/-- A chain with idle cells joined. -/
theorem join (chain : Chain h cells) (joined : Cell.Joined cells cells') (agree : Agree cells h h')
    (linked : Linked h'.link cells' h.allocs) : Chain h' cells' := by
  have rising := joined.rising chain.rising
  refine ⟨?_, ?_, by rwa [agree.allocs], rising, ?_⟩
  · obtain ⟨rest, rfl⟩ := chain.first
    rw [agree.allocs]
    exact joined.head
  · have kept : ⟨h.alloct, true⟩ ∈ cells' := joined.keeps chain.rising chain.alloct_mem rfl
    obtain ⟨front, back, rfl⟩ := List.append_of_mem kept
    cases back with
    | nil => exact ⟨front, by rw [agree.alloct]⟩
    | cons d back =>
        have after : h.alloct < d.pos := rising.split.2.1 d List.mem_cons_self
        have inside := (chain.bounds (joined.sublist.subset (a := d) (by simp))).2
        omega
  · rw [agree.allocs, agree.alloct]
    exact chain.proper

/-- Where a cell leads. -/
theorem next (chain : Chain h (front ++ c :: back)) :
    loc (h.mem c.pos).ptr = start back h.allocs ∧ testbusy (h.mem c.pos).ptr = c.busy := by
  obtain ⟨-, here, -⟩ := linked_append.mp chain.linked
  exact ⟨congrArg Prod.fst here, congrArg Prod.snd here⟩

/-- The last cell is behind every other. -/
theorem ends (chain : Chain h (front ++ c :: back)) :
    back = [] ∧ c = ⟨h.alloct, true⟩ ∨ ∃ e ∈ back, e.busy = true := by
  obtain ⟨whole, last⟩ := chain.last
  cases List.eq_nil_or_concat back with
  | inl nil =>
      subst nil
      exact .inl ⟨rfl, by simpa using (List.append_inj' last rfl).2⟩
  | inr some =>
      obtain ⟨back, e, rfl⟩ := some
      rw [List.concat_eq_append, ← List.cons_append, ← List.append_assoc] at last
      obtain ⟨-, same⟩ := List.append_inj' last rfl
      refine .inr ⟨e, by simp, ?_⟩
      rw [List.cons.inj same |>.1]

end Chain

/-- There is only one chain. -/
theorem Chain.unique (chain : Chain h cells) (chain' : Chain h cells') : cells = cells' := by
  obtain ⟨rest, rfl⟩ := chain.first
  obtain ⟨rest', rfl⟩ := chain'.first
  exact chain.linked.unique chain'.linked chain.rising chain'.rising (Nat.le_refl _) rfl

/-- What the search does at a cell. -/
theorem look_spec (nw : ℕ) (chain : Chain h (front ++ c :: back)) :
    ∃ result back' h', h.look nw c.pos = some (result, h') ∧ Chain h' (front ++ c :: back') ∧
      Cell.Joined (front ++ c :: back) (front ++ c :: back') ∧ Agree (front ++ c :: back) h h' ∧
      match result with
      | some q => c.busy = false ∧ nw ≤ q - c.pos ∧ ∃ rest, back' = ⟨q, true⟩ :: rest
      | none => c.busy = false → ∃ q rest, back' = ⟨q, true⟩ :: rest ∧ q < c.pos + nw := by
  have mark := chain.next.2
  obtain ⟨p, busy⟩ := c
  simp only at mark
  rw [look, mark]
  cases busy with
  | true => exact ⟨none, back, h, rfl, chain, Cell.Joined.refl _, Agree.refl _ _,
    fun idle => by cases idle⟩
  | false =>
      have ends : ∃ e ∈ back, e.busy = true := by
        rcases chain.ends with ⟨-, last⟩ | ends
        · cases last
        · exact ends
      have enough : back.length ≤ h.span := by
        have length := chain.length_le
        simp only [List.length_append, List.length_cons] at length
        omega
      obtain ⟨q, rest, h', returned, linked, joined, agree⟩ :=
        coalesce_spec enough chain.linked chain.rising ends
      have chain' := chain.join joined agree linked
      have order := chain'.rising.split.2.1 ⟨q, true⟩ List.mem_cons_self
      simp only at order
      rw [if_neg (by simp), returned]
      by_cases wide : nw ≤ q - p
      · refine ⟨some q, _, h', ?_, chain', joined, agree, rfl, wide, rest, rfl⟩
        simp [wide]
      · refine ⟨none, _, h', ?_, chain', joined, agree, fun _ => ⟨q, rest, rfl, ?_⟩⟩
        · simp [wide]
        · simp only
          omega

/-- An idle block that is large enough has been found at `p`, before the busy one at `q`. -/
def FoundAt (nw : ℕ) (h : Heap) (cells : List Cell) (p q : ℕ) (h' : Heap) : Prop :=
  ∃ front rest, Chain h' (front ++ ⟨p, false⟩ :: ⟨q, true⟩ :: rest) ∧
    Cell.Joined cells (front ++ ⟨p, false⟩ :: ⟨q, true⟩ :: rest) ∧ Agree cells h h' ∧ nw ≤ q - p

/-- One step of a search that does not end it. -/
theorem search_step {extra temp : ℕ} (looked : h.look nw c.pos = some (none, h'))
    (chain : Chain h' (front ++ c :: back)) :
    search nw (extra + 1) temp c.pos h =
      match back with
      | [] =>
          if 1 < temp + 1 then some (.exhausted, h') else search nw extra (temp + 1) h'.allocs h'
      | d :: _ => search nw extra temp d.pos h' := by
  cases back with
  | nil =>
      have next : loc (h'.mem c.pos).ptr = h'.allocs := chain.next.1
      have last : c = ⟨h'.alloct, true⟩ := by
        rcases chain.ends with ⟨-, last⟩ | ⟨e, mem, -⟩
        · exact last
        · cases mem
      have proper := chain.proper
      have here : c.pos = h'.alloct := congrArg Cell.pos last
      rw [search]
      simp only [looked, Option.bind_eq_bind, Option.bind_some, loc_clearbusy, next]
      rw [if_neg (by omega), if_neg (by simp [here])]
  | cons d back =>
      have next : loc (h'.mem c.pos).ptr = d.pos := chain.next.1
      have order := chain.rising.split.2.1 d List.mem_cons_self
      rw [search]
      simp only [looked, Option.bind_eq_bind, Option.bind_some, loc_clearbusy, next]
      rw [if_pos order]

/-- The search from a cell to the end of the arena finds room, or leaves none behind it. -/
theorem search_pass (front : List Cell) (nw temp n : ℕ) (short : back.length < n)
    (chain : Chain h (front ++ c :: back)) :
    ∃ used, used ≤ n ∧
      ((∃ p q h', FoundAt nw h (front ++ c :: back) p q h' ∧
          ∀ extra, search nw (extra + used) temp c.pos h = some (.found p q, h')) ∨
        ∃ h' back', Chain h' (front ++ c :: back') ∧
          Cell.Joined (front ++ c :: back) (front ++ c :: back') ∧ Agree (front ++ c :: back) h h' ∧
          Tight nw (c :: back') ∧
          ∀ extra, search nw (extra + used) temp c.pos h =
            if 1 < temp + 1 then some (.exhausted, h')
            else search nw extra (temp + 1) h'.allocs h') := by
  induction n generalizing front c back h with
  | zero => exact absurd short (Nat.not_lt_zero _)
  | succ n ih =>
      obtain ⟨result, back', h₁, looked, chain', joined, agree, what⟩ := look_spec nw chain
      cases result with
      | some q =>
          obtain ⟨idle, wide, rest, rfl⟩ := what
          obtain ⟨p, busy⟩ := c
          simp only at idle wide
          subst idle
          refine ⟨1, by omega, .inl ⟨p, q, h₁, ⟨front, rest, chain', joined, agree, wide⟩,
            fun extra => ?_⟩⟩
          rw [search]
          simp only at looked
          simp only [looked, Option.bind_eq_bind, Option.bind_some]
      | none =>
          cases back' with
          | nil =>
              exact ⟨1, by omega, .inr ⟨h₁, [], chain', joined, agree, List.isChain_singleton _,
                fun extra => search_step looked chain'⟩⟩
          | cons d rest =>
              have shorter := joined.sublist.length_le
              simp only [List.length_append, List.length_cons] at shorter
              have chain₁ : Chain h₁ ((front ++ [c]) ++ d :: rest) := by simpa using chain'
              obtain ⟨used, few, outcome⟩ := ih _ (by omega) chain₁
              refine ⟨used + 1, by omega, ?_⟩
              have step : ∀ extra, search nw (extra + (used + 1)) temp c.pos h =
                  search nw (extra + used) temp d.pos h₁ := fun extra => search_step looked chain'
              have fewer : ∀ e ∈ (front ++ [c]) ++ d :: rest, e ∈ front ++ c :: back := by
                intro e mem
                exact joined.sublist.subset (by simpa using mem)
              rcases outcome with ⟨p, q, h₂, ⟨front', rest', chain₂, joined₂, agree₂, wide⟩,
                found⟩ |
                ⟨h₂, back₂, chain₂, joined₂, agree₂, tight, ended⟩
              · refine .inl ⟨p, q, h₂,
                  ⟨front', rest', chain₂, ?_, agree.trans agree₂ fewer, wide⟩, ?_⟩
                · exact Cell.Joined.trans joined (by simpa using joined₂)
                · exact fun extra => (step extra).trans (found extra)
              · refine .inr ⟨h₂, d :: back₂, by simpa using chain₂, ?_,
                  agree.trans agree₂ fewer, ?_, ?_⟩
                · exact Cell.Joined.trans joined (by simpa using joined₂)
                · refine List.isChain_cons_cons.mpr ⟨fun idle => ?_, tight⟩
                  obtain ⟨q, rest', same, near⟩ := what idle
                  obtain ⟨rfl, -⟩ := List.cons.inj same
                  exact ⟨rfl, near⟩
                · exact fun extra => (step extra).trans (ended extra)

/-- A search finds room if there is any, and otherwise ends with the idle blocks joined. -/
theorem search_spec (some : 0 < nw) (chain : Chain h cells) (mem : c ∈ cells) :
    ∃ result h', search nw (2 * h.span) 0 c.pos h = Option.some (result, h') ∧
      ((∃ p q, result = .found p q ∧ FoundAt nw h cells p q h') ∨
        result = .exhausted ∧ ¬Room nw cells ∧ ∃ cells', Chain h' cells' ∧
          Cell.Joined cells cells' ∧ Tight nw cells' ∧ Agree cells h h') := by
  have length := chain.length_le
  obtain ⟨front, back, rfl⟩ := List.append_of_mem mem
  have short : back.length < h.span := by
    simp only [List.length_append, List.length_cons] at length
    omega
  obtain ⟨used, few, outcome⟩ := search_pass _ nw 0 h.span short chain
  obtain ⟨more, fuel⟩ : ∃ more, 2 * h.span = h.span + more + used := ⟨h.span - used, by omega⟩
  rw [fuel]
  rcases outcome with ⟨p, q, h₁, found, returned⟩ | ⟨h₁, back₁, chain₁, joined, agree, -, ended⟩
  · exact ⟨.found p q, h₁, returned _, .inl ⟨p, q, rfl, found⟩⟩
  · rw [ended, if_neg (by omega)]
    have fewer : ∀ e ∈ front ++ c :: back₁, e ∈ front ++ c :: back :=
      fun e => (joined.sublist.subset ·)
    obtain ⟨rest, first⟩ := chain₁.first
    have whole := chain₁
    rw [first] at whole
    have span : h₁.span = h.span := by rw [span, span, agree.alloct, agree.allocs]
    have short₁ : rest.length < h₁.span := by
      have length := whole.length_le
      simp only [List.length_cons] at length
      omega
    obtain ⟨used', few', outcome⟩ := search_pass [] nw 1 h₁.span short₁ whole
    obtain ⟨more', fuel'⟩ : ∃ more', h.span + more = more' + used' :=
      ⟨h.span + more - used', by omega⟩
    rw [fuel']
    rcases outcome with ⟨p, q, h₂, ⟨front', rest', chain₂, joined₂, agree₂, wide⟩, returned⟩ |
      ⟨h₂, back₂, chain₂, joined₂, agree₂, tight, ended⟩
    · refine ⟨.found p q, h₂, returned _, .inl ⟨p, q, rfl, front', rest', chain₂, ?_, ?_, wide⟩⟩
      · rw [List.nil_append, ← first] at joined₂
        exact Cell.Joined.trans joined joined₂
      · rw [List.nil_append, ← first] at agree₂
        exact agree.trans agree₂ fewer
    · rw [List.nil_append, ← first] at joined₂ agree₂
      have together := Cell.Joined.trans joined joined₂
      refine ⟨.exhausted, h₂, ?_, .inr ⟨rfl, fun room => ?_, _, chain₂, together, tight,
        agree.trans agree₂ fewer⟩⟩
      · rw [ended, if_pos (by omega)]
      · exact tight.no_room chain₂.rising some (Cell.Joined.room together chain.rising room)

/-! ## The growth of the arena -/

theorem lt_extent (nw : ℕ) : nw < extent nw := by
  have words : BLOCK / WORD = 128 := rfl
  rw [extent, words]
  omega

theorem extend_mem {temp : ℕ} (below : x < h.alloct) (more : h.alloct < q) (wide : 0 < temp) :
    (h.extend q temp).mem x = h.mem x := by
  simp only [extend]
  rw [mem_setPtr_of_ne (by omega)]
  show (setPtr _ q _).mem x = h.mem x
  rw [mem_setPtr_of_ne (by omega)]
  split
  · rw [mem_setPtr_of_ne (by simp only [alloct_setPtr]; omega), mem_setPtr_of_ne (by omega)]
  · rw [mem_setPtr_of_ne (by omega)]

theorem extend_link_last {temp : ℕ} :
    (h.extend q temp).link (q + temp - 1) = (h.allocs, true) := by
  simp only [extend, link_setPtr_self, loc_setbusy, testbusy_setbusy]
  split <;> simp

theorem extend_link_new {temp : ℕ} (wide : 1 < temp) :
    (h.extend q temp).link q = (q + temp - 1, false) := by
  simp only [extend]
  rw [link_setPtr_of_ne (by omega)]
  show (setPtr _ q _).link q = _
  rw [link_setPtr_self, loc_ptrTo, testbusy_ptrTo]

theorem extend_link_old {temp : ℕ} (more : h.alloct < q) (wide : 0 < temp) :
    (h.extend q temp).link h.alloct = (q, decide (q ≠ h.alloct + 1)) := by
  simp only [extend]
  rw [link_setPtr_of_ne (by omega)]
  show (setPtr _ q _).link h.alloct = _
  rw [link_setPtr_of_ne (by omega)]
  by_cases gap : q = h.alloct + 1
  · rw [if_neg (by simpa using gap), link_setPtr_self]
    simp [gap]
  · rw [if_pos (by simpa using gap)]
    simp only [alloct_setPtr, link_setPtr_self]
    simp [gap]

@[simp] theorem allocs_extend {temp : ℕ} : (h.extend q temp).allocs = h.allocs := by
  simp only [extend, allocs_setPtr]
  split <;> rfl

@[simp] theorem allocp_extend {temp : ℕ} : (h.extend q temp).allocp = h.allocp := by
  simp only [extend, allocp_setPtr]
  split <;> rfl

@[simp] theorem alloct_extend {temp : ℕ} : (h.extend q temp).alloct = q + temp - 1 := rfl

theorem extend_link {temp : ℕ} (below : x < h.alloct) (more : h.alloct < q) (wide : 0 < temp) :
    (h.extend q temp).link x = h.link x := by
  rw [link, link, extend_mem below more wide]

/-- The chain of the larger arena. -/
theorem extend_chain {temp : ℕ} (chain : Chain h (front ++ [⟨h.alloct, true⟩]))
    (more : h.alloct < q) (wide : 1 < temp) :
    Chain (h.extend q temp) (front ++ [⟨h.alloct, decide (q ≠ h.alloct + 1)⟩, ⟨q, false⟩,
      ⟨q + temp - 1, true⟩]) where
  first := by
    obtain ⟨rest, first⟩ := chain.first
    have proper := chain.proper
    cases front with
    | nil =>
        have same := congrArg Cell.pos (List.cons.inj first).1
        simp only at same
        omega
    | cons e front =>
        obtain ⟨rfl, -⟩ := List.cons.inj first
        exact ⟨_, by rw [allocs_extend]; rfl⟩
  last := ⟨front ++ [⟨h.alloct, decide (q ≠ h.alloct + 1)⟩, ⟨q, false⟩], by simp⟩
  linked := by
    have before := chain.rising.split.1
    refine linked_append.mpr ⟨?_, ?_⟩
    · refine (linked_append.mp chain.linked).1.congr fun d mem => ?_
      exact extend_link (before d mem) more (by omega)
    · exact ⟨extend_link_old more (by omega), extend_link_new wide,
        by rw [allocs_extend]; exact extend_link_last, trivial⟩
  rising := by
    obtain ⟨before, -, rising, -⟩ := chain.rising.split
    refine List.pairwise_append.mpr ⟨rising, ?_, fun c mem d late => ?_⟩
    · simp only [List.pairwise_cons, List.mem_cons, forall_eq_or_imp, List.not_mem_nil,
        false_imp_iff, implies_true, and_true, List.Pairwise.nil]
      omega
    · have early : c.pos < h.alloct := before c mem
      simp only [List.mem_cons, List.not_mem_nil, or_false] at late
      rcases late with rfl | rfl | rfl
      · exact early
      · exact Nat.lt_trans early more
      · show c.pos < q + temp - 1
        omega
  proper := by
    have proper := chain.proper
    rw [allocs_extend, alloct_extend]
    omega

end Heap

/-- The arena is not grown: `sbrk` fails, or the addresses would run out. -/
def Break.Fails (brk : Break) (nw : ℕ) : Prop :=
  ∀ q, brk.probe = some q → 2 ^ 32 ≤ WORD * (q + Heap.extent nw) ∨ brk.grow = none

namespace Heap

/-- The words from `q` on are added to the arena, behind a gap if there is one. -/
theorem grow_spec (nw : ℕ) {brk : Break} (above : ∀ q, brk.grow = some q → h.alloct < q) :
    h.grow nw brk = none ∧ brk.Fails nw ∨ ¬brk.Fails nw ∧
      ∃ q, h.alloct < q ∧ h.grow nw brk = some (h.extend q (extent nw)) := by
  cases probe : brk.probe with
  | none =>
      refine .inl ⟨by simp [grow, probe], fun q same => ?_⟩
      rw [probe] at same
      cases same
  | some q₀ =>
      by_cases wraps : 2 ^ 32 ≤ WORD * (q₀ + extent nw)
      · refine .inl ⟨by simp only [grow, probe, Option.bind_eq_bind, Option.bind_some,
          if_pos wraps], fun q same => ?_⟩
        rw [probe] at same
        obtain rfl := Option.some.inj same
        exact .inl wraps
      · cases grown : brk.grow with
        | none => exact .inl ⟨by simp [grow, probe, grown], fun q _ => .inr grown⟩
        | some q =>
            refine .inr ⟨fun fails => ?_, q, above q grown, ?_⟩
            · obtain high | none := fails q₀ probe
              · exact wraps high
              · rw [grown] at none
                cases none
            · simp only [grow, probe, Option.bind_eq_bind, Option.bind_some, if_neg wraps, grown]

/-! ## Handing out a block -/

/-- The cells after a block of `nw` words has been cut off the idle one at `p`. -/
def cut (front : List Cell) (p nw q : ℕ) (rest : List Cell) : List Cell :=
  front ++ ⟨p, true⟩ :: ((if p + nw < q then [⟨p + nw, false⟩] else []) ++ ⟨q, true⟩ :: rest)

@[simp] theorem allocs_take : (h.take nw p q).allocs = h.allocs := by
  simp only [take]
  split <;> rfl

@[simp] theorem allocp_take : (h.take nw p q).allocp = p + nw := by
  simp only [take]
  split <;> rfl

@[simp] theorem alloct_take : (h.take nw p q).alloct = h.alloct := by
  simp only [take]
  split <;> rfl

theorem allocx_take (room : p + nw < q) : (h.take nw p q).allocx = (h.mem (p + nw)).ptr := by
  simp only [take, if_pos room]
  rfl

theorem take_mem (first : x ≠ p) (second : p + nw < q → x ≠ p + nw) :
    (h.take nw p q).mem x = h.mem x := by
  simp only [take]
  rw [mem_setPtr_of_ne first]
  split
  · next room => rw [mem_setPtr_of_ne (second room)]
  · rfl

/-- Of the word at which a block is cut only the pointer changes. -/
theorem take_mem_cut (some : 0 < nw) :
    ((h.take nw p q).mem (p + nw)).rest = (h.mem (p + nw)).rest := by
  simp only [take]
  rw [mem_setPtr_of_ne (by omega)]
  split
  · simp [setPtr]
  · rfl

theorem take_link (first : x ≠ p) (second : p + nw < q → x ≠ p + nw) :
    (h.take nw p q).link x = h.link x := by
  rw [link, link, take_mem first second]

theorem take_link_self : (h.take nw p q).link p = (p + nw, true) := by
  simp only [take, link_setPtr_self, loc_setbusy, testbusy_setbusy]
  split <;> simp

theorem take_link_cut (room : p + nw < q) (some : 0 < nw) :
    (h.take nw p q).link (p + nw) = h.link p := by
  simp only [take, if_pos room]
  rw [link_setPtr_of_ne (by omega), link_setPtr_self]
  rfl

theorem take_chain (some : 0 < nw) (wide : nw ≤ q - p)
    (chain : Chain h (front ++ ⟨p, false⟩ :: ⟨q, true⟩ :: back)) :
    Chain (h.take nw p q) (cut front p nw q back) where
  first := by
    obtain ⟨rest, first⟩ := chain.first
    cases front with
    | nil => cases (List.cons.inj first).1
    | cons e front =>
        obtain ⟨rfl, -⟩ := List.cons.inj first
        exact ⟨_, by rw [allocs_take]; rfl⟩
  last := by
    obtain ⟨whole, last⟩ := chain.last
    have tail : (⟨q, true⟩ :: back).getLast? = Option.some ⟨h.alloct, true⟩ := by
      have same := congrArg List.getLast? last
      rwa [List.getLast?_concat, List.getLast?_append_cons, List.getLast?_cons_cons] at same
    rw [alloct_take]
    refine List.getLast?_eq_some_iff.mp ?_
    rw [cut, ← List.cons_append, ← List.append_assoc, List.getLast?_append_cons, tail]
  linked := by
    have order := chain.rising.split
    have after := order.2.1 ⟨q, true⟩ List.mem_cons_self
    simp only at after
    obtain ⟨early, here, late⟩ := linked_append.mp chain.linked
    have behind : ∀ c ∈ (⟨q, true⟩ : Cell) :: back, q ≤ c.pos := by
      intro c mem
      rcases List.mem_cons.mp mem with rfl | mem
      · exact Nat.le_refl _
      · exact Nat.le_of_lt ((List.pairwise_cons.mp order.2.2.2).1 c mem)
    have kept : Linked (h.take nw p q).link (⟨q, true⟩ :: back) h.allocs := by
      refine late.congr fun c mem => ?_
      have low := behind c mem
      exact take_link (by omega) fun room => by omega
    have far : ∀ d ∈ front, (h.take nw p q).link d.pos = h.link d.pos := by
      intro d mem
      have low := order.1 d mem
      simp only at low
      exact take_link (by omega) fun room => by omega
    rw [allocs_take, cut]
    refine Linked.replace (c := ⟨p, true⟩) early far ?_ ?_
    · rw [take_link_self]
      split
      · rfl
      · simp only [List.nil_append, start_cons, Prod.mk.injEq, and_true]
        omega
    · split
      · next room =>
          refine ⟨?_, kept⟩
          rw [take_link_cut room some]
          exact here
      · exact kept
  rising := by
    have marked := chain.rising.mark (d := ⟨p, true⟩) rfl
    rw [cut]
    split
    · next room => exact marked.insert (by simp only; omega) room
    · exact marked
  proper := by
    rw [allocs_take, alloct_take]
    exact chain.proper

end Heap

end

end UnixV7.Libc
