import UnixV7.Libc.Arena

/-!
# Blocks of the user's heap

What `malloc`, `free` and `realloc` do to the blocks that a program has been given: they are
apart, inside the arena and large enough, and nothing writes to them but `realloc`, which moves
their contents. All of that rests on `allocp` being a header of the chain, and it is one as long
as `sbrk` does not fail in a search that has joined the block at `allocp` to the one before it.
-/

namespace UnixV7.Libc

open Function Cell

namespace Heap

variable {h h' : Heap} {cells cells' front back : List Cell} {c : Cell} {p q nw x v i : ℕ}
  {b : Block} {busy : Bool}

/-- A search, perhaps with a growth of the arena, leads from one chain to another. -/
structure Prepared (h : Heap) (cells : List Cell) (h' : Heap) (cells' : List Cell) : Prop where
  chain : Chain h' cells'
  kept : ∀ c ∈ cells, c.busy = true → c.pos < h.alloct → c ∈ cells'
  old : ∀ c ∈ cells', c ∈ cells ∨ h.alloct ≤ c.pos
  mem : ∀ x, x < h.alloct → (∀ c ∈ cells, c.pos ≠ x) → h'.mem x = h.mem x
  allocs : h'.allocs = h.allocs
  alloct : h.alloct ≤ h'.alloct

/-- Idle blocks are joined. -/
theorem Prepared.of_joined (chain : Chain h cells) (chain' : Chain h' cells')
    (joined : Cell.Joined cells cells')
    (agree : Agree cells h h') : Prepared h cells h' cells' where
  chain := chain'
  kept _ mem busy _ := joined.keeps chain.rising mem busy
  old _ mem := .inl (joined.sublist.subset mem)
  mem x _ away := agree.mem x away
  allocs := agree.allocs
  alloct := agree.alloct.ge

theorem Prepared.trans {h'' : Heap} {cells'' : List Cell} (first : Prepared h cells h' cells')
    (second : Prepared h' cells' h'' cells'') : Prepared h cells h'' cells'' where
  chain := second.chain
  kept c mem busy low :=
    second.kept c (first.kept c mem busy low) busy (Nat.lt_of_lt_of_le low first.alloct)
  old c mem := by
    rcases second.old c mem with mem | high
    · exact first.old c mem
    · exact .inr (Nat.le_trans first.alloct high)
  mem x low away := by
    rw [second.mem x (Nat.lt_of_lt_of_le low first.alloct) fun c mem => ?_, first.mem x low away]
    rcases first.old c mem with mem | high
    · exact away c mem
    · omega
  allocs := second.allocs.trans first.allocs
  alloct := Nat.le_trans first.alloct second.alloct

/-- The arena grows. -/
theorem Prepared.of_extend {temp : ℕ} (chain : Chain h (front ++ [⟨h.alloct, true⟩]))
    (more : h.alloct < q) (wide : 1 < temp) :
    Prepared h (front ++ [⟨h.alloct, true⟩]) (h.extend q temp)
      (front ++ [⟨h.alloct, decide (q ≠ h.alloct + 1)⟩, ⟨q, false⟩, ⟨q + temp - 1, true⟩]) where
  chain := extend_chain chain more wide
  kept c mem _ low := by
    rcases List.mem_append.mp mem with early | late
    · exact List.mem_append_left _ early
    · obtain rfl := List.mem_singleton.mp late
      exact absurd low (Nat.lt_irrefl _)
  old c mem := by
    rcases List.mem_append.mp mem with early | late
    · exact .inl (List.mem_append_left _ early)
    · refine .inr ?_
      simp only [List.mem_cons, List.not_mem_nil, or_false] at late
      rcases late with rfl | rfl | rfl
      · exact Nat.le_refl _
      · exact Nat.le_of_lt more
      · show h.alloct ≤ q + temp - 1
        omega
  mem x low _ := extend_mem low more (by omega)
  allocs := allocs_extend
  alloct := by
    rw [alloct_extend]
    omega

/-- What `malloc` finds: an idle block at `p` of at least `nw` words, header included. -/
def Ready (nw : ℕ) (h : Heap) (cells : List Cell) (p q : ℕ) (h' : Heap) : Prop :=
  ∃ front rest, Prepared h cells h' (front ++ ⟨p, false⟩ :: ⟨q, true⟩ :: rest) ∧ nw ≤ q - p

/-- What is found is room that there was. -/
theorem FoundAt.room (chain : Chain h cells) (found : FoundAt nw h cells p q h') (some : 0 < nw) :
    Room nw cells := by
  obtain ⟨front, rest, chain', joined, -, wide⟩ := found
  refine joined.room_before chain.rising ⟨⟨p, false⟩, by simp, rfl, ⟨q, true⟩, by simp, rfl, ?_,
    fun x mem busy after => ?_⟩
  · dsimp only
    omega
  · obtain low | rfl | high := chain'.rising.between mem
    · exact absurd after (Nat.lt_asymm low)
    · cases busy
    · exact high

theorem FoundAt.ready (chain : Chain h cells) (found : FoundAt nw h cells p q h') :
    Ready nw h cells p q h' := by
  obtain ⟨front, rest, chain', joined, agree, wide⟩ := found
  exact ⟨front, rest, .of_joined chain chain' joined agree, wide⟩

/-- The new part of the arena has room. -/
theorem room_extend {temp : ℕ} {mark : Bool} (wide : nw < temp) :
    Room nw (front ++ [⟨p, mark⟩, ⟨q, false⟩, ⟨q + temp - 1, true⟩]) ∨
      ¬Rising (front ++ [⟨p, mark⟩, ⟨q, false⟩, ⟨q + temp - 1, true⟩]) := by
  by_cases rising : Rising (front ++ [⟨p, mark⟩, ⟨q, false⟩, ⟨q + temp - 1, true⟩])
  · refine .inl ⟨⟨q, false⟩, by simp, rfl, ⟨q + temp - 1, true⟩, by simp, rfl, ?_, ?_⟩
    · simp only
      omega
    · intro x mem busy after
      have whole : Rising ((front ++ [⟨p, mark⟩]) ++ ⟨q, false⟩ :: [⟨q + temp - 1, true⟩]) := by
        simpa using rising
      have mem' : x ∈ (front ++ [⟨p, mark⟩]) ++ ⟨q, false⟩ :: [⟨q + temp - 1, true⟩] := by
        simpa using mem
      rcases List.mem_append.mp mem' with early | late
      · have before := whole.split.1 x early
        omega
      · rcases List.mem_cons.mp late with rfl | late
        · cases busy
        · obtain rfl := List.mem_singleton.mp late
          exact Nat.le_refl _
  · exact .inr rising

/-- The loops of `malloc` end with a block cut off an idle one, or, if `sbrk` fails, with nothing
but idle blocks joined. -/
theorem mallocFrom_spec (some : 0 < nw) (chain : Chain h cells) (mem : c ∈ cells)
    {brk : ℕ → Break} (above : ∀ i q, (brk i).grow = Option.some q → h.alloct < q) :
    ∃ result h', mallocFrom nw brk 2 c.pos h = Option.some (result, h') ∧
      match result with
      | Option.some a => (Room nw cells ∨ ¬(brk 1).Fails nw) ∧
          ∃ h₁ p q, Ready nw h cells p q h₁ ∧ a = p + 1 ∧ h' = h₁.take nw p q
      | none => ¬Room nw cells ∧ (brk 1).Fails nw ∧ ∃ cells', Chain h' cells' ∧
          Cell.Joined cells cells' ∧ Tight nw cells' ∧ Agree cells h h' := by
  obtain ⟨result, h₁, searched, outcome⟩ := search_spec some chain mem
  rw [mallocFrom, searched]
  simp only [Option.bind_eq_bind, Option.bind_some]
  rcases outcome with ⟨p, q, rfl, found⟩ |
    ⟨rfl, full, cells₁, chain₁, joined, tight, agree⟩
  · exact ⟨_, _, rfl, .inl (found.room chain some), h₁, p, q, found.ready chain, rfl, rfl⟩
  have above₁ : ∀ q, (brk 1).grow = Option.some q → h₁.alloct < q := by
    intro q grown
    rw [agree.alloct]
    exact above 1 q grown
  rcases grow_spec nw above₁ with ⟨refused, fails⟩ | ⟨given, q, more, grown⟩
  · simp only [refused]
    exact ⟨none, h₁, rfl, full, fails, cells₁, chain₁, joined, tight, agree⟩
  · obtain ⟨front, rfl⟩ := chain₁.last
    have wide := lt_extent nw
    have larger := Prepared.of_extend chain₁ more (by omega : 1 < extent nw)
    have room := (room_extend wide).resolve_right (not_not.mpr larger.chain.rising)
    simp only [grown]
    obtain ⟨result, h₂, searched, outcome⟩ := search_spec some larger.chain larger.chain.allocs_mem
    rw [mallocFrom]
    simp only at searched
    rw [searched]
    simp only [Option.bind_eq_bind, Option.bind_some]
    rcases outcome with ⟨p, q', rfl, found⟩ | ⟨-, full', -⟩
    · obtain ⟨front', rest, ready, wide'⟩ := found.ready larger.chain
      refine ⟨_, _, rfl, .inr given, h₂, p, q', ⟨front', rest, ?_, wide'⟩, rfl, rfl⟩
      exact (Prepared.of_joined chain chain₁ joined agree).trans (larger.trans ready)
    · exact absurd room full'

end Heap

end UnixV7.Libc
