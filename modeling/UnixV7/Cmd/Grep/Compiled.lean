import UnixV7.Cmd.Grep.Advance

/-!
# What compile accepts

What holds at the start and is kept by every step of `compile` holds of all that it writes. So an
expression of characters from 1 to 127 which is compiled without a byte behind its NUL being read
has no item that takes a NUL, and a dollar only as its last item.
-/

namespace UnixV7

namespace Grep

/-- The memory of an expression from a place on: characters below 128, and nothing behind the first
NUL. -/
def Expression : List UInt8 → Prop
  | [] => True
  | c :: sp => c.toNat < 128 ∧ (c = 0 → sp = []) ∧ Expression sp

/-- The memory of a text from a place on: characters with a property, and nothing behind the first
NUL. -/
def Memory (P : UInt8 → Prop) : List UInt8 → Prop
  | [] => True
  | c :: sp => P c ∧ (c = 0 → sp = []) ∧ Memory P sp

/-- What each step of `compile` keeps, with what holds of the table of a class. The characters it
meets have the property `P`. -/
structure Inductive (P : UInt8 → Prop) (C : ℕ → Prop) (I : Partial → Prop) : Prop where
  setLast : ∀ s, I s → I s.setLast
  repeatLast : ∀ s, I s → I s.repeatLast
  opening : ∀ s, I s → I s.opening
  closing : ∀ s n bracket, s.bracket = n :: bracket → I s → I (s.closing n bracket)
  cchr : ∀ s c, c ≠ 0 → I s → I (s.put (.cchr c false))
  cdot : ∀ s, I s → I (s.put (.cdot false))
  ccl : ∀ s table, C table → I s → I (s.put (.ccl table false))
  cback : ∀ s n, I s → I (s.put (.cback n false))
  empty : C 0
  setBit : ∀ table c, c ≠ 0 → P c → C table → C (setBit table (low c))
  setRange : ∀ table c n, c ≠ 0 → P c → C table → C (setRange table (low c) n)
  negate : ∀ table, C table → C (negate table)

/-- The item is no dollar and does not take a NUL. -/
def Item.Sober (item : Item) : Prop := item ≠ .cdol ∧ ∀ p ∈ item.piece, p.takes 0 = false

/-- What was written so far is sober. -/
def Partial.Sober (s : Partial) : Prop := ∀ item ∈ s.expbuf, item.Sober

/-- Items that do not take a NUL, with a dollar at the end if there is one. -/
def Compiled (items : List Item) : Prop :=
  ∃ front, (∀ item ∈ front, item.Sober) ∧ (items = front ∨ items = front ++ [.cdol])

section

variable {c : UInt8} {sp pattern : List UInt8} {s : Partial} {item : Item}
  {items : List Item} {table first last : ℕ} {n : ℕ}

/-- The star does not change what an item takes. -/
theorem Item.Sober.addStar (sober : item.Sober) : item.addStar.Sober := by
  obtain ⟨other, stops⟩ := sober
  cases item with
  | cdol => exact absurd rfl other
  | cbra n => exact ⟨other, stops⟩
  | cket n => exact ⟨other, stops⟩
  | cback n star => exact ⟨by simp [Item.addStar], by simp [Item.addStar, Item.piece]⟩
  | cchr c star =>
      refine ⟨by simp [Item.addStar], ?_⟩
      rintro p ⟨⟩
      exact stops ⟨fun d => d = c, star⟩ rfl
  | cdot star =>
      refine ⟨by simp [Item.addStar], ?_⟩
      rintro p ⟨⟩
      rfl
  | ccl table star =>
      refine ⟨by simp [Item.addStar], ?_⟩
      rintro p ⟨⟩
      exact stops ⟨inClass table, star⟩ rfl

theorem sober_modify (sober : ∀ item ∈ items, item.Sober) :
    ∀ item ∈ items.modify n Item.addStar, item.Sober := by
  induction items generalizing n with
  | nil => simp
  | cons head items ih =>
      obtain ⟨here, rest⟩ := List.forall_mem_cons.mp sober
      cases n with
      | zero => exact List.forall_mem_cons.mpr ⟨here.addStar, rest⟩
      | succ n => exact List.forall_mem_cons.mpr ⟨here, ih rest⟩

theorem Partial.Sober.repeatLast (sober : s.Sober) : s.repeatLast.Sober := by
  unfold Partial.Sober Partial.repeatLast
  cases s.lastep with
  | none => exact sober
  | some i => exact sober_modify sober

theorem Partial.Sober.setLast (sober : s.Sober) : s.setLast.Sober := sober

theorem Partial.Sober.put (sober : s.Sober) (new : item.Sober) : (s.put item).Sober := by
  change ∀ other ∈ s.expbuf ++ [item], other.Sober
  rw [List.forall_mem_append]
  exact ⟨sober, List.forall_mem_singleton.mpr new⟩

/-- Behind the last byte of the memory nothing is read: the expression ends at a NUL there. -/
theorem compileFrom_single (h : compileFrom s [c] = some items) : c = 0 ∧ items = s.expbuf := by
  rw [compileFrom] at h
  split at h
  · cases h
  split at h
  next zero => exact ⟨zero, (Option.some.inj h).symm⟩
  next => simp [compileFrom.eq_1] at h

/-- The expression ends at a NUL. -/
theorem compileFrom_nul (h : compileFrom s (0 :: sp) = some items) : items = s.expbuf := by
  cases sp with
  | nil => exact (compileFrom_single h).2
  | cons d sp =>
      rw [compileFrom] at h
      split at h
      · cases h
      · rw [if_pos rfl] at h
        exact (Option.some.inj h).symm

section

variable {P : UInt8 → Prop} {C : ℕ → Prop} {I : Partial → Prop}

theorem memory_append_nul (proper : 0 ∉ pattern) (each : ∀ c, P c) :
    Memory P (pattern ++ [0]) := by
  induction pattern with
  | nil => exact ⟨each 0, fun _ => rfl, trivial⟩
  | cons c sp ih =>
      rw [List.mem_cons, not_or] at proper
      exact ⟨each c, fun zero => absurd zero.symm proper.1, ih proper.2⟩

theorem Inductive.escape {s' : Partial} (rule : Inductive P C I) (nonzero : c ≠ 0) (holds : I s)
    (h : s.escape c = some s') : I s' := by
  unfold Partial.escape at h
  split at h
  · split at h
    · cases h
    · cases h
      exact rule.opening s holds
  split at h
  · cases eq : s.bracket with
    | nil =>
        rw [eq] at h
        cases h
    | cons n bracket =>
        rw [eq] at h
        cases h
        exact rule.closing s n bracket eq holds
  split at h
  · split at h
    · cases h
    · cases h
      exact rule.cback s _ holds
  · cases h
    exact rule.cchr s c nonzero holds

/-- A class is written with its table or the table of the other characters. -/
theorem Inductive.class (rule : Inductive P C I) (known : C table) (holds : I s) (neg : Bool) :
    I (s.put (.ccl (if neg then Grep.negate table else table) false)) := by
  cases neg with
  | false => exact rule.ccl s _ known holds
  | true => exact rule.ccl s _ (rule.negate table known) holds

/-- What every step keeps holds of all that the loops write, the one over a class too. -/
theorem Inductive.loops (rule : Inductive P C I) (n : ℕ) :
    (∀ s sp, sp.length < n → Memory P sp → I s → compileFrom s sp = some items →
      ∃ s', I s' ∧ (items = s'.expbuf ∨ items = s'.expbuf ++ [.cdol])) ∧
    (∀ s neg table first before sp, sp.length < n → Memory P sp → I s → C table →
      (first = false → before ≠ 0 ∧ P before) →
      classFrom s neg table first before sp = some items →
      ∃ s', I s' ∧ (items = s'.expbuf ∨ items = s'.expbuf ++ [.cdol])) := by
  induction n with
  | zero => exact ⟨fun _ _ short => absurd short (by omega), fun _ _ _ _ _ _ short =>
      absurd short (by omega)⟩
  | succ n ih =>
      obtain ⟨loop, inner⟩ := ih
      constructor
      · intro s sp short memory holds h
        match sp with
        | [] => cases h
        | [c] => exact ⟨s, holds, Or.inl (compileFrom_single h).2⟩
        | c :: d :: sp =>
            obtain ⟨-, -, memory⟩ := memory
            have short : (d :: sp).length < n := Nat.lt_of_succ_lt_succ short
            rw [compileFrom] at h
            split at h
            next => cases h
            split at h
            next => exact ⟨s, holds, Or.inl (Option.some.inj h).symm⟩
            next proper =>
            have last := rule.setLast s holds
            split at h
            next => exact loop _ _ short memory (rule.cdot _ last) h
            split at h
            next =>
              split at h
              · exact loop _ _ short memory (rule.cchr s c proper holds) h
              · exact loop _ _ short memory (rule.repeatLast s holds) h
            split at h
            next =>
              split at h
              · exact loop _ _ short memory (rule.cchr _ c proper last) h
              next zero =>
                rw [not_not.mp zero] at h
                exact ⟨s, holds, Or.inr (compileFrom_nul h)⟩
            split at h
            next =>
              split at h
              next => cases h
              split at h
              · exact inner _ _ _ _ _ _ (Nat.lt_of_succ_lt short) memory.2.2 last rule.empty
                  (by simp) h
              · exact inner _ _ _ _ _ _ short memory last rule.empty (by simp) h
            split at h
            next =>
              obtain ⟨-, ends, memory⟩ := memory
              have proper : d ≠ 0 := by
                rintro rfl
                rw [ends rfl] at h
                split at h
                · cases h
                · cases h
              split at h
              next => cases h
              next escaped =>
                exact loop _ _ (Nat.lt_of_succ_lt short) memory (rule.escape proper last escaped) h
            next => exact loop _ _ short memory (rule.cchr _ c proper last) h
      · intro s neg table first before sp short memory holds known later h
        match sp with
        | [] => cases h
        | [c] =>
            rw [classFrom, ite_self] at h
            cases h
        | c :: d :: sp =>
            obtain ⟨here, -, following⟩ := memory
            have ⟨there, ends, memory⟩ := following
            rw [classFrom.eq_def] at h
            dsimp only at h
            split at h
            next => cases h
            next proper =>
            split at h
            next range =>
              cases sp with
              | nil => cases h
              | cons e sp =>
                  have proper' : d ≠ 0 := fun zero => List.cons_ne_nil e sp (ends zero)
                  obtain ⟨nonzero, lower⟩ := later (by simpa using range.2.1)
                  have known := rule.setRange table before (low d) nonzero lower known
                  dsimp only at h
                  split at h
                  · exact loop _ _ (by simp at short; omega) memory.2.2
                      (rule.class known holds neg) h
                  · exact inner _ _ _ _ _ _ (by simp at short ⊢; omega) memory holds known
                      (fun _ => ⟨proper', there⟩) h
            next =>
              have known := rule.setBit table c proper here known
              split at h
              · exact loop _ _ (by simp at short; omega) memory (rule.class known holds neg) h
              · exact inner _ _ _ _ _ _ (by simp at short ⊢; omega) following holds known
                  (fun _ => ⟨proper, here⟩) h

/-- What holds at the start and is kept holds of what was compiled. -/
theorem Inductive.compile {circf : Bool} (rule : Inductive P C I)
    (memory : Memory P (pattern ++ [0])) (start : I ⟨[], none, [], 0, 0⟩)
    (accepted : Grep.compile (pattern ++ [0]) = some (items, circf)) :
    ∃ s, I s ∧ (items = s.expbuf ∨ items = s.expbuf ++ [.cdol]) := by
  cases text : pattern ++ [0] with
  | nil => simp at text
  | cons c sp =>
      rw [text] at accepted memory
      unfold Grep.compile at accepted
      dsimp only at accepted
      split at accepted
      · obtain ⟨expbuf, compiled, eq⟩ := Option.map_eq_some_iff.mp accepted
        cases eq
        exact (rule.loops _).1 _ _ (Nat.lt_succ_self _) memory.2.2 start compiled
      · obtain ⟨expbuf, compiled, eq⟩ := Option.map_eq_some_iff.mp accepted
        cases eq
        exact (rule.loops _).1 _ _ (Nat.lt_succ_self _) memory start compiled

end

theorem Expression.memory (expression : Expression sp) : Memory (fun c => c.toNat < 128) sp := by
  induction sp with
  | nil => trivial
  | cons c sp ih => exact ⟨expression.1, expression.2.1, ih expression.2.2⟩

/-- A compiled expression is clean. -/
theorem Compiled.clean (compiled : Compiled items) (direct : ∀ item ∈ items, item.Direct) :
    Clean items := by
  obtain ⟨front, sober, eq⟩ := compiled
  have clean : ∀ tail, Clean tail → (∀ item ∈ front ++ tail, item.Direct) →
      Clean (front ++ tail) := by
    intro tail clean direct
    clear eq
    induction front with
    | nil => exact clean
    | cons item front ih =>
        obtain ⟨here, sober⟩ := List.forall_mem_cons.mp sober
        obtain ⟨plain, direct⟩ := List.forall_mem_cons.mp direct
        exact ⟨plain, here.2, fun dollar => absurd dollar here.1, ih sober direct⟩
  rcases eq with rfl | rfl
  · have := clean [] trivial (by simpa using direct)
    simpa using this
  · exact clean [.cdol] ⟨trivial, by simp [Item.piece], fun _ => rfl, trivial⟩ direct

end

end Grep

end UnixV7
