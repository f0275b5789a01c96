import UnixV7.Cmd.Grep.Execute

/-!
# The shortest way through an expression

What the items of an expression take at least, and where the groups are on the way through it that
takes no more. From this it is read off whether `advance` always answers: a star behind a reference
to a group that may be empty goes on for ever, and a class with the byte 0 takes the NUL behind the
line, so that what follows is looked for behind it. The brackets of what `compile` writes are in
order.
-/

namespace UnixV7

namespace Grep

/-- `braslist[n] = lp` -/
def Groups.opening (g : Groups) (n lp : ℕ) : Groups :=
  { g with braslist := fun m => if m = n then some lp else g.braslist m }

/-- `braelist[n] = lp` -/
def Groups.closing (g : Groups) (n lp : ℕ) : Groups :=
  { g with braelist := fun m => if m = n then some lp else g.braelist m }

/-- Both tables are 0, as they are before the first line. -/
def noGroups : Groups := ⟨fun _ => none, fun _ => none⟩

/-- The shortest way through some items: how many characters they take, the groups, and which
groups may be longer on other ways. -/
structure Extent where
  lp : ℕ
  groups : Groups
  elastic : ℕ → Bool

namespace Extent

/-- Before the first item. -/
def start : Extent := ⟨0, noGroups, fun _ => false⟩

/-- How long a group is that is closed. -/
def least (x : Extent) (n : ℕ) : Option ℕ :=
  (x.groups.braelist n).map fun bend => bend - (x.groups.braslist n).getD 0

/-- The groups that are open. -/
def isOpen (x : Extent) (n : ℕ) : Bool :=
  (x.groups.braslist n).isSome && (x.groups.braelist n).isNone

/-- No item of a closed group has made it longer. -/
def rigid (x : Extent) (n : ℕ) : Bool := !x.elastic n

/-- A closed group is empty on the shortest way. -/
def mayBeEmpty (x : Extent) (n : ℕ) : Bool := x.least n = some 0

/-- So many characters are passed, or more of them if `more` is set. -/
def pass (x : Extent) (k : ℕ) (more : Bool) : Extent :=
  { x with
    lp := x.lp + k
    elastic := fun n => x.elastic n || more && x.isOpen n }

/-- An item is passed. -/
def step (x : Extent) : Item → Extent
  | .cchr _ star => x.pass (if star then 0 else 1) true
  | .cdot star => x.pass (if star then 0 else 1) true
  | .ccl _ star => x.pass (if star then 0 else 1) true
  | .cbra n => { x with groups := x.groups.opening n x.lp }
  | .cket n => { x with groups := x.groups.closing n x.lp }
  | .cback n star => x.pass (if star then 0 else (x.least n).getD 0) (x.elastic n)
  | .cdol => x

end Extent

/-- No character is in the class. -/
def vain (table : ℕ) : Bool := table % 2 ^ 128 = 0

/-- What may stand behind a class that has taken the NUL: brackets, and references to groups of
which `empty` is true. Nothing is read for these. Behind a reference to a group that is not closed
`advance` does not come. -/
def readsNothing (empty : Extent → ℕ → Bool) : List Item → Extent → Bool
  | [], _ => true
  | .cbra n :: ep, x => readsNothing empty ep (x.step (.cbra n))
  | .cket n :: ep, x => readsNothing empty ep (x.step (.cket n))
  | .cback n star :: ep, x =>
      (x.least n).isNone ||
        !star && empty x n && readsNothing empty ep (x.step (.cback n star))
  | _, _ => false

/-- Whether `advance` answers at an item, where `rest` says whether it does from the items `ep`
behind it on. A newline, a class without characters and a reference to a group that is not closed
are never passed. -/
def Item.settles (empty : Extent → ℕ → Bool) (item : Item) (ep : List Item) (x : Extent)
    (rest : Bool) : Bool :=
  match item with
  | .cchr c star => !star && decide (c = newline) || rest
  | .ccl table star =>
      if table.testBit 0 then !star && readsNothing empty ep (x.step item)
      else !star && vain table || rest
  | .cback n star =>
      match x.least n with
      | none => true
      | some k => (!star || 0 < k) && rest
  | _ => rest

/-- As far as `advance` comes no star is behind a reference to a group that may be empty, and behind
a class with the byte 0 nothing is read. It comes no further than `linebuf` goes. -/
def settles (empty : Extent → ℕ → Bool) : List Item → Extent → Bool
  | [], _ => true
  | item :: ep, x =>
      decide (LBSIZE ≤ x.lp) || item.settles empty ep x (settles empty ep (x.step item))

/-- The brackets of the groups are opened and closed once and in this order, a dollar is the last
item, and no item is the NUL itself. -/
def Proper : List Item → Extent → Prop
  | [], _ => True
  | item :: ep, x =>
      (match item with
        | .cchr c _ => c ≠ 0
        | .cbra n => x.groups.braslist n = none ∧ x.groups.braelist n = none
        | .cket n => x.groups.braslist n ≠ none ∧ x.groups.braelist n = none
        | .cdol => ep = []
        | _ => True) ∧ Proper ep (x.step item)

/-- There is a reference to the group before it is closed. -/
def refersWithin (n : ℕ) : List Item → Bool
  | [] => false
  | .cket m :: ep => m ≠ n && refersWithin n ep
  | .cback m _ :: ep => m = n || refersWithin n ep
  | _ :: ep => refersWithin n ep

section

variable {s : Partial} {pattern : List UInt8} {items : List Item}

/-! ## The brackets of a compiled expression -/

/-- The shortest way through the items from the first one on. -/
def Extent.after (items : List Item) : Extent := items.foldl Extent.step Extent.start

/-- The same groups are open and closed. -/
structure Alike (x y : Extent) : Prop where
  braslist : ∀ n, x.groups.braslist n = none ↔ y.groups.braslist n = none
  braelist : ∀ n, x.groups.braelist n = none ↔ y.groups.braelist n = none

/-- What has been written is proper, and the numbers of the groups are known. -/
structure Partial.Proper (s : Partial) : Prop where
  items : Grep.Proper s.expbuf Extent.start
  plain : Item.cdol ∉ s.expbuf
  opened : ∀ n, (Extent.after s.expbuf).groups.braslist n = none ↔ s.numbra ≤ n
  closed : ∀ n, (Extent.after s.expbuf).groups.braelist n = none ↔ n ∈ s.bracket ∨ s.numbra ≤ n
  known : ∀ n ∈ s.bracket, n < s.numbra
  apart : s.bracket.Nodup

theorem Alike.step {x y : Extent} (alike : Alike x y) (item : Item) :
    Alike (x.step item) (y.step item) := by
  cases item with
  | cbra n =>
      refine ⟨fun m => ?_, alike.braelist⟩
      by_cases here : m = n
      · simp [Extent.step, Groups.opening, here]
      · simpa [Extent.step, Groups.opening, here] using alike.braslist m
  | cket n =>
      refine ⟨alike.braslist, fun m => ?_⟩
      by_cases here : m = n
      · simp [Extent.step, Groups.closing, here]
      · simpa [Extent.step, Groups.closing, here] using alike.braelist m
  | _ => exact ⟨alike.braslist, alike.braelist⟩

theorem Alike.addStar (x : Extent) (item : Item) : Alike (x.step item) (x.step item.addStar) := by
  cases item <;> exact ⟨fun _ => Iff.rfl, fun _ => Iff.rfl⟩

theorem Alike.trans {x y z : Extent} (first : Alike x y) (second : Alike y z) : Alike x z :=
  ⟨fun n => (first.braslist n).trans (second.braslist n),
    fun n => (first.braelist n).trans (second.braelist n)⟩

theorem Alike.foldl {x y : Extent} (alike : Alike x y) (items : List Item) :
    Alike (items.foldl Extent.step x) (items.foldl Extent.step y) := by
  induction items generalizing x y with
  | nil => exact alike
  | cons item items ih => exact ih (alike.step item)

/-- A star changes no bracket. -/
theorem Alike.modify (items : List Item) (i : ℕ) (x : Extent) :
    Alike (items.foldl Extent.step x) ((items.modify i Item.addStar).foldl Extent.step x) := by
  induction items generalizing i x with
  | nil =>
      rw [List.modify_nil]
      exact ⟨fun _ => Iff.rfl, fun _ => Iff.rfl⟩
  | cons item items ih =>
      cases i with
      | zero => exact (Alike.addStar x item).foldl items
      | succ i => exact ih i (x.step item)

theorem Proper.alike {x y : Extent} (alike : Alike x y) (proper : Proper items x) :
    Proper items y := by
  induction items generalizing x y with
  | nil => trivial
  | cons item items ih =>
      refine ⟨?_, ih (alike.step item) proper.2⟩
      have here := proper.1
      cases item with
      | cbra n => exact ⟨(alike.braslist n).mp here.1, (alike.braelist n).mp here.2⟩
      | cket n =>
          exact ⟨fun none => here.1 ((alike.braslist n).mpr none), (alike.braelist n).mp here.2⟩
      | _ => exact here

theorem Proper.modify {x : Extent} (proper : Proper items x) (i : ℕ) :
    Proper (items.modify i Item.addStar) x := by
  induction items generalizing i x with
  | nil => rwa [List.modify_nil]
  | cons item items ih =>
      cases i with
      | zero =>
          refine ⟨?_, proper.2.alike (Alike.addStar x item)⟩
          have here := proper.1
          cases item <;> exact here
      | succ i =>
          refine ⟨?_, ih proper.2 i⟩
          have here := proper.1
          cases item with
          | cdol =>
              obtain rfl := here
              exact List.modify_nil _ i
          | _ => exact here

theorem Proper.append {x : Extent} {item : Item} (proper : Proper items x) (plain : .cdol ∉ items)
    (last : Proper [item] (items.foldl Extent.step x)) : Proper (items ++ [item]) x := by
  induction items generalizing x with
  | nil => exact last
  | cons first items ih =>
      rw [List.mem_cons, not_or] at plain
      refine ⟨?_, ih proper.2 plain.2 last⟩
      have here := proper.1
      cases first with
      | cdol => exact absurd rfl plain.1
      | _ => exact here

theorem after_put (s : Partial) (item : Item) :
    Extent.after (s.put item).expbuf = (Extent.after s.expbuf).step item := by
  rw [Extent.after, Partial.put, List.foldl_append]
  rfl

/-- An item that is no bracket is written. -/
theorem Partial.Proper.put {item : Item} (proper : s.Proper) (plain : item ≠ .cdol)
    (last : Grep.Proper [item] (Extent.after s.expbuf))
    (same : ((Extent.after s.expbuf).step item).groups = (Extent.after s.expbuf).groups) :
    (s.put item).Proper where
  items := proper.items.append proper.plain last
  plain := by
    rw [Partial.put, List.mem_append, not_or]
    exact ⟨proper.plain, fun mem => plain (List.mem_singleton.mp mem).symm⟩
  opened n := by
    rw [after_put, same]
    exact proper.opened n
  closed n := by
    rw [after_put, same]
    exact proper.closed n
  known := proper.known
  apart := proper.apart

theorem mem_modify_star {i : ℕ} (mem : Item.cdol ∈ items.modify i Item.addStar) :
    Item.cdol ∈ items := by
  induction items generalizing i with
  | nil => rwa [List.modify_nil] at mem
  | cons item items ih =>
      cases i with
      | zero =>
          rcases List.mem_cons.mp mem with here | mem
          · refine List.mem_cons.mpr (Or.inl ?_)
            cases item <;> first | rfl | cases here
          · exact List.mem_cons_of_mem _ mem
      | succ i =>
          rcases List.mem_cons.mp mem with here | mem
          · exact List.mem_cons.mpr (Or.inl here)
          · exact List.mem_cons_of_mem _ (ih mem)

/-- A group is opened under a new number. -/
theorem Partial.Proper.opening (proper : s.Proper) : s.opening.Proper where
  items := by
    refine proper.items.append proper.plain ⟨?_, trivial⟩
    exact ⟨(proper.opened _).mpr le_rfl, (proper.closed _).mpr (Or.inr le_rfl)⟩
  plain := by
    change _ ∉ s.expbuf ++ _
    simp [proper.plain]
  opened n := by
    change (Extent.after (s.put _).expbuf).groups.braslist n = none ↔ s.numbra + 1 ≤ n
    rw [after_put]
    change (if n = s.numbra then some _ else (Extent.after s.expbuf).groups.braslist n) = none ↔ _
    have before := proper.opened n
    split
    · simp only [reduceCtorEq, false_iff]
      omega
    · rw [before]
      omega
  closed n := by
    change (Extent.after (s.put _).expbuf).groups.braelist n = none ↔
      n ∈ s.numbra :: s.bracket ∨ s.numbra + 1 ≤ n
    rw [after_put]
    change (Extent.after s.expbuf).groups.braelist n = none ↔ _
    rw [proper.closed n, List.mem_cons]
    constructor
    · rintro (inside | le)
      · exact Or.inl (Or.inr inside)
      · rcases Nat.eq_or_lt_of_le le with rfl | less
        · exact Or.inl (Or.inl rfl)
        · exact Or.inr less
    · rintro ((rfl | inside) | less)
      · exact Or.inr le_rfl
      · exact Or.inl inside
      · exact Or.inr (Nat.le_of_succ_le less)
  known n mem := by
    rcases List.mem_cons.mp mem with rfl | mem
    · exact Nat.lt_succ_self _
    · exact Nat.lt_succ_of_lt (proper.known n mem)
  apart := List.nodup_cons.mpr ⟨fun mem => (proper.known _ mem).false, proper.apart⟩

/-- The innermost open group is closed. -/
theorem Partial.Proper.closing {n : ℕ} {bracket : List ℕ} (eq : s.bracket = n :: bracket)
    (proper : s.Proper) : (s.closing n bracket).Proper where
  items := by
    refine proper.items.append proper.plain ⟨?_, trivial⟩
    refine ⟨fun none => ?_, (proper.closed n).mpr (Or.inl (by simp [eq]))⟩
    exact absurd (proper.known n (by simp [eq])) (Nat.not_lt.mpr ((proper.opened n).mp none))
  plain := by
    change _ ∉ s.expbuf ++ _
    simp [proper.plain]
  opened m := by
    change (Extent.after (s.put _).expbuf).groups.braslist m = none ↔ s.numbra ≤ m
    rw [after_put]
    exact proper.opened m
  closed m := by
    change (Extent.after (s.put _).expbuf).groups.braelist m = none ↔ m ∈ bracket ∨ s.numbra ≤ m
    rw [after_put]
    change (if m = n then some _ else (Extent.after s.expbuf).groups.braelist m) = none ↔ _
    have apart := proper.apart
    have less := proper.known n (by simp [eq])
    rw [eq, List.nodup_cons] at apart
    split
    next here =>
      rw [here]
      simp only [reduceCtorEq, false_iff, not_or]
      exact ⟨apart.1, Nat.not_le.mpr less⟩
    next other =>
      rw [proper.closed m, eq, List.mem_cons]
      simp only [other, false_or]
  known m mem := proper.known m (by simp [eq, show m ∈ bracket from mem])
  apart := by
    have apart := proper.apart
    rw [eq, List.nodup_cons] at apart
    exact apart.2

/-- Every step keeps the brackets in order. -/
theorem proper_inductive : Inductive (fun _ => True) (fun _ => True) Partial.Proper where
  setLast _ proper := { proper with }
  repeatLast s proper := by
    unfold Partial.repeatLast
    cases s.lastep with
    | none => exact proper
    | some i =>
        have alike := Alike.modify s.expbuf i Extent.start
        exact
          { items := proper.items.modify i
            plain := fun mem => proper.plain (mem_modify_star mem)
            opened := fun n => (alike.braslist n).symm.trans (proper.opened n)
            closed := fun n => (alike.braelist n).symm.trans (proper.closed n)
            known := proper.known
            apart := proper.apart }
  opening _ proper := proper.opening
  closing _ _ _ eq proper := proper.closing eq
  cchr _ _ nonzero proper := proper.put (by simp) ⟨nonzero, trivial⟩ rfl
  cdot _ proper := proper.put (by simp) ⟨trivial, trivial⟩ rfl
  ccl _ _ _ proper := proper.put (by simp) ⟨trivial, trivial⟩ rfl
  cback _ _ proper := proper.put (by simp) ⟨trivial, trivial⟩ rfl
  empty := trivial
  setBit _ _ _ _ _ := trivial
  setRange _ _ _ _ _ _ := trivial
  negate _ _ := trivial

/-- What `compile` writes is proper. -/
theorem proper_of_compile {circf : Bool} (proper : 0 ∉ pattern)
    (accepted : compile (pattern ++ [0]) = some (items, circf)) : Proper items Extent.start := by
  have start : Partial.Proper ⟨[], none, [], 0, 0⟩ :=
    { items := trivial
      plain := List.not_mem_nil
      opened := fun n => by simp [Extent.after, Extent.start, noGroups]
      closed := fun n => by simp [Extent.after, Extent.start, noGroups]
      known := fun n mem => absurd mem List.not_mem_nil
      apart := List.nodup_nil }
  obtain ⟨s, written, rfl | rfl⟩ :=
    proper_inductive.compile (memory_append_nul proper fun _ => trivial) start accepted
  · exact written.items
  · exact written.items.append written.plain ⟨rfl, trivial⟩

end

end Grep

end UnixV7
