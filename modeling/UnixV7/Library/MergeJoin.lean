import Mathlib.Data.List.Basic
import Mathlib.Order.Lattice

/-!
# Joins of two lists

What is put out when two lists are joined on a key: every pair of items with equal keys, in the
order of the lists, and every item of one list or the other without a partner where these are
wanted, all in the order of the keys. The join of two lists can be put together from joins of
their parts when the keys of the first parts are below those of the others.
-/

namespace UnixV7

/-- What is put out: a pair, or an item without a partner. -/
inductive Put (α β : Type*)
  | both (x : α) (y : β)
  | left (x : α)
  | right (y : β)

namespace Put

variable {α β κ : Type*}

def key (key₁ : α → κ) (key₂ : β → κ) : Put α β → κ
  | both x _ => key₁ x
  | left x => key₁ x
  | right y => key₂ y

def both? : Put α β → Option (α × β)
  | both x y => some (x, y)
  | _ => none

def left? : Put α β → Option α
  | left x => some x
  | _ => none

def right? : Put α β → Option β
  | right y => some y
  | _ => none

end Put

variable {α β κ : Type*} [LinearOrder κ] {key₁ : α → κ} {key₂ : β → κ} {a₁ a₂ : Bool}
  {xs xs' : List α} {ys ys' : List β} {puts puts' : List (Put α β)}

/-- The pairs of items with equal keys, for each item of the first list in turn. -/
def partners (key₁ : α → κ) (key₂ : β → κ) (xs : List α) (ys : List β) : List (α × β) :=
  xs.flatMap fun x => (ys.filter fun y => key₂ y = key₁ x).map (Prod.mk x)

/-- The items that have no partner. -/
def alone (key₁ : α → κ) (key₂ : β → κ) (xs : List α) (ys : List β) : List α :=
  xs.filter fun x => ∀ y ∈ ys, key₂ y ≠ key₁ x

/-- The two lists have been joined, with the items of the first and of the second that have no
partner where `a₁` and `a₂` say so. -/
structure Joins (key₁ : α → κ) (key₂ : β → κ) (a₁ a₂ : Bool) (xs : List α) (ys : List β)
    (puts : List (Put α β)) : Prop where
  pairs : puts.filterMap Put.both? = partners key₁ key₂ xs ys
  lefts : puts.filterMap Put.left? = if a₁ then alone key₁ key₂ xs ys else []
  rights : puts.filterMap Put.right? = if a₂ then alone key₂ key₁ ys xs else []
  sorted : puts.Pairwise fun p q => p.key key₁ key₂ ≤ q.key key₁ key₂

/-! ## Partners -/

theorem partners_append_left (xs xs' : List α) (ys : List β) :
    partners key₁ key₂ (xs ++ xs') ys = partners key₁ key₂ xs ys ++ partners key₁ key₂ xs' ys :=
  List.flatMap_append

theorem partners_eq_nil :
    partners key₁ key₂ xs ys = [] ↔ ∀ x ∈ xs, ∀ y ∈ ys, key₂ y ≠ key₁ x := by
  simp only [partners, List.flatMap_eq_nil_iff, List.map_eq_nil_iff, List.filter_eq_nil_iff,
    decide_eq_true_eq]

/-- Items of the second list that no item of the first has the key of make no difference. -/
theorem partners_append_right (none : ∀ x ∈ xs, ∀ y ∈ ys', key₂ y ≠ key₁ x) :
    partners key₁ key₂ xs (ys ++ ys') = partners key₁ key₂ xs ys := by
  induction xs with
  | nil => rfl
  | cons x xs ih =>
      have rest := ih fun x mem => none x (List.mem_cons_of_mem _ mem)
      have gone : (ys'.filter fun y => key₂ y = key₁ x) = [] := by
        simpa [List.filter_eq_nil_iff] using none x List.mem_cons_self
      simp only [partners, List.flatMap_cons, List.filter_append, gone, List.append_nil] at rest ⊢
      rw [rest]

theorem partners_append_left_right (none : ∀ x ∈ xs, ∀ y ∈ ys, key₂ y ≠ key₁ x) :
    partners key₁ key₂ xs (ys ++ ys') = partners key₁ key₂ xs ys' := by
  induction xs with
  | nil => rfl
  | cons x xs ih =>
      have rest := ih fun x mem => none x (List.mem_cons_of_mem _ mem)
      have gone : (ys.filter fun y => key₂ y = key₁ x) = [] := by
        simpa [List.filter_eq_nil_iff] using none x List.mem_cons_self
      simp only [partners, List.flatMap_cons, List.filter_append, gone, List.nil_append] at rest ⊢
      rw [rest]

theorem length_partners_append (xs : List α) (ys ys' : List β) :
    (partners key₁ key₂ xs (ys ++ ys')).length =
      (partners key₁ key₂ xs ys).length + (partners key₁ key₂ xs ys').length := by
  induction xs with
  | nil => rfl
  | cons x xs ih =>
      simp only [partners, List.flatMap_cons, List.length_append, List.filter_append,
        List.map_append, List.length_map] at ih ⊢
      omega

/-- Items that have partners behind the end of the lists are all that is missing. -/
theorem partners_append_eq : partners key₁ key₂ (xs ++ xs') (ys ++ ys') = partners key₁ key₂ xs ys ↔
    (∀ x ∈ xs, ∀ y ∈ ys', key₂ y ≠ key₁ x) ∧ ∀ x ∈ xs', ∀ y ∈ ys ++ ys', key₂ y ≠ key₁ x := by
  constructor
  · intro same
    have length := congrArg List.length same
    rw [partners_append_left, List.length_append, length_partners_append] at length
    constructor
    · exact partners_eq_nil.mp (List.length_eq_zero_iff.mp (by omega))
    · exact partners_eq_nil.mp (List.length_eq_zero_iff.mp (by omega))
  · rintro ⟨one, two⟩
    rw [partners_append_left, partners_eq_nil.mpr two, List.append_nil, partners_append_right one]

theorem alone_append (xs xs' : List α) (ys : List β) :
    alone key₁ key₂ (xs ++ xs') ys = alone key₁ key₂ xs ys ++ alone key₁ key₂ xs' ys :=
  List.filter_append _ _

theorem alone_congr (same : ∀ x ∈ xs, (∀ y ∈ ys, key₂ y ≠ key₁ x) ↔ ∀ y ∈ ys', key₂ y ≠ key₁ x) :
    alone key₁ key₂ xs ys = alone key₁ key₂ xs ys' :=
  List.filter_congr fun x mem => decide_eq_decide.mpr (same x mem)

theorem alone_eq_self (none : ∀ x ∈ xs, ∀ y ∈ ys, key₂ y ≠ key₁ x) :
    alone key₁ key₂ xs ys = xs :=
  List.filter_eq_self.mpr fun x mem => decide_eq_true (none x mem)

/-! ## Parts of a join -/

/-- The keys of the first two lists are not above those of the others, and no item has a partner
among them. -/
structure KeysBelow (key₁ : α → κ) (key₂ : β → κ) (xs : List α) (ys : List β) (xs' : List α)
    (ys' : List β) : Prop where
  lefts : ∀ x ∈ xs, ∀ x' ∈ xs', key₁ x ≤ key₁ x'
  rights : ∀ y ∈ ys, ∀ y' ∈ ys', key₂ y ≤ key₂ y'
  forth : ∀ x ∈ xs, ∀ y ∈ ys', key₁ x < key₂ y
  back : ∀ y ∈ ys, ∀ x ∈ xs', key₂ y < key₁ x

theorem KeysBelow.le (below : KeysBelow key₁ key₂ xs ys xs' ys') {k k' : κ}
    (first : k ∈ xs.map key₁ ++ ys.map key₂) (second : k' ∈ xs'.map key₁ ++ ys'.map key₂) :
    k ≤ k' := by
  simp only [List.mem_append, List.mem_map] at first second
  rcases first with ⟨x, mem, rfl⟩ | ⟨y, mem, rfl⟩
  · rcases second with ⟨x', mem', rfl⟩ | ⟨y', mem', rfl⟩
    · exact below.lefts x mem x' mem'
    · exact le_of_lt (below.forth x mem y' mem')
  · rcases second with ⟨x', mem', rfl⟩ | ⟨y', mem', rfl⟩
    · exact le_of_lt (below.back y mem x' mem')
    · exact below.rights y mem y' mem'

theorem Joins.key_mem (joins : Joins key₁ key₂ a₁ a₂ xs ys puts) {p : Put α β} (mem : p ∈ puts) :
    p.key key₁ key₂ ∈ xs.map key₁ ++ ys.map key₂ := by
  cases p with
  | both x y =>
      have listed : (x, y) ∈ puts.filterMap Put.both? := List.mem_filterMap.mpr ⟨_, mem, rfl⟩
      rw [joins.pairs, partners, List.mem_flatMap] at listed
      obtain ⟨x', inside, mapped⟩ := listed
      obtain ⟨y', -, same⟩ := List.mem_map.mp mapped
      obtain ⟨rfl, rfl⟩ := Prod.mk.inj same
      exact List.mem_append_left _ (List.mem_map_of_mem inside)
  | left x =>
      have listed : x ∈ puts.filterMap Put.left? := List.mem_filterMap.mpr ⟨_, mem, rfl⟩
      rw [joins.lefts] at listed
      split at listed
      · exact List.mem_append_left _ (List.mem_map_of_mem (List.mem_filter.mp listed).1)
      · simp at listed
  | right y =>
      have listed : y ∈ puts.filterMap Put.right? := List.mem_filterMap.mpr ⟨_, mem, rfl⟩
      rw [joins.rights] at listed
      split at listed
      · exact List.mem_append_right _ (List.mem_map_of_mem (List.mem_filter.mp listed).1)
      · simp at listed

theorem Joins.nil (key₁ : α → κ) (key₂ : β → κ) (a₁ a₂ : Bool) :
    Joins key₁ key₂ a₁ a₂ [] [] [] where
  pairs := rfl
  lefts := by split <;> rfl
  rights := by split <;> rfl
  sorted := .nil

/-- Two joins one behind the other. -/
theorem Joins.append (first : Joins key₁ key₂ a₁ a₂ xs ys puts)
    (second : Joins key₁ key₂ a₁ a₂ xs' ys' puts') (below : KeysBelow key₁ key₂ xs ys xs' ys') :
    Joins key₁ key₂ a₁ a₂ (xs ++ xs') (ys ++ ys') (puts ++ puts') := by
  have forth : ∀ x ∈ xs, ∀ y ∈ ys', key₂ y ≠ key₁ x := fun x left y right =>
    ne_of_gt (below.forth x left y right)
  have back : ∀ x ∈ xs', ∀ y ∈ ys, key₂ y ≠ key₁ x := fun x left y right =>
    ne_of_lt (below.back y right x left)
  have same₁ : alone key₁ key₂ (xs ++ xs') (ys ++ ys') =
      alone key₁ key₂ xs ys ++ alone key₁ key₂ xs' ys' := by
    rw [alone_append]
    congr 1
    · refine alone_congr fun x mem => ?_
      simp only [List.forall_mem_append]
      exact and_iff_left (forth x mem)
    · refine alone_congr fun x mem => ?_
      simp only [List.forall_mem_append]
      exact and_iff_right (back x mem)
  have same₂ : alone key₂ key₁ (ys ++ ys') (xs ++ xs') =
      alone key₂ key₁ ys xs ++ alone key₂ key₁ ys' xs' := by
    rw [alone_append]
    congr 1
    · refine alone_congr fun y mem => ?_
      simp only [List.forall_mem_append]
      exact and_iff_left fun x left => (back x left y mem).symm
    · refine alone_congr fun y mem => ?_
      simp only [List.forall_mem_append]
      exact and_iff_right fun x left => (forth x left y mem).symm
  constructor
  · rw [List.filterMap_append, first.pairs, second.pairs, partners_append_left,
      partners_append_right forth, partners_append_left_right back]
  · rw [List.filterMap_append, first.lefts, second.lefts, same₁]
    split <;> rfl
  · rw [List.filterMap_append, first.rights, second.rights, same₂]
    split <;> rfl
  · refine List.pairwise_append.mpr ⟨first.sorted, second.sorted, fun p left q right => ?_⟩
    exact below.le (first.key_mem left) (second.key_mem right)

/-- Items of the first list alone. -/
theorem Joins.lefts_only (ordered : xs.Pairwise fun x x' => key₁ x ≤ key₁ x') :
    Joins key₁ key₂ a₁ a₂ xs [] (if a₁ then xs.map .left else []) := by
  cases a₁ with
  | false =>
      refine ⟨?_, rfl, (ite_self _).symm, .nil⟩
      exact (partners_eq_nil.mpr fun _ _ _ none => absurd none List.not_mem_nil).symm
  | true =>
      refine ⟨?_, ?_, ?_, ?_⟩
      · rw [partners_eq_nil.mpr fun _ _ _ none => absurd none List.not_mem_nil]
        simp [List.filterMap_map, Function.comp_def, Put.both?]
      · rw [if_pos rfl, if_pos rfl, alone_eq_self fun _ _ _ none => absurd none List.not_mem_nil]
        simp [List.filterMap_map, Function.comp_def, Put.left?]
      · simp [List.filterMap_map, Function.comp_def, Put.right?, alone]
      · exact List.pairwise_map.mpr ordered

/-- Items of the second list alone. -/
theorem Joins.rights_only (ordered : ys.Pairwise fun y y' => key₂ y ≤ key₂ y') :
    Joins key₁ key₂ a₁ a₂ [] ys (if a₂ then ys.map .right else []) := by
  cases a₂ with
  | false => exact ⟨rfl, by simp [alone], rfl, .nil⟩
  | true =>
      refine ⟨?_, ?_, ?_, ?_⟩
      · simp [List.filterMap_map, Function.comp_def, Put.both?, partners]
      · simp [List.filterMap_map, Function.comp_def, Put.left?, alone]
      · rw [if_pos rfl, if_pos rfl, alone_eq_self fun _ _ _ none => absurd none List.not_mem_nil]
        simp [List.filterMap_map, Function.comp_def, Put.right?]
      · exact List.pairwise_map.mpr ordered

theorem Joins.left_only (key₁ : α → κ) (key₂ : β → κ) (a₁ a₂ : Bool) (x : α) :
    Joins key₁ key₂ a₁ a₂ [x] [] (if a₁ then [.left x] else []) :=
  .lefts_only (List.pairwise_singleton _ x)

theorem Joins.right_only (key₁ : α → κ) (key₂ : β → κ) (a₁ a₂ : Bool) (y : β) :
    Joins key₁ key₂ a₁ a₂ [] [y] (if a₂ then [.right y] else []) :=
  .rights_only (List.pairwise_singleton _ y)

/-- Items that all have one key. -/
theorem Joins.group {k : κ} (one₁ : ∀ x ∈ xs, key₁ x = k) (one₂ : ∀ y ∈ ys, key₂ y = k)
    (some₁ : xs ≠ []) (some₂ : ys ≠ []) :
    Joins key₁ key₂ a₁ a₂ xs ys (xs.flatMap fun x => ys.map (.both x)) := by
  have all : ∀ x ∈ xs, (ys.filter fun y => key₂ y = key₁ x) = ys := fun x left =>
    List.filter_eq_self.mpr fun y right => decide_eq_true ((one₂ y right).trans (one₁ x left).symm)
  have none₁ : alone key₁ key₂ xs ys = [] := by
    obtain ⟨y, right⟩ := List.exists_mem_of_ne_nil ys some₂
    refine List.filter_eq_nil_iff.mpr fun x left => ?_
    simpa using ⟨y, right, (one₂ y right).trans (one₁ x left).symm⟩
  have none₂ : alone key₂ key₁ ys xs = [] := by
    obtain ⟨x, left⟩ := List.exists_mem_of_ne_nil xs some₁
    refine List.filter_eq_nil_iff.mpr fun y right => ?_
    simpa using ⟨x, left, (one₁ x left).trans (one₂ y right).symm⟩
  constructor
  · rw [List.filterMap_flatMap, partners]
    refine List.flatMap_congr fun x left => ?_
    rw [all x left]
    simp [List.filterMap_map, Function.comp_def, Put.both?]
  · rw [none₁, ite_self]
    simp [List.filterMap_flatMap, List.filterMap_map, Function.comp_def, Put.left?]
  · rw [none₂, ite_self]
    simp [List.filterMap_flatMap, List.filterMap_map, Function.comp_def, Put.right?]
  · have keys : ∀ p ∈ xs.flatMap fun x => ys.map (Put.both x), p.key key₁ key₂ = k := by
      intro p mem
      obtain ⟨x, left, mapped⟩ := List.mem_flatMap.mp mem
      obtain ⟨y, -, rfl⟩ := List.mem_map.mp mapped
      exact one₁ x left
    exact List.pairwise_of_forall_mem_list fun p left q right =>
      le_of_eq ((keys p left).trans (keys q right).symm)

/-- A join of the first parts of two lists is one of the whole lists exactly when no item of the
other parts has a partner, or is wanted without one. -/
theorem Joins.extend_iff (joins : Joins key₁ key₂ a₁ a₂ xs ys puts) (xs' : List α)
    (ys' : List β) :
    Joins key₁ key₂ a₁ a₂ (xs ++ xs') (ys ++ ys') puts ↔
      (∀ x ∈ xs', ∀ y ∈ ys ++ ys', key₂ y ≠ key₁ x) ∧
      (∀ y ∈ ys', ∀ x ∈ xs ++ xs', key₁ x ≠ key₂ y) ∧
      (a₁ = true → xs' = []) ∧ (a₂ = true → ys' = []) := by
  -- without partners behind the end, the items that are alone are as before, and those behind
  have alone₁ (forth : ∀ x ∈ xs, ∀ y ∈ ys', key₂ y ≠ key₁ x)
      (gone : ∀ x ∈ xs', ∀ y ∈ ys ++ ys', key₂ y ≠ key₁ x) :
      alone key₁ key₂ (xs ++ xs') (ys ++ ys') = alone key₁ key₂ xs ys ++ xs' := by
    rw [alone_append, alone_eq_self gone]
    congr 1
    refine alone_congr fun x mem => ?_
    simp only [List.forall_mem_append]
    exact and_iff_left (forth x mem)
  have alone₂ (back : ∀ y ∈ ys, ∀ x ∈ xs', key₁ x ≠ key₂ y)
      (gone : ∀ y ∈ ys', ∀ x ∈ xs ++ xs', key₁ x ≠ key₂ y) :
      alone key₂ key₁ (ys ++ ys') (xs ++ xs') = alone key₂ key₁ ys xs ++ ys' := by
    rw [alone_append, alone_eq_self gone]
    congr 1
    refine alone_congr fun y mem => ?_
    simp only [List.forall_mem_append]
    exact and_iff_left (back y mem)
  constructor
  · intro whole
    obtain ⟨forth, gone₁⟩ := partners_append_eq.mp (whole.pairs.symm.trans joins.pairs)
    have gone₂ : ∀ y ∈ ys', ∀ x ∈ xs ++ xs', key₁ x ≠ key₂ y := by
      intro y right x left
      rcases List.mem_append.mp left with before | behind
      · exact (forth x before y right).symm
      · exact (gone₁ x behind y (List.mem_append_right _ right)).symm
    refine ⟨gone₁, gone₂, fun wanted => ?_, fun wanted => ?_⟩
    · have same := whole.lefts.symm.trans joins.lefts
      rw [if_pos wanted, if_pos wanted, alone₁ forth gone₁] at same
      exact List.append_right_eq_self.mp same
    · have same := whole.rights.symm.trans joins.rights
      rw [if_pos wanted, if_pos wanted, alone₂ (fun y right x left =>
        (gone₁ x left y (List.mem_append_left _ right)).symm) gone₂] at same
      exact List.append_right_eq_self.mp same
  · rintro ⟨gone₁, gone₂, wanted₁, wanted₂⟩
    have forth : ∀ x ∈ xs, ∀ y ∈ ys', key₂ y ≠ key₁ x := fun x left y right =>
      (gone₂ y right x (List.mem_append_left _ left)).symm
    refine ⟨joins.pairs.trans (partners_append_eq.mpr ⟨forth, gone₁⟩).symm, ?_, ?_, joins.sorted⟩
    · rw [joins.lefts, alone₁ forth gone₁]
      split
      · next wanted => rw [wanted₁ wanted, List.append_nil]
      · rfl
    · rw [joins.rights, alone₂ (fun y right x left =>
        (gone₁ x left y (List.mem_append_left _ right)).symm) gone₂]
      split
      · next wanted => rw [wanted₂ wanted, List.append_nil]
      · rfl

end UnixV7
