import Mathlib.Algebra.Group.Nat.Defs
import Mathlib.Data.List.Nodup
import Mathlib.Logic.Equiv.Basic
import UnixV7.Cmd.Diff.Stone

/-!
# Classes of equal lines

`prune`, `sort`, `equiv` and `unsort` of `diff.c`. The common beginning and end of the files are set
aside; the lines between are sorted by value and number, the equal lines of the second file are
put together in `member`, with the first of each class negative, and each line of the first file
gets the place of its class.
-/

namespace UnixV7

open Function

namespace Diff

/-- `struct line` -/
structure Line where
  serial : ℕ
  value : ℤ

/-- The loops of `prune`: the length of the common beginning. -/
def common : List ℤ → List ℤ → ℕ
  | u :: us, v :: vs => if u = v then common us vs + 1 else 0
  | _, _ => 0

/-- `pref` -/
def pref (us vs : List ℤ) : ℕ := common us vs

/-- `suff`, which counts only lines behind `pref`. -/
def suff (us vs : List ℤ) : ℕ :=
  common (us.drop (pref us vs)).reverse (vs.drop (pref us vs)).reverse

/-- The values that are left when `p` lines at the beginning and `s` at the end are set aside. -/
def middle (us : List ℤ) (p s : ℕ) : List ℤ := (us.drop p).take (us.length - p - s)

/-- `sfile`: the lines from 1 on, with their numbers. -/
def sfile (us : List ℤ) (i : ℕ) : Line := ⟨i, us.getD (i - 1) 0⟩

/-! ## sort -/

/-- The comparison in `sort`. -/
def above (aim ai : Line) : Bool :=
  ai.value < aim.value ∨ aim.value = ai.value ∧ ai.serial < aim.serial

/-- Two lines change places. -/
def exchange (i j : ℕ) (a : ℕ → Line) (k : ℕ) : Line :=
  if k = i then a j else if k = j then a i else a k

/-- The inner loop of `sort`. -/
def sink (m : ℕ) : ℕ → ℕ → (ℕ → Line) → ℕ → Line
  | 0, _, a => a
  | fuel + 1, i, a =>
      if i = 0 then a
      else if above (a (i + m)) (a i) then a
      else sink m fuel (i - m) (exchange i (i + m) a)

/-- The loop over `j`. -/
def passFrom (m : ℕ) : ℕ → ℕ → (ℕ → Line) → ℕ → Line
  | 0, _, a => a
  | n + 1, j, a => passFrom m n (j + 1) (sink m j j a)

/-- The loop over `m`. -/
def passes (n : ℕ) : ℕ → ℕ → (ℕ → Line) → ℕ → Line
  | 0, _, a => a
  | fuel + 1, m, a =>
      if m / 2 = 0 then a
      else passes n fuel (m / 2) (passFrom (m / 2) (n - m / 2) 1 a)

/-- The loop that finds the first `m`. -/
def firstGap (n : ℕ) : ℕ → ℕ → ℕ → ℕ
  | 0, _, m => m
  | fuel + 1, j, m => if j ≤ n then firstGap n fuel (j * 2) (2 * j - 1) else m

/-- `sort` -/
def sort (a : ℕ → Line) (n : ℕ) : ℕ → Line :=
  passes n (firstGap n (n + 1) 1 0) (firstGap n (n + 1) 1 0) a

/-! ## equiv and unsort -/

/-- The loops of `equiv` which turn the values of the first file into places in `member`. -/
def places (j : ℕ) : List Line → List Line → List Line
  | [], _ => []
  | a :: as, [] => { a with value := 0 } :: places j as []
  | a :: as, b :: bs =>
      if a.value < b.value then { a with value := 0 } :: places j as (b :: bs)
      else if a.value = b.value then { a with value := j } :: places j as (b :: bs)
      else places (j + 1) (a :: as) bs
  termination_by as bs => as.length + bs.length

/-- The loop of `equiv` which makes `member`. The value 0 is put behind the last line; a class that
does not end there is `none`. -/
def members : Bool → List Line → Option (List ℤ)
  | true, [] => some [-1]
  | false, [] => none
  | first, b :: bs =>
      (members (decide ((bs.head?.map Line.value).getD 0 ≠ b.value)) bs).map fun c =>
        (if first then -(b.serial : ℤ) else b.serial) :: c

/-- `unsort` -/
def unsort (f : List Line) : ℕ → ℤ := f.foldl (fun a l => update a l.serial l.value) fun _ => 0

/-- The lines of an array. -/
def listed (a : ℕ → Line) (n : ℕ) : List Line := (List.range' 1 n).map a

/-- `sort`, `equiv` and `unsort`: the arrays `class` and `member`. -/
def classes (us vs : List ℤ) : Option ((ℕ → ℤ) × List ℤ) :=
  let as := listed (sort (sfile us) us.length) us.length
  let bs := listed (sort (sfile vs) vs.length) vs.length
  (members true bs).map fun c => (unsort (places 1 as bs), c)

/-! ## Sorting -/

variable {a a' a'' : ℕ → Line} {i j k l m n : ℕ}

/-- The lines 1 to `n` have been put in another order. -/
def Rearranged (n : ℕ) (a a' : ℕ → Line) : Prop :=
  ∃ σ : Equiv.Perm ℕ, (∀ k, k = 0 ∨ n < k → σ k = k) ∧ a' = a ∘ σ

namespace Rearranged

theorem refl (n : ℕ) (a : ℕ → Line) : Rearranged n a a := ⟨Equiv.refl ℕ, fun _ _ => rfl, rfl⟩

theorem trans (first : Rearranged n a a') (second : Rearranged n a' a'') : Rearranged n a a'' := by
  obtain ⟨σ, fixed, rfl⟩ := first
  obtain ⟨τ, fixed', rfl⟩ := second
  refine ⟨τ.trans σ, fun k out => ?_, rfl⟩
  rw [Equiv.trans_apply, fixed' k out, fixed k out]

theorem exchange (low : 1 ≤ i) (less : i < j) (high : j ≤ n) :
    Rearranged n a (Diff.exchange i j a) := by
  refine ⟨Equiv.swap i j, fun k out => Equiv.swap_apply_of_ne_of_ne (by omega) (by omega), ?_⟩
  funext k
  simp only [Diff.exchange, comp_apply, Equiv.swap_apply_def]
  split_ifs <;> rfl

theorem perm (moved : Rearranged n a a') : (listed a' n).Perm (listed a n) := by
  obtain ⟨σ, fixed, rfl⟩ := moved
  have stays : ∀ k, 1 ≤ σ k ∧ σ k < 1 + n ↔ 1 ≤ k ∧ k < 1 + n := by
    intro k
    constructor
    · intro inside
      by_contra out
      rw [fixed k (by omega)] at inside
      exact out inside
    · intro inside
      by_contra out
      have same := σ.injective (fixed (σ k) (by omega))
      rw [same] at out
      exact out inside
  have nodup : ((List.range' 1 n).map σ).Nodup := List.Nodup.map σ.injective List.nodup_range'
  have same : ((List.range' 1 n).map σ).Perm (List.range' 1 n) := by
    refine (List.perm_ext_iff_of_nodup nodup List.nodup_range').mpr fun k => ?_
    rw [List.mem_map, List.mem_range'_1]
    constructor
    · rintro ⟨x, mem, rfl⟩
      exact (stays x).mpr (List.mem_range'_1.mp mem)
    · intro inside
      refine ⟨σ.symm k, List.mem_range'_1.mpr ((stays _).mp ?_), σ.apply_symm_apply k⟩
      rwa [σ.apply_symm_apply]
  rw [listed, listed, ← List.map_map]
  exact same.map a

end Rearranged

theorem sink_rearranged (fuel : ℕ) (gap : 1 ≤ m) (inside : i = 0 ∨ i + m ≤ n) :
    Rearranged n a (sink m fuel i a) := by
  induction fuel generalizing i a with
  | zero => exact .refl n a
  | succ fuel ih =>
      rw [sink]
      split_ifs with stop ordered
      · exact .refl n a
      · exact .refl n a
      · exact (Rearranged.exchange (by omega) (by omega) (by omega)).trans (ih (by omega))

theorem passFrom_rearranged (count : ℕ) (gap : 1 ≤ m) (start : 1 ≤ j)
    (inside : count = 0 ∨ j + count + m ≤ n + 1) :
    Rearranged n a (passFrom m count j a) := by
  induction count generalizing j a with
  | zero => exact .refl n a
  | succ count ih =>
      rw [passFrom]
      exact (sink_rearranged j gap (by omega)).trans (ih (by omega) (by omega))

theorem passes_rearranged (fuel : ℕ) : Rearranged n a (passes n fuel m a) := by
  induction fuel generalizing m a with
  | zero => exact .refl n a
  | succ fuel ih =>
      rw [passes]
      split_ifs with stop
      · exact .refl n a
      · exact (passFrom_rearranged (n - m / 2) (by omega) (Nat.le_refl 1) (by omega)).trans ih

/-- The lines 1 to `n` are in order. -/
def Sorted (a : ℕ → Line) (n : ℕ) : Prop :=
  ∀ i j, 1 ≤ i → i < j → j ≤ n → above (a i) (a j) = false

theorem above_eq_false {p q : Line} :
    above p q = false ↔ p.value < q.value ∨ p.value = q.value ∧ p.serial ≤ q.serial := by
  simp only [above, Bool.decide_or, Bool.decide_and, Bool.or_eq_false_iff, decide_eq_false_iff_not,
    Bool.and_eq_false_iff]
  omega

theorem above_eq_true {p q : Line} :
    above p q = true ↔ q.value < p.value ∨ p.value = q.value ∧ q.serial < p.serial := by
  simp [above]

/-- The line `i + 1` sinks into the sorted lines before it; the lines behind it up to `n` are sorted
too, and none of them belongs before it. -/
theorem sink_sorted (fuel : ℕ) (enough : i ≤ fuel) (high : i + 1 ≤ n)
    (sorted : ∀ p q, 1 ≤ p → p < q → q ≤ n → p ≠ i + 1 → q ≠ i + 1 → above (a p) (a q) = false)
    (behind : ∀ q, i + 1 < q → q ≤ n → above (a (i + 1)) (a q) = false) :
    Sorted (sink 1 fuel i a) n := by
  induction fuel generalizing i a with
  | zero =>
      intro p q low less inside
      rw [sink]
      by_cases here : p = i + 1
      · exact here ▸ behind q (here ▸ less) inside
      · exact sorted p q low less inside here (by omega)
  | succ fuel ih =>
      rw [sink]
      split_ifs with stop ordered
      · intro p q low less inside
        by_cases here : p = i + 1
        · exact here ▸ behind q (here ▸ less) inside
        · exact sorted p q low less inside here (by omega)
      · intro p q low less inside
        by_cases here : p = i + 1
        · exact here ▸ behind q (here ▸ less) inside
        · by_cases there : q = i + 1
          · subst there
            rcases Nat.lt_or_eq_of_le (Nat.le_of_lt_succ less) with before | rfl
            · have first := above_eq_false.mp
                (sorted p i low before (by omega) here (by omega))
              have second := above_eq_true.mp ordered
              exact above_eq_false.mpr (by omega)
            · have second := above_eq_true.mp ordered
              exact above_eq_false.mpr (by omega)
          · exact sorted p q low less inside here there
      · rw [Bool.not_eq_true] at ordered
        have down : i - 1 + 1 = i := by omega
        refine ih (by omega) (by omega) (fun p q low less inside left right => ?_)
          fun q less inside => ?_
        · rw [down] at left right
          simp only [exchange, if_neg left, if_neg right]
          split_ifs with first second
          · omega
          · subst first
            exact sorted i q (by omega) (by omega) inside (by omega) (by omega)
          · exact sorted p i low (by omega) (by omega) (by omega) (by omega)
          · exact sorted p q low less inside (by omega) (by omega)
        · rw [down] at less ⊢
          have here : exchange i (i + 1) a i = a (i + 1) := if_pos rfl
          rw [here, exchange, if_neg (by omega)]
          split_ifs with next
          · exact ordered
          · exact behind q (by omega) inside

/-- The pass with distance 1 sorts. -/
theorem passFrom_sorted (count : ℕ) (start : 1 ≤ j) (inside : j + count ≤ n)
    (sorted : Sorted a j) : Sorted (passFrom 1 count j a) (j + count) := by
  induction count generalizing j a with
  | zero => exact sorted
  | succ count ih =>
      rw [passFrom, show j + (count + 1) = j + 1 + count by omega]
      refine ih (by omega) (by omega) (sink_sorted j (Nat.le_refl j) (Nat.le_refl _) ?_ ?_)
      · intro p q low less bound left right
        exact sorted p q low less (by omega)
      · intro q less bound
        omega

/-- The last distance is 1. -/
theorem passes_sorted {t fuel : ℕ} (enough : t + 1 ≤ fuel) :
    Sorted (passes n fuel (2 ^ (t + 2) - 1) a) n := by
  induction t generalizing fuel a with
  | zero =>
      obtain ⟨fuel, rfl⟩ : ∃ k, fuel = k + 1 := ⟨fuel - 1, by omega⟩
      have last : passes n fuel 1 = id := by
        cases fuel with
        | zero => rfl
        | succ fuel => rfl
      rw [passes, if_neg (by decide)]
      have half : (2 ^ (0 + 2) - 1) / 2 = 1 := by decide
      rw [half, last]
      rcases Nat.lt_or_ge n 1 with none | some
      · intro p q low less high
        omega
      · have whole := passFrom_sorted (n - 1) (Nat.le_refl 1)
          (Nat.le_of_eq (Nat.add_sub_cancel' some)) (a := a) (fun p q low less high => by omega)
        rwa [Nat.add_sub_cancel' some] at whole
  | succ t ih =>
      obtain ⟨fuel, rfl⟩ : ∃ k, fuel = k + 1 := ⟨fuel - 1, by omega⟩
      have half : (2 ^ (t + 1 + 2) - 1) / 2 = 2 ^ (t + 2) - 1 := by
        rw [show t + 1 + 2 = t + 2 + 1 from rfl, Nat.pow_succ]
        omega
      have large : 2 ^ 2 ≤ 2 ^ (t + 2) := Nat.pow_le_pow_right (by decide) (by omega)
      rw [passes, half, if_neg (by omega)]
      exact ih (by omega)

/-- The first distance is a power of 2 less 1. -/
theorem firstGap_spec {t : ℕ} (fuel : ℕ) (enough : n < 2 ^ (t + fuel)) :
    ∃ u, t ≤ u ∧ n < 2 ^ u ∧ firstGap n fuel (2 ^ t) (2 ^ t - 1) = 2 ^ u - 1 := by
  induction fuel generalizing t with
  | zero => exact ⟨t, Nat.le_refl t, enough, rfl⟩
  | succ fuel ih =>
      rw [firstGap]
      split_ifs with more
      · rw [show t + (fuel + 1) = t + 1 + fuel by omega] at enough
        obtain ⟨u, low, large, result⟩ := ih enough
        refine ⟨u, by omega, large, ?_⟩
        rw [← result, Nat.pow_succ, Nat.mul_comm 2]
      · exact ⟨t, Nat.le_refl t, Nat.not_le.mp more, rfl⟩

theorem sort_sorted (a : ℕ → Line) (n : ℕ) : Sorted (sort a n) n := by
  rcases Nat.lt_or_ge n 2 with few | several
  · intro p q low less high
    omega
  · have enough : n < 2 ^ (0 + (n + 1)) := by
      rw [Nat.zero_add, Nat.pow_succ]
      have := Nat.lt_two_pow_self (n := n)
      omega
    obtain ⟨u, -, large, result⟩ := firstGap_spec (n + 1) enough
    have high : 2 ≤ u := by
      by_contra small
      have bound : 2 ^ u ≤ 2 ^ 1 := Nat.pow_le_pow_right (by decide) (by omega)
      omega
    obtain ⟨t, rfl⟩ : ∃ t, u = t + 2 := ⟨u - 2, by omega⟩
    rw [sort, show firstGap n (n + 1) 1 0 = 2 ^ (t + 2) - 1 from result]
    have large' := Nat.lt_two_pow_self (n := t + 2)
    exact passes_sorted (by omega)

theorem sort_perm (a : ℕ → Line) (n : ℕ) : (listed (sort a n) n).Perm (listed a n) :=
  (passes_rearranged _).perm

/-- The sorted lines as a list. -/
theorem sort_pairwise (a : ℕ → Line) (n : ℕ) :
    (listed (sort a n) n).Pairwise fun p q =>
      p.value < q.value ∨ p.value = q.value ∧ p.serial ≤ q.serial := by
  rw [listed, List.pairwise_map]
  refine List.pairwise_iff_getElem.mpr fun i j low high less => ?_
  rw [List.length_range'] at low high
  rw [List.getElem_range', List.getElem_range']
  exact above_eq_false.mp (sort_sorted a n _ _ (by omega) (by omega) (by omega))

/-! ## Classes -/

variable {as bs f : List Line} {b : Line} {v : ℤ} {c : List ℤ} {first : Bool}

/-- The order of `sort`. -/
def InOrder (p q : Line) : Prop := p.value < q.value ∨ p.value = q.value ∧ p.serial ≤ q.serial

/-- The place of the first line with the value `v`, counted from `j` on, or 0. -/
def placeOf (j : ℕ) (bs : List Line) (v : ℤ) : ℕ :=
  if v ∈ bs.map Line.value then j + (bs.map Line.value).idxOf v else 0

theorem placeOf_cons_of_lt (behind : b.value < v) (j : ℕ) :
    placeOf j (b :: bs) v = placeOf (j + 1) bs v := by
  have other : b.value ≠ v := by omega
  have whole : v ∈ (b :: bs).map Line.value ↔ v ∈ bs.map Line.value := by
    simp [other.symm]
  have index : ((b :: bs).map Line.value).idxOf v = (bs.map Line.value).idxOf v + 1 := by
    rw [List.map_cons, List.idxOf_cons_ne _ other]
  simp only [placeOf, whole, index]
  split_ifs
  · omega
  · rfl

/-- The values become the places of the classes. -/
theorem places_eq (j : ℕ) (as bs : List Line) (sorted : as.Pairwise InOrder)
    (sorted' : bs.Pairwise InOrder) :
    places j as bs = as.map fun a => { a with value := placeOf j bs a.value } := by
  fun_induction places j as bs with
  | case1 => rfl
  | case2 j a as ih =>
      rw [ih (List.pairwise_cons.mp sorted).2 sorted', List.map_cons]
      rfl
  | case3 j a as b bs before ih =>
      have gone : placeOf j (b :: bs) a.value = 0 := by
        refine if_neg fun mem => ?_
        obtain ⟨p, mem, same⟩ := List.mem_map.mp mem
        rcases List.mem_cons.mp mem with rfl | later
        · omega
        · have := (List.pairwise_cons.mp sorted').1 p later
          rw [InOrder] at this
          omega
      rw [ih (List.pairwise_cons.mp sorted).2 sorted', List.map_cons, gone]
      rfl
  | case4 j a as b bs _ same ih =>
      have here : placeOf j (b :: bs) a.value = j := by
        rw [placeOf, if_pos (by simp [same]), List.map_cons, same, List.idxOf_cons_self,
          Nat.add_zero]
      rw [ih (List.pairwise_cons.mp sorted).2 sorted', List.map_cons, here]
  | case5 j a as b bs before other ih =>
      rw [ih sorted (List.pairwise_cons.mp sorted').2]
      refine List.map_congr_left fun p mem => ?_
      have behind : b.value < p.value := by
        rcases List.mem_cons.mp mem with rfl | later
        · omega
        · have := (List.pairwise_cons.mp sorted).1 p later
          rw [InOrder] at this
          omega
      rw [placeOf_cons_of_lt behind]

/-- The numbers of the lines with the value `v`. -/
def serialsOf (bs : List Line) (v : ℤ) : List ℕ := (bs.filter (·.value = v)).map Line.serial

theorem serialsOf_eq_nil (none : ∀ p ∈ bs, p.value ≠ v) : serialsOf bs v = [] := by
  rw [serialsOf, List.filter_eq_nil_iff.mpr (by simpa using none), List.map_nil]

/-- Behind a line of a class stand the other lines of the class. -/
theorem members_follows (nonzero : v ≠ 0) (low : ∀ p ∈ bs, v ≤ p.value)
    (sorted : bs.Pairwise InOrder)
    (made : members (decide ((bs.head?.map Line.value).getD 0 ≠ v)) bs = some c) :
    Follows (serialsOf bs v) c := by
  induction bs generalizing c with
  | nil =>
      have ends : decide (((([] : List Line).head?).map Line.value).getD 0 ≠ v) = true :=
        decide_eq_true (Ne.symm nonzero)
      rw [ends] at made
      obtain rfl := Option.some.inj made
      exact ⟨-1, [], rfl, by decide⟩
  | cons b bs ih =>
      obtain ⟨later, sorted'⟩ := List.pairwise_cons.mp sorted
      rw [members] at made
      obtain ⟨c, made', rfl⟩ := Option.map_eq_some_iff.mp made
      by_cases same : b.value = v
      · obtain ⟨stop, tail, rfl, negative⟩ :=
          ih (fun p mem => low p (List.mem_cons_of_mem _ mem)) sorted' (same ▸ made')
        refine ⟨stop, tail, ?_, negative⟩
        simp [serialsOf, same]
      · have above := low b List.mem_cons_self
        rw [serialsOf_eq_nil fun p mem => ?_]
        · refine ⟨-(b.serial : ℤ), c, ?_, by omega⟩
          simp [same]
        · rcases List.mem_cons.mp mem with rfl | behind
          · exact same
          · have := later p behind
            rw [InOrder] at this
            omega

/-- In `member` the class of the value `v` begins at its first line. -/
theorem members_class (sorted : bs.Pairwise InOrder) (nonzero : ∀ p ∈ bs, p.value ≠ 0)
    (mem : v ∈ bs.map Line.value) (starts : ∀ b ∈ bs.head?, b.value = v → first = true)
    (made : members first bs = some c) :
    ∃ (y : ℕ) (ys : List ℕ) (rest : List ℤ), c.drop ((bs.map Line.value).idxOf v) =
      -(y : ℤ) :: rest ∧ Follows ys rest ∧ serialsOf bs v = y :: ys := by
  induction bs generalizing c first with
  | nil => simp at mem
  | cons b bs ih =>
      obtain ⟨later, sorted'⟩ := List.pairwise_cons.mp sorted
      rw [members] at made
      obtain ⟨c, made', rfl⟩ := Option.map_eq_some_iff.mp made
      by_cases same : b.value = v
      · have begins := starts b rfl same
        have low : ∀ p ∈ bs, v ≤ p.value := fun p mem => by
          have := later p mem
          rw [InOrder] at this
          omega
        have follows := members_follows (same ▸ nonzero b List.mem_cons_self) low sorted'
          (same ▸ made')
        refine ⟨b.serial, serialsOf bs v, c, ?_, follows, by simp [serialsOf, same]⟩
        rw [List.map_cons, same, List.idxOf_cons_self, begins]
        rfl
      · rw [List.map_cons, List.mem_cons] at mem
        have inside := mem.resolve_left fun here => same here.symm
        obtain ⟨y, ys, rest, here, follows, whole⟩ := ih sorted'
          (fun p mem => nonzero p (List.mem_cons_of_mem _ mem)) inside
          (fun p head here => by
            rw [Option.mem_def.mp head]
            simpa [here] using fun other => same other.symm) made'
        refine ⟨y, ys, rest, ?_, follows, ?_⟩
        · rw [List.map_cons, List.idxOf_cons_ne _ same, List.drop_succ_cons, here]
        · rw [← whole, serialsOf, serialsOf, List.filter_cons, if_neg (by simpa using same)]

theorem members_some (first : Bool) (nonzero : ∀ p ∈ bs, p.value ≠ 0)
    (ends : bs = [] → first = true) :
    ∃ c, members first bs = some c := by
  induction bs generalizing first with
  | nil =>
      rw [ends rfl]
      exact ⟨_, rfl⟩
  | cons b bs ih =>
      obtain ⟨c, made⟩ := ih (decide ((bs.head?.map Line.value).getD 0 ≠ b.value))
        (fun p mem => nonzero p (List.mem_cons_of_mem _ mem))
        (fun empty => by simpa [empty] using (nonzero b List.mem_cons_self).symm)
      exact ⟨_, by rw [members, made, Option.map_some]⟩

/-- `unsort` puts each value at the number of its line. -/
theorem unsort_eq (distinct : (f.map Line.serial).Nodup) (mem : b ∈ f) :
    unsort f b.serial = b.value := by
  have general : ∀ (f : List Line) (a : ℕ → ℤ), (f.map Line.serial).Nodup → b ∈ f →
      f.foldl (fun a l => update a l.serial l.value) a b.serial = b.value := by
    intro f
    induction f with
    | nil => simp
    | cons l f ih =>
        intro a distinct mem
        rw [List.map_cons, List.nodup_cons] at distinct
        rw [List.foldl_cons]
        rcases List.mem_cons.mp mem with rfl | later
        · have kept : ∀ (g : List Line) (a : ℕ → ℤ), b.serial ∉ g.map Line.serial →
              g.foldl (fun a l => update a l.serial l.value) a b.serial = a b.serial := by
            intro g
            induction g with
            | nil => simp
            | cons l g ih =>
                intro a out
                rw [List.map_cons, List.mem_cons, not_or] at out
                rw [List.foldl_cons, ih _ out.2, update_of_ne out.1]
          rw [kept f _ distinct.1, update_self]
        · exact ih _ distinct.2 later
  exact general f _ distinct mem

/-- Lines of the two files with equal values. -/
def Mate (us vs : List ℤ) (x y : ℕ) : Prop :=
  1 ≤ x ∧ 1 ≤ y ∧ ∃ v, us[x - 1]? = some v ∧ vs[y - 1]? = some v

variable {us vs : List ℤ}

theorem mem_listed_sort {p : Line} : p ∈ listed (sort (sfile vs) vs.length) vs.length ↔
    1 ≤ p.serial ∧ vs[p.serial - 1]? = some p.value := by
  rw [(sort_perm _ _).mem_iff, listed, List.mem_map]
  constructor
  · rintro ⟨i, mem, rfl⟩
    have bound := List.mem_range'_1.mp mem
    refine ⟨bound.1, ?_⟩
    rw [sfile, List.getD_eq_getElem?_getD, List.getElem?_eq_getElem (by simp only; omega)]
    rfl
  · rintro ⟨low, here⟩
    obtain ⟨high, -⟩ := List.getElem?_eq_some_iff.mp here
    refine ⟨p.serial, List.mem_range'_1.mpr (by omega), ?_⟩
    rw [sfile, List.getD_eq_getElem?_getD, here]
    rfl

theorem serials_nodup :
    ((listed (sort (sfile vs) vs.length) vs.length).map Line.serial).Nodup := by
  refine ((sort_perm _ _).map Line.serial).nodup_iff.mpr ?_
  have same : (listed (sfile vs) vs.length).map Line.serial = List.range' 1 vs.length := by
    rw [listed, List.map_map]
    exact List.map_id' _
  rw [same]
  exact List.nodup_range'

/-- The class of a value lists the lines that have it, in order. -/
theorem mem_serialsOf {z : ℕ} : z ∈ serialsOf (listed (sort (sfile vs) vs.length) vs.length) v ↔
    1 ≤ z ∧ vs[z - 1]? = some v := by
  rw [serialsOf, List.mem_map]
  constructor
  · rintro ⟨p, mem, rfl⟩
    obtain ⟨inside, value⟩ := List.mem_filter.mp mem
    rw [← of_decide_eq_true value]
    exact mem_listed_sort.mp inside
  · intro ⟨low, here⟩
    exact ⟨⟨z, v⟩, List.mem_filter.mpr ⟨mem_listed_sort.mpr ⟨low, here⟩, by simp⟩, rfl⟩

theorem serialsOf_rising :
    (serialsOf (listed (sort (sfile vs) vs.length) vs.length) v).Pairwise (· < ·) := by
  have sub : (serialsOf (listed (sort (sfile vs) vs.length) vs.length) v).Sublist
      ((listed (sort (sfile vs) vs.length) vs.length).map Line.serial) :=
    List.filter_sublist.map _
  have distinct : (serialsOf (listed (sort (sfile vs) vs.length) vs.length) v).Nodup :=
    sub.nodup serials_nodup
  have sorted := (sort_pairwise (sfile vs) vs.length).filter fun p => decide (p.value = v)
  have weak : (serialsOf (listed (sort (sfile vs) vs.length) vs.length) v).Pairwise (· ≤ ·) := by
    rw [serialsOf, List.pairwise_map]
    refine sorted.imp_of_mem fun mem mem' order => ?_
    have value := of_decide_eq_true (List.mem_filter.mp mem).2
    have value' := of_decide_eq_true (List.mem_filter.mp mem').2
    omega
  exact (weak.and distinct).imp fun order => Nat.lt_of_le_of_ne order.1 order.2

/-- Each line of the first file gets the class of the lines equal to it. -/
theorem classes_spec (us : List ℤ) (nonzero : ∀ v ∈ vs, v ≠ 0) :
    ∃ a c, classes us vs = some (a, c) ∧
      ∀ i, 1 ≤ i → i ≤ us.length → Classes (Mate us vs) a c i := by
  have real : ∀ p ∈ listed (sort (sfile vs) vs.length) vs.length, p.value ≠ 0 := fun p mem =>
    nonzero _ (List.mem_of_getElem? (mem_listed_sort.mp mem).2)
  obtain ⟨c, made⟩ := members_some true real fun _ => rfl
  refine ⟨_, c, by rw [classes, made, Option.map_some], fun i low high => ?_⟩
  obtain ⟨v, here⟩ : ∃ v, us[i - 1]? = some v := ⟨_, List.getElem?_eq_getElem (by omega)⟩
  have mem : (⟨i, v⟩ : Line) ∈ listed (sort (sfile us) us.length) us.length :=
    mem_listed_sort.mpr ⟨low, here⟩
  have mates : ∀ z, Mate us vs i z ↔
      z ∈ serialsOf (listed (sort (sfile vs) vs.length) vs.length) v := by
    intro z
    rw [mem_serialsOf, Mate, here]
    constructor
    · rintro ⟨-, low', w, same, there⟩
      obtain rfl := Option.some.inj same
      exact ⟨low', there⟩
    · intro ⟨low', there⟩
      exact ⟨low, low', v, rfl, there⟩
  have place : unsort (places 1 (listed (sort (sfile us) us.length) us.length)
      (listed (sort (sfile vs) vs.length) vs.length)) i =
      placeOf 1 (listed (sort (sfile vs) vs.length) vs.length) v := by
    rw [places_eq 1 _ _ (sort_pairwise _ _) (sort_pairwise _ _)]
    have inside := List.mem_map_of_mem
      (f := fun a : Line => { a with
        value := (placeOf 1 (listed (sort (sfile vs) vs.length) vs.length) a.value : ℤ) }) mem
    refine unsort_eq ?_ inside
    rw [List.map_map]
    exact serials_nodup
  rw [Classes, place]
  by_cases inside : v ∈ (listed (sort (sfile vs) vs.length) vs.length).map Line.value
  · right
    obtain ⟨y, ys, rest, begins, follows, whole⟩ :=
      members_class (sort_pairwise _ _) real inside (fun _ _ _ => rfl) made
    rw [placeOf, if_pos inside]
    refine ⟨by omega, y, ys, rest, ?_, follows, whole ▸ serialsOf_rising, fun z => ?_⟩
    · rw [Int.toNat_natCast, Nat.add_sub_cancel_left, begins]
    · rw [mates, whole]
  · left
    rw [placeOf, if_neg inside]
    refine ⟨rfl, fun z mated => ?_⟩
    obtain ⟨p, mem, -⟩ := List.mem_map.mp ((mates z).mp mated)
    obtain ⟨mem, value⟩ := List.mem_filter.mp mem
    exact inside (List.mem_map.mpr ⟨p, mem, of_decide_eq_true value⟩)

end Diff

end UnixV7
