import Mathlib.Data.Fin.Tuple.Sort
import Mathlib.Tactic.Common

/-!
# Three-way partition

Elements in a row, numbered from zero on, and a comparison of two of them that gives a negative
number, zero or a positive one. A scan from both sides collects the elements smaller than a pivot
on the left, those greater on the right and those equal to it in a block between; the steps
exchange two elements or rotate three. Two parts sorted around such a block make a sorted row.
-/

namespace UnixV7.ThreeWay

open Equiv (swap)

variable {α : Type*} {cmp : α → α → ℤ} {f g h : ℕ → α} {a l i lp hp j : ℕ} {x y z pivot : α}

/-- The sign of the comparison is that of a total preorder. -/
structure TotalPreorder (cmp : α → α → ℤ) : Prop where
  opposite : ∀ x y, cmp x y < 0 ↔ 0 < cmp y x
  trans : ∀ x y z, cmp x y ≤ 0 → cmp y z ≤ 0 → cmp x z ≤ 0

namespace TotalPreorder

theorem le_iff (total : TotalPreorder cmp) : cmp x y ≤ 0 ↔ 0 ≤ cmp y x := by
  have first := total.opposite y x
  omega

theorem self (total : TotalPreorder cmp) (x : α) : cmp x x = 0 := by
  have opposite := total.opposite x x
  omega

/-- Equal elements compare alike with any other. -/
theorem congr (total : TotalPreorder cmp) (same : cmp y z = 0) :
    (cmp x y < 0 ↔ cmp x z < 0) ∧ (cmp x y = 0 ↔ cmp x z = 0) := by
  have left := total.trans x y z
  have right := total.trans x z y
  have left' := total.trans z y x
  have right' := total.trans y z x
  have first := total.opposite x y
  have second := total.opposite x z
  have third := total.opposite y z
  have fourth := total.opposite y x
  have fifth := total.opposite z x
  have sixth := total.opposite z y
  omega

end TotalPreorder

/-- The elements from `a` to before `l` are in nondecreasing order. -/
def Sorted (cmp : α → α → ℤ) (f : ℕ → α) (a l : ℕ) : Prop :=
  ∀ i j, a ≤ i → i < j → j < l → cmp (f i) (f j) ≤ 0

/-- Element `i` gets the place of `j`, that of `j` the place of `k` and that of `k` the place of
`i`. -/
def rotate (f : ℕ → α) (i j k : ℕ) : ℕ → α := f ∘ swap i k ∘ swap k j

section Rotate

variable {k m : ℕ}

theorem rotate_first (other : i ≠ j) (other' : i ≠ k) : rotate f i j k i = f k := by
  simp only [rotate, Function.comp]
  rw [Equiv.swap_apply_of_ne_of_ne other' other, Equiv.swap_apply_left]

theorem rotate_second (f : ℕ → α) (i j k : ℕ) : rotate f i j k j = f i := by
  simp only [rotate, Function.comp]
  rw [Equiv.swap_apply_right, Equiv.swap_apply_right]

theorem rotate_third (other : j ≠ i) (other' : j ≠ k) : rotate f i j k k = f j := by
  simp only [rotate, Function.comp]
  rw [Equiv.swap_apply_left, Equiv.swap_apply_of_ne_of_ne other other']

theorem rotate_of_ne (first : m ≠ i) (second : m ≠ j) (third : m ≠ k) :
    rotate f i j k m = f m := by
  simp only [rotate, Function.comp]
  rw [Equiv.swap_apply_of_ne_of_ne third second, Equiv.swap_apply_of_ne_of_ne first third]

end Rotate

/-- The elements from `a` to before `l` have changed places among themselves. -/
def Rearranged (f g : ℕ → α) (a l : ℕ) : Prop :=
  ∃ σ : Equiv.Perm ℕ, (∀ k, ¬(a ≤ k ∧ k < l) → σ k = k) ∧ g = f ∘ σ

namespace Rearranged

theorem refl (f : ℕ → α) (a l : ℕ) : Rearranged f f a l := ⟨1, fun _ _ => rfl, rfl⟩

theorem trans (first : Rearranged f g a l) (second : Rearranged g h a l) :
    Rearranged f h a l := by
  obtain ⟨σ, fixed, rfl⟩ := first
  obtain ⟨τ, fixed', rfl⟩ := second
  refine ⟨σ * τ, fun k outside => ?_, rfl⟩
  rw [Equiv.Perm.mul_apply, fixed' k outside, fixed k outside]

theorem mono {b m : ℕ} (change : Rearranged f g b m) (start : a ≤ b) (stop : m ≤ l) :
    Rearranged f g a l := by
  obtain ⟨σ, fixed, same⟩ := change
  exact ⟨σ, fun k outside => fixed k (by omega), same⟩

theorem swap (f : ℕ → α) (first : a ≤ i ∧ i < l) (second : a ≤ j ∧ j < l) :
    Rearranged f (f ∘ Equiv.swap i j) a l := by
  refine ⟨Equiv.swap i j, fun k outside => ?_, rfl⟩
  apply Equiv.swap_apply_of_ne_of_ne
  · rintro rfl
    exact outside first
  · rintro rfl
    exact outside second

theorem rotate {k : ℕ} (f : ℕ → α) (first : a ≤ i ∧ i < l) (second : a ≤ j ∧ j < l)
    (third : a ≤ k ∧ k < l) : Rearranged f (rotate f i j k) a l :=
  (Rearranged.swap f first third).trans (Rearranged.swap (f ∘ Equiv.swap i k) third second)

theorem outside (change : Rearranged f g a l) {k : ℕ} (outside : ¬(a ≤ k ∧ k < l)) :
    g k = f k := by
  obtain ⟨σ, fixed, rfl⟩ := change
  exact congrArg f (fixed k outside)

/-- What all elements have, they have in their new places. -/
theorem all (P : α → Prop) (change : Rearranged f g a l)
    (each : ∀ k, a ≤ k → k < l → P (f k)) : ∀ k, a ≤ k → k < l → P (g k) := by
  obtain ⟨σ, fixed, rfl⟩ := change
  intro k low high
  by_contra other
  by_cases inside : a ≤ σ k ∧ σ k < l
  · exact other (each (σ k) inside.1 inside.2)
  · have same : σ k = k := σ.injective (fixed (σ k) inside)
    exact inside (by rw [same]; exact ⟨low, high⟩)

/-- The elements of a row from zero on, as a list. -/
theorem perm {n : ℕ} (change : Rearranged f g 0 n) :
    (List.ofFn fun k : Fin n => g k).Perm (List.ofFn fun k : Fin n => f k) := by
  obtain ⟨σ, fixed, rfl⟩ := change
  have stays (k : ℕ) : k < n ↔ σ k < n := by
    constructor
    · intro inside
      by_contra above
      have same : σ k = k := σ.injective (fixed (σ k) (by omega))
      omega
    · intro inside
      by_contra above
      have same := fixed k (by omega)
      omega
  exact Equiv.Perm.ofFn_comp_perm
    ((Fin.equivSubtype.trans (σ.subtypeEquiv stays)).trans Fin.equivSubtype.symm)
    fun k : Fin n => f k

/-- A sorted part stays sorted while the elements of another part change places. -/
theorem sorted {b k : ℕ} (change : Rearranged f g a l) (apart : k ≤ a ∨ l ≤ b)
    (sorted : Sorted cmp f b k) : Sorted cmp g b k := by
  intro i j low less high
  rw [change.outside (by omega), change.outside (by omega)]
  exact sorted i j low less high

end Rearranged

/-- From `a` to before `l` there are elements smaller than the pivot before `i`, elements equal to
it from `lp` to `hp` and elements greater behind `j`. -/
structure Scan (cmp : α → α → ℤ) (pivot : α) (f : ℕ → α) (a l i lp hp j : ℕ) : Prop where
  start : a ≤ i
  left : i ≤ lp
  middle : lp ≤ hp
  right : hp ≤ j
  stop : j < l
  less : ∀ k, a ≤ k → k < i → cmp (f k) pivot < 0
  equal : ∀ k, lp ≤ k → k ≤ hp → cmp (f k) pivot = 0
  greater : ∀ k, j < k → k < l → 0 < cmp (f k) pivot

namespace Scan

/-- At the start nothing is known but the pivot. -/
theorem init (total : TotalPreorder cmp) (start : a ≤ lp) (stop : lp < l) :
    Scan cmp (f lp) f a l a lp lp (l - 1) where
  start := le_rfl
  left := start
  middle := le_rfl
  right := by omega
  stop := by omega
  less k low high := by omega
  equal k low high := by rw [show k = lp by omega, total.self]
  greater k low high := by omega

/-- The next element on the left is smaller. -/
theorem less_left (scan : Scan cmp pivot f a l i lp hp j) (more : i < lp)
    (less : cmp (f i) pivot < 0) : Scan cmp pivot f a l (i + 1) lp hp j where
  start := scan.start.trans (Nat.le_succ i)
  left := more
  middle := scan.middle
  right := scan.right
  stop := scan.stop
  less k low high := by
    cases Nat.lt_succ_iff_lt_or_eq.mp high with
    | inl before => exact scan.less k low before
    | inr here => rwa [here]
  equal := scan.equal
  greater := scan.greater

/-- The next element on the right is greater. -/
theorem greater_right (scan : Scan cmp pivot f a l i lp hp j) (more : hp < j)
    (greater : 0 < cmp (f j) pivot) : Scan cmp pivot f a l i lp hp (j - 1) where
  start := scan.start
  left := scan.left
  middle := scan.middle
  right := by omega
  stop := (Nat.sub_le j 1).trans_lt scan.stop
  less := scan.less
  equal := scan.equal
  greater k low high := by
    cases Nat.lt_or_ge j k with
    | inl behind => exact scan.greater k behind high
    | inr here => rwa [show k = j by omega]

/-- The next element on the left is equal: it joins the block. -/
theorem equal_left (scan : Scan cmp pivot f a l i lp hp j) (more : i < lp)
    (equal : cmp (f i) pivot = 0) :
    Scan cmp pivot (f ∘ swap i (lp - 1)) a l i (lp - 1) hp j where
  start := scan.start
  left := by omega
  middle := (Nat.sub_le lp 1).trans scan.middle
  right := scan.right
  stop := scan.stop
  less k low high := by
    rw [Function.comp, Equiv.swap_apply_of_ne_of_ne (by omega) (by omega)]
    exact scan.less k low high
  equal k low high := by
    rw [Function.comp]
    by_cases new : k = lp - 1
    · rwa [new, Equiv.swap_apply_right]
    · rw [Equiv.swap_apply_of_ne_of_ne (by omega) new]
      exact scan.equal k (by omega) high
  greater k low high := by
    have middle := scan.middle
    have right := scan.right
    rw [Function.comp, Equiv.swap_apply_of_ne_of_ne (by omega) (by omega)]
    exact scan.greater k low high

/-- The next element on the right is equal: it joins the block. -/
theorem equal_right (scan : Scan cmp pivot f a l i lp hp j) (more : hp < j)
    (equal : cmp (f j) pivot = 0) :
    Scan cmp pivot (f ∘ swap (hp + 1) j) a l i lp (hp + 1) j where
  start := scan.start
  left := scan.left
  middle := scan.middle.trans (Nat.le_succ hp)
  right := more
  stop := scan.stop
  less k low high := by
    have left := scan.left
    have middle := scan.middle
    rw [Function.comp, Equiv.swap_apply_of_ne_of_ne (by omega) (by omega)]
    exact scan.less k low high
  equal k low high := by
    rw [Function.comp]
    by_cases new : k = hp + 1
    · rwa [new, Equiv.swap_apply_left]
    · rw [Equiv.swap_apply_of_ne_of_ne new (by omega)]
      exact scan.equal k low (by omega)
  greater k low high := by
    rw [Function.comp, Equiv.swap_apply_of_ne_of_ne (by omega) (by omega)]
    exact scan.greater k low high

/-- A greater element on the left and a smaller one on the right change places. -/
theorem exchange (scan : Scan cmp pivot f a l i lp hp j) (more : i < lp) (more' : hp < j)
    (greater : 0 < cmp (f i) pivot) (less : cmp (f j) pivot < 0) :
    Scan cmp pivot (f ∘ swap i j) a l (i + 1) lp hp (j - 1) where
  start := scan.start.trans (Nat.le_succ i)
  left := more
  middle := scan.middle
  right := by omega
  stop := (Nat.sub_le j 1).trans_lt scan.stop
  less k low high := by
    have middle := scan.middle
    rw [Function.comp]
    cases Nat.lt_succ_iff_lt_or_eq.mp high with
    | inl before =>
        rw [Equiv.swap_apply_of_ne_of_ne (by omega) (by omega)]
        exact scan.less k low before
    | inr here => rwa [here, Equiv.swap_apply_left]
  equal k low high := by
    rw [Function.comp, Equiv.swap_apply_of_ne_of_ne (by omega) (by omega)]
    exact scan.equal k low high
  greater k low high := by
    have middle := scan.middle
    rw [Function.comp]
    cases Nat.lt_or_ge j k with
    | inl behind =>
        rw [Equiv.swap_apply_of_ne_of_ne (by omega) (by omega)]
        exact scan.greater k behind high
    | inr here => rwa [show k = j by omega, Equiv.swap_apply_right]

/-- With nothing left on the left, a smaller element on the right goes before the block, which
moves up by one. -/
theorem rotate_right (scan : Scan cmp pivot f a l lp lp hp j) (more : hp < j)
    (less : cmp (f j) pivot < 0) :
    Scan cmp pivot (rotate f lp (hp + 1) j) a l (lp + 1) (lp + 1) (hp + 1) j where
  start := scan.start.trans (Nat.le_succ lp)
  left := le_rfl
  middle := Nat.succ_le_succ scan.middle
  right := more
  stop := scan.stop
  less k low high := by
    have middle := scan.middle
    cases Nat.lt_succ_iff_lt_or_eq.mp high with
    | inl before =>
        rw [rotate_of_ne (by omega) (by omega) (by omega)]
        exact scan.less k low before
    | inr here => rwa [here, rotate_first (by omega) (by omega)]
  equal k low high := by
    by_cases new : k = hp + 1
    · rw [new, rotate_second]
      exact scan.equal lp le_rfl scan.middle
    · rw [rotate_of_ne (by omega) new (by omega)]
      exact scan.equal k (by omega) (by omega)
  greater k low high := by
    have middle := scan.middle
    rw [rotate_of_ne (by omega) (by omega) (by omega)]
    exact scan.greater k low high

/-- With nothing left on the right, a greater element on the left goes behind the block, which
moves down by one. -/
theorem rotate_left (scan : Scan cmp pivot f a l i lp hp hp) (more : i < lp)
    (greater : 0 < cmp (f i) pivot) :
    Scan cmp pivot (rotate f hp (lp - 1) i) a l i (lp - 1) (hp - 1) (hp - 1) where
  start := scan.start
  left := by omega
  middle := Nat.sub_le_sub_right scan.middle 1
  right := le_rfl
  stop := (Nat.sub_le hp 1).trans_lt scan.stop
  less k low high := by
    have middle := scan.middle
    rw [rotate_of_ne (by omega) (by omega) (by omega)]
    exact scan.less k low high
  equal k low high := by
    have middle := scan.middle
    by_cases new : k = lp - 1
    · rw [new, rotate_second]
      exact scan.equal hp middle le_rfl
    · rw [rotate_of_ne (by omega) new (by omega)]
      exact scan.equal k (by omega) (by omega)
  greater k low high := by
    have middle := scan.middle
    cases Nat.lt_or_ge hp k with
    | inl behind =>
        rw [rotate_of_ne (by omega) (by omega) (by omega)]
        exact scan.greater k behind high
    | inr here => rwa [show k = hp by omega, rotate_first (by omega) (by omega)]

/-- Sorting the parts on both sides of the block sorts the whole. -/
theorem sorted (scan : Scan cmp pivot f a l lp lp hp hp) (total : TotalPreorder cmp)
    (left : Sorted cmp f a lp) (right : Sorted cmp f (hp + 1) l) : Sorted cmp f a l := by
  intro i j low less high
  have upto (k : ℕ) (start : a ≤ k) (stop : k ≤ hp) : cmp (f k) pivot ≤ 0 := by
    cases Nat.lt_or_ge k lp with
    | inl before => exact (scan.less k start before).le
    | inr behind => exact (scan.equal k behind stop).le
  have onward (k : ℕ) (start : lp ≤ k) (stop : k < l) : cmp pivot (f k) ≤ 0 := by
    apply total.le_iff.mpr
    cases Nat.lt_or_ge hp k with
    | inl behind => exact (scan.greater k behind stop).le
    | inr before => exact (scan.equal k start before).ge
  cases Nat.lt_or_ge j lp with
  | inl before => exact left i j low less before
  | inr behind =>
      cases Nat.lt_or_ge hp i with
      | inl above => exact right i j above less high
      | inr below => exact total.trans _ _ _ (upto i low below) (onward j behind high)

/-- A part beside the block may be rearranged. -/
theorem rearrange_left (scan : Scan cmp pivot f a l lp lp hp hp)
    (change : Rearranged f g a lp) : Scan cmp pivot g a l lp lp hp hp where
  start := scan.start
  left := le_rfl
  middle := scan.middle
  right := le_rfl
  stop := scan.stop
  less := change.all (fun x => cmp x pivot < 0) scan.less
  equal k low high := by
    rw [change.outside (by omega)]
    exact scan.equal k low high
  greater k low high := by
    have middle := scan.middle
    rw [change.outside (by omega)]
    exact scan.greater k low high

@[inherit_doc rearrange_left]
theorem rearrange_right (scan : Scan cmp pivot f a l lp lp hp hp)
    (change : Rearranged f g (hp + 1) l) : Scan cmp pivot g a l lp lp hp hp where
  start := scan.start
  left := le_rfl
  middle := scan.middle
  right := le_rfl
  stop := scan.stop
  less k low high := by
    have middle := scan.middle
    rw [change.outside (by omega)]
    exact scan.less k low high
  equal k low high := by
    rw [change.outside (by omega)]
    exact scan.equal k low high
  greater := change.all (fun x => 0 < cmp x pivot) scan.greater

end Scan

end UnixV7.ThreeWay
