import Mathlib.Algebra.GroupWithZero.Nat
import Mathlib.Data.List.Chain
import Mathlib.Tactic.Common

/-!
# Tilings of a range

A range of numbers is cut into tiles, some of them used and the others free. As long as no two
free tiles are side by side, there is at most one free tile more than there are used ones.
-/

namespace UnixV7

/-- A part of the range. -/
structure Tile where
  used : Bool
  size : ℕ

/-- No tile is empty and no two free ones are side by side. -/
structure Tight (ts : List Tile) : Prop where
  pos : ∀ t ∈ ts, 0 < t.size
  apart : ts.IsChain fun t u => t.used = true ∨ u.used = true

namespace Tile

variable {α : Type*} {ts us : List Tile} {t : Tile} {f : ℕ → ℕ → α} {used : Bool} {a n x : ℕ}

/-- The size of all tiles. -/
def width (ts : List Tile) : ℕ := (ts.map Tile.size).sum

/-- The free tiles, or the used ones, made of their addresses and sizes. -/
def spans (f : ℕ → ℕ → α) (used : Bool) : ℕ → List Tile → List α
  | _, [] => []
  | a, t :: ts =>
      if t.used = used then f a t.size :: spans f used (a + t.size) ts
      else spans f used (a + t.size) ts

@[simp] theorem width_nil : width [] = 0 := rfl

@[simp] theorem width_cons (t : Tile) (ts : List Tile) : width (t :: ts) = t.size + width ts := by
  simp [width]

@[simp] theorem width_append (ts us : List Tile) : width (ts ++ us) = width ts + width us := by
  simp [width]

@[simp] theorem spans_nil (f : ℕ → ℕ → α) (used : Bool) (a : ℕ) : spans f used a [] = [] := rfl

@[simp] theorem spans_cons (f : ℕ → ℕ → α) (used : Bool) (a n : ℕ) (ts : List Tile) :
    spans f used a (⟨used, n⟩ :: ts) = f a n :: spans f used (a + n) ts := by
  simp [spans]

theorem spans_cons_of_ne (f : ℕ → ℕ → α) (other : t.used ≠ used) (a : ℕ) (ts : List Tile) :
    spans f used a (t :: ts) = spans f used (a + t.size) ts := by
  simp [spans, other]

@[simp] theorem spans_append (f : ℕ → ℕ → α) (used : Bool) (a : ℕ) (ts us : List Tile) :
    spans f used a (ts ++ us) = spans f used a ts ++ spans f used (a + width ts) us := by
  induction ts generalizing a with
  | nil => simp
  | cons t ts ih =>
      by_cases same : t.used = used
      · simp [spans, same, ih, Nat.add_assoc]
      · simp [spans, same, ih, Nat.add_assoc]

/-- A tile that is found among the spans. -/
theorem exists_of_mem_spans {s : α} (mem : s ∈ spans f used a ts) :
    ∃ before after n, ts = before ++ ⟨used, n⟩ :: after ∧ s = f (a + width before) n := by
  induction ts generalizing a with
  | nil => simp at mem
  | cons t ts ih =>
      obtain ⟨flag, n⟩ := t
      by_cases same : flag = used
      · subst same
        rw [spans_cons, List.mem_cons] at mem
        rcases mem with rfl | mem
        · exact ⟨[], ts, n, rfl, rfl⟩
        · obtain ⟨before, after, k, rfl, rfl⟩ := ih mem
          refine ⟨⟨flag, n⟩ :: before, after, k, rfl, ?_⟩
          simp [Nat.add_assoc]
      · rw [spans_cons_of_ne f same] at mem
        obtain ⟨before, after, k, rfl, rfl⟩ := ih mem
        refine ⟨⟨flag, n⟩ :: before, after, k, rfl, ?_⟩
        simp [Nat.add_assoc]

/-- Every number of the range is in one tile. -/
theorem exists_tile (low : a ≤ x) (high : x < a + width ts) :
    ∃ before t after, ts = before ++ t :: after ∧ a + width before ≤ x ∧
      x < a + width before + t.size := by
  induction ts generalizing a with
  | nil => simp at high; omega
  | cons t ts ih =>
      by_cases here : x < a + t.size
      · exact ⟨[], t, ts, rfl, by simpa using low, by simpa using here⟩
      · rw [width_cons, ← Nat.add_assoc] at high
        obtain ⟨before, u, after, rfl, left, right⟩ := ih (Nat.le_of_not_lt here) high
        refine ⟨t :: before, u, after, rfl, ?_, ?_⟩
        · rw [width_cons]
          omega
        · rw [width_cons]
          omega

/-- Tiles of a range that share a number are the same. -/
theorem tile_unique {before after before' after' : List Tile} {u : Tile}
    (same : before ++ t :: after = before' ++ u :: after')
    (left : a + width before ≤ x) (right : x < a + width before + t.size)
    (left' : a + width before' ≤ x) (right' : x < a + width before' + u.size) :
    before = before' ∧ t = u := by
  induction before generalizing a before' with
  | nil =>
      cases before' with
      | nil => exact ⟨rfl, (List.cons.inj same).1⟩
      | cons v before' =>
          obtain ⟨rfl, -⟩ := List.cons.inj same
          simp only [width_nil, width_cons] at left right left' right'
          omega
  | cons v before ih =>
      cases before' with
      | nil =>
          obtain ⟨rfl, -⟩ := List.cons.inj same
          simp only [width_nil, width_cons] at left right left' right'
          omega
      | cons w before' =>
          obtain ⟨rfl, rest⟩ := List.cons.inj same
          simp only [width_cons, ← Nat.add_assoc] at left right left' right'
          obtain ⟨rfl, rfl⟩ := ih rest left right left' right'
          exact ⟨rfl, rfl⟩

/-- The spans are in order, and lie within the range. -/
theorem spans_bounds {s : α} (addr size : α → ℕ) (addr_mk : ∀ a n, addr (f a n) = a)
    (size_mk : ∀ a n, size (f a n) = n) (mem : s ∈ spans f used a ts) :
    a ≤ addr s ∧ addr s + size s ≤ a + width ts := by
  obtain ⟨before, after, n, rfl, rfl⟩ := exists_of_mem_spans mem
  rw [addr_mk, size_mk]
  simp only [width_append, width_cons]
  omega

/-- The spans do not overlap. -/
theorem spans_ordered (addr size : α → ℕ) (addr_mk : ∀ a n, addr (f a n) = a)
    (size_mk : ∀ a n, size (f a n) = n) (ts : List Tile) :
    (spans f used a ts).Pairwise fun x y => addr x + size x ≤ addr y := by
  induction ts generalizing a with
  | nil => exact .nil
  | cons t ts ih =>
      obtain ⟨flag, n⟩ := t
      by_cases same : flag = used
      · subst same
        rw [spans_cons]
        refine List.pairwise_cons.mpr ⟨fun s mem => ?_, ih⟩
        rw [addr_mk, size_mk]
        exact (spans_bounds addr size addr_mk size_mk mem).1
      · rw [spans_cons_of_ne f same]
        exact ih

/-- A number of the range is in a free tile or in a used one. -/
theorem exists_span (addr size : α → ℕ) (addr_mk : ∀ a n, addr (f a n) = a)
    (size_mk : ∀ a n, size (f a n) = n) (low : a ≤ x) (high : x < a + width ts) :
    ∃ used, ∃ s ∈ spans f used a ts, addr s ≤ x ∧ x < addr s + size s := by
  obtain ⟨before, t, after, rfl, left, right⟩ := exists_tile low high
  refine ⟨t.used, f (a + width before) t.size, ?_, ?_⟩
  · rw [spans_append]
    exact List.mem_append_right _ (by simp [spans])
  · rw [addr_mk, size_mk]
    exact ⟨left, right⟩

/-- No number is in a free tile and in a used one. -/
theorem not_both {s r : α} (addr size : α → ℕ) (addr_mk : ∀ a n, addr (f a n) = a)
    (size_mk : ∀ a n, size (f a n) = n) (free : s ∈ spans f false a ts)
    (taken : r ∈ spans f true a ts) (here : addr s ≤ x ∧ x < addr s + size s) :
    ¬(addr r ≤ x ∧ x < addr r + size r) := by
  intro also
  obtain ⟨before, after, n, rfl, rfl⟩ := exists_of_mem_spans free
  obtain ⟨before', after', k, same, rfl⟩ := exists_of_mem_spans taken
  rw [addr_mk, size_mk] at here also
  obtain ⟨-, tile⟩ := tile_unique same here.1 here.2 also.1 also.2
  simp at tile

end Tile

namespace Tight

open Tile

variable {α : Type*} {ts us : List Tile} {t : Tile} {f : ℕ → ℕ → α} {a n k : ℕ}

theorem tail (tight : Tight (t :: ts)) : Tight ts where
  pos u mem := tight.pos u (List.mem_cons_of_mem t mem)
  apart := tight.apart.tail

/-- A free tile has used ones beside it. -/
theorem middle_iff : Tight (us ++ t :: ts) ↔ Tight us ∧ Tight ts ∧ 0 < t.size ∧
    (t.used = false → (∀ x ∈ us.getLast?, x.used = true) ∧ ∀ y ∈ ts.head?, y.used = true) := by
  constructor
  · rintro ⟨pos, apart⟩
    obtain ⟨left, right, beside⟩ := List.isChain_append.mp apart
    obtain ⟨next, rest⟩ := List.isChain_cons.mp right
    refine ⟨⟨fun x mem => pos x (by simp [mem]), left⟩,
      ⟨fun x mem => pos x (by simp [mem]), rest⟩, pos t (by simp), fun free => ⟨?_, ?_⟩⟩
    · intro x last
      simpa [free] using beside x last t (by simp)
    · intro y head
      simpa [free] using next y head
  · rintro ⟨⟨posLeft, left⟩, ⟨posRight, right⟩, pos, beside⟩
    constructor
    · intro x mem
      simp only [List.mem_append, List.mem_cons] at mem
      rcases mem with mem | rfl | mem
      · exact posLeft x mem
      · exact pos
      · exact posRight x mem
    · refine List.isChain_append.mpr ⟨left, List.isChain_cons.mpr ⟨fun y head => ?_, right⟩,
        fun x last y head => ?_⟩
      · cases used : t.used with
        | true => exact .inl rfl
        | false => exact .inr ((beside used).2 y head)
      · obtain rfl : t = y := by simpa using head
        cases used : t.used with
        | true => exact .inr rfl
        | false => exact .inl ((beside used).1 x last)

/-- There is at most one free tile more than there are used ones. -/
theorem spans_length (tight : Tight ts) :
    (spans f false a ts).length ≤ (spans f true a ts).length + 1 ∧
      (ts.head?.all Tile.used → (spans f false a ts).length ≤ (spans f true a ts).length) := by
  induction ts generalizing a with
  | nil => simp
  | cons t ts ih =>
      obtain ⟨flag, n⟩ := t
      obtain ⟨more, less⟩ := ih (a := a + n) tight.tail
      cases flag with
      | true =>
          have skipped : spans f false a (⟨true, n⟩ :: ts) = spans f false (a + n) ts :=
            spans_cons_of_ne f (by simp) a ts
          rw [skipped, spans_cons, List.length_cons]
          exact ⟨by omega, fun _ => more⟩
      | false =>
          have skipped : spans f true a (⟨false, n⟩ :: ts) = spans f true (a + n) ts :=
            spans_cons_of_ne f (by simp) a ts
          rw [skipped, spans_cons, List.length_cons]
          have next : ts.head?.all Tile.used := by
            cases ts with
            | nil => rfl
            | cons u ts => simpa using (List.isChain_cons_cons.mp tight.apart).1
          exact ⟨by have := less next; omega, by simp⟩

/-- Free tiles are apart from one another. -/
theorem spans_sorted (tight : Tight ts) (addr size : α → ℕ)
    (addr_mk : ∀ a n, addr (f a n) = a) (size_mk : ∀ a n, size (f a n) = n) :
    (spans f false a ts).Pairwise fun x y => addr x + size x < addr y := by
  induction ts generalizing a with
  | nil => exact .nil
  | cons t ts ih =>
      obtain ⟨flag, n⟩ := t
      cases flag with
      | true =>
          rw [spans_cons_of_ne f (by simp)]
          exact ih tight.tail
      | false =>
          rw [spans_cons]
          refine List.pairwise_cons.mpr ⟨fun s mem => ?_, ih tight.tail⟩
          rw [addr_mk, size_mk]
          cases ts with
          | nil => simp at mem
          | cons u ts =>
              -- the next tile is used, and not empty
              have used : u.used = true := by
                simpa using (List.isChain_cons_cons.mp tight.apart).1
              have pos := tight.pos u (by simp)
              rw [spans_cons_of_ne f (by simp [used])] at mem
              have low := (spans_bounds addr size addr_mk size_mk mem).1
              omega

end Tight

end UnixV7
