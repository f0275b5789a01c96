import Mathlib.Data.List.Nodup
import UnixV7.Library.Radix

/-!
# Walks through trees of addresses

The nodes of a tree that are there, each one behind those below it and the last index first: the
order in which a tree can be taken down without a table being needed once it is gone.
-/

namespace UnixV7

namespace Radix

variable {α : Type*} [Zero α] [DecidableEq α] {shape : Shape} {t : Radix α} {n m : Node}
  {r i l width : ℕ} {p q : List ℕ}

/-- The nodes below the first `k` entries of a table and down to the depth `l`, as `each` lists
them. -/
def children (t : Radix α) (each : Node → List Node) (n : Node) (k : ℕ) : List Node :=
  (List.range k).reverse.flatMap fun i => if t.addr (n.1, i :: n.2) = 0 then [] else
    each (n.1, i :: n.2)

/-- A node that is there with those below it, `l` levels deep. -/
def walk (t : Radix α) (width : ℕ) : ℕ → Node → List Node
  | 0, n => [n]
  | l + 1, n => t.children (walk t width l) n width ++ [n]

/-- All nodes that are there. -/
def walks (t : Radix α) (shape : Shape) (k : ℕ) : List Node :=
  (List.range k).reverse.flatMap fun r =>
    if t.root r = 0 then [] else t.walk shape.width (shape.depth r) (r, [])

theorem children_succ (t : Radix α) (each : Node → List Node) (n : Node) (k : ℕ) :
    t.children each n (k + 1) =
      (if t.addr (n.1, k :: n.2) = 0 then [] else each (n.1, k :: n.2)) ++ t.children each n k := by
  rw [children, List.range_succ, List.reverse_append, List.reverse_singleton, List.singleton_append,
    List.flatMap_cons]
  rfl

theorem walks_succ (t : Radix α) (shape : Shape) (k : ℕ) :
    t.walks shape (k + 1) =
      (if t.root k = 0 then [] else t.walk shape.width (shape.depth k) (k, [])) ++
        t.walks shape k := by
  rw [walks, List.range_succ, List.reverse_append, List.reverse_singleton, List.singleton_append,
    List.flatMap_cons]
  rfl

/-- What is above a node that is there is there. -/
theorem addr_append_ne (there : t.addr (r, q ++ p) ≠ 0) : t.addr (r, p) ≠ 0 := by
  induction q with
  | nil => exact there
  | cons i q ih => exact ih fun gone => there (addr_cons_of_eq gone)

/-- The nodes in the walk from a node on. -/
theorem mem_walk (there : t.addr (r, p) ≠ 0) : m ∈ t.walk width l (r, p) ↔
    ∃ q, m = (r, q ++ p) ∧ q.length ≤ l ∧ (∀ i ∈ q, i < width) ∧ t.addr m ≠ 0 := by
  induction l generalizing p with
  | zero =>
      rw [walk, List.mem_singleton]
      constructor
      · rintro rfl
        exact ⟨[], rfl, Nat.le_refl _, by simp, there⟩
      · rintro ⟨q, rfl, short, -, -⟩
        rw [List.eq_nil_of_length_eq_zero (Nat.le_zero.mp short), List.nil_append]
  | succ l ih =>
      rw [walk, List.mem_append, List.mem_singleton, children]
      simp only [List.mem_flatMap, List.mem_reverse, List.mem_range]
      constructor
      · rintro (⟨i, inside, mem⟩ | rfl)
        · obtain ⟨real, mem⟩ := List.mem_ite_nil_left.mp mem
          obtain ⟨q, rfl, short, small, here⟩ := (ih real).mp mem
          refine ⟨q ++ [i], by simp, by simpa using short, fun j mem => ?_, here⟩
          cases List.mem_append.mp mem with
          | inl before => exact small j before
          | inr last => exact List.mem_singleton.mp last ▸ inside
        · exact ⟨[], rfl, Nat.zero_le _, by simp, there⟩
      · rintro ⟨q, rfl, short, small, here⟩
        rcases List.eq_nil_or_concat q with rfl | ⟨q, i, rfl⟩
        · exact .inr rfl
        · left
          rw [List.concat_eq_append, List.append_assoc, List.singleton_append] at here
          have real := addr_append_ne here
          refine ⟨i, small i (by simp), ?_⟩
          rw [if_neg real, ih real]
          refine ⟨q, by simp, by simpa using short, fun j mem => small j (by simp [mem]), ?_⟩
          rw [List.concat_eq_append, List.append_assoc, List.singleton_append]
          exact here

/-- No node comes twice. -/
theorem walk_nodup (there : t.addr (r, p) ≠ 0) : (t.walk width l (r, p)).Nodup := by
  induction l generalizing p with
  | zero => exact List.nodup_singleton _
  | succ l ih =>
      rw [walk]
      refine List.nodup_append.mpr ⟨List.nodup_flatMap.mpr ⟨fun i _ => ?_, ?_⟩,
        List.nodup_singleton _, fun m mem other last same => ?_⟩
      · split
        · exact List.nodup_nil
        next real => exact ih real
      · refine (List.nodup_reverse.mpr List.nodup_range).imp fun {i j} different m left right => ?_
        obtain ⟨here, left⟩ := List.mem_ite_nil_left.mp left
        obtain ⟨real, right⟩ := List.mem_ite_nil_left.mp right
        obtain ⟨q, rfl, -⟩ := (mem_walk here).mp left
        obtain ⟨q', same, -⟩ := (mem_walk real).mp right
        have tails := (Prod.mk.inj same).2
        have ends := (List.append_inj' tails (by simp)).2
        exact different (List.cons.inj ends).1
      · obtain ⟨i, -, mem⟩ := List.mem_flatMap.mp mem
        obtain ⟨real, mem⟩ := List.mem_ite_nil_left.mp mem
        obtain ⟨q, rfl, -⟩ := (mem_walk real).mp mem
        have lengths := congrArg (fun n : Node => n.2.length)
          (same.trans (List.mem_singleton.mp last))
        simp only [List.length_append, List.length_cons] at lengths
        omega

/-- The walk through all trees finds the nodes that are there. -/
theorem mem_walks : m ∈ t.walks shape shape.slots ↔ shape.Valid m ∧ t.addr m ≠ 0 := by
  simp only [walks, List.mem_flatMap, List.mem_reverse, List.mem_range]
  constructor
  · rintro ⟨r, inside, mem⟩
    obtain ⟨real, mem⟩ := List.mem_ite_nil_left.mp mem
    obtain ⟨q, rfl, short, small, here⟩ := (mem_walk (p := []) real).mp mem
    rw [List.append_nil] at here ⊢
    exact ⟨⟨inside, short, small⟩, here⟩
  · rintro ⟨valid, here⟩
    obtain ⟨r, q⟩ := m
    have real : t.addr (r, []) ≠ 0 := addr_append_ne (q := q) (by rwa [List.append_nil])
    refine ⟨r, valid.slot, ?_⟩
    rw [if_neg (show t.root r ≠ 0 from real)]
    exact (mem_walk real).mpr ⟨q, by rw [List.append_nil], valid.depth, valid.index, here⟩

theorem walks_nodup (t : Radix α) (shape : Shape) (k : ℕ) : (t.walks shape k).Nodup := by
  refine List.nodup_flatMap.mpr ⟨fun r _ => ?_, ?_⟩
  · split
    · exact List.nodup_nil
    next real => exact walk_nodup (p := []) real
  · refine (List.nodup_reverse.mpr List.nodup_range).imp fun {i j} different m left right => ?_
    obtain ⟨here, left⟩ := List.mem_ite_nil_left.mp left
    obtain ⟨real, right⟩ := List.mem_ite_nil_left.mp right
    obtain ⟨q, rfl, -⟩ := (mem_walk (p := []) here).mp left
    obtain ⟨q', same, -⟩ := (mem_walk (p := []) real).mp right
    exact different (Prod.mk.inj same).1

end Radix

end UnixV7
