import Mathlib.Algebra.Group.Nat.Defs
import UnixV7.Kernel.Rdwri
import UnixV7.Library.Radix

/-!
# The node of a block

The addresses in an inode and in its indirect blocks as trees, and the node of these trees that
stands for a block of the file: `bmap` cuts the number of the block into the indices that lead
there.
-/

namespace UnixV7

/-- The trees of blocks below the addresses in an inode. -/
def fileShape : Radix.Shape := ⟨NADDR, fun r => r - (NADDR - 4), NINDIR⟩

/-- The indices that lead down some more levels to block `bn` of a tree, the last one first. -/
def below (bn : ℕ) : ℕ → List ℕ → List ℕ
  | 0, p => p
  | levels + 1, p => below bn levels (bn / NINDIR ^ levels % NINDIR :: p)

/-- The node of a block of a file. -/
def fileNode (bn : ℕ) : Node :=
  if bn < NADDR - 3 then
    (bn, [])
  else
    match bmapLevel 3 0 1 (bn - (NADDR - 3)) with
    | none => (0, [])
    | some (j, _, bn) => (NADDR - j, below bn (4 - j) [])

/-- A node whose block holds data. -/
def Leaf (n : Node) : Prop := n.2.length = fileShape.depth n.1

variable {bn levels r i : ℕ} {p : List ℕ}

/-- The index that `bmap` takes from the number of a block. -/
theorem index_eq (bn levels : ℕ) :
    (bn >>> (NSHIFT * (levels + 1) - NSHIFT)) &&& NMASK = bn / NINDIR ^ levels % NINDIR := by
  have shift : NSHIFT * (levels + 1) - NSHIFT = NSHIFT * levels := by
    rw [Nat.mul_succ]
    omega
  rw [shift, Nat.shiftRight_eq_div_pow, Nat.pow_mul]
  exact Nat.and_two_pow_sub_one_eq_mod _ 7

theorem suffix_below (bn levels : ℕ) (p : List ℕ) : p <:+ below bn levels p := by
  induction levels generalizing p with
  | zero => exact List.suffix_rfl
  | succ levels ih => exact (List.suffix_cons _ p).trans (ih _)

theorem length_below (bn levels : ℕ) (p : List ℕ) :
    (below bn levels p).length = p.length + levels := by
  induction levels generalizing p with
  | zero => rfl
  | succ levels ih =>
      rw [below, ih, List.length_cons]
      omega

/-- The nodes on the way to a node of the trees. -/
theorem valid_suffix {q : List ℕ} (inside : fileShape.Valid (r, p)) (onWay : q <:+ p) :
    fileShape.Valid (r, q) where
  slot := inside.slot
  depth := Nat.le_trans onWay.length_le inside.depth
  index i mem := inside.index i (onWay.subset mem)

theorem lt_of_mem_below (index : ∀ i ∈ p, i < NINDIR)
    (mem : i ∈ below bn levels p) : i < NINDIR := by
  induction levels generalizing p with
  | zero => exact index i mem
  | succ levels ih =>
      refine ih (fun k => ?_) mem
      intro member
      rcases List.mem_cons.mp member with rfl | member
      · exact Nat.mod_lt _ (by decide)
      · exact index k member

/-- How many blocks behind the direct ones come before the tree at `i_addr[NADDR - j]`. -/
def treeStart (j : ℕ) : ℕ := if j = 3 then 0 else if j = 2 then 128 else 16512

/-- The direct blocks, and the levels of indirection of the others. -/
theorem fileNode_cases (few : bn < maxBlocks) :
    bn < NADDR - 3 ∧ fileNode bn = (bn, []) ∨
      ∃ j rest, NADDR - 3 ≤ bn ∧ 1 ≤ j ∧ j ≤ 3 ∧
        bmapLevel 3 0 1 (bn - (NADDR - 3)) = some (j, NSHIFT * (4 - j), rest) ∧
        bn = NADDR - 3 + (treeStart j + rest) ∧ rest < NINDIR ^ (4 - j) ∧
        fileNode bn = (NADDR - j, below rest (4 - j) []) := by
  have limit : bn < 2113674 := few
  by_cases direct : bn < NADDR - 3
  · exact .inl ⟨direct, by rw [fileNode, if_pos direct]⟩
  · refine .inr ?_
    have level := bmapLevel_eq (bn - (NADDR - 3))
    simp only [fileNode, if_neg direct]
    have ten : NADDR - 3 = 10 := rfl
    split at level
    · next single =>
        exact ⟨3, _, by omega, by omega, by omega, level, by rw [treeStart]; simp; omega, single,
          by rw [level]⟩
    · split at level
      · next double =>
          exact ⟨2, _, by omega, by omega, by omega, level, by rw [treeStart]; simp; omega, double,
            by rw [level]⟩
      · split at level
        · next triple =>
            exact ⟨1, _, by omega, by omega, by omega, level, by rw [treeStart]; simp; omega,
              triple, by rw [level]⟩
        · omega

theorem fileNode_valid (few : bn < maxBlocks) : fileShape.Valid (fileNode bn) := by
  rcases fileNode_cases few with ⟨direct, node⟩ | ⟨j, rest, -, low, high, -, -, -, node⟩
  · rw [node]
    simp only [NADDR] at direct
    exact ⟨by simp only [fileShape, NADDR]; omega, by simp, by simp⟩
  · rw [node]
    refine ⟨by simp only [fileShape, NADDR]; omega, ?_, fun i => lt_of_mem_below (by simp)⟩
    rw [length_below]
    simp only [fileShape, NADDR, List.length_nil]
    omega

theorem fileNode_leaf (few : bn < maxBlocks) : Leaf (fileNode bn) := by
  rcases fileNode_cases few with ⟨direct, node⟩ | ⟨j, rest, -, low, high, -, -, -, node⟩
  · rw [node]
    simp only [NADDR] at direct
    simp only [Leaf, fileShape, NADDR, List.length_nil]
    omega
  · rw [node, Leaf, length_below]
    simp only [fileShape, NADDR, List.length_nil]
    omega

/-- The number that indices stand for, the last one first. -/
def digits : List ℕ → ℕ
  | [] => 0
  | i :: p => i + NINDIR * digits p

theorem digits_below (bn levels : ℕ) (p : List ℕ) :
    digits (below bn levels p) = bn % NINDIR ^ levels + NINDIR ^ levels * digits p := by
  induction levels generalizing p with
  | zero =>
      rw [below, Nat.pow_zero, Nat.mod_one]
      omega
  | succ levels ih =>
      calc
        digits (below bn (levels + 1) p)
            = bn % NINDIR ^ levels +
                NINDIR ^ levels * (bn / NINDIR ^ levels % NINDIR + NINDIR * digits p) := ih _
        _ = bn % NINDIR ^ levels + NINDIR ^ levels * (bn / NINDIR ^ levels % NINDIR) +
              NINDIR ^ levels * NINDIR * digits p := by
            rw [Nat.mul_add, Nat.add_assoc, Nat.mul_assoc]
        _ = bn % NINDIR ^ (levels + 1) + NINDIR ^ (levels + 1) * digits p := by
            rw [Nat.mod_pow_succ, Nat.pow_succ]

/-- Different blocks have different nodes. -/
theorem fileNode_inj {other : ℕ} (few : bn < maxBlocks) (few' : other < maxBlocks)
    (same : fileNode bn = fileNode other) : bn = other := by
  rcases fileNode_cases few with ⟨direct, node⟩ | ⟨j, rest, -, low, high, -, number, small, node⟩
  · rcases fileNode_cases few' with ⟨direct', node'⟩ | ⟨j', rest', -, low', high', -, -, -, node'⟩
    · rw [node, node'] at same
      exact (Prod.mk.inj same).1
    · rw [node, node'] at same
      have slot := (Prod.mk.inj same).1
      simp only [NADDR] at direct slot
      omega
  · rcases fileNode_cases few' with
      ⟨direct', node'⟩ | ⟨j', rest', -, low', high', -, number', small', node'⟩
    · rw [node, node'] at same
      have slot := (Prod.mk.inj same).1
      simp only [NADDR] at direct' slot
      omega
    · rw [node, node'] at same
      obtain ⟨slot, path⟩ := Prod.mk.inj same
      obtain rfl : j = j' := by
        simp only [NADDR] at slot
        omega
      have value := congrArg digits path
      rw [digits_below, digits_below, Nat.mod_eq_of_lt small, Nat.mod_eq_of_lt small'] at value
      omega

end UnixV7
