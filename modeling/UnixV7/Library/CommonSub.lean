import Mathlib.Data.List.Basic
import Mathlib.Tactic.Common

/-!
# Common subsequences

A common subsequence of two sequences is a list of matched pairs of places, which increase in both
sequences. Lists are kept with the last pair first, as they grow. `Reach` says how long a common
subsequence of two initial pieces can be, and `Thresholds` how far into the second sequence one has
to go for each length.
-/

namespace UnixV7

/-- Matched pairs of places, the last pair first. -/
structure Common (mate : ℕ → ℕ → Prop) (ps : List (ℕ × ℕ)) : Prop where
  falling : ps.Pairwise fun p q => q.1 < p.1 ∧ q.2 < p.2
  mates : ∀ p ∈ ps, mate p.1 p.2

/-- The first `i` places and the first `y` places have a common subsequence of length `l`. -/
def Reach (mate : ℕ → ℕ → Prop) (i y l : ℕ) : Prop :=
  ∃ ps, Common mate ps ∧ ps.length = l ∧ ∀ p ∈ ps, p.1 ≤ i ∧ p.2 ≤ y

/-- Lengths up to `k` can be reached in the first `i` places, length `l` from `T l` on. -/
def Thresholds (mate : ℕ → ℕ → Prop) (i k : ℕ) (T : ℕ → ℕ) : Prop :=
  ∀ l y, Reach mate i y l ↔ l ≤ k ∧ T l ≤ y

variable {mate : ℕ → ℕ → Prop} {ps qs : List (ℕ × ℕ)} {p : ℕ × ℕ} {i j k l n y z : ℕ}
  {T T' : ℕ → ℕ}

namespace Common

theorem nil : Common mate [] := ⟨.nil, by simp⟩

theorem cons_iff : Common mate (p :: ps) ↔
    Common mate ps ∧ mate p.1 p.2 ∧ ∀ q ∈ ps, q.1 < p.1 ∧ q.2 < p.2 := by
  constructor
  · intro common
    obtain ⟨first, rest⟩ := List.pairwise_cons.mp common.falling
    exact ⟨⟨rest, fun q mem => common.mates q (List.mem_cons_of_mem _ mem)⟩,
      common.mates p List.mem_cons_self, first⟩
  · intro ⟨common, mated, below⟩
    exact ⟨List.pairwise_cons.mpr ⟨below, common.falling⟩,
      List.forall_mem_cons.mpr ⟨mated, common.mates⟩⟩

/-- Pairs that lie behind place `j` and not behind place `i` of the first sequence are no more than
the places between. -/
theorem length_le_left (common : Common mate ps) (low : ∀ p ∈ ps, j < p.1)
    (high : ∀ p ∈ ps, p.1 ≤ i) : ps.length ≤ i - j := by
  induction ps generalizing i with
  | nil => exact Nat.zero_le _
  | cons p ps ih =>
      obtain ⟨rest, -, below⟩ := cons_iff.mp common
      have first := low p List.mem_cons_self
      have bound := high p List.mem_cons_self
      have shorter : ps.length ≤ p.1 - 1 - j :=
        ih rest (fun q mem => low q (List.mem_cons_of_mem _ mem)) fun q mem => by
          have := (below q mem).1
          omega
      rw [List.length_cons]
      omega

theorem length_le_right (common : Common mate ps) (low : ∀ p ∈ ps, j < p.2)
    (high : ∀ p ∈ ps, p.2 ≤ i) : ps.length ≤ i - j := by
  induction ps generalizing i with
  | nil => exact Nat.zero_le _
  | cons p ps ih =>
      obtain ⟨rest, -, below⟩ := cons_iff.mp common
      have first := low p List.mem_cons_self
      have bound := high p List.mem_cons_self
      have shorter : ps.length ≤ p.2 - 1 - j :=
        ih rest (fun q mem => low q (List.mem_cons_of_mem _ mem)) fun q mem => by
          have := (below q mem).2
          omega
      rw [List.length_cons]
      omega

/-- Pairs of which one place is among the first `n` are no more than `n`. -/
theorem length_le_start (common : Common mate ps) (start : ∀ x y, mate x y → 1 ≤ x ∧ 1 ≤ y)
    (inside : ∀ p ∈ ps, p.1 ≤ n ∨ p.2 ≤ n) : ps.length ≤ n := by
  have low : ∀ p ∈ ps, 1 ≤ p.1 ∧ 1 ≤ p.2 := fun p mem => start _ _ (common.mates p mem)
  cases ps with
  | nil => exact Nat.zero_le n
  | cons p ps =>
      obtain ⟨-, -, below⟩ := cons_iff.mp common
      rcases inside p List.mem_cons_self with left | right
      · refine common.length_le_left (fun q mem => (low q mem).1) fun q mem => ?_
        rcases List.mem_cons.mp mem with rfl | later
        · exact left
        · exact Nat.le_trans (Nat.le_of_lt (below q later).1) left
      · refine common.length_le_right (fun q mem => (low q mem).2) fun q mem => ?_
        rcases List.mem_cons.mp mem with rfl | later
        · exact right
        · exact Nat.le_trans (Nat.le_of_lt (below q later).2) right

/-- Pairs of which one place is among the last `n` are no more than `n`. -/
theorem length_le_end (common : Common mate ps) (high : ∀ p ∈ ps, p.1 ≤ i ∧ p.2 ≤ j)
    (inside : ∀ p ∈ ps, i - n < p.1 ∨ j - n < p.2) : ps.length ≤ n := by
  rcases List.eq_nil_or_concat' ps with rfl | ⟨qs, q, rfl⟩
  · exact Nat.zero_le n
  · have above := (List.pairwise_append.mp common.falling).2.2
    have last : q ∈ qs ++ [q] := List.mem_append_right _ List.mem_cons_self
    rcases inside q last with left | right
    · have bound := common.length_le_left (j := i - n) (fun p mem => ?_) fun p mem => (high p mem).1
      · omega
      · rcases List.mem_append.mp mem with before | here
        · exact Nat.lt_trans left (above p before q List.mem_cons_self).1
        · rwa [List.mem_singleton.mp here]
    · have bound := common.length_le_right (j := j - n) (fun p mem => ?_)
        fun p mem => (high p mem).2
      · omega
      · rcases List.mem_append.mp mem with before | here
        · exact Nat.lt_trans right (above p before q List.mem_cons_self).2
        · rwa [List.mem_singleton.mp here]

/-- Of two pairs the one behind in the first sequence is behind in the second. -/
theorem rising (common : Common mate ps) {q : ℕ × ℕ} (mem : p ∈ ps) (mem' : q ∈ ps)
    (less : p.1 < q.1) : p.2 < q.2 := by
  induction ps with
  | nil => simp at mem
  | cons r ps ih =>
      obtain ⟨rest, -, below⟩ := cons_iff.mp common
      rcases List.mem_cons.mp mem with rfl | later
      · rcases List.mem_cons.mp mem' with rfl | later'
        · omega
        · have := below q later'
          omega
      · rcases List.mem_cons.mp mem' with rfl | later'
        · exact (below p later).2
        · exact ih rest later later'

theorem sublist (common : Common mate ps) (sub : qs.Sublist ps) : Common mate qs :=
  ⟨common.falling.sublist sub, fun p mem => common.mates p (sub.subset mem)⟩

end Common

theorem Reach.zero (mate : ℕ → ℕ → Prop) (i y : ℕ) : Reach mate i y 0 :=
  ⟨[], .nil, rfl, by simp⟩

theorem Reach.mono (reach : Reach mate i y l) (places : i ≤ j) (further : y ≤ z) :
    Reach mate j z l := by
  obtain ⟨ps, common, length, inside⟩ := reach
  exact ⟨ps, common, length, fun p mem =>
    ⟨Nat.le_trans (inside p mem).1 places, Nat.le_trans (inside p mem).2 further⟩⟩

/-- With one place more a common subsequence is an old one, or ends at the new place. -/
theorem reach_succ (start : ∀ x y, mate x y → 1 ≤ y) : Reach mate (i + 1) y (l + 1) ↔
    Reach mate i y (l + 1) ∨ ∃ z ≤ y, mate (i + 1) z ∧ Reach mate i (z - 1) l := by
  constructor
  · rintro ⟨ps, common, length, inside⟩
    cases ps with
    | nil => simp at length
    | cons p ps =>
        obtain ⟨rest, mated, below⟩ := Common.cons_iff.mp common
        obtain ⟨bound, far⟩ := inside p List.mem_cons_self
        by_cases new : p.1 = i + 1
        · right
          refine ⟨p.2, far, new ▸ mated, ps, rest, by simpa using length, fun q mem => ?_⟩
          have first := start _ _ mated
          have := below q mem
          omega
        · left
          refine ⟨p :: ps, common, length, List.forall_mem_cons.mpr ⟨by omega, fun q mem => ?_⟩⟩
          have := below q mem
          omega
  · rintro (old | ⟨z, near, mated, ps, common, rfl, inside⟩)
    · exact old.mono (Nat.le_succ i) (Nat.le_refl y)
    · have first := start _ _ mated
      have below : ∀ q ∈ ps, q.1 < i + 1 ∧ q.2 < z := fun q mem => by
        have := inside q mem
        omega
      refine ⟨(i + 1, z) :: ps, Common.cons_iff.mpr ⟨common, mated, below⟩, rfl,
        List.forall_mem_cons.mpr ⟨⟨Nat.le_refl _, near⟩, fun q mem => ?_⟩⟩
      have := below q mem
      omega

namespace Thresholds

theorem reach (levels : Thresholds mate i k T) (low : l ≤ k) : Reach mate i (T l) l :=
  (levels l _).mpr ⟨low, Nat.le_refl _⟩

/-- Without places there is no pair. -/
theorem start (places : ∀ x y, mate x y → 1 ≤ x) (zero : T 0 = 0) : Thresholds mate 0 0 T := by
  intro l y
  constructor
  · rintro ⟨ps, common, rfl, inside⟩
    cases ps with
    | nil => exact ⟨Nat.le_refl _, zero ▸ Nat.zero_le _⟩
    | cons p ps =>
        have first := places _ _ (common.mates p List.mem_cons_self)
        have bound := (inside p List.mem_cons_self).1
        omega
  · rintro ⟨low, -⟩
    obtain rfl := Nat.le_zero.mp low
    exact .zero mate 0 y

theorem zero (levels : Thresholds mate i k T) : T 0 = 0 :=
  Nat.le_zero.mp ((levels 0 0).mp (.zero mate i 0)).2

/-- A longer subsequence takes more places. -/
theorem step (start : ∀ x y, mate x y → 1 ≤ y) (levels : Thresholds mate i k T) (low : l < k) :
    T l < T (l + 1) := by
  obtain ⟨ps, common, length, inside⟩ : Reach mate i (T (l + 1)) (l + 1) := levels.reach low
  cases ps with
  | nil => simp at length
  | cons p ps =>
      obtain ⟨rest, mated, below⟩ := Common.cons_iff.mp common
      have first := start _ _ mated
      have far := (inside p List.mem_cons_self).2
      have shorter : Reach mate i (T (l + 1) - 1) l :=
        ⟨ps, rest, by simpa using length, fun q mem => by
          have := below q mem
          have := inside q (List.mem_cons_of_mem _ mem)
          omega⟩
      have := ((levels l _).mp shorter).2
      omega

theorem strictMono (start : ∀ x y, mate x y → 1 ≤ y) (levels : Thresholds mate i k T)
    (less : j < l) (low : l ≤ k) : T j < T l := by
  induction l with
  | zero => omega
  | succ l ih =>
      have last := levels.step start (Nat.lt_of_succ_le low)
      rcases Nat.lt_succ_iff_lt_or_eq.mp less with before | rfl
      · exact Nat.lt_trans (ih before (Nat.le_of_succ_le low)) last
      · exact last

/-- The thresholds for one place more: each is the old one or a mate behind the old threshold of
the length before, and no such mate lies before it. -/
theorem succ {k' : ℕ} (start : ∀ x y, mate x y → 1 ≤ y) (levels : Thresholds mate i k T)
    (grown : k ≤ k' ∧ k' ≤ k + 1) (zero : T' 0 = 0)
    (old : ∀ l ≤ k, T' l ≤ T l)
    (mates : ∀ z, mate (i + 1) z → ∀ l ≤ k, T l < z → l + 1 ≤ k' ∧ T' (l + 1) ≤ z)
    (source : ∀ l, l + 1 ≤ k' → (l + 1 ≤ k ∧ T' (l + 1) = T (l + 1)) ∨
      (l ≤ k ∧ mate (i + 1) (T' (l + 1)) ∧ T l < T' (l + 1))) :
    Thresholds mate (i + 1) k' T' := by
  intro l y
  cases l with
  | zero => simp [Reach.zero, zero]
  | succ l =>
      rw [reach_succ start, levels]
      constructor
      · rintro (⟨low, far⟩ | ⟨z, far, mated, reach⟩)
        · exact ⟨Nat.le_trans low grown.1, Nat.le_trans (old _ low) far⟩
        · obtain ⟨low, near⟩ := (levels l _).mp reach
          have first := start _ _ mated
          obtain ⟨fits, below⟩ := mates z mated l low (by omega)
          exact ⟨fits, Nat.le_trans below far⟩
      · rintro ⟨low, far⟩
        rcases source l low with ⟨before, same⟩ | ⟨before, mated, behind⟩
        · exact .inl ⟨before, same ▸ far⟩
        · refine .inr ⟨_, far, mated, (levels l _).mpr ⟨before, by omega⟩⟩

end Thresholds

end UnixV7
