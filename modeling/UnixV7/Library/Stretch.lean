import Mathlib.Data.List.Induction
import Mathlib.Logic.Function.Basic
import Mathlib.Tactic.Common

/-!
# Lists in memory

A list lies at an address when its members stand there one behind another. A stretch of memory is
turned round by exchanging its ends, and two neighbouring stretches change places when each of them
and then both together are turned round.
-/

namespace UnixV7

open Function

variable {β : Type*}

/-- The members of a list stand from an address on. -/
def LiesAt (m : ℕ → β) : ℕ → List β → Prop
  | _, [] => True
  | a, x :: xs => m a = x ∧ LiesAt m (a + 1) xs

/-- Two pointers go towards each other, `a2` behind the last cell to exchange. -/
def turnRound (m : ℕ → β) (a1 : ℕ) : ℕ → ℕ → β
  | 0 => m
  | a2 + 1 =>
      if a2 ≤ a1 then m
      else turnRound (update (update m a2 (m a1)) a1 (m a2)) (a1 + 1) a2

variable {m m' : ℕ → β} {a b p i : ℕ} {xs ys zs : List β}

theorem liesAt_append : LiesAt m a (xs ++ ys) ↔ LiesAt m a xs ∧ LiesAt m (a + xs.length) ys := by
  induction xs generalizing a with
  | nil => exact (and_iff_right trivial).symm
  | cons x xs ih =>
      rw [List.cons_append, LiesAt, ih, LiesAt, and_assoc, List.length_cons, Nat.add_assoc,
        Nat.add_comm 1]

/-- The list may have been copied to another place. -/
theorem LiesAt.copied (lies : LiesAt m a xs) (same : ∀ i < xs.length, m' (b + i) = m (a + i)) :
    LiesAt m' b xs := by
  induction xs generalizing a b with
  | nil => trivial
  | cons x xs ih =>
      refine ⟨(same 0 (Nat.succ_pos _)).trans lies.1, ih lies.2 fun i inside => ?_⟩
      have here := same (i + 1) (Nat.succ_lt_succ inside)
      rwa [Nat.add_comm i, ← Nat.add_assoc, ← Nat.add_assoc] at here

/-- Only the cells of the list matter. -/
theorem LiesAt.congr (lies : LiesAt m a xs)
    (same : ∀ p, a ≤ p → p < a + xs.length → m' p = m p) : LiesAt m' a xs :=
  lies.copied fun i inside => same (a + i) (Nat.le_add_right a i) (Nat.add_lt_add_left inside a)

/-- Lists of one length that lie at one place are the same. -/
theorem LiesAt.unique (lies : LiesAt m a xs) (lies' : LiesAt m a ys)
    (length : xs.length = ys.length) : xs = ys := by
  induction xs generalizing a ys with
  | nil => exact (List.length_eq_zero_iff.mp length.symm).symm
  | cons x xs ih =>
      cases ys with
      | nil => exact absurd length (Nat.succ_ne_zero _)
      | cons y ys =>
          rw [lies.1.symm.trans lies'.1, ih lies.2 lies'.2 (Nat.succ.inj length)]

/-- Nothing changes outside the stretch. -/
theorem turnRound_of_out (out : p < a ∨ b ≤ p) : turnRound m a b p = m p := by
  induction b generalizing m a with
  | zero => rfl
  | succ b ih =>
      rw [turnRound]
      split
      · rfl
      · rw [ih (by omega), update_of_ne (by omega), update_of_ne (by omega)]

/-- A stretch of memory is turned round. -/
theorem turnRound_spec (lies : LiesAt m a xs) :
    LiesAt (turnRound m a (a + xs.length)) a xs.reverse := by
  induction xs using List.bidirectionalRec generalizing m a with
  | nil => trivial
  | singleton x => exact ⟨(congrFun (if_pos (Nat.le_refl a)) a).trans lies.1, trivial⟩
  | cons_append x xs y ih =>
      have size : (x :: (xs ++ [y])).length = xs.length + 1 + 1 := by
        rw [List.length_cons, List.length_append, List.length_singleton]
      obtain ⟨here, lies⟩ := lies
      obtain ⟨lies, last, -⟩ := liesAt_append.mp lies
      have swap : turnRound m a (a + (xs.length + 1 + 1)) =
          turnRound (update (update m (a + 1 + xs.length) (m a)) a (m (a + 1 + xs.length))) (a + 1)
            (a + 1 + xs.length) := by
        rw [← Nat.add_assoc, turnRound, if_neg (by omega), Nat.add_comm xs.length, ← Nat.add_assoc]
      rw [size, swap]
      generalize changed : update (update m (a + 1 + xs.length) (m a)) a
        (m (a + 1 + xs.length)) = m₁
      have first : m₁ a = y := by rw [← changed, update_self, last]
      have final : m₁ (a + 1 + xs.length) = x := by
        rw [← changed, update_of_ne (by omega), update_self, here]
      have lies₁ : LiesAt m₁ (a + 1) xs := lies.congr fun p low high => by
        rw [← changed, update_of_ne (by omega), update_of_ne (by omega)]
      have turned := ih lies₁
      rw [List.reverse_cons, List.reverse_append, List.reverse_singleton, List.singleton_append,
        List.cons_append]
      refine ⟨(turnRound_of_out (by omega)).trans first, liesAt_append.mpr ⟨turned, ?_, trivial⟩⟩
      rw [List.length_reverse, turnRound_of_out (by omega), final]

/-- Two neighbouring stretches change places. -/
theorem turnRound_exchange (lies : LiesAt m a (xs ++ ys)) (middle : b = a + xs.length)
    {c : ℕ} (stop : c = b + ys.length) :
    LiesAt (turnRound (turnRound (turnRound m a b) b c) a c) a (ys ++ xs) := by
  obtain ⟨left, right⟩ := liesAt_append.mp lies
  have left₁ := turnRound_spec left
  rw [← middle] at left₁ right
  have right₁ : LiesAt (turnRound m a b) b ys :=
    right.congr fun p low high => turnRound_of_out (.inr low)
  have right₂ := turnRound_spec right₁
  rw [← stop] at right₂
  have left₂ : LiesAt (turnRound (turnRound m a b) b c) a xs.reverse := by
    refine left₁.congr fun p low high => turnRound_of_out (.inl ?_)
    rwa [List.length_reverse, ← middle] at high
  have both : LiesAt (turnRound (turnRound m a b) b c) a (xs.reverse ++ ys.reverse) := by
    refine liesAt_append.mpr ⟨left₂, ?_⟩
    rwa [List.length_reverse, ← middle]
  have turned := turnRound_spec both
  rw [List.reverse_append, List.reverse_reverse, List.reverse_reverse, List.length_append,
    List.length_reverse, List.length_reverse, ← Nat.add_assoc, ← middle, ← stop] at turned
  exact turned

/-- Memory may be looked at through a function. -/
theorem turnRound_map {γ : Type*} (f : β → γ) (m : ℕ → β) (a b : ℕ) :
    (fun p => f (turnRound m a b p)) = turnRound (fun p => f (m p)) a b := by
  induction b generalizing m a with
  | zero => rfl
  | succ b ih =>
      rw [turnRound, turnRound]
      split
      · rfl
      · rw [ih]
        congr 1
        funext p
        simp only [update_apply, apply_ite f]

/-- What stands in memory afterwards stood there before. -/
theorem exists_turnRound (m : ℕ → β) (a b p : ℕ) : ∃ q, turnRound m a b p = m q := by
  induction b generalizing m a with
  | zero => exact ⟨p, rfl⟩
  | succ b ih =>
      rw [turnRound]
      split
      · exact ⟨p, rfl⟩
      · obtain ⟨q, same⟩ := ih (update (update m b (m a)) a (m b)) (a + 1)
        rw [same, update_apply]
        split
        · exact ⟨b, rfl⟩
        · rw [update_apply]
          split
          · exact ⟨a, rfl⟩
          · exact ⟨q, rfl⟩

end UnixV7
