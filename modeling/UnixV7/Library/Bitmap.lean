import Mathlib.Data.Nat.Notation
import Mathlib.Tactic.Common

/-!
# Bit maps

A set of numbers as an array of words of `w` bits. A sweep over the numbers takes the bits of a word
from a copy that is shifted.
-/

namespace UnixV7.Bitmap

/-- The words of a map. -/
abbrev Map (w : ℕ) := ℕ → BitVec w

variable {w : ℕ} {k n : ℕ}

/-- The bit of a number in its word. -/
def mask (w k : ℕ) : BitVec w := 1#w <<< (k % w)

def set (m : Map w) (k : ℕ) : Map w := Function.update m (k / w) (m (k / w) ||| mask w k)

def clear (m : Map w) (k : ℕ) : Map w := Function.update m (k / w) (m (k / w) &&& ~~~ mask w k)

def test (m : Map w) (k : ℕ) : Bool := m (k / w) &&& mask w k ≠ 0#w

theorem getLsbD_mask (positive : 0 < w) (k i : ℕ) : (mask w k).getLsbD i = decide (i = k % w) := by
  have inside := Nat.mod_lt k positive
  rw [mask, BitVec.getLsbD_shiftLeft, BitVec.getLsbD_one, Bool.eq_iff_iff]
  simp only [decide_eq_true_eq, Bool.and_eq_true, Bool.not_eq_true', decide_eq_false_iff_not]
  omega

/-- The test takes one bit of the word. -/
theorem test_eq (positive : 0 < w) (m : Map w) (k : ℕ) :
    test m k = (m (k / w)).getLsbD (k % w) := by
  have inside := Nat.mod_lt k positive
  rw [test, Bool.eq_iff_iff, decide_eq_true_eq]
  constructor
  · intro some
    by_contra clear
    refine some (BitVec.eq_of_getLsbD_eq fun i _ => ?_)
    rw [BitVec.getLsbD_and, getLsbD_mask positive, BitVec.getLsbD_zero, Bool.and_eq_false_iff]
    obtain rfl | other := eq_or_ne i (k % w)
    · exact .inl (Bool.not_eq_true _ ▸ clear)
    · exact .inr (decide_eq_false other)
  · intro bit none
    have same := congrArg (fun v => v.getLsbD (k % w)) none
    simp only [BitVec.getLsbD_and, getLsbD_mask positive, bit, BitVec.getLsbD_zero, decide_true,
      Bool.and_self, Bool.true_eq_false] at same

/-- A number has its word and its place there. -/
theorem place_inj (n k : ℕ) (word : n / w = k / w) (bit : n % w = k % w) : n = k := by
  rw [← Nat.div_add_mod n w, ← Nat.div_add_mod k w, word, bit]

theorem test_set (positive : 0 < w) (m : Map w) (n k : ℕ) :
    test (set m n) k = (test m k || decide (k = n)) := by
  rw [test_eq positive, test_eq positive, set]
  obtain word | other := eq_or_ne (k / w) (n / w)
  · rw [word, Function.update_self, BitVec.getLsbD_or, getLsbD_mask positive]
    congr 1
    rw [decide_eq_decide]
    exact ⟨place_inj k n word, fun same => same ▸ rfl⟩
  · have apart : k ≠ n := fun same => other (same ▸ rfl)
    rw [Function.update_of_ne other, decide_eq_false apart, Bool.or_false]

theorem test_clear (positive : 0 < w) (m : Map w) (n k : ℕ) :
    test (clear m n) k = (test m k && !decide (k = n)) := by
  have inside := Nat.mod_lt k positive
  rw [test_eq positive, test_eq positive, clear]
  obtain word | other := eq_or_ne (k / w) (n / w)
  · rw [word, Function.update_self, BitVec.getLsbD_and, BitVec.getLsbD_not,
      getLsbD_mask positive, decide_eq_true inside, Bool.true_and]
    congr 2
    rw [decide_eq_decide]
    exact ⟨place_inj k n word, fun same => same ▸ rfl⟩
  · have apart : k ≠ n := fun same => other (same ▸ rfl)
    rw [Function.update_of_ne other, decide_eq_false apart, Bool.not_false, Bool.and_true]

/-! ## Sweeps -/

variable {S : Type*}

/-- A step for each of the numbers from `n` on, in number `left`, whose bit is set when their turn
comes. -/
def sweep (step : ℕ → S → S) (test : ℕ → S → Bool) : ℕ → ℕ → S → S
  | 0, _, s => s
  | left + 1, n, s => sweep step test left (n + 1) (if test n s then step n s else s)

theorem sweep_succ (step : ℕ → S → S) (test : ℕ → S → Bool) (left n : ℕ) (s : S) :
    sweep step test (left + 1) n s =
      sweep step test left (n + 1) (if test n s then step n s else s) := rfl

/-- What is known when a number has its turn is carried on to the next one. -/
theorem sweep_run {step : ℕ → S → S} {test : ℕ → S → Bool} {p : ℕ → S → Prop} {left n : ℕ} {s : S}
    (turn : ∀ k s, n ≤ k → k < n + left → p k s → p (k + 1) (if test k s then step k s else s))
    (start : p n s) : p (n + left) (sweep step test left n s) := by
  induction left generalizing n s with
  | zero => exact start
  | succ left ih =>
      have next := turn n s (Nat.le_refl n) (by omega) start
      have last := ih (fun k s low high => turn k s (by omega) (by omega)) next
      rwa [Nat.add_right_comm] at last

/-- What every step keeps holds after a sweep. -/
theorem sweep_keeps {step : ℕ → S → S} {test : ℕ → S → Bool} {p : S → Prop} {left n : ℕ} {s : S}
    (keeps : ∀ k s, n ≤ k → k < n + left → test k s → p s → p (step k s)) (start : p s) :
    p (sweep step test left n s) := by
  refine sweep_run (p := fun _ s => p s) (fun k s low high here => ?_) start
  split
  next bit => exact keeps k s low high bit here
  next => exact here

end UnixV7.Bitmap
