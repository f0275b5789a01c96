import Mathlib.Algebra.BigOperators.Group.List.Basic
import Mathlib.Data.List.GetD
import Mathlib.Data.Nat.ModEq
import Mathlib.Data.Nat.Prime.Basic
import Mathlib.Tactic.Common

/-!
# Wheels of trial divisors

The gaps between the numbers prime to a circumference. A walk along them misses no prime that does
not divide the circumference.
-/

namespace UnixV7

/-- The gaps of one turn, which starts at one. -/
structure Wheel where
  gaps : List ℕ
  circumference : ℕ
  sum_gaps : gaps.sum = circumference
  positive : ∀ gap ∈ gaps, 0 < gap
  skipped : ∀ i < gaps.length, ∀ k < gaps.getD i 0, 0 < k →
    ¬ (1 + (gaps.take i).sum + k).Coprime circumference

namespace Wheel

variable {w : Wheel} {d i p q : ℕ}

/-- The gap with the index `i`. -/
def gap (w : Wheel) (i : ℕ) : ℕ := w.gaps.getD i 0

/-- The index behind `i`. -/
def next (w : Wheel) (i : ℕ) : ℕ := if i + 1 = w.gaps.length then 0 else i + 1

/-- The number `d` stands before the gap with the index `i`. -/
structure At (w : Wheel) (d i : ℕ) : Prop where
  inside : i < w.gaps.length
  residue : d ≡ 1 + (w.gaps.take i).sum [MOD w.circumference]

theorem gap_eq (inside : i < w.gaps.length) : w.gap i = w.gaps[i] :=
  List.getD_eq_getElem _ _ inside

theorem sum_take_succ (inside : i < w.gaps.length) :
    (w.gaps.take (i + 1)).sum = (w.gaps.take i).sum + w.gap i := by
  rw [gap_eq inside, List.sum_take_succ]

theorem At.step (here : w.At d i) : w.At (d + w.gap i) (w.next i) := by
  have sum := sum_take_succ here.inside
  have residue : d + w.gap i ≡ 1 + (w.gaps.take (i + 1)).sum [MOD w.circumference] := by
    rw [sum, ← Nat.add_assoc]
    exact here.residue.add_right _
  unfold next
  split
  next last =>
    refine ⟨(Nat.zero_le i).trans_lt here.inside, residue.trans ?_⟩
    rw [last, List.take_length, w.sum_gaps]
    simp [Nat.ModEq]
  next inner => exact ⟨lt_of_le_of_ne here.inside inner, residue⟩

/-- The numbers inside a gap are not prime to the circumference. -/
theorem At.not_coprime (here : w.At d i) (above : d < q) (below : q < d + w.gap i) :
    ¬ q.Coprime w.circumference := by
  obtain ⟨k, rfl⟩ := Nat.exists_eq_add_of_le above.le
  have inside : k < w.gap i := by omega
  have same : d + k ≡ 1 + (w.gaps.take i).sum + k [MOD w.circumference] :=
    here.residue.add_right k
  have outside := w.skipped i here.inside k inside (by omega)
  intro coprime
  exact outside (same.gcd_eq.symm.trans coprime)

/-- What is prime to the circumference is not passed. -/
theorem At.le_coprime (here : w.At d i) (coprime : q.Coprime w.circumference) (above : d < q) :
    d + w.gap i ≤ q := by
  by_contra inside
  exact here.not_coprime above (Nat.lt_of_not_le inside) coprime

/-! ## The wheel of the primes up to seven -/

def seven : Wheel where
  gaps := [
    10, 2, 4, 2, 4, 6, 2, 6, 4, 2, 4, 6, 6, 2, 6, 4, 2, 6, 4, 6, 8, 4, 2, 4,
    2, 4, 8, 6, 4, 6, 2, 4, 6, 2, 6, 6, 4, 2, 4, 6, 2, 6, 4, 2, 4, 2, 10, 2]
  circumference := 2 * (3 * (5 * 7))
  sum_gaps := by decide
  positive := by decide
  skipped := by decide

theorem seven_gap (inside : i < 48) : 2 ≤ seven.gap i ∧ seven.gap i ≤ 10 := by
  revert i
  decide

/-- A larger prime is prime to the circumference. -/
theorem coprime_seven (prime : p.Prime) (large : 7 < p) : p.Coprime seven.circumference := by
  have other : ∀ k < 8, 0 < k → p.Coprime k := fun k small positive =>
    prime.coprime_iff_not_dvd.mpr fun divides =>
      absurd (Nat.le_of_dvd positive divides) (by omega)
  have two := other 2 (by decide) (by decide)
  have three := other 3 (by decide) (by decide)
  have five := other 5 (by decide) (by decide)
  have seven := other 7 (by decide) (by decide)
  exact two.mul_right (three.mul_right (five.mul_right seven))

/-- No larger prime is passed. -/
theorem At.le_prime (here : seven.At d i) (prime : p.Prime) (large : 7 < p) (above : d < p) :
    d + seven.gap i ≤ p :=
  here.le_coprime (coprime_seven prime large) above

end Wheel

end UnixV7
