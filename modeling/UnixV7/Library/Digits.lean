import Mathlib.Algebra.Order.Ring.Int
import Mathlib.Data.List.DropRight
import Mathlib.Tactic.Common
import Mathlib.Tactic.Linarith
import Mathlib.Tactic.Ring

/-!
# Strings of digits

The value of a string of digits in some base, the low digit first. Digits are integers, and the
value is defined for any of them; it lies below the power of the base that the length gives when
the digits lie below the base.
-/

namespace UnixV7

/-- The value of a string of digits. -/
def value (β : ℤ) : List ℤ → ℤ
  | [] => 0
  | d :: p => d + β * value β p

/-- All digits lie below the base. -/
def Digits (β : ℤ) (p : List ℤ) : Prop := ∀ d ∈ p, 0 ≤ d ∧ d < β

instance (β : ℤ) (p : List ℤ) : Decidable (Digits β p) :=
  inferInstanceAs (Decidable (∀ d ∈ p, 0 ≤ d ∧ d < β))

/-- A string without the zeros at its top. -/
def trim (p : List ℤ) : List ℤ := p.rdropWhile (· = 0)

variable {β c d : ℤ} {p q : List ℤ} {n : ℕ}

@[simp]
theorem value_nil : value β [] = 0 := rfl

@[simp]
theorem value_cons : value β (d :: p) = d + β * value β p := rfl

theorem value_append (p q : List ℤ) : value β (p ++ q) = value β p + β ^ p.length * value β q := by
  induction p with
  | nil => simp
  | cons d p hyp =>
    rw [List.cons_append, value_cons, value_cons, hyp, List.length_cons, pow_succ]
    ring

theorem value_concat (p : List ℤ) (d : ℤ) : value β (p ++ [d]) = value β p + β ^ p.length * d := by
  rw [value_append, value_cons, value_nil, mul_zero, add_zero]

theorem Digits.nil : Digits β [] := List.forall_mem_nil _

theorem digits_cons : Digits β (d :: p) ↔ (0 ≤ d ∧ d < β) ∧ Digits β p := List.forall_mem_cons

theorem digits_append : Digits β (p ++ q) ↔ Digits β p ∧ Digits β q := List.forall_mem_append

theorem digits_concat : Digits β (p ++ [d]) ↔ Digits β p ∧ 0 ≤ d ∧ d < β := by
  rw [digits_append, digits_cons, and_iff_left Digits.nil]

theorem Digits.sublist (digits : Digits β q) (sub : p.Sublist q) : Digits β p :=
  fun d mem => digits d (sub.subset mem)

theorem Digits.value_nonneg (digits : Digits β p) : 0 ≤ value β p := by
  induction p with
  | nil => exact le_rfl
  | cons d p hyp =>
    obtain ⟨⟨low, high⟩, rest⟩ := digits_cons.mp digits
    have := mul_nonneg (low.trans high.le) (hyp rest)
    rw [value_cons]
    omega

theorem Digits.value_lt (digits : Digits β p) (base : 0 < β) : value β p < β ^ p.length := by
  induction p with
  | nil => simp
  | cons d p hyp =>
    obtain ⟨⟨low, high⟩, rest⟩ := digits_cons.mp digits
    have bound := mul_le_mul_of_nonneg_left (Int.add_one_le_iff.mpr (hyp rest)) base.le
    rw [value_cons, List.length_cons, pow_succ, mul_comm _ β]
    linarith

/-- A string with a digit other than zero at its top. -/
theorem Digits.le_value (digits : Digits β (p ++ [d])) (base : 0 < β) (some : d ≠ 0) :
    β ^ p.length ≤ value β (p ++ [d]) := by
  obtain ⟨low, digit, -⟩ := digits_concat.mp digits
  have bound := mul_le_mul_of_nonneg_left (show 1 ≤ d by omega) (pow_pos base p.length).le
  have := low.value_nonneg
  rw [value_concat]
  linarith

/-- The top of a string, as a number, is its value without the digits below. -/
theorem Digits.lead (digits : Digits β p) (base : 0 < β) (q : List ℤ) :
    value β q * β ^ p.length ≤ value β (p ++ q) ∧
      value β (p ++ q) < (value β q + 1) * β ^ p.length := by
  have low := digits.value_nonneg
  have high := digits.value_lt base
  rw [value_append]
  constructor <;> linarith

/-- A top digit is fixed by the value. -/
theorem Digits.top (digits : Digits β p) (base : 0 < β) (low : 0 ≤ value β (p ++ [d]))
    (high : value β (p ++ [d]) < β ^ (p.length + 1)) : 0 ≤ d ∧ d < β := by
  obtain ⟨left, right⟩ := digits.lead base [d]
  have power := pow_pos base p.length
  rw [value_cons, value_nil, mul_zero, add_zero] at left right
  constructor
  · have : 0 < (d + 1) * β ^ p.length := low.trans_lt right
    exact Int.lt_add_one_iff.mp (pos_of_mul_pos_left this power.le)
  · rw [pow_succ, mul_comm _ β] at high
    exact lt_of_mul_lt_mul_right (left.trans_lt high) power.le

theorem trim_concat_zero (p : List ℤ) : trim (p ++ [0]) = trim p :=
  List.rdropWhile_concat_pos _ _ _ (by decide)

theorem trim_concat (p : List ℤ) (some : d ≠ 0) : trim (p ++ [d]) = p ++ [d] :=
  List.rdropWhile_concat_neg _ _ _ (by simpa using some)

theorem trim_isPrefix (p : List ℤ) : trim p <+: p := List.rdropWhile_prefix _ _

@[simp]
theorem value_trim (p : List ℤ) : value β (trim p) = value β p := by
  induction p using List.reverseRecOn with
  | nil => rfl
  | append_singleton p d hyp =>
    by_cases zero : d = 0
    · rw [zero, trim_concat_zero, hyp, value_concat, mul_zero, add_zero]
    · rw [trim_concat p zero]

theorem Digits.trim (digits : Digits β p) : Digits β (trim p) :=
  digits.sublist (trim_isPrefix p).sublist

theorem getLast?_trim (p : List ℤ) : (trim p).getLast? ≠ some 0 := by
  induction p using List.reverseRecOn with
  | nil => exact Option.some_ne_none 0 |>.symm
  | append_singleton p d hyp =>
    by_cases zero : d = 0
    · rwa [zero, trim_concat_zero]
    · rw [trim_concat p zero, List.getLast?_concat]
      exact fun same => zero (Option.some.inj same)

end UnixV7
