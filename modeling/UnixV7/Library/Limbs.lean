import Mathlib.Data.List.DropRight
import Mathlib.Data.Nat.Digits.Lemmas
import Mathlib.Tactic.Linarith
import Mathlib.Tactic.Ring

/-!
# Big integers as lists of limbs

A list of limbs below the base, the least significant first, is the list of the digits of its value
when it has no zero at its top. The lemmas here say so for lists that are cut to that form and for
those that a multiplication makes.
-/

namespace UnixV7.Limbs

open Nat (digits ofDigits)

variable {β : ℕ} {l : List ℕ} {c m v w : ℕ}

/-- A list of limbs whose value needs all of them is the list of the digits of its value. -/
theorem eq_digits (base : 1 < β) (small : ∀ d ∈ l, d < β)
    (top : l ≠ [] → β ^ (l.length - 1) ≤ ofDigits β l) : l = digits β (ofDigits β l) := by
  apply Eq.symm
  apply Nat.digits_ofDigits β base l small
  intro nonempty zero
  have split := List.dropLast_append_getLast nonempty
  have below : ofDigits β l < β ^ (l.length - 1) := by
    rw [← split, zero, Nat.ofDigits_append_zero, List.length_append, List.length_singleton,
      Nat.add_sub_cancel]
    exact Nat.ofDigits_lt_base_pow_length base fun d mem => small d (List.mem_of_mem_dropLast mem)
  exact absurd (top nonempty) (by omega)

/-- A list of limbs without the zeros at its top. -/
def strip (l : List ℕ) : List ℕ := l.rdropWhile (· = 0)

theorem strip_eq (base : 1 < β) (small : ∀ d ∈ l, d < β) :
    strip l = digits β (ofDigits β l) := by
  rw [strip]
  induction l using List.reverseRecOn with
  | nil => simp
  | append_singleton l d ih =>
      have front : ∀ e ∈ l, e < β := fun e mem => small e (List.mem_append_left [d] mem)
      by_cases zero : d = 0
      · subst zero
        rw [List.rdropWhile_concat_pos _ _ _ (by simp), ih front, Nat.ofDigits_append_zero]
      · rw [List.rdropWhile_concat_neg _ _ _ (by simpa using zero)]
        apply eq_digits base small
        intro _
        rw [List.length_append, List.length_singleton, Nat.add_sub_cancel, Nat.ofDigits_append,
          Nat.ofDigits_singleton]
        have := Nat.le_mul_of_pos_right (β ^ l.length) (Nat.pos_of_ne_zero zero)
        omega

theorem length_le (base : 1 < β) {k : ℕ} (size : v < β ^ k) : (digits β v).length ≤ k :=
  (Nat.digits_length_le_iff base v).mpr size

/-- The limbs times `m`, with `c` added at the bottom, and what is carried out of the top. -/
def mulAdd (β m : ℕ) : List ℕ → ℕ → List ℕ × ℕ
  | [], c => ([], c)
  | w :: a, c =>
      let (b, d) := mulAdd β m a ((w * m + c) / β)
      ((w * m + c) % β :: b, d)

theorem mulAdd_cons (a : List ℕ) : mulAdd β m (w :: a) c =
    ((w * m + c) % β :: (mulAdd β m a ((w * m + c) / β)).1,
      (mulAdd β m a ((w * m + c) / β)).2) := rfl

theorem mulAdd_length (β m : ℕ) (a : List ℕ) (c : ℕ) : (mulAdd β m a c).1.length = a.length := by
  induction a generalizing c with
  | nil => rfl
  | cons w a ih => rw [mulAdd_cons, List.length_cons, List.length_cons, ih]

theorem mulAdd_value (β m : ℕ) (a : List ℕ) (c : ℕ) :
    ofDigits β (mulAdd β m a c).1 + β ^ a.length * (mulAdd β m a c).2 = ofDigits β a * m + c := by
  induction a generalizing c with
  | nil => simp [mulAdd]
  | cons w a ih =>
      have rest := ih ((w * m + c) / β)
      have split := Nat.mod_add_div (w * m + c) β
      rw [mulAdd_cons, Nat.ofDigits_cons, Nat.ofDigits_cons, List.length_cons]
      calc (w * m + c) % β + β * ofDigits β (mulAdd β m a ((w * m + c) / β)).1 +
            β ^ (a.length + 1) * (mulAdd β m a ((w * m + c) / β)).2
          = (w * m + c) % β + β * (ofDigits β (mulAdd β m a ((w * m + c) / β)).1 +
              β ^ a.length * (mulAdd β m a ((w * m + c) / β)).2) := by ring
        _ = (w * m + c) % β + β * ((w * m + c) / β) + β * ofDigits β a * m := by
            rw [rest]
            ring
        _ = (w + β * ofDigits β a) * m + c := by
            rw [split]
            ring

theorem mulAdd_small (positive : 0 < β) {a : List ℕ} (small : ∀ d ∈ a, d < β) (factor : m ≤ β)
    (carry : c < β) : (∀ d ∈ (mulAdd β m a c).1, d < β) ∧ (mulAdd β m a c).2 < β := by
  induction a generalizing c with
  | nil => exact ⟨List.forall_mem_nil _, carry⟩
  | cons w a ih =>
      obtain ⟨head, tail⟩ := List.forall_mem_cons.mp small
      have next : (w * m + c) / β < β := by
        apply Nat.div_lt_of_lt_mul
        calc w * m + c < w * β + β := by
              have := Nat.mul_le_mul_left w factor
              omega
          _ = (w + 1) * β := by ring
          _ ≤ β * β := Nat.mul_le_mul_right β head
      obtain ⟨rest, last⟩ := ih tail next
      exact ⟨List.forall_mem_cons.mpr ⟨Nat.mod_lt _ positive, rest⟩, last⟩

/-- The digits of a product, from those of a factor. -/
theorem digits_mulAdd (base : 1 < β) (some : 0 < m) (factor : m ≤ β) (carry : c < β) (v : ℕ) :
    digits β (v * m + c) =
      if (mulAdd β m (digits β v) c).2 = 0 then (mulAdd β m (digits β v) c).1
      else (mulAdd β m (digits β v) c).1 ++ [(mulAdd β m (digits β v) c).2] := by
  have value := mulAdd_value β m (digits β v) c
  have length := mulAdd_length β m (digits β v) c
  obtain ⟨small, last⟩ := mulAdd_small (show 0 < β by omega)
    (fun d mem => Nat.digits_lt_base base mem) factor carry (a := digits β v)
  rw [Nat.ofDigits_digits] at value
  split
  · next none =>
      rw [none, Nat.mul_zero, Nat.add_zero] at value
      rw [← value]
      apply Eq.symm
      apply eq_digits base small
      intro nonempty
      rw [value, length]
      have positive : 0 < v := by
        apply Nat.pos_of_ne_zero
        intro zero
        apply nonempty
        apply List.eq_nil_of_length_eq_zero
        rw [length, zero, Nat.digits_zero, List.length_nil]
      have below : β ^ ((digits β v).length - 1) ≤ v := by
        by_contra more
        have := length_le base (Nat.lt_of_not_le more)
        have := List.length_pos_of_ne_nil
          ((Nat.digits_ne_nil_iff_ne_zero (b := β)).mpr positive.ne')
        omega
      exact below.trans ((Nat.le_mul_of_pos_right v some).trans (Nat.le_add_right _ c))
  · next some =>
      have whole : ofDigits β ((mulAdd β m (digits β v) c).1 ++ [(mulAdd β m (digits β v) c).2]) =
          v * m + c := by
        rw [Nat.ofDigits_append, Nat.ofDigits_singleton, length]
        exact value
      rw [← whole]
      apply Eq.symm
      apply eq_digits base
      · intro d mem
        obtain mem | mem := List.mem_append.mp mem
        · exact small d mem
        · rw [List.mem_singleton.mp mem]
          exact last
      · intro _
        rw [List.length_append, List.length_singleton, Nat.add_sub_cancel, Nat.ofDigits_append,
          Nat.ofDigits_singleton]
        have := Nat.le_mul_of_pos_right (β ^ (mulAdd β m (digits β v) c).1.length)
          (Nat.pos_of_ne_zero some)
        omega

/-- Limbs stored with what is carried out of them, in an array of `room` limbs. -/
def store (room : ℕ) (p : List ℕ × ℕ) : Option (List ℕ) :=
  if p.2 ≠ 0 then if p.1.length < room then some (p.1 ++ [p.2]) else none else some p.1

theorem store_mulAdd (base : 1 < β) (some' : 0 < m) (factor : m ≤ β) (carry : c < β) {room : ℕ}
    (fits : v * m + c < β ^ room) :
    store room (mulAdd β m (digits β v) c) = some (digits β (v * m + c)) := by
  have product := digits_mulAdd base some' factor carry v
  have length := length_le base fits
  rw [product] at length ⊢
  rw [store]
  split
  · next some'' =>
      rw [if_neg some'', List.length_append, List.length_singleton] at length
      exact if_pos (by omega)
  · next none => rw [if_pos (not_not.mp none)]

end UnixV7.Limbs
