import UnixV7.Cmd.Dc.Buffer

/-!
# The normal form of numbers

Sums, products and changed signs of numbers in normal form are in normal form again. A negative
number has -1 at its top; the digit 99 below it stands for nothing, unless all digits under it are
zeros, and a number with such a digit comes out of `chsign` with zeros at its top.
-/

namespace UnixV7

namespace Dc

/-- A number with no zero at its top, or with -1 there. -/
def Normal (p : List ℤ) : Prop := Plain p ∨ ∃ r, p = r ++ [-1] ∧ Digits 100 r

/-- There is no digit 99 below -1 over digits that are not all zeros. -/
def Short (p : List ℤ) : Prop := ∀ low, p = low ++ [99, -1] → value 100 low = 0

variable {p q r x y mp mq mr : List ℤ} {c cq : ℤ} {a b : Blk}

theorem Normal.signed (normal : Normal p) : Signed p := by
  rcases normal with plain | ⟨r, here, digits⟩
  · exact .inl plain.1
  · exact .inr ⟨r, here, digits⟩

theorem Plain.short (plain : Plain p) : Short p := by
  rintro low rfl
  exact absurd (plain.1 (-1) (by simp)).1 (by decide)

/-- The numbers that `add` and `chsign` leave. -/
theorem Proper.normal (proper : Proper p) : Normal p ∧ Short p := by
  rcases proper with plain | ⟨r, rfl, digits, form⟩
  · exact ⟨.inl plain, plain.short⟩
  · refine ⟨.inr ⟨r, rfl, digits⟩, fun low here => ?_⟩
    rw [show low ++ [99, -1] = (low ++ [99]) ++ [-1] by simp] at here
    obtain ⟨rfl, -⟩ := List.append_inj' here rfl
    rcases form with other | single
    · exact absurd List.getLast?_concat other
    · have none := congrArg List.length single
      simp only [List.length_append, List.length_singleton, Nat.add_eq_right] at none
      rw [List.length_eq_zero_iff.mp none, value_nil]

/-- The sign of a short negative number changed. -/
theorem Short.plain_chsign (short : Short (r ++ [-1])) (digits : Digits 100 r) :
    Plain (chsign (r ++ [-1])) := by
  by_cases nine : r.getLast? = some 99
  · obtain ⟨low, rfl⟩ := List.getLast?_eq_some_iff.mp nine
    have zero := short low (by simp)
    have signed : Signed (low ++ [99] ++ [-1]) := .inr ⟨_, rfl, digits⟩
    have power := power_pos low.length
    obtain ⟨sum, digits', length, carry⟩ := negate_spec signed.small (.inl rfl)
    rw [value_concat, value_concat, zero] at sum
    rw [chsign]
    generalize negate 0 (low ++ [99] ++ [-1]) = out at sum digits' length carry ⊢
    obtain ⟨q, c⟩ := out
    simp only [List.length_append, List.length_singleton, pow_succ] at sum digits' length carry ⊢
    rcases carry with rfl | rfl
    · rw [if_neg (by decide)]
      split
      next top =>
        obtain ⟨q, rfl⟩ := List.getLast?_eq_some_iff.mp top
        rw [List.length_append, List.length_singleton] at length
        have size : q.length - 1 = low.length := by omega
        rw [value_concat] at sum
        rw [List.dropLast_concat]
        apply plain_of_le_value (digits_concat.mp digits').1
        rw [size]
        linarith
      next top => exact ⟨digits', top⟩
    · have bound := digits'.value_lt (by decide)
      rw [length, pow_succ, pow_succ] at bound
      linarith
  · exact Dc.plain_chsign digits (.inl nine)

/-- The sign of a number in normal form changed. -/
theorem Normal.chsign (normal : Normal p) (short : Short p) :
    Normal (chsign p) ∧ Short (chsign p) := by
  rcases normal with plain | ⟨r, rfl, digits⟩
  · exact plain.chsign.normal
  · have plain := short.plain_chsign digits
    exact ⟨.inl plain, plain.short⟩

/-! ## Products -/

/-- The carry of a product of digits is a digit. -/
theorem carry_bounds {cp h : ℤ} (left : 0 ≤ cp ∧ cp < 100) (right : 0 ≤ cq ∧ cq < 100)
    (carry : 0 ≤ c ∧ c < 100) (digit : 0 ≤ h ∧ h < 100) :
    0 ≤ (cp * cq + c + h).tdiv 100 ∧ (cp * cq + c + h).tdiv 100 < 100 := by
  have low := mul_nonneg left.1 right.1
  have high := mul_le_mul (show cp ≤ 99 by omega) (show cq ≤ 99 by omega) right.1 (by decide)
  rw [Int.tdiv_eq_ediv_of_nonneg (by omega)]
  omega

theorem Digits.headD (digits : Digits 100 p) : 0 ≤ p.headD 0 ∧ p.headD 0 < 100 := by
  cases p with
  | nil => decide
  | cons d p => exact digits d List.mem_cons_self

/-- A row of `mult` has the digits of the number, or one more that is not zero. -/
theorem multRow_length (digits : Digits 100 mp) (digits' : Digits 100 mr)
    (length : mr.length ≤ mp.length) (low : 0 ≤ cq) (high : cq < 100) (nonneg : 0 ≤ c)
    (carry : c < 100) : (multRow cq c mp mr).length = mp.length ∨
      (multRow cq c mp mr).length = mp.length + 1 ∧ (multRow cq c mp mr).getLast? ≠ some 0 := by
  induction mp generalizing c mr with
  | nil =>
      obtain rfl := List.length_eq_zero_iff.mp (Nat.le_zero.mp length)
      rw [multRow]
      split
      next some =>
        rw [List.headD_nil, zero_add, byte_eq (by omega) (by omega)]
        exact .inr ⟨rfl, by simpa using some⟩
      next none => exact .inl rfl
  | cons cp mp ih =>
      obtain ⟨digit, rest⟩ := digits_cons.mp digits
      obtain ⟨nonneg', carry'⟩ :=
        carry_bounds digit ⟨low, high⟩ ⟨nonneg, carry⟩ (Digits.headD digits')
      have shorter : mr.tail.length ≤ mp.length := by
        rw [List.length_tail]
        rw [List.length_cons] at length
        omega
      rw [multRow, List.length_cons, List.length_cons]
      rcases ih rest (fun d mem => digits' d (List.mem_of_mem_tail mem)) shorter nonneg' carry' with
        same | ⟨more, top⟩
      · exact .inl (congrArg Nat.succ same)
      · refine .inr ⟨congrArg Nat.succ more, ?_⟩
        generalize multRow cq _ mp mr.tail = row at more top
        cases row with
        | nil => cases more
        | cons d row => rwa [List.getLast?_cons_cons]

/-- All rows together have as many digits as both numbers, or one less; in the first case the top
one is not zero. -/
theorem multRows_length (digits : Digits 100 mp) (digits' : Digits 100 mq)
    (digits'' : Digits 100 mr) (length : mr.length ≤ mp.length) (some : mp ≠ [])
    (some' : mq ≠ []) : (multRows mp mq mr).length + 1 = mp.length + mq.length ∨
      (multRows mp mq mr).length = mp.length + mq.length ∧
        (multRows mp mq mr).getLast? ≠ Option.some 0 := by
  induction mq generalizing mr with
  | nil => exact absurd rfl some'
  | cons cq mq ih =>
      obtain ⟨⟨low, high⟩, rest⟩ := digits_cons.mp digits'
      obtain ⟨-, digits_row, longest, -⟩ :=
        multRow_spec digits digits'' length low high le_rfl (by decide)
      have size := multRow_length digits digits'' length low high le_rfl (by decide)
      have filled := Blk.multRow_ne_nil some cq 0 mr
      rw [multRows]
      generalize multRow cq 0 mp mr = row at digits_row longest size filled ⊢
      cases row with
      | nil => exact absurd rfl filled
      | cons d row =>
          dsimp only
          rw [List.length_cons] at longest size ⊢
          by_cases last : mq = []
          · subst last
            rw [multRows, List.length_singleton]
            rcases size with same | ⟨more, top⟩
            · exact .inl (by omega)
            · exact .inr ⟨by omega, top⟩
          · have shorter := Nat.le_of_succ_le_succ longest
            have size' := ih rest (digits_cons.mp digits_row).2 shorter last
            rw [List.length_cons]
            rcases size' with same | ⟨more, top⟩
            · exact .inl (by omega)
            · refine .inr ⟨by omega, ?_⟩
              generalize multRows mp mq row = product at more top
              cases product with
              | nil =>
                  have := List.length_pos_iff.mpr some
                  rw [List.length_nil] at more
                  omega
              | cons e product => rwa [List.getLast?_cons_cons]

/-- The product of numbers that are not negative. -/
theorem multRows_plain (plain : Plain p) (plain' : Plain q) : Plain (multRows p q []) := by
  by_cases none : p = []
  · subst none
    rw [multRows_nil]
    exact ⟨Digits.nil, by simp⟩
  · by_cases none' : q = []
    · subst none'
      exact ⟨Digits.nil, by simp [multRows]⟩
    · obtain ⟨product, digits⟩ := multRows_spec plain.1 plain'.1 Digits.nil (Nat.zero_le _) none
      have size := multRows_length plain.1 plain'.1 Digits.nil (Nat.zero_le _) none none'
      rcases size with short | ⟨-, top⟩
      · apply plain_of_le_value digits
        have left := plain.le_value none
        have right := plain'.le_value none'
        have positive := List.length_pos_iff.mpr none
        have positive' := List.length_pos_iff.mpr none'
        have split : (multRows p q []).length - 1 = (p.length - 1) + (q.length - 1) := by omega
        rw [product, value_nil, zero_add, split, pow_add]
        exact mul_le_mul left right (power_pos _).le plain.1.value_nonneg
      · exact ⟨digits, top⟩

theorem Normal.factor (normal : Normal p) (short : Short p) : Plain (factor p).1 := by
  rw [factor_eq normal.signed, magnitude]
  rcases normal with plain | ⟨r, rfl, digits⟩
  · rw [if_neg fun last => absurd (plain.1 _ (List.mem_of_getLast? last)).1 (by decide)]
    exact plain
  · rw [if_pos List.getLast?_concat]
    exact short.plain_chsign digits

/-- The product of numbers in normal form. -/
theorem Normal.mult (normal : Normal p) (normal' : Normal q) (short : Short p) (short' : Short q) :
    Normal (mult p q) ∧ Short (mult p q) := by
  have plain := multRows_plain (normal.factor short) (normal'.factor short')
  rw [Dc.mult]
  generalize Dc.factor p = u at plain ⊢
  generalize Dc.factor q = v at plain ⊢
  obtain ⟨x, s⟩ := u
  obtain ⟨y, t⟩ := v
  dsimp only at plain ⊢
  split
  · exact plain.chsign.normal
  · exact ⟨.inl plain, plain.short⟩

/-- For numbers in normal form `add`, `mult` and `chsign` stay within their buffers and give the
sum, the product and the negation; these are in normal form too, the last two if the numbers have
no digit 99 that stands for nothing. -/
theorem ring_exact (left : a.Holds x) (right : b.Holds y) (normal : Normal x)
    (normal' : Normal y) :
    (∃ r z, a.add b = some r ∧ r.Holds z ∧ value 100 z = value 100 x + value 100 y ∧
      Normal z ∧ Short z) ∧
    (∃ r z, a.mult b = some r ∧ r.Holds z ∧ value 100 z = value 100 x * value 100 y ∧
      (Short x → Short y → Normal z ∧ Short z)) ∧
    ∃ r z, a.chsign = some r ∧ r.Holds z ∧ value 100 z = -value 100 x ∧
      (Short x → Normal z ∧ Short z) := by
  have small := normal.signed.small
  have small' := normal'.signed.small
  obtain ⟨sum, proper⟩ := add_spec small small'
  obtain ⟨r, added, holds⟩ := left.add right small small'
  obtain ⟨s, multiplied, holds'⟩ := left.mult right
  obtain ⟨t, changed, holds''⟩ := left.chsign
  refine ⟨⟨r, _, added, holds, sum, proper.normal⟩, ⟨s, _, multiplied, holds', ?_, ?_⟩,
    t, _, changed, holds'', value_chsign small, normal.chsign⟩
  · exact (mult_spec normal.signed normal'.signed).1
  · exact normal.mult normal'

/-- 150 and -100. -/
theorem ring_exact_150 :
    (∃ r z, (⟨[some 50, some 1], 0, 2⟩ : Blk).add ⟨[some 0, some (-1), none], 0, 2⟩ = some r ∧
      r.Holds z ∧ value 100 z = 50 ∧ Normal z ∧ Short z) ∧
    (∃ r z, (⟨[some 50, some 1], 0, 2⟩ : Blk).mult ⟨[some 0, some (-1), none], 0, 2⟩ = some r ∧
      r.Holds z ∧ value 100 z = -15000 ∧ Normal z ∧ Short z) ∧
    ∃ r z, (⟨[some 50, some 1], 0, 2⟩ : Blk).chsign = some r ∧ r.Holds z ∧ value 100 z = -150 ∧
      Normal z ∧ Short z := by
  have left : Blk.Holds ⟨[some 50, some 1], 0, 2⟩ [50, 1] := ⟨⟨[], rfl⟩, rfl⟩
  have right : Blk.Holds ⟨[some 0, some (-1), none], 0, 2⟩ [0, -1] := ⟨⟨[none], rfl⟩, rfl⟩
  have short : Short [50, 1] := fun low same => by simpa using congrArg List.reverse same
  have short' : Short [0, -1] := fun low same => by simpa using congrArg List.reverse same
  obtain ⟨sum, ⟨r, z, product, holds, value, normal⟩, s, y, negation, holds', value', normal'⟩ :=
    ring_exact left right (.inl ⟨by decide, by decide⟩) (.inr ⟨[0], rfl, by decide⟩)
  exact ⟨sum, ⟨r, z, product, holds, value, normal short short'⟩,
    s, y, negation, holds', value', normal' short⟩

/-- A number with two digits 99 below -1 is 1 less than nothing, and its sign changed is 1 with a
zero at the top. -/
theorem not_normal_chsign : ¬∀ a x, Blk.Holds a x → Normal x →
    ∃ r z, a.chsign = some r ∧ r.Holds z ∧ value 100 z = -value 100 x ∧ Normal z := by
  intro all
  obtain ⟨r, z, changed, ⟨⟨rest, bytes⟩, wt⟩, -, normal⟩ :=
    all ⟨[some 99, some 99, some (-1)], 0, 3⟩ [99, 99, -1] ⟨⟨[], rfl⟩, rfl⟩
      (.inr ⟨[99, 99], rfl, by decide⟩)
  have left : Blk.chsign ⟨[some 99, some 99, some (-1)], 0, 3⟩ =
      some ⟨[some 1, some 0, some 0], 2, 2⟩ := rfl
  rw [left] at changed
  obtain rfl := Option.some.inj changed
  have digits : z = [1, 0] := by
    match z, bytes, wt with
    | [d, e], bytes, _ =>
        simp only [List.map_cons, List.map_nil, List.cons_append, List.cons.injEq,
          Option.some.injEq] at bytes
        rw [← bytes.1, ← bytes.2.1]
  rw [digits] at normal
  rcases normal with plain | ⟨q, here, -⟩
  · exact plain.2 rfl
  · have top := congrArg List.getLast? here
    rw [List.getLast?_concat] at top
    exact absurd top (by decide)

end Dc

end UnixV7
