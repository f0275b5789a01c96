import UnixV7.Library.Digits

/-!
# Numbers of dc

The numbers of `dc.c` are strings of digits to the base 100, the low digit first, each in one byte;
a negative number has -1 at its top. Here are `chsign` and `add`.
-/

namespace UnixV7

namespace Dc

/-- What a byte that was given `x` holds, with its sign. -/
def byte (x : ℤ) : ℤ := Int.bmod x 256

/-- The loop of `chsign`, with the carry; `ct` is a `char` without a sign. -/
def negate : ℤ → List ℤ → List ℤ × ℤ
  | carry, [] => ([], carry)
  | carry, d :: p =>
      let ct := (100 - d - carry) % 256
      let (d, carry) := if 100 ≤ ct then (ct - 100, 0) else (ct, 1)
      let (p, carry) := negate carry p
      (byte d :: p, carry)

/-- `chsign` -/
def chsign (p : List ℤ) : List ℤ :=
  let (p, carry) := negate 0 p
  if carry ≠ 0 then (if p.getLast? = some 99 then p.dropLast else p) ++ [-1]
  else if p.getLast? = some 0 then p.dropLast else p

/-- The loop of `add`, with the carry; behind the end of a number there are zeros. -/
def sums : ℕ → ℤ → List ℤ → List ℤ → List ℤ × ℤ
  | 0, carry, _, _ => ([], carry)
  | size + 1, carry, a, b =>
      let n := a.headD 0 + b.headD 0 + carry
      let (n, carry) :=
        if 100 ≤ n then (n - 100, 1) else if n < 0 then (n + 100, -1) else (n, 0)
      let (p, carry) := sums size carry a.tail b.tail
      (byte n :: p, carry)

/-- What `add` makes of a number with -1 at its top: the digits 99 below it are left out. Where
they are the whole number the search stops at the first one, which stays. -/
def short99 (p : List ℤ) : List ℤ :=
  let q := p.dropLast.rdropWhile (· = 99)
  (if q = [] then p.take 1 else q) ++ [-1]

/-- `add` -/
def add (a b : List ℤ) : List ℤ :=
  let (p, carry) := sums (max a.length b.length) 0 a b
  let p := trim (if carry ≠ 0 then p ++ [carry] else p)
  if p.getLast? = some (-1) then short99 p else p

variable {a b p q r : List ℤ} {c d x : ℤ} {n : ℕ}

/-- A byte holds any digit. -/
theorem byte_eq (low : -128 ≤ x) (high : x < 128) : byte x = x :=
  Int.bmod_eq_of_le low high

/-- The digits of a number, -1 included. -/
def Small (p : List ℤ) : Prop := ∀ d ∈ p, -1 ≤ d ∧ d < 100

theorem Small.nil : Small [] := List.forall_mem_nil _

theorem small_cons : Small (d :: p) ↔ (-1 ≤ d ∧ d < 100) ∧ Small p := List.forall_mem_cons

theorem Small.headD (small : Small p) : -1 ≤ p.headD 0 ∧ p.headD 0 < 100 := by
  cases p with
  | nil => decide
  | cons d p => exact (small_cons.mp small).1

theorem Small.tail (small : Small p) : Small p.tail :=
  fun d mem => small d (List.mem_of_mem_tail mem)

theorem small_of_digits (digits : Digits 100 p) : Small p :=
  fun d mem => ⟨by have := (digits d mem).1; omega, (digits d mem).2⟩

theorem value_headD_tail (p : List ℤ) : value 100 p = p.headD 0 + 100 * value 100 p.tail := by
  cases p with
  | nil => rfl
  | cons d p => rfl

/-- The loop of `chsign` takes the number away. -/
theorem negate_spec (small : Small p) (carry : c = 0 ∨ c = 1) :
    value 100 (negate c p).1 = 100 ^ p.length * (negate c p).2 - value 100 p - c ∧
      Digits 100 (negate c p).1 ∧ (negate c p).1.length = p.length ∧
      ((negate c p).2 = 0 ∨ (negate c p).2 = 1) := by
  induction p generalizing c with
  | nil => exact ⟨by simp [negate], Digits.nil, rfl, carry⟩
  | cons d p hyp =>
    obtain ⟨⟨low, high⟩, rest⟩ := small_cons.mp small
    rw [negate, Int.emod_eq_of_lt (by omega) (by omega)]
    by_cases top : 100 ≤ 100 - d - c
    · obtain ⟨sum, digits, length, last⟩ := hyp rest (.inl rfl)
      simp only [if_pos top]
      rw [byte_eq (by omega) (by omega)]
      refine ⟨?_, digits_cons.mpr ⟨⟨by omega, by omega⟩, digits⟩, by simp [length], last⟩
      rw [value_cons, sum, value_cons, List.length_cons, pow_succ]
      ring
    · obtain ⟨sum, digits, length, last⟩ := hyp rest (.inr rfl)
      simp only [if_neg top]
      rw [byte_eq (by omega) (by omega)]
      refine ⟨?_, digits_cons.mpr ⟨⟨by omega, by omega⟩, digits⟩, by simp [length], last⟩
      rw [value_cons, sum, value_cons, List.length_cons, pow_succ]
      ring

/-- The loop of `add` adds. -/
theorem sums_spec (small : Small a) (small' : Small b) (carry : -1 ≤ c ∧ c ≤ 1)
    (size : a.length ≤ n) (size' : b.length ≤ n) :
    value 100 (sums n c a b).1 + 100 ^ n * (sums n c a b).2 = value 100 a + value 100 b + c ∧
      Digits 100 (sums n c a b).1 ∧ (sums n c a b).1.length = n ∧
      -1 ≤ (sums n c a b).2 ∧ (sums n c a b).2 ≤ 1 := by
  induction n generalizing a b c with
  | zero =>
    obtain rfl := List.length_eq_zero_iff.mp (Nat.le_zero.mp size)
    obtain rfl := List.length_eq_zero_iff.mp (Nat.le_zero.mp size')
    exact ⟨by simp [sums], Digits.nil, rfl, carry⟩
  | succ n hyp =>
    have left := small.headD
    have right := small'.headD
    have step : ∀ m c', (-1 ≤ c' ∧ c' ≤ 1) → 0 ≤ m → m < 100 →
        a.headD 0 + b.headD 0 + c = m + 100 * c' →
        value 100 (byte m :: (sums n c' a.tail b.tail).1) +
            100 ^ (n + 1) * (sums n c' a.tail b.tail).2 = value 100 a + value 100 b + c ∧
          Digits 100 (byte m :: (sums n c' a.tail b.tail).1) ∧
          (byte m :: (sums n c' a.tail b.tail).1).length = n + 1 ∧
          -1 ≤ (sums n c' a.tail b.tail).2 ∧ (sums n c' a.tail b.tail).2 ≤ 1 := by
      intro m c' carry' low high here
      obtain ⟨sum, digits, length, last⟩ := hyp small.tail small'.tail carry'
        (by rw [List.length_tail]; omega) (by rw [List.length_tail]; omega)
      rw [byte_eq (by omega) (by omega)]
      refine ⟨?_, digits_cons.mpr ⟨⟨low, high⟩, digits⟩, by simp [length], last⟩
      rw [value_cons, value_headD_tail a, value_headD_tail b, pow_succ]
      linarith
    rw [sums]
    dsimp only
    by_cases much : 100 ≤ a.headD 0 + b.headD 0 + c
    · rw [if_pos much]
      exact step _ 1 (by decide) (by omega) (by omega) (by omega)
    · by_cases under : a.headD 0 + b.headD 0 + c < 0
      · rw [if_neg much, if_pos under]
        exact step _ (-1) (by decide) (by omega) (by omega) (by omega)
      · rw [if_neg much, if_neg under]
        exact step _ 0 (by decide) (by omega) (by omega) (by omega)

/-! ## Numbers -/

/-- A number that is not negative, with no zero at its top. -/
def Plain (p : List ℤ) : Prop := Digits 100 p ∧ p.getLast? ≠ some 0

/-- A number as `add`, `mult` and `chsign` leave it: with no zero at the top, or with -1 at the top
and no 99 below it, except that `add` leaves -1 as 99 and -1. -/
def Proper (p : List ℤ) : Prop :=
  Plain p ∨ ∃ r, p = r ++ [-1] ∧ Digits 100 r ∧ (r.getLast? ≠ some 99 ∨ r = [99])

/-- All digits are digits, except that the top may be -1. -/
def Signed (p : List ℤ) : Prop := Digits 100 p ∨ ∃ r, p = r ++ [-1] ∧ Digits 100 r

theorem Proper.signed (proper : Proper p) : Signed p := by
  rcases proper with plain | ⟨r, here, digits, -⟩
  · exact .inl plain.1
  · exact .inr ⟨r, here, digits⟩

theorem Signed.small (signed : Signed p) : Small p := by
  rcases signed with digits | ⟨r, rfl, digits⟩
  · exact small_of_digits digits
  · exact List.forall_mem_append.mpr ⟨small_of_digits digits, by simp⟩

theorem Proper.small (proper : Proper p) : Small p := proper.signed.small

theorem eq_concat_of_getLast? (last : p.getLast? = some d) : p = p.dropLast ++ [d] := by
  obtain ⟨r, rfl⟩ := List.getLast?_eq_some_iff.mp last
  rw [List.dropLast_concat]

theorem power_pos (n : ℕ) : (0 : ℤ) < 100 ^ n := pow_pos (by decide) n

/-- A number other than 0 without zeros at its top is at least the power of its length. -/
theorem Plain.le_value (plain : Plain p) (some : p ≠ []) : 100 ^ (p.length - 1) ≤ value 100 p := by
  obtain ⟨r, d, rfl⟩ := (List.eq_nil_or_concat' p).resolve_left some
  rw [List.length_append, List.length_singleton, Nat.add_sub_cancel]
  exact plain.1.le_value (by decide) fun zero => plain.2 (by rw [zero, List.getLast?_concat])

theorem Plain.value_pos (plain : Plain p) (some : p ≠ []) : 0 < value 100 p :=
  (power_pos _).trans_le (plain.le_value some)

/-- With zeros at the top a number is below the power of its length. -/
theorem plain_of_le_value (digits : Digits 100 p) (large : 100 ^ (p.length - 1) ≤ value 100 p) :
    Plain p := by
  refine ⟨digits, fun zero => ?_⟩
  obtain ⟨r, rfl⟩ := List.getLast?_eq_some_iff.mp zero
  have := (digits_concat.mp digits).1.value_lt (by decide)
  rw [value_concat, mul_zero, add_zero, List.length_append, List.length_singleton,
    Nat.add_sub_cancel] at large
  omega

/-- `chsign` changes the sign. -/
theorem value_chsign (small : Small p) : value 100 (chsign p) = -value 100 p := by
  obtain ⟨sum, digits, length, carry⟩ := negate_spec small (.inl rfl)
  rw [chsign]
  generalize negate 0 p = out at sum digits length carry ⊢
  obtain ⟨q, c⟩ := out
  simp only at sum digits length carry ⊢
  rcases carry with rfl | rfl
  · rw [if_neg (by decide)]
    split
    · rename_i zero
      have cut := congrArg (value 100) (eq_concat_of_getLast? zero)
      rw [value_concat] at cut
      linarith
    · linarith
  · rw [if_pos (by decide), value_concat]
    split
    · rename_i nine
      have whole := eq_concat_of_getLast? nine
      have cut := congrArg (value 100) whole
      have size := congrArg List.length whole
      rw [value_concat] at cut
      rw [List.length_append, List.length_singleton] at size
      rw [← length, size, pow_succ] at sum
      linarith
    · rw [length]
      linarith

/-- The sign of a number that is not negative changed. -/
theorem Plain.chsign (plain : Plain p) : Proper (chsign p) := by
  by_cases some : p = []
  · subst some
    exact .inl ⟨Digits.nil, by decide⟩
  · obtain ⟨sum, digits, length, carry⟩ := negate_spec (small_of_digits plain.1) (.inl rfl)
    have large := plain.le_value some
    have more := plain.value_pos some
    rw [Dc.chsign]
    generalize negate 0 p = out at sum digits length carry ⊢
    obtain ⟨q, c⟩ := out
    simp only at sum digits length carry ⊢
    have low := digits.value_nonneg
    rcases carry with rfl | rfl
    · linarith
    · rw [if_pos (by decide)]
      split
      · rename_i nine
        obtain ⟨r, rfl⟩ := List.getLast?_eq_some_iff.mp nine
        rw [← length, List.length_append, List.length_singleton] at large sum
        rw [Nat.add_sub_cancel] at large
        rw [value_concat, pow_succ] at sum
        rw [List.dropLast_concat]
        refine .inr ⟨r, rfl, (digits_concat.mp digits).1, .inl fun top => ?_⟩
        obtain ⟨r, rfl⟩ := List.getLast?_eq_some_iff.mp top
        have := (digits_concat.mp digits).1.le_value (by decide) (by decide)
        have := power_pos r.length
        linarith
      · rename_i nine
        exact .inr ⟨_, rfl, digits, .inl nine⟩

/-- The value of a number with -1 at its top. -/
theorem value_negative (digits : Digits 100 r) : value 100 (r ++ [-1]) < 0 := by
  have := digits.value_lt (by decide)
  rw [value_concat]
  linarith

/-- A number that does not have 99 at its top is below 99 of the digits there. -/
theorem value_lt_of_top (digits : Digits 100 r) (some : r ≠ [])
    (top : r.getLast? ≠ Option.some 99) :
    value 100 r < 99 * 100 ^ (r.length - 1) := by
  obtain ⟨q, d, rfl⟩ := (List.eq_nil_or_concat' r).resolve_left some
  obtain ⟨rest, low, high⟩ := digits_concat.mp digits
  have other : d ≠ 99 := fun same => top (by rw [same, List.getLast?_concat])
  have bound := rest.value_lt (by decide)
  have := mul_le_mul_of_nonneg_left (show d ≤ 98 by omega) (power_pos q.length).le
  rw [value_concat, List.length_append, List.length_singleton, Nat.add_sub_cancel]
  linarith

/-- The sign of a negative number changed leaves digits only. -/
theorem digits_chsign (digits : Digits 100 r) : Digits 100 (chsign (r ++ [-1])) := by
  have signed : Signed (r ++ [-1]) := .inr ⟨r, rfl, digits⟩
  obtain ⟨sum, digits', length, carry⟩ := negate_spec signed.small (.inl rfl)
  have negative := value_negative digits
  rw [chsign]
  generalize negate 0 (r ++ [-1]) = out at sum digits' length carry ⊢
  obtain ⟨q, c⟩ := out
  simp only at sum digits' length carry ⊢
  rcases carry with rfl | rfl
  · rw [if_neg (by decide)]
    split
    · exact digits'.sublist (List.dropLast_sublist q)
    · exact digits'
  · have := digits'.value_lt (by decide)
    rw [length] at this
    linarith

/-- The sign of a number changed is a number again. -/
theorem Signed.chsign (signed : Signed p) : Signed (chsign p) := by
  rcases signed with digits | ⟨r, rfl, digits⟩
  · obtain ⟨sum, digits', length, carry⟩ := negate_spec (small_of_digits digits) (.inl rfl)
    rw [Dc.chsign]
    generalize negate 0 p = out at sum digits' length carry ⊢
    obtain ⟨q, c⟩ := out
    simp only at digits' ⊢
    split
    · refine .inr ⟨_, rfl, ?_⟩
      split
      · exact digits'.sublist (List.dropLast_sublist q)
      · exact digits'
    · left
      split
      · exact digits'.sublist (List.dropLast_sublist q)
      · exact digits'
  · exact .inl (digits_chsign digits)

/-- The sign of a negative number changed. -/
theorem plain_chsign (digits : Digits 100 r) (form : r.getLast? ≠ some 99 ∨ r = [99]) :
    Plain (chsign (r ++ [-1])) := by
  rcases form with form | rfl
  · have signed : Signed (r ++ [-1]) := .inr ⟨r, rfl, digits⟩
    obtain ⟨sum, digits', length, carry⟩ := negate_spec signed.small (.inl rfl)
    rw [chsign]
    generalize negate 0 (r ++ [-1]) = out at sum digits' length carry ⊢
    obtain ⟨q, c⟩ := out
    simp only at sum digits' length carry ⊢
    have negative := value_negative digits
    rcases carry with rfl | rfl
    · rw [if_neg (by decide)]
      split
      · rename_i zero
        obtain ⟨q, rfl⟩ := List.getLast?_eq_some_iff.mp zero
        rw [List.length_append, List.length_append] at length
        rw [value_concat, value_concat] at sum
        rw [List.dropLast_concat]
        have size : q.length = r.length := Nat.succ_injective length
        apply plain_of_le_value (digits_concat.mp digits').1
        rw [size]
        by_cases some : r = []
        · subst some
          rw [List.length_nil] at size
          simp [List.length_eq_zero_iff.mp size] at sum
        · have bound := value_lt_of_top digits some form
          obtain ⟨n, here⟩ : ∃ n, r.length = n + 1 :=
            ⟨_, (Nat.sub_add_cancel (List.length_pos_iff.mpr some)).symm⟩
          rw [here, Nat.add_sub_cancel] at bound ⊢
          rw [here, pow_succ] at sum
          have := power_pos n
          linarith
      · rename_i zero
        exact ⟨digits', zero⟩
    · have := digits'.value_lt (by decide)
      rw [length] at this
      linarith
  · exact ⟨by decide, by decide⟩

/-- The sign of a number changed twice is a number again. -/
theorem Proper.chsign (proper : Proper p) : Proper (chsign p) := by
  rcases proper with plain | ⟨r, rfl, digits, form⟩
  · exact plain.chsign
  · exact .inl (plain_chsign digits form)

/-- Digits 99 below -1 may be left out. -/
theorem value_rdropWhile (p : List ℤ) :
    value 100 (p.rdropWhile (· = 99) ++ [-1]) = value 100 (p ++ [-1]) := by
  induction p using List.reverseRecOn with
  | nil => rfl
  | append_singleton p d hyp =>
    by_cases nine : d = 99
    · subst nine
      rw [List.rdropWhile_concat_pos _ _ _ (by decide), hyp, value_concat, value_concat,
        value_concat, List.length_append, List.length_singleton, pow_succ]
      ring
    · rw [List.rdropWhile_concat_neg _ _ _ (by simpa using nine)]

/-- All digits that are left out are 99. -/
theorem value_take_one (some : p ≠ []) (none : p.rdropWhile (· = 99) = []) :
    p.take 1 = [99] ∧ value 100 (p ++ [-1]) = -1 := by
  have nines := List.rdropWhile_eq_nil_iff.mp none
  constructor
  · cases p with
    | nil => exact absurd rfl some
    | cons d p => simpa using nines d List.mem_cons_self
  · rw [← value_rdropWhile, none]
    rfl

/-- What is left of a number below -1. -/
theorem short99_spec (digits : Digits 100 p) (some : p ≠ []) :
    value 100 (short99 (p ++ [-1])) = value 100 (p ++ [-1]) ∧ Proper (short99 (p ++ [-1])) := by
  rw [short99, List.dropLast_concat]
  by_cases none : p.rdropWhile (· = 99) = []
  · obtain ⟨one, whole⟩ := value_take_one some none
    rw [if_pos none, List.take_append_of_le_length (List.length_pos_iff.mpr some), one, whole]
    exact ⟨rfl, .inr ⟨[99], rfl, by decide, .inr rfl⟩⟩
  · rw [if_neg none]
    refine ⟨value_rdropWhile p, .inr ⟨_, rfl, ?_, .inl ?_⟩⟩
    · exact digits.sublist (List.rdropWhile_prefix _ _).sublist
    · intro nine
      have last := List.rdropWhile_last_not _ _ none
      rw [List.getLast?_eq_some_getLast none] at nine
      exact last (by simpa using Option.some.inj nine)

/-- `add` adds. -/
theorem add_spec (small : Small a) (small' : Small b) :
    value 100 (add a b) = value 100 a + value 100 b ∧ Proper (add a b) := by
  obtain ⟨sum, digits, length, low, high⟩ := sums_spec small small' (c := 0) (by decide)
    (Nat.le_max_left _ _) (Nat.le_max_right _ _)
  rw [add]
  generalize sums (max a.length b.length) 0 a b = out at sum digits length low high ⊢
  obtain ⟨p, c⟩ := out
  simp only at sum digits length low high ⊢
  rw [← length, add_zero] at sum
  by_cases none : c = 0
  · rw [if_neg (not_not.mpr none)]
    have digits' := digits.trim
    have other : (trim p).getLast? ≠ some (-1) := fun last =>
      absurd (digits' (-1) (List.mem_of_getLast? last)).1 (by decide)
    rw [if_neg other, value_trim]
    rw [none, mul_zero, add_zero] at sum
    exact ⟨sum, .inl ⟨digits', getLast?_trim p⟩⟩
  · rw [if_pos none, trim_concat p none, List.getLast?_concat]
    by_cases minus : c = -1
    · subst minus
      have some : p ≠ [] := by
        rintro rfl
        rw [List.length_nil] at length
        have left := List.length_eq_zero_iff.mp (Nat.le_zero.mp (length ▸ Nat.le_max_left _ _))
        have right := List.length_eq_zero_iff.mp (Nat.le_zero.mp (length ▸ Nat.le_max_right _ _))
        rw [left, right] at sum
        simp at sum
      obtain ⟨same, proper⟩ := short99_spec digits some
      rw [if_pos rfl]
      exact ⟨same.trans ((value_concat _ _).trans sum), proper⟩
    · obtain rfl : c = 1 := by omega
      rw [if_neg (by simp), value_concat]
      exact ⟨sum, .inl ⟨digits_concat.mpr ⟨digits, by decide⟩, by simp⟩⟩

end Dc

end UnixV7
