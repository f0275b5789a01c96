import UnixV7.Libc.Ecvt
import UnixV7.Libc.PrintScan
import UnixV7.Library.Nearest

/-!
# The digits of a floating number

What `next` has still to give is a fraction, and each digit it gives is the one before the point of
ten times that fraction. The digits that `ecvt` and `fcvt` keep are therefore those of the number,
rounded to nearest with ties to even.
-/

namespace UnixV7.Libc.Ecvt

open Nat (digits ofDigits)
open Stdio (numeral isdigit digitVal)

/-- The fraction whose digits are still to come. -/
def Rest.value (fs : ℕ) (s : Rest) : ℚ :=
  ((ofDigits 10 s.id.reverse : ℕ) + (ofDigits (2 ^ 32) s.fp : ℕ) / 2 ^ fs) / 10 ^ s.id.length

/-- The digits are digits, and the fraction has no bit from `fs` up. -/
structure Rest.Proper (fs : ℕ) (s : Rest) : Prop where
  small : ∀ d ∈ s.id, d < 10
  fraction : ∃ f, s.fp = digits (2 ^ 32) f ∧ f < 2 ^ fs
  bits : fs ≤ 1126

/-- The digits of `x`, the first of which is at the place before `r`, when it is rounded to `k`
places: there may be none, or a carry out of the top one. -/
inductive Rounded (x : ℚ) (r k : ℤ) (eflag : Bool) : List Char → ℤ → Prop
  | none (negative : k < 0) : Rounded x r k eflag [] r
  | kept (text : List Char) (length : text.length = k) (digits : ∀ c ∈ text, isdigit c)
      (rounds : RoundsEven (x / 10 ^ (r - k)) (numeral 10 0 text)) : Rounded x r k eflag text r
  | carried (n : ℕ) (places : n = k) (rounds : RoundsEven (x / 10 ^ (r - k)) (10 ^ n)) :
      Rounded x r k eflag ('1' :: List.replicate (if eflag then n - 1 else n) '0') (r + 1)

variable {fs d k n : ℕ} {s : Rest} {ds : List ℕ} {buf : List Char} {c : Char}

/-! ## Texts of digits -/

theorem numeral_append_one (b n : ℕ) (ds : List Char) (c : Char) :
    numeral b n (ds ++ [c]) = numeral b n ds * b + digitVal c := by
  rw [numeral, List.foldl_append]
  rfl

theorem numeral_eq (b n : ℕ) (ds : List Char) :
    numeral b n ds = n * b ^ ds.length + numeral b 0 ds := by
  induction ds using List.reverseRecOn with
  | nil => simp [numeral]
  | append_singleton ds c ih =>
      rw [numeral_append_one, numeral_append_one, ih, List.length_append, List.length_singleton,
        pow_succ]
      ring

theorem char_spec (small : d < 10) : isdigit (char d) ∧ digitVal (char d) = d := by
  revert d
  decide

theorem char_eq (digit : isdigit c) : ∃ d < 10, c = char d := by
  have range : '0' ≤ c ∧ c ≤ '9' := by simpa [isdigit] using digit
  have low : '0'.toNat ≤ c.toNat := range.1
  have high : c.toNat ≤ '9'.toNat := range.2
  have zero : '0'.toNat = 48 := rfl
  have nine : '9'.toNat = 57 := rfl
  refine ⟨c.toNat - 48, by omega, ?_⟩
  rw [char, zero, Nat.sub_add_cancel (by omega), Char.ofNat_toNat]

theorem odd_char : ∀ d < 10, ((char d).toNat &&& 1 = 1 ↔ d % 2 = 1) := by decide

theorem succ_char : ∀ d < 9, char d ≠ '9' ∧ Char.ofNat ((char d).toNat + 1) = char (d + 1) := by
  decide

/-- One more in the last place. -/
theorem bump_spec (all : ∀ c ∈ buf, isdigit c) :
    match bump buf with
    | some t => t.length = buf.length ∧ (∀ c ∈ t, isdigit c) ∧
        numeral 10 0 t.reverse = numeral 10 0 buf.reverse + 1
    | none => numeral 10 0 buf.reverse + 1 = 10 ^ buf.length := by
  induction buf with
  | nil => rfl
  | cons c s ih =>
      obtain ⟨head, tail⟩ := List.forall_mem_cons.mp all
      obtain ⟨d, small, rfl⟩ := char_eq head
      have rest := ih tail
      rw [bump, List.reverse_cons, numeral_append_one, (char_spec small).2]
      by_cases last : d = 9
      · subst last
        rw [if_pos (by decide)]
        cases more : bump s with
        | none =>
            rw [more] at rest
            dsimp only [Option.map_none] at rest ⊢
            rw [List.length_cons, pow_succ, ← rest]
            omega
        | some t =>
            rw [more] at rest
            obtain ⟨length, digits, value⟩ := rest
            refine ⟨by rw [List.length_cons, List.length_cons, length],
              List.forall_mem_cons.mpr ⟨by decide, digits⟩, ?_⟩
            rw [List.reverse_cons, numeral_append_one, value, show digitVal '0' = 0 by decide]
            omega
      · obtain ⟨other, next⟩ := succ_char d (by omega)
        obtain ⟨digit, value⟩ := char_spec (show d + 1 < 10 by omega)
        rw [if_neg other, next]
        refine ⟨rfl, List.forall_mem_cons.mpr ⟨digit, tail⟩, ?_⟩
        rw [List.reverse_cons, numeral_append_one, value]
        omega

/-! ## The digits to come -/

theorem Rest.Proper.bounds (proper : s.Proper fs) : 0 ≤ s.value fs ∧ s.value fs < 1 := by
  obtain ⟨small, ⟨f, same, less⟩, -⟩ := proper
  have integer : ofDigits 10 s.id.reverse < 10 ^ s.id.length := by
    have := Nat.ofDigits_lt_base_pow_length (b := 10) (l := s.id.reverse) (by decide)
      fun d mem => small d (List.mem_reverse.mp mem)
    rwa [List.length_reverse] at this
  have whole : ((ofDigits 10 s.id.reverse : ℕ) : ℚ) + 1 ≤ 10 ^ s.id.length := by
    exact_mod_cast integer
  have part : (f : ℚ) / 2 ^ fs < 1 := by
    rw [div_lt_one (by positivity)]
    exact_mod_cast less
  rw [Rest.value, same, Nat.ofDigits_digits]
  have above : 0 ≤ (f : ℚ) / 2 ^ fs := by positivity
  constructor
  · positivity
  · rw [div_lt_one (by positivity)]
    linarith

/-- The next digit is the one before the point of ten times the fraction. -/
theorem next_spec (proper : s.Proper fs) :
    ∃ d t, next fs s = some (d, t) ∧ t.Proper fs ∧ d < 10 ∧
      10 * s.value fs = d + t.value fs ∧ (s.id = [] → t.id = []) := by
  obtain ⟨small, ⟨f, same, less⟩, bits⟩ := proper
  obtain ⟨id, fp⟩ := s
  cases id with
  | nil =>
      dsimp only at same
      subst same
      have read := fdigit_digits less ((Nat.add_le_add_right bits 4).trans (by decide))
      have parts := Nat.div_add_mod (f * 10) (2 ^ fs)
      have proper' : (Rest.mk [] (digits (2 ^ 32) (f * 10 % 2 ^ fs))).Proper fs :=
        ⟨List.forall_mem_nil _, ⟨_, rfl, Nat.mod_lt _ (by positivity)⟩, bits⟩
      refine ⟨f * 10 / 2 ^ fs, ⟨[], digits (2 ^ 32) (f * 10 % 2 ^ fs)⟩, ?_, proper', ?_, ?_,
        fun none => none⟩
      · rw [next, read]
        rfl
      · exact Nat.div_lt_of_lt_mul (by omega)
      · rw [Rest.value, Rest.value, Nat.ofDigits_digits, Nat.ofDigits_digits]
        have sum : (2 : ℚ) ^ fs * (f * 10 / 2 ^ fs : ℕ) + (f * 10 % 2 ^ fs : ℕ) = f * 10 := by
          exact_mod_cast parts
        simp only [List.reverse_nil, Nat.ofDigits_nil, List.length_nil, pow_zero, div_one,
          Nat.cast_zero, zero_add]
        field_simp
        linarith
  | cons d id =>
      obtain ⟨head, tail⟩ := List.forall_mem_cons.mp small
      refine ⟨d, ⟨id, fp⟩, rfl, ⟨tail, ⟨f, same, less⟩, bits⟩, head, ?_, fun none => by
        contradiction⟩
      rw [Rest.value, Rest.value, List.reverse_cons, Nat.ofDigits_append, List.length_reverse,
        Nat.ofDigits_singleton, List.length_cons]
      push_cast
      field_simp
      ring

/-- The digits that the loop gives, and what is left behind them. -/
theorem digitLoop_spec (k : ℕ) (proper : s.Proper fs) (small : d < 10) :
    ∃ ds d' t, digitLoop fs k d s = some (ds, d', t) ∧ t.Proper fs ∧ d' < 10 ∧ ds.length = k ∧
      (∀ c ∈ ds.map char, isdigit c) ∧
      10 ^ k * ((d + s.value fs) / 10) =
        numeral 10 0 (ds.map char) + (d' + t.value fs) / 10 := by
  induction k generalizing d s with
  | zero =>
      refine ⟨[], d, s, rfl, proper, small, rfl, List.forall_mem_nil _, ?_⟩
      rw [pow_zero, one_mul, List.map_nil]
      simp [numeral]
  | succ k ih =>
      obtain ⟨d₁, s₁, read, proper₁, small₁, value, -⟩ := next_spec proper
      obtain ⟨ds, d', t, rest, proper', small', length, all, sum⟩ := ih proper₁ small₁
      obtain ⟨digit, digit'⟩ := char_spec small
      refine ⟨d :: ds, d', t, ?_, proper', small', by rw [List.length_cons, length],
        List.forall_mem_cons.mpr ⟨digit, all⟩, ?_⟩
      · rw [digitLoop, read]
        change (digitLoop fs k d₁ s₁ >>= _) = _
        rw [rest]
        rfl
      · have front : (numeral 10 0 ((d :: ds).map char) : ℚ) =
            d * 10 ^ k + numeral 10 0 (ds.map char) := by
          rw [List.map_cons, Stdio.numeral_cons, digit', numeral_eq, List.length_map, length]
          push_cast
          ring
        rw [front, add_assoc, ← sum, ← value, pow_succ]
        ring

/-- The loop over leading zeros ends, as the fraction is not zero. -/
theorem skipZeros_spec (fuel : ℕ) (r2 : ℤ) (proper : s.Proper fs) (small : d < 10)
    (some' : 1 ≤ (d + s.value fs) / 10 * 10 ^ fuel) :
    ∃ d' t r, skipZeros fs fuel d s r2 = some (d', t, r) ∧ t.Proper fs ∧ 0 < d' ∧ d' < 10 ∧
      (d + s.value fs) / 10 * 10 ^ r2 = (d' + t.value fs) / 10 * (10 : ℚ) ^ r := by
  induction fuel generalizing d s r2 with
  | zero =>
      have digit : (d : ℚ) + 1 ≤ 10 := by exact_mod_cast small
      have := proper.bounds.2
      rw [pow_zero, mul_one] at some'
      linarith
  | succ fuel ih =>
      rw [skipZeros]
      split
      · next zero =>
          subst zero
          obtain ⟨d₁, s₁, read, proper₁, small₁, value, -⟩ := next_spec proper
          have same : (((0 : ℕ) : ℚ) + s.value fs) / 10 = (d₁ + s₁.value fs) / 10 / 10 := by
            rw [← value, Nat.cast_zero, zero_add]
            ring
          have more : 1 ≤ (d₁ + s₁.value fs) / 10 * 10 ^ fuel := by
            rw [same, pow_succ] at some'
            linarith
          obtain ⟨d', t, r, rest, proper', positive, small', scale⟩ :=
            ih (r2 - 1) proper₁ small₁ more
          refine ⟨d', t, r, ?_, proper', positive, small', ?_⟩
          · rw [read]
            exact rest
          · rw [← scale, same, zpow_sub_one₀ (by norm_num)]
            ring
      · next nonzero =>
          exact ⟨d, s, r2, rfl, proper, Nat.pos_of_ne_zero nonzero, small, rfl⟩

/-- The first digit is not zero, and the number is what it begins at its place. -/
theorem first_spec {i f : ℕ} (less : f < 2 ^ fs) (bits : fs ≤ 1126)
    (some' : 0 < (i : ℚ) + f / 2 ^ fs) :
    ∃ d t r, first fs (digits 10 i) (digits (2 ^ 32) f) = some (d, t, r) ∧ t.Proper fs ∧ 0 < d ∧
      d < 10 ∧ (i : ℚ) + f / 2 ^ fs = (d + t.value fs) / 10 * (10 : ℚ) ^ r := by
  have proper : (Rest.mk (digits 10 i).reverse (digits (2 ^ 32) f)).Proper fs :=
    ⟨fun d mem => Nat.digits_lt_base (by decide) (List.mem_reverse.mp mem), ⟨f, rfl, less⟩, bits⟩
  have value : (Rest.mk (digits 10 i).reverse (digits (2 ^ 32) f)).value fs =
      ((i : ℚ) + f / 2 ^ fs) / 10 ^ (digits 10 i).length := by
    rw [Rest.value]
    dsimp only
    rw [List.reverse_reverse, Nat.ofDigits_digits, Nat.ofDigits_digits, List.length_reverse]
  obtain ⟨d, t, read, proper', small, step, -⟩ := next_spec proper
  rw [value] at step
  have unfolded : first fs (digits 10 i) (digits (2 ^ 32) f) =
      if digits 10 i = [] then skipZeros fs (fs + 1) d t 0 else some
          (d, t, (digits 10 i).length) := by
    rw [first, read]
    rfl
  rw [unfolded]
  split
  · next none =>
      rw [none, List.length_nil, pow_zero, div_one] at step
      have zero : i = 0 := Nat.digits_eq_nil_iff_eq_zero.mp none
      rw [zero, Nat.cast_zero, zero_add] at some' step ⊢
      have enough : 1 ≤ (d + t.value fs) / 10 * 10 ^ (fs + 1) := by
        have one : 1 ≤ f := by
          by_contra no
          obtain rfl : f = 0 := by omega
          simp at some'
        have power : (2 : ℚ) ^ fs ≤ 10 ^ (fs + 1) :=
          (pow_le_pow_left₀ two_pos.le (by norm_num) fs).trans
            (pow_le_pow_right₀ (by norm_num) (Nat.le_succ fs))
        have : (1 : ℚ) ≤ f := by exact_mod_cast one
        rw [← step, mul_div_cancel_left₀ _ (by norm_num), div_mul_eq_mul_div,
          one_le_div (by positivity)]
        calc (2 : ℚ) ^ fs ≤ 1 * 10 ^ (fs + 1) := by rwa [one_mul]
          _ ≤ f * 10 ^ (fs + 1) := mul_le_mul_of_nonneg_right this (by positivity)
      obtain ⟨d', s', r, skip, proper'', positive, small', scale⟩ :=
        skipZeros_spec (fs + 1) 0 proper' small enough
      refine ⟨d', s', r, skip, proper'', positive, small', ?_⟩
      rw [← scale, zpow_zero, mul_one, ← step]
      ring
  · next more =>
      have length : 0 < (digits 10 i).length := List.length_pos_of_ne_nil more
      have scale : (i : ℚ) + f / 2 ^ fs =
          (d + t.value fs) / 10 * (10 : ℚ) ^ ((digits 10 i).length : ℤ) := by
        rw [← step, zpow_natCast]
        field_simp
      have big : (10 : ℚ) ^ ((digits 10 i).length - 1) ≤ (i : ℚ) + f / 2 ^ fs := by
        have whole : 10 ^ ((digits 10 i).length - 1) ≤ i := by
          by_contra less'
          have := (Nat.digits_length_le_iff (by decide) i).mpr (Nat.lt_of_not_le less')
          omega
        have : (10 : ℚ) ^ ((digits 10 i).length - 1) ≤ i := by exact_mod_cast whole
        have : 0 ≤ (f : ℚ) / 2 ^ fs := by positivity
        linarith
      refine ⟨d, t, (digits 10 i).length, rfl, proper', ?_, small, scale⟩
      apply Nat.pos_of_ne_zero
      intro zero
      have less' := proper'.bounds.2
      rw [zero, Nat.cast_zero, zero_add] at step
      have : (i : ℚ) + f / 2 ^ fs < 10 ^ ((digits 10 i).length - 1) := by
        have power : (10 : ℚ) ^ (digits 10 i).length = 10 * 10 ^ ((digits 10 i).length - 1) := by
          rw [← pow_succ', Nat.sub_add_cancel length]
        rw [← step, mul_div_assoc', power, div_lt_one (by positivity)] at less'
        linarith
      linarith

/-! ## Rounding -/

theorem value_eq_zero (proper : s.Proper fs) :
    s.value fs = 0 ↔ s.fp = [] ∧ ∀ d ∈ s.id, d = 0 := by
  obtain ⟨-, ⟨f, same, less⟩, -⟩ := proper
  have parts : s.value fs = 0 ↔ ofDigits 10 s.id.reverse = 0 ∧ f = 0 := by
    rw [Rest.value, same, Nat.ofDigits_digits, div_eq_zero_iff,
      or_iff_left (pow_ne_zero _ (by norm_num)),
      add_eq_zero_iff_of_nonneg (by positivity) (by positivity), div_eq_zero_iff,
      or_iff_left (by positivity), Nat.cast_eq_zero, Nat.cast_eq_zero]
  have integer : ∀ l : List ℕ, ofDigits 10 l.reverse = 0 ↔ ∀ d ∈ l, d = 0 := by
    intro l
    induction l with
    | nil => simp
    | cons d l ih =>
        rw [List.reverse_cons, Nat.ofDigits_append, Nat.ofDigits_singleton, Nat.add_eq_zero_iff, ih,
          List.forall_mem_cons, Nat.mul_eq_zero, or_iff_right (by positivity), and_comm]
  rw [parts, integer, same, Nat.digits_eq_nil_iff_eq_zero, and_comm]

/-- The last digit kept tells whether the number kept is odd. -/
theorem odd_last (all : ∀ c ∈ buf, isdigit c) :
    (buf.getLast?.any fun c => c.toNat &&& 1 = 1) ↔ numeral 10 0 buf % 2 = 1 := by
  induction buf using List.reverseRecOn with
  | nil => simp [numeral]
  | append_singleton buf c _ =>
      obtain ⟨d, small, rfl⟩ := char_eq (all c (by simp))
      rw [numeral_append_one, (char_spec small).2, List.getLast?_append, List.getLast?_singleton,
        Option.some_or, Option.any_some, decide_eq_true_eq, odd_char d small]
      omega

theorem roundsUp_iff (all : ∀ c ∈ buf, isdigit c) (small : d < 10) (proper : s.Proper fs) :
    roundsUp buf d s ↔
      1 < 2 * ((d + s.value fs) / 10) ∨
        2 * ((d + s.value fs) / 10) = 1 ∧ ¬Even (numeral 10 0 buf) := by
  obtain ⟨low, high⟩ := proper.bounds
  have sticky : (s.fp ≠ [] || s.id.any (· ≠ 0)) = true ↔ s.value fs ≠ 0 := by
    simp only [ne_eq, value_eq_zero proper, Bool.or_eq_true, decide_eq_true_eq, List.any_eq_true,
      not_and_or]
    push Not
    rfl
  rw [roundsUp]
  simp only [Bool.or_eq_true, Bool.and_eq_true, decide_eq_true_eq] at sticky ⊢
  rw [sticky, odd_last all, Nat.not_even_iff]
  constructor
  · rintro (more | ⟨rfl, rest | odd⟩)
    · left
      have : (6 : ℚ) ≤ d := by exact_mod_cast more
      linarith
    · left
      have := lt_of_le_of_ne low rest.symm
      push_cast
      linarith
    · by_cases zero : s.value fs = 0
      · right
        rw [zero]
        norm_num
        exact odd
      · left
        have := lt_of_le_of_ne low (Ne.symm zero)
        push_cast
        linarith
  · rintro (more | ⟨tie, odd⟩)
    · have : (4 : ℚ) < d := by linarith
      have five : 5 ≤ d := by
        have : 4 < d := by exact_mod_cast this
        omega
      obtain less | same := Nat.lt_or_eq_of_le five
      · exact .inl less
      · refine .inr ⟨same.symm, .inl fun zero => ?_⟩
        rw [zero, ← same] at more
        norm_num at more
    · have whole : (d : ℚ) + s.value fs = 5 := by linarith
      have : (4 : ℚ) < d ∧ (d : ℚ) ≤ 5 := ⟨by linarith, by linarith⟩
      have : 4 < d ∧ d ≤ 5 := ⟨by exact_mod_cast this.1, by exact_mod_cast this.2⟩
      exact .inr ⟨by omega, .inr odd⟩

/-- The digits kept, rounded by those dropped. -/
theorem finish_spec (all : ∀ c ∈ buf, isdigit c) (room : buf.length ≤ 78) (small : d < 10)
    (proper : s.Proper fs) (r2 : ℤ) (eflag : Bool) {x : ℚ}
    (value : x / 10 ^ (r2 - buf.length) = numeral 10 0 buf + (d + s.value fs) / 10) :
    ∃ text decpt, finish buf d s r2 eflag = some (text, decpt) ∧
      Rounded x r2 buf.length eflag text decpt := by
  obtain ⟨low, high⟩ := proper.bounds
  have digit : (d : ℚ) + 1 ≤ 10 := by exact_mod_cast small
  have dropped : x / 10 ^ (r2 - buf.length) - ((numeral 10 0 buf : ℤ) : ℚ) =
      (d + s.value fs) / 10 := by
    rw [value]
    push_cast
    ring
  have rounds := roundsEven_of_floor (x := x / 10 ^ (r2 - (buf.length : ℤ)))
    (n := (numeral 10 0 buf : ℤ)) (by
      rw [← sub_nonneg, dropped]
      positivity) (by
      rw [← sub_lt_iff_lt_add', dropped]
      linarith) (roundsUp buf d s) (by
      rw [dropped, roundsUp_iff all small proper, Int.even_coe_nat])
  have fits : ∀ text decpt, text.length < NDIG → answer text decpt = some (text, decpt) :=
    fun text decpt less => if_pos less
  rw [finish]
  split
  · next up =>
      rw [if_pos up] at rounds
      have bumped := bump_spec fun c (mem : c ∈ buf.reverse) => all c (List.mem_reverse.mp mem)
      rw [List.reverse_reverse, List.length_reverse] at bumped
      cases more : bump buf.reverse with
      | some t =>
          rw [more] at bumped
          obtain ⟨length, digits, sum⟩ := bumped
          refine ⟨t.reverse, r2, fits _ _ ?_, ?_⟩
          · rw [List.length_reverse, length]
            exact room.trans_lt (by decide)
          · apply Rounded.kept
            · rw [List.length_reverse, length]
            · exact fun c mem => digits c (List.mem_reverse.mp mem)
            · rw [sum]
              exact_mod_cast rounds
      | none =>
          rw [more] at bumped
          have carried : RoundsEven (x / 10 ^ (r2 - (buf.length : ℤ))) (10 ^ buf.length) := by
            rw [← Nat.cast_succ, Nat.succ_eq_add_one, bumped] at rounds
            exact_mod_cast rounds
          have same : '1' :: List.replicate (buf.length - 1) '0' ++
              (if buf.length ≠ 0 ∧ !eflag then ['0'] else []) =
              '1' :: List.replicate (if eflag then buf.length - 1 else buf.length) '0' := by
            cases eflag with
            | true => simp
            | false =>
                cases buf.length with
                | zero => rfl
                | succ n =>
                    simp only [Bool.false_eq_true, if_false, Bool.not_false, ne_eq,
                      Nat.succ_ne_zero, not_false_eq_true, and_self, if_true, Nat.add_sub_cancel]
                    rw [List.replicate_succ', List.cons_append]
          dsimp only
          rw [same]
          refine ⟨_, r2 + 1, fits _ _ ?_, Rounded.carried buf.length rfl carried⟩
          rw [List.length_cons, List.length_replicate]
          have limit : NDIG = 80 := rfl
          split <;> omega
  · next down =>
      rw [if_neg down] at rounds
      exact ⟨buf, r2, fits _ _ (room.trans_lt (by decide)), Rounded.kept buf rfl all rounds⟩

/-- A number is at one place only. -/
theorem place_unique {x : ℚ} {r r' : ℤ} (left : (10 : ℚ) ^ (r - 1) ≤ x ∧ x < 10 ^ r)
    (right : (10 : ℚ) ^ (r' - 1) ≤ x ∧ x < 10 ^ r') : r = r' := by
  have ten : (1 : ℚ) < 10 := by norm_num
  have below := (zpow_lt_zpow_iff_right₀ ten).mp (left.1.trans_lt right.2)
  have above := (zpow_lt_zpow_iff_right₀ ten).mp (right.1.trans_lt left.2)
  omega

variable {m : ℕ} {e ndigits r : ℤ}

theorem cvt_spec (double : Double m e)
    (place : (10 : ℚ) ^ (r - 1) ≤ m * 2 ^ e ∧ (m : ℚ) * 2 ^ e < 10 ^ r)
    (nonneg : 0 ≤ ndigits) (few : ndigits ≤ 78) (eflag : Bool)
    (kept : (if eflag then ndigits else ndigits + r) ≤ 78) :
    ∃ text decpt, cvt m e ndigits eflag = some (text, decpt) ∧
      Rounded (m * 2 ^ e) r (if eflag then ndigits else ndigits + r) eflag text decpt := by
  obtain ⟨i, f, fs, parts, less, bits, size, value⟩ := split_spec double
  have positive : 0 < (i : ℚ) + f / 2 ^ fs := by
    rw [← value]
    exact (zpow_pos (by norm_num) _).trans_le place.1
  have integer := integerDigits_digits (5 * 64) i (by rwa [pow_mul])
  obtain ⟨d, t, r', read, proper, some', small, scale⟩ := first_spec less bits positive
  obtain ⟨low, high⟩ := proper.bounds
  have digit : (d : ℚ) + 1 ≤ 10 := by exact_mod_cast small
  have digit' : (1 : ℚ) ≤ d := by exact_mod_cast some'
  have unit : (0 : ℚ) < 10 ^ r' := zpow_pos (by norm_num) r'
  obtain rfl : r = r' := by
    apply place_unique place
    rw [value, scale]
    constructor
    · rw [zpow_sub_one₀ (by norm_num), mul_comm]
      apply mul_le_mul_of_nonneg_right _ unit.le
      linarith
    · calc (d + t.value fs) / 10 * (10 : ℚ) ^ r' < 1 * 10 ^ r' := by
            apply mul_lt_mul_of_pos_right _ unit
            linarith
        _ = 10 ^ r' := one_mul _
  have limit : ((NDIG : ℕ) : ℤ) = 80 := rfl
  have clamped : cvt m e ndigits eflag = emit fs d t r ndigits eflag := by
    rw [cvt, if_neg (not_lt.mpr nonneg), if_neg (by omega), parts]
    change (integerDigits (5 * 64) (digits (2 ^ 32) i) >>= _) = _
    rw [integer]
    change (first fs (digits 10 i) (digits (2 ^ 32) f) >>= _) = _
    rw [read]
    rfl
  rw [clamped, emit]
  dsimp only
  generalize (if eflag then ndigits else ndigits + r) = k at kept ⊢
  split
  · next negative => exact ⟨[], r, rfl, Rounded.none negative⟩
  · next some'' =>
      obtain ⟨n, rfl⟩ := Int.eq_ofNat_of_zero_le (not_lt.mp some'')
      obtain ⟨ds, d', t', loop, proper', small', length, all, sum⟩ :=
        digitLoop_spec n proper small
      rw [if_neg (by omega), Int.toNat_natCast, loop]
      have length' : (ds.map char).length = n := by rw [List.length_map, length]
      rw [← length'] at sum ⊢
      apply finish_spec all (by omega) small' proper'
      rw [← sum, value, scale, zpow_sub₀ (by norm_num), zpow_natCast]
      field_simp

/-- The digits and the point of `ecvt` and `fcvt` are those of the number rounded to the places
asked for. -/
theorem ecvt_fcvt_rounded (double : Double m e)
    (place : (10 : ℚ) ^ (r - 1) ≤ m * 2 ^ e ∧ (m : ℚ) * 2 ^ e < 10 ^ r)
    (nonneg : 0 ≤ ndigits) (few : ndigits ≤ 78) :
    (∃ text decpt, ecvt m e ndigits = some (text, decpt) ∧
      Rounded (m * 2 ^ e) r ndigits true text decpt) ∧
    (ndigits + r ≤ 78 → ∃ text decpt, fcvt m e ndigits = some (text, decpt) ∧
      Rounded (m * 2 ^ e) r (ndigits + r) false text decpt) :=
  ⟨cvt_spec double place nonneg few true few,
    fun kept => cvt_spec double place nonneg few false kept⟩

theorem ecvt_fcvt_rounded_half :
    (∃ text decpt, ecvt (2 ^ 52) (-53) 0 = some (text, decpt) ∧
      Rounded ((2 ^ 52 : ℕ) * 2 ^ (-53 : ℤ)) 0 0 true text decpt) ∧
    ((0 : ℤ) + 0 ≤ 78 → ∃ text decpt, fcvt (2 ^ 52) (-53) 0 = some (text, decpt) ∧
      Rounded ((2 ^ 52 : ℕ) * 2 ^ (-53 : ℤ)) 0 (0 + 0) false text decpt) :=
  ecvt_fcvt_rounded ⟨le_rfl, by decide, by decide, by decide⟩ (by norm_num) le_rfl (by decide)

end UnixV7.Libc.Ecvt
