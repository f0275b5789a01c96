import Mathlib.Data.List.Pairwise
import Mathlib.Tactic.IntervalCases
import Mathlib.Tactic.Ring
import UnixV7.Library.Fuel
import UnixV7.Library.Wheel

/-!
# Factors of a number

The loop of `factor.c`. The trial divisors up to 17 are 2 and the odd numbers, and from there on
those of a wheel of circumference 210.
-/

namespace UnixV7.Factor

open UnixV7.Fuel

/-- A value does not fit or is stored behind an array, or the fuel is spent. -/
inductive Fault
  | overflow
  | running

/-- A value of type `long long`. -/
def long (x : ℕ) : Except Fault ℕ := if x < 2 ^ 63 then .ok x else .error .overflow

/-- A value of type `int`. -/
def int (x : ℕ) : Except Fault ℕ := if x < 2 ^ 31 then .ok x else .error .overflow

def tab : List ℕ := [
  10, 2, 4, 2, 4, 6, 2, 6, 4, 2, 4, 6, 6, 2, 6, 4,
  2, 6, 4, 6, 8, 4, 2, 4, 2, 4, 8, 6, 4, 6, 2, 4,
  6, 2, 6, 6, 4, 2, 4, 6, 2, 6, 4, 2, 4, 2, 10, 2]

/-- The characters in `b`, the last digit first. -/
def digits (d : ℕ) : List Char :=
  Char.ofNat (d % 10 + '0'.toNat) :: if d / 10 = 0 then [] else digits (d / 10)
decreasing_by omega

/-- `put`, which has 20 places in `b`. -/
def put (d : ℕ) : Except Fault (List Char) :=
  if (digits d).length ≤ 20 then
    .ok (List.replicate 5 ' ' ++ (digits d).reverse ++ ['\n'])
  else .error .overflow

/-- The variables of the loop. -/
structure Trial where
  n : ℕ
  d : ℕ
  i : ℕ

/-- The body of the loop and what it prints. -/
def turn (t : Trial) : Except Fault (Trial × List Char) :=
  if t.n % t.d = 0 then do
    let text ← put t.d
    .ok ({ t with n := t.n / t.d }, text)
  else if t.d < 17 then do
    let d ← long (t.d + (1 + if t.d > 2 then 1 else 0))
    .ok ({ t with d := d }, [])
  else do
    let i ← int (t.i + 1)
    let d ← long (t.d + tab.getD (t.i % 48) 0)
    .ok ({ t with d := d, i := i }, [])

/-- The loop, and the last factor behind it. -/
def loop : ℕ → Trial → Except Fault (List Char)
  | 0, _ => .error .running
  | fuel + 1, t => do
      let square ← long (t.d * t.d)
      if square ≤ t.n then
        let next ← turn t
        let rest ← loop fuel next.1
        .ok (next.2 ++ rest)
      else if t.n ≠ 1 then put t.n else .ok []

/-- What is printed for the number `n`. -/
def factor (fuel n : ℕ) : Except Fault (List Char) := do
  let text ← loop fuel ⟨n, 2, 3⟩
  .ok ('\n' :: text)

/-! ## The trial divisors -/

theorem tab_eq (i : ℕ) : tab.getD i 0 = Wheel.seven.gap i := rfl

/-- Where a divisor stands: in the part before the wheel or on it. -/
inductive Seat : ℕ → ℕ → Prop
  | two : Seat 2 3
  | odd {d : ℕ} (low : 3 ≤ d) (below : d < 17) (parity : d % 2 = 1) : Seat d 3
  | wheel {d i : ℕ} (low : 17 ≤ d) (index : 2 * i ≤ d) (here : Wheel.seven.At d (i % 48)) :
      Seat d i

theorem next_mod (i : ℕ) : Wheel.seven.next (i % 48) = (i + 1) % 48 := by
  have length : Wheel.seven.gaps.length = 48 := rfl
  rw [Wheel.next, length]
  split <;> omega

theorem Seat.odd_next {d p : ℕ} (low : 3 ≤ d) (parity : d % 2 = 1) (prime : p.Prime)
    (above : d < p) : d + 2 ≤ p := by
  have := prime.eq_two_or_odd
  omega

theorem Seat.low {d i : ℕ} (seat : Seat d i) : 2 ≤ d := by
  cases seat <;> omega

/-! ## What is printed -/

/-- The line of a factor. -/
def line (p : ℕ) : List Char := List.replicate 5 ' ' ++ Nat.toDigits 10 p ++ ['\n']

theorem digits_reverse (d : ℕ) : (digits d).reverse = Nat.toDigits 10 d := by
  induction d using Nat.strong_induction_on with
  | h d ih =>
      have digit : ∀ k < 10, Char.ofNat (k + '0'.toNat) = Nat.digitChar k := by decide
      rw [digits, digit _ (Nat.mod_lt _ (by decide)), List.reverse_cons]
      split
      next last =>
        rw [Nat.mod_eq_of_lt (by omega), Nat.toDigits_of_lt_base (by omega)]
        rfl
      next more =>
        rw [ih (d / 10) (by omega), Nat.toDigits_of_base_le (n := d) (by decide) (by omega)]

theorem put_eq {d : ℕ} (small : d < 2 ^ 56) : put d = .ok (line d) := by
  have length : (digits d).length ≤ 20 := by
    rw [← List.length_reverse, digits_reverse]
    exact (Nat.length_toDigits_le_iff (by decide) (by decide)).mpr (small.trans (by norm_num))
  rw [put, if_pos length, digits_reverse]
  rfl

/-! ## One turn of the loop -/

/-- The divisor is no larger than a prime factor that is left. -/
structure Sound (t : Trial) : Prop where
  positive : 0 < t.n
  small : t.n < 2 ^ 56
  bound : t.d < 2 ^ 28 + 10
  seat : Seat t.d t.i
  least : ∀ p : ℕ, p.Prime → p ∣ t.n → t.d ≤ p

variable {t : Trial}

theorem Sound.start {n : ℕ} (positive : 1 ≤ n) (small : n < 2 ^ 56) : Sound ⟨n, 2, 3⟩ where
  positive := positive
  small := small
  bound := by norm_num
  seat := .two
  least _ prime _ := prime.two_le

theorem lt_of_square (sound : Sound t) (square : t.d * t.d ≤ t.n) : t.d < 2 ^ 28 := by
  by_contra large
  have := Nat.mul_le_mul (Nat.le_of_not_lt large) (Nat.le_of_not_lt large)
  have := sound.small
  omega

theorem square_fits (sound : Sound t) : long (t.d * t.d) = .ok (t.d * t.d) := by
  refine if_pos ?_
  have bound := Nat.mul_le_mul sound.bound.le sound.bound.le
  exact bound.trans_lt (by norm_num)

/-- A divisor that is found is a prime, and what is left keeps the order. -/
theorem Sound.divide (sound : Sound t) (square : t.d * t.d ≤ t.n) (divides : t.n % t.d = 0) :
    t.d.Prime ∧ turn t = .ok ({ t with n := t.n / t.d }, line t.d) ∧
      Sound { t with n := t.n / t.d } := by
  have low := sound.seat.low
  have factor : t.d ∣ t.n := Nat.dvd_of_mod_eq_zero divides
  have prime : t.d.Prime := by
    have first := Nat.minFac_prime (n := t.d) (by omega)
    have least := sound.least _ first ((Nat.minFac_dvd _).trans factor)
    rw [le_antisymm least (Nat.minFac_le (by omega))]
    exact first
  have small := sound.small
  refine ⟨prime, ?_, ?_, ?_, sound.bound, sound.seat, fun p other left => ?_⟩
  · rw [turn, if_pos divides, put_eq ((lt_of_square sound square).trans (by norm_num))]
    rfl
  · exact Nat.div_pos (Nat.le_of_dvd sound.positive factor) (by omega)
  · exact (Nat.div_le_self _ _).trans_lt small
  · exact sound.least p other (left.trans (Nat.div_dvd_of_dvd factor))

/-- A divisor that does not divide gives way to the next one. -/
theorem Seat.next {n d i : ℕ} (seat : Seat d i) (bound : d < 2 ^ 28) (stays : n % d ≠ 0) :
    ∃ d' i', turn ⟨n, d, i⟩ = .ok (⟨n, d', i'⟩, []) ∧ d < d' ∧ d' ≤ d + 10 ∧ Seat d' i' ∧
      ∀ p : ℕ, p.Prime → d < p → d' ≤ p := by
  have fits : ∀ x, x < 2 ^ 28 + 10 → long x = .ok x := fun x small =>
    if_pos (small.trans (by norm_num))
  simp only [turn, if_neg stays]
  cases seat with
  | two =>
      exact ⟨3, 3, rfl, by decide, by decide, .odd (by decide) (by decide) (by decide),
        fun _ _ above => above⟩
  | odd low below parity =>
      refine ⟨d + 2, 3, ?_, by omega, by omega, ?_, fun _ prime => odd_next low parity prime⟩
      · rw [if_pos below, if_pos (show d > 2 from low), fits _ (by omega)]
        rfl
      · by_cases last : d + 2 < 17
        · exact .odd (by omega) last (by omega)
        · obtain rfl : d = 15 := by omega
          exact .wheel (by decide) (by decide) ⟨by decide, by decide⟩
  | wheel low index here =>
      have gap := Wheel.seven_gap (Nat.mod_lt i (by decide))
      refine ⟨d + Wheel.seven.gap (i % 48), i + 1, ?_, by omega, by omega, ?_,
        fun _ prime above => here.le_prime prime (by omega) above⟩
      · rw [if_neg (by omega), tab_eq, fits _ (by omega), int, if_pos (by omega)]
        rfl
      · refine .wheel (by omega) (by omega) ?_
        rw [← next_mod]
        exact here.step

/-- The next divisor passes no prime factor. -/
theorem Sound.advance (sound : Sound t) (square : t.d * t.d ≤ t.n) (stays : t.n % t.d ≠ 0) :
    ∃ d i, turn t = .ok (⟨t.n, d, i⟩, []) ∧ t.d < d ∧ Sound ⟨t.n, d, i⟩ := by
  have bound := lt_of_square sound square
  obtain ⟨d, i, step, further, near, seat, passed⟩ := sound.seat.next bound stays
  refine ⟨d, i, step, further, sound.positive, sound.small, ?_, seat, fun p prime divides => ?_⟩
  · exact near.trans_lt (Nat.add_lt_add_right bound 10)
  · refine passed p prime (lt_of_le_of_ne (sound.least p prime divides) fun same => stays ?_)
    exact Nat.mod_eq_zero_of_dvd (same ▸ divides)

/-- Where the loop ends what is left is one or a prime. -/
theorem Sound.last (sound : Sound t) (square : ¬ t.d * t.d ≤ t.n) (more : t.n ≠ 1) :
    t.n.Prime := by
  by_contra composite
  have first := Nat.minFac_prime more
  have least := sound.least _ first (Nat.minFac_dvd _)
  have small := Nat.minFac_sq_le_self sound.positive composite
  have := Nat.mul_le_mul least least
  rw [sq] at small
  omega

/-! ## The whole loop -/

/-- The factors that a list of printed numbers gives. -/
structure Factors (n d : ℕ) (primes : List ℕ) : Prop where
  prime : ∀ p ∈ primes, p.Prime
  above : ∀ p ∈ primes, d ≤ p
  order : primes.Pairwise (· ≤ ·)
  product : primes.prod = n

theorem loop_spec (sound : Sound t) : ∃ primes, Factors t.n t.d primes ∧
    Settles (fun fuel => loop fuel t) (primes.flatMap line) := by
  obtain ⟨size, measure⟩ : ∃ size, size = t.n + (t.n - t.d) := ⟨_, rfl⟩
  induction size using Nat.strong_induction_on generalizing t with
  | h size ih =>
      have low := sound.seat.low
      obtain square | square := em (t.d * t.d ≤ t.n)
      · have below : t.d < t.n := by
          have := Nat.mul_le_mul_right t.d low
          omega
        obtain divides | stays := em (t.n % t.d = 0)
        · obtain ⟨prime, step, next⟩ := sound.divide square divides
          have smaller : t.n / t.d < t.n := Nat.div_lt_self sound.positive low
          obtain ⟨primes, factors, settled⟩ := ih _ (by dsimp only; omega) next rfl
          refine ⟨t.d :: primes, ⟨?_, ?_, ?_, ?_⟩, ?_⟩
          · exact List.forall_mem_cons.mpr ⟨prime, factors.prime⟩
          · exact List.forall_mem_cons.mpr ⟨le_rfl, factors.above⟩
          · exact List.pairwise_cons.mpr ⟨factors.above, factors.order⟩
          · rw [List.prod_cons, factors.product]
            exact Nat.mul_div_cancel' (Nat.dvd_of_mod_eq_zero divides)
          · refine (settled.bind (fun _ rest => .ok (line t.d ++ rest)) (.pure _)).succ
              fun fuel => ?_
            simp only [loop, square_fits sound, if_pos square, step, bind, Except.bind]
        · obtain ⟨d, i, step, further, next⟩ := sound.advance square stays
          obtain ⟨primes, factors, settled⟩ := ih _ (by dsimp only; omega) next rfl
          refine ⟨primes, ⟨factors.prime, fun p mem => ?_, factors.order, factors.product⟩, ?_⟩
          · exact further.le.trans (factors.above p mem)
          · refine (settled.bind (fun _ rest => .ok ([] ++ rest)) (.pure _)).succ fun fuel => ?_
            simp only [loop, square_fits sound, if_pos square, step, bind, Except.bind]
      · obtain one | more := em (t.n = 1)
        · refine ⟨[], ⟨by simp, by simp, .nil, one.symm⟩, ?_⟩
          refine (Settles.pure []).succ fun _ => ?_
          simp only [loop, square_fits sound, if_neg square, bind, Except.bind]
          exact if_neg (not_not.mpr one)
        · have prime := sound.last square more
          refine ⟨[t.n], ⟨by simpa using prime, ?_, List.pairwise_singleton _ _, by simp⟩, ?_⟩
          · simpa using sound.least _ prime (dvd_refl _)
          · refine (Settles.pure _).succ fun _ => ?_
            simp only [loop, square_fits sound, if_neg square, if_pos more, bind, Except.bind]
            rw [put_eq sound.small, List.flatMap_singleton]

/-- For each number that is read the loop ends without an overflow and prints its prime factors in
order, each as often as it divides the number. -/
theorem factor_primes {n : ℕ} (positive : 1 ≤ n) (small : n < 2 ^ 56) :
    ∃ primes : List ℕ, (∀ p ∈ primes, p.Prime) ∧ primes.Pairwise (· ≤ ·) ∧ primes.prod = n ∧
      Settles (fun fuel => factor fuel n) ('\n' :: primes.flatMap line) := by
  obtain ⟨primes, factors, settled⟩ := loop_spec (.start positive small)
  exact ⟨primes, factors.prime, factors.order, factors.product,
    settled.bind (fun _ text => .ok ('\n' :: text)) (.pure _)⟩

theorem factor_primes_largest : 1 ≤ 2 ^ 56 - 1 ∧ 2 ^ 56 - 1 < 2 ^ 56 ∧
    ∃ primes : List ℕ, (∀ p ∈ primes, p.Prime) ∧ primes.Pairwise (· ≤ ·) ∧
      primes.prod = 2 ^ 56 - 1 ∧
      Settles (fun fuel => factor fuel (2 ^ 56 - 1)) ('\n' :: primes.flatMap line) :=
  ⟨by norm_num, by norm_num, factor_primes (by norm_num) (by norm_num)⟩

end UnixV7.Factor
