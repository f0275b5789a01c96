import Mathlib.Analysis.Real.Sqrt
import Mathlib.Data.List.TakeWhile
import Mathlib.Data.Nat.Prime.Basic
import Mathlib.Tactic.Ring
import UnixV7.Library.Fuel
import UnixV7.Library.Wheel
import UnixV7.Library.Writer

/-!
# Primes from a number on

`mark`, the windows and the output buffer of `primes.c`. A window of 8000 numbers is freed from the
multiples of 3, 5, 7 and of the numbers of a wheel up to the root of its end.
-/

namespace UnixV7.Primes

open UnixV7.Fuel

/-- A value does not fit, or the fuel is spent. -/
inductive Fault
  | overflow
  | running

/-- A value of type `long long`. -/
def long (x : ℕ) : Except Fault ℕ := if x < 2 ^ 63 then .ok x else .error .overflow

/-- A value of type `int`. -/
def int (x : ℕ) : Except Fault ℕ := if x < 2 ^ 31 then .ok x else .error .overflow

def TSIZ8 : ℕ := 8000

def pt : List ℕ := [
  2, 3, 5, 7, 11, 13, 17, 19, 23, 29, 31, 37, 41, 43,
  47, 53, 59, 61, 67, 71, 73, 79, 83, 89, 97]

def factab : List ℕ := [
  10, 2, 4, 2, 4, 6, 2, 6,
  4, 2, 4, 6, 6, 2, 6, 4,
  2, 6, 4, 6, 8, 4, 2, 4,
  2, 4, 8, 6, 4, 6, 2, 4,
  6, 2, 6, 6, 4, 2, 4, 6,
  2, 6, 4, 2, 4, 2, 10, 2]

/-! ## Output -/

/-- The writes and what stands in `iobuf`. -/
abbrev Out := Writer Char

def wrchar (out : Out) (c : Char) : Out := out.put 512 c

def ftoa (out : Out) (n : ℕ) : Out :=
  wrchar (if n ≥ 10 then ftoa out (n / 10) else out) (Char.ofNat (n % 10 + '0'.toNat))
decreasing_by omega

/-- A number on a line of its own. -/
def print (out : Out) (n : ℕ) : Out := wrchar (ftoa out n) '\n'

/-! ## The sieve -/

/-- `table`: eight numbers in a byte. -/
abbrev Table := ℕ → BitVec 8

/-- `table[off>>3] |= 1<<(off&7)` -/
def Table.set (table : Table) (off : ℕ) : Table :=
  Function.update table (off / 8) (table (off / 8) ||| 1#8 <<< (off % 8))

/-- `(table[i>>3] & 1<<(i&7)) == 0` -/
def Table.clear (table : Table) (i : ℕ) : Bool := table (i / 8) &&& 1#8 <<< (i % 8) = 0

/-- The loop of `mark`. A divisor is never zero. -/
def multiples (p : ℕ) (table : Table) (off : ℕ) : Table :=
  if _inside : off < TSIZ8 ∧ 0 < p then multiples p (table.set off) (off + p) else table
termination_by TSIZ8 - off
decreasing_by omega

def mark (nn : ℕ) (table : Table) (p : ℕ) : Table :=
  let off : ℤ := (nn / p * p : ℕ) - nn
  multiples p table (if off < 0 then off + p else off).toNat

/-- `p <= v`, where `v` is the root of `x`. The root is exact here, and so is the number of type
`double` that it is taken of: neither `sqrt` nor the cast rounds. -/
def leRoot (p x : ℕ) : Prop := p * p ≤ x

instance (p x : ℕ) : Decidable (leRoot p x) := inferInstanceAs (Decidable (_ ≤ _))

theorem leRoot_iff (p x : ℕ) : leRoot p x ↔ (p : ℝ) ≤ √(x : ℝ) := by
  rw [Real.le_sqrt (Nat.cast_nonneg p) (Nat.cast_nonneg x), sq, leRoot]
  norm_cast

/-- The loop over the wheel. -/
def divisors (nn : ℕ) : ℕ → Table → ℕ → ℕ → Except Fault Table
  | 0, _, _, _ => .error .running
  | fuel + 1, table, p, f => do
      let marked := mark nn table p
      let p' ← int (p + factab.getD f 0)
      let f' := if f + 1 ≥ 48 then 0 else f + 1
      if leRoot p' (nn + TSIZ8) then divisors nn fuel marked p' f' else .ok marked

/-- The loop that prints what is not marked. -/
def sweep (table : Table) (i nn : ℕ) (out : Out) : Out × ℕ :=
  if i < TSIZ8 then
    sweep table (i + 2) (nn + 2) (if table.clear i then print out nn else out)
  else (out, nn)
termination_by TSIZ8 - i

/-- One window. -/
def window (fuel nn : ℕ) (out : Out) : Except Fault (Out × ℕ) := do
  let _ ← long (nn + TSIZ8)
  let table ← divisors nn fuel (mark nn (mark nn (mark nn (fun _ => 0) 3) 5) 7) 11 1
  .ok (sweep table 0 nn out)

/-- The first windows. -/
def windows (fuel : ℕ) : ℕ → ℕ → Out → Except Fault Out
  | 0, _, out => .ok out
  | count + 1, nn, out => do
      let next ← window fuel nn out
      windows fuel count next.2 next.1

/-- The small primes, and where the windows start. -/
def start (n : ℕ) : Out × ℕ :=
  if n < 100 then
    match pt.dropWhile (· < n) with
    | [] => (.empty, n)
    | p :: rest => ((p :: rest).foldl print .empty, 100)
  else (.empty, n)

/-- The program after it has read a number below `BIG`, for a count of windows. -/
def primes (fuel count n : ℕ) : Except Fault Out :=
  if n = 0 then .ok .empty
  else windows fuel count ((start n).2 / 2 * 2 + 1) (start n).1

/-! ## What is put out -/

/-- The line of a prime. -/
def line (p : ℕ) : List Char := Nat.toDigits 10 p ++ ['\n']

variable {out : Out} {table : Table} {nn p f i n : ℕ}

theorem wrchar_text (out : Out) (c : Char) : (wrchar out c).text = out.text ++ [c] :=
  Writer.text_put out c

theorem ftoa_text (out : Out) (n : ℕ) : (ftoa out n).text = out.text ++ Nat.toDigits 10 n := by
  induction n using Nat.strong_induction_on with
  | h n ih =>
      have digit : ∀ k < 10, Char.ofNat (k + '0'.toNat) = Nat.digitChar k := by decide
      rw [ftoa, wrchar_text, digit _ (Nat.mod_lt _ (by decide))]
      split
      next more =>
        rw [ih (n / 10) (by omega), Nat.toDigits_of_base_le (n := n) (by decide) more,
          List.append_assoc]
      next last => rw [Nat.mod_eq_of_lt (by omega), Nat.toDigits_of_lt_base (by omega)]

theorem print_text (out : Out) (n : ℕ) : (print out n).text = out.text ++ line n := by
  rw [print, wrchar_text, ftoa_text, List.append_assoc]
  rfl

theorem ftoa_full (full : out.Full 512) (n : ℕ) : (ftoa out n).Full 512 := by
  induction n using Nat.strong_induction_on with
  | h n ih =>
      rw [ftoa]
      refine Writer.Full.put ?_ _
      split
      next more => exact ih (n / 10) (by omega)
      next => exact full

theorem print_full (full : out.Full 512) (n : ℕ) : (print out n).Full 512 :=
  (ftoa_full full n).put _

theorem foldl_print (list : List ℕ) (out : Out) :
    (list.foldl print out).text = out.text ++ list.flatMap line := by
  induction list generalizing out with
  | nil => simp
  | cons p rest ih => rw [List.foldl_cons, ih, print_text, List.flatMap_cons, List.append_assoc]

theorem foldl_full (full : out.Full 512) (list : List ℕ) : (list.foldl print out).Full 512 := by
  induction list generalizing out with
  | nil => exact full
  | cons p rest ih => exact ih (print_full full p)

/-! ## The table -/

theorem clear_eq (table : Table) (i : ℕ) :
    table.clear i = !(table (i / 8)).getLsbD (i % 8) := by
  rw [Table.clear, ← BitVec.twoPow_eq, BitVec.and_twoPow]
  have inside : i % 8 < 8 := Nat.mod_lt i (by decide)
  cases (table (i / 8)).getLsbD (i % 8) with
  | false => simp
  | true =>
      have some : BitVec.twoPow 8 (i % 8) ≠ 0#8 := fun none => by
        have bit := congrArg (fun bits => bits.getLsbD (i % 8)) none
        simp [inside] at bit
      simp [some]

theorem clear_set (table : Table) (off i : ℕ) :
    (table.set off).clear i = (table.clear i && decide (i ≠ off)) := by
  have inside : i % 8 < 8 := Nat.mod_lt i (by decide)
  rw [clear_eq, clear_eq, Table.set]
  obtain same | other := em (i / 8 = off / 8)
  · rw [same, Function.update_self, BitVec.getLsbD_or, ← BitVec.twoPow_eq, BitVec.getLsbD_twoPow]
    have bit : i = off ↔ off % 8 = i % 8 := by omega
    have room : off % 8 < 8 := Nat.mod_lt off (by decide)
    simp [bit, room]
  · rw [Function.update_of_ne other]
    have different : i ≠ off := fun same => other (same ▸ rfl)
    simp [different]

/-- The marks behind the first one are those at a distance that the divisor divides. -/
theorem multiples_clear (positive : 0 < p) (table : Table) (off : ℕ) (inside : i < TSIZ8) :
    (multiples p table off).clear i = (table.clear i && decide ¬ (off ≤ i ∧ p ∣ i - off)) := by
  fun_induction multiples p table off with
  | case1 table off room ih =>
      rw [ih, clear_set, Bool.and_assoc, ← Bool.decide_and]
      congr 2
      rw [eq_iff_iff]
      constructor
      · rintro ⟨different, outside⟩ ⟨above, divides⟩
        obtain ⟨k, same⟩ := divides
        cases k with
        | zero => omega
        | succ k =>
            rw [Nat.mul_succ] at same
            exact outside ⟨by omega, k, by omega⟩
      · rintro outside
        refine ⟨fun same => outside ⟨same.ge, ?_⟩, fun ⟨above, divides⟩ => outside ⟨by omega, ?_⟩⟩
        · rw [same, Nat.sub_self]
          exact dvd_zero p
        · have same : i - off = i - (off + p) + p := by omega
          rw [same]
          exact divides.add (dvd_refl p)
  | case2 table off room =>
      have outside : ¬ (off ≤ i ∧ p ∣ i - off) := fun ⟨above, _⟩ =>
        room ⟨above.trans_lt inside, positive⟩
      simp [outside]

theorem mark_clear (positive : 0 < p) (nn : ℕ) (table : Table) (inside : i < TSIZ8) :
    (mark nn table p).clear i = (table.clear i && decide ¬ p ∣ nn + i) := by
  have div := Nat.div_add_mod' nn p
  have small := Nat.mod_lt nn positive
  obtain ⟨first, here, near⟩ : ∃ first, p ∣ nn + first ∧ first < p ∧
      mark nn table p = multiples p table first := by
    rw [mark]
    obtain exact' | rest := em (nn % p = 0)
    · refine ⟨0, by rw [Nat.add_zero]; exact Nat.dvd_of_mod_eq_zero exact', positive, ?_⟩
      congr 1
      split <;> omega
    · refine ⟨p - nn % p, ⟨nn / p + 1, ?_⟩, by omega, ?_⟩
      · rw [Nat.mul_succ, Nat.mul_comm]
        omega
      · congr 1
        split <;> omega
  rw [near.2, multiples_clear positive table first inside]
  congr 2
  rw [eq_iff_iff, not_iff_not]
  constructor
  · rintro ⟨above, divides⟩
    have same : nn + i = nn + first + (i - first) := by omega
    rw [same]
    exact here.add divides
  · intro divides
    have above : first ≤ i := by
      by_contra below
      have same : nn + first = nn + i + (first - i) := by omega
      have between := (Nat.dvd_add_right divides).mp (same ▸ here)
      exact absurd (Nat.le_of_dvd (by omega) between) (by omega)
    have same : nn + i = nn + first + (i - first) := by omega
    exact ⟨above, (Nat.dvd_add_right here).mp (same ▸ divides)⟩

/-! ## The divisors of a window -/

theorem factab_eq (i : ℕ) : factab.getD i 0 = Wheel.seven.gap i := rfl

theorem next_eq (f : ℕ) (inside : f < 48) :
    Wheel.seven.next f = if f + 1 ≥ 48 then 0 else f + 1 := by
  have length : Wheel.seven.gaps.length = 48 := rfl
  rw [Wheel.next, length]
  split <;> split <;> omega

/-- The largest divisor that an `int` holds. It is on the wheel. -/
def top : ℕ := 2 ^ 31 - 1

theorem top_coprime : top.Coprime Wheel.seven.circumference := by decide

/-- What a loop over divisors has marked. -/
structure Marked (nn p : ℕ) (before after : Table) (divisors : List ℕ) : Prop where
  marks : ∀ i < TSIZ8, after.clear i ↔ before.clear i ∧ ∀ q ∈ divisors, ¬ q ∣ nn + i
  small : ∀ q ∈ divisors, q = p ∨ q * q ≤ nn + TSIZ8
  above : ∀ q ∈ divisors, p ≤ q
  primes : ∀ q : ℕ, q.Prime → p ≤ q → q * q ≤ nn + TSIZ8 → q ∈ divisors

/-- Below the square of the largest `int` the divisors of a window end without an overflow, and no
prime up to the root is left out. -/
theorem divisors_spec (table : Table) (here : Wheel.seven.At p f) (low : 7 < p) (high : p < top)
    (room : nn + TSIZ8 < top * top) : ∃ after list,
      Settles (fun fuel => divisors nn fuel table p f) after ∧ Marked nn p table after list := by
  obtain ⟨size, measure⟩ : ∃ size, size = top - p := ⟨_, rfl⟩
  induction size using Nat.strong_induction_on generalizing p f table with
  | h size ih =>
      have gap := Wheel.seven_gap here.inside
      have bound : p + Wheel.seven.gap f ≤ top := here.le_coprime top_coprime high
      have fits : int (p + Wheel.seven.gap f) = .ok (p + Wheel.seven.gap f) :=
        if_pos (bound.trans_lt (by decide))
      have marks : ∀ i < TSIZ8, (mark nn table p).clear i ↔ table.clear i ∧ ¬ p ∣ nn + i := by
        intro i inside
        rw [mark_clear (by omega) nn table inside, Bool.and_eq_true, decide_eq_true_iff]
      obtain more | last := em (leRoot (p + Wheel.seven.gap f) (nn + TSIZ8))
      · have below : p + Wheel.seven.gap f < top := by
          by_contra reached
          have := Nat.mul_le_mul (Nat.le_of_not_lt reached) (Nat.le_of_not_lt reached)
          exact absurd (this.trans more) (by omega)
        obtain ⟨after, list, settled, marked⟩ :=
          ih _ (by omega) (mark nn table p) here.step (by omega) below rfl
        refine ⟨after, p :: list, settled.succ fun fuel => ?_, ?_, ?_, ?_, ?_⟩
        · simp only [divisors, factab_eq, fits, bind, Except.bind, if_pos more,
            next_eq f here.inside]
        · intro i inside
          rw [marked.marks i inside, marks i inside, and_assoc, List.forall_mem_cons]
        · refine List.forall_mem_cons.mpr ⟨.inl rfl, fun q mem => .inr ?_⟩
          obtain rfl | small := marked.small q mem
          · exact more
          · exact small
        · refine List.forall_mem_cons.mpr ⟨le_rfl, fun q mem => ?_⟩
          exact (Nat.le_add_right _ _).trans (marked.above q mem)
        · intro q prime above square
          obtain rfl | further := above.eq_or_lt
          · exact List.mem_cons_self
          · refine List.mem_cons_of_mem _ (marked.primes q prime ?_ square)
            exact here.le_prime prime (by omega) further
      · refine ⟨mark nn table p, [p], ⟨1, fun fuel enough => ?_⟩, ?_, ?_, ?_, ?_⟩
        · obtain ⟨rest, rfl⟩ : ∃ rest, fuel = rest + 1 := ⟨fuel - 1, by omega⟩
          simp only [divisors, factab_eq, fits, bind, Except.bind, if_neg last]
        · intro i inside
          rw [marks i inside, List.forall_mem_singleton]
        · exact List.forall_mem_singleton.mpr (.inl rfl)
        · exact List.forall_mem_singleton.mpr le_rfl
        · intro q prime above square
          obtain rfl | further := above.eq_or_lt
          · exact List.mem_cons_self
          · refine absurd ?_ last
            have reached := here.le_prime prime (by omega) further
            exact (Nat.mul_le_mul reached reached).trans square

/-- From the square of the largest `int` on the divisors of a window end in an overflow. -/
theorem divisors_overflow (table : Table) (here : Wheel.seven.At p f) (high : p ≤ top)
    (room : top * top ≤ nn + TSIZ8) (fuel : ℕ) (after : Table) :
    divisors nn fuel table p f ≠ .ok after := by
  induction fuel generalizing p f table with
  | zero => exact fun ended => nomatch ended
  | succ fuel ih =>
      simp only [divisors, factab_eq, bind, Except.bind]
      obtain below | reached := high.lt_or_eq
      · have bound : p + Wheel.seven.gap f ≤ top := here.le_coprime top_coprime below
        have more : leRoot (p + Wheel.seven.gap f) (nn + TSIZ8) :=
          (Nat.mul_le_mul bound bound).trans room
        rw [int, if_pos (bound.trans_lt (by decide))]
        dsimp only
        rw [if_pos more, ← next_eq f here.inside]
        exact ih _ here.step bound
      · have gap := Wheel.seven_gap here.inside
        have large : ¬ p + Wheel.seven.gap f < 2 ^ 31 := by
          rw [reached, top]
          omega
        rw [int, if_neg large]
        exact fun ended => nomatch ended

/-! ## One window -/

/-- An odd number of a window is prime when no divisor of the window divides it. -/
theorem prime_iff {before after : Table} {list : List ℕ} {x : ℕ} (low : 99 ≤ nn) (above : nn ≤ x)
    (below : x < nn + TSIZ8) (odd : x % 2 = 1) (marked : Marked nn 11 before after list) :
    ((¬ 3 ∣ x ∧ ¬ 5 ∣ x ∧ ¬ 7 ∣ x) ∧ ∀ q ∈ list, ¬ q ∣ x) ↔ x.Prime := by
  constructor
  · rintro ⟨⟨three, five, seven⟩, others⟩
    by_contra composite
    have prime := Nat.minFac_prime (n := x) (by omega)
    have divides := Nat.minFac_dvd x
    have square := Nat.minFac_sq_le_self (by omega) composite
    generalize x.minFac = q at prime divides square
    obtain large | small := le_or_gt 11 q
    · exact others q (marked.primes q prime large (by rw [← sq]; omega)) divides
    · have := prime.two_le
      have parity := prime.eq_two_or_odd
      have even : q ≠ 2 := by
        rintro rfl
        omega
      have : q ≠ 3 := fun same => three (same ▸ divides)
      have : q ≠ 5 := fun same => five (same ▸ divides)
      have : q ≠ 7 := fun same => seven (same ▸ divides)
      obtain rfl : q = 9 := by omega
      exact absurd prime (by decide)
  · intro prime
    have free : ∀ q, 2 ≤ q → q < x → ¬ q ∣ x := fun q two less divides => by
      have := (Nat.dvd_prime prime).mp divides
      omega
    refine ⟨⟨free 3 (by decide) (by omega), free 5 (by decide) (by omega),
      free 7 (by decide) (by omega)⟩, fun q mem => ?_⟩
    have two := marked.above q mem
    refine free q (by omega) ?_
    obtain rfl | square := marked.small q mem
    · omega
    · by_contra large
      have long := Nat.mul_le_mul (show nn ≤ q by omega) (show 99 ≤ q by omega)
      have size : TSIZ8 = 8000 := rfl
      omega

/-- The numbers of a window that are printed. -/
def primesFrom (n count : ℕ) : List ℕ := (List.range' n count).filter (fun p => p.Prime)

theorem primesFrom_append (n a b : ℕ) :
    primesFrom n (a + b) = primesFrom n a ++ primesFrom (n + a) b := by
  rw [primesFrom, ← List.range'_append_1, List.filter_append]
  rfl

/-- An odd number and the even one behind it. -/
theorem primesFrom_two (odd : n % 2 = 1) (low : 2 ≤ n) :
    primesFrom n 2 = if n.Prime then [n] else [] := by
  have even : ¬ (n + 1).Prime := fun prime => by
    have := prime.eq_two_or_odd
    omega
  simp only [primesFrom, List.range'_succ, List.range'_zero, List.filter_cons, List.filter_nil,
    decide_eq_true_eq, if_neg even]

theorem sweep_next (table : Table) (nn : ℕ) (out : Out) (even : i % 2 = 0) (fits : i ≤ TSIZ8) :
    (sweep table i nn out).2 = nn + (TSIZ8 - i) := by
  have size : TSIZ8 = 8000 := rfl
  fun_induction sweep table i nn out with
  | case1 i nn out inside ih => exact (ih (by omega) (by omega)).trans (by omega)
  | case2 i nn out outside => exact (show nn = nn + (TSIZ8 - i) by omega)

theorem sweep_spec (table : Table) (odd : nn % 2 = 1) (low : 2 ≤ nn) (even : i % 2 = 0)
    (fits : i ≤ TSIZ8) (found : ∀ k, i + k < TSIZ8 → k % 2 = 0 →
      (table.clear (i + k) ↔ (nn + k).Prime)) (full : out.Full 512) :
    (sweep table i nn out).1.Full 512 ∧
      (sweep table i nn out).1.text = out.text ++ (primesFrom nn (TSIZ8 - i)).flatMap line := by
  have size : TSIZ8 = 8000 := rfl
  fun_induction sweep table i nn out with
  | case1 i nn out inside ih =>
      have later : ∀ k, i + 2 + k < TSIZ8 → k % 2 = 0 →
          (table.clear (i + 2 + k) ↔ (nn + 2 + k).Prime) := fun k near parity => by
        have := found (2 + k) (by omega) (by omega)
        rwa [← Nat.add_assoc, ← Nat.add_assoc] at this
      have still : (if table.clear i then print out nn else out).Full 512 := by
        split
        · exact print_full full nn
        · exact full
      obtain ⟨full', text⟩ := ih (by omega) (by omega) (by omega) (by omega) later still
      refine ⟨full', text.trans ?_⟩
      have count : TSIZ8 - i = 2 + (TSIZ8 - (i + 2)) := by omega
      rw [count, primesFrom_append, List.flatMap_append, ← List.append_assoc]
      congr 1
      have here := found 0 inside rfl
      rw [Nat.add_zero, Nat.add_zero] at here
      rw [primesFrom_two odd low]
      simp only [here]
      split
      · rw [print_text, List.flatMap_singleton]
      · rw [List.flatMap_nil, List.append_nil]
  | case2 i nn out outside =>
      have ended : TSIZ8 - i = 0 := by omega
      exact ⟨full, by rw [ended]; simp [primesFrom]⟩

theorem start_at : Wheel.seven.At 11 1 := ⟨by decide, by decide⟩

/-- A window prints its primes. -/
theorem window_spec (odd : nn % 2 = 1) (low : 99 ≤ nn) (room : nn + TSIZ8 < top * top)
    (full : out.Full 512) : ∃ out' : Out,
      Settles (fun fuel => window fuel nn out) (out', nn + TSIZ8) ∧ out'.Full 512 ∧
      out'.text = out.text ++ (primesFrom nn TSIZ8).flatMap line := by
  have size : TSIZ8 = 8000 := rfl
  obtain ⟨after, list, settled, marked⟩ := divisors_spec
    (mark nn (mark nn (mark nn (fun _ => 0) 3) 5) 7) start_at (by decide) (by decide) room
  have found : ∀ k, 0 + k < TSIZ8 → k % 2 = 0 → (after.clear (0 + k) ↔ (nn + k).Prime) := by
    intro k inside even
    rw [Nat.zero_add] at inside ⊢
    rw [marked.marks k inside, mark_clear (by decide) nn _ inside,
      mark_clear (by decide) nn _ inside, mark_clear (by decide) nn _ inside,
      ← prime_iff low (Nat.le_add_right _ _) (by omega) (by omega) marked]
    simp [Table.clear, and_assoc]
  obtain ⟨full', text⟩ := sweep_spec after odd (by omega) rfl (Nat.zero_le _) found full
  refine ⟨(sweep after 0 nn out).1, ?_, full', text⟩
  have fits : long (nn + TSIZ8) = .ok (nn + TSIZ8) := if_pos (room.trans (by norm_num [top]))
  refine (settled.bind (fun _ table => .ok (sweep table 0 nn out)) ?_).congr fun fuel => ?_
  · have pair : sweep after 0 nn out = ((sweep after 0 nn out).1, nn + TSIZ8) :=
      Prod.ext rfl (sweep_next after nn out rfl (Nat.zero_le _))
    rw [pair]
    exact .pure _
  · rw [window, fits]
    rfl

/-! ## The whole run -/

/-- The first windows print the primes of their numbers. -/
theorem windows_spec (odd : nn % 2 = 1) (low : 99 ≤ nn) (count : ℕ)
    (room : nn + TSIZ8 * count < top * top) (full : out.Full 512) : ∃ out' : Out,
      Settles (fun fuel => windows fuel count nn out) out' ∧ out'.Full 512 ∧
      out'.text = out.text ++ (primesFrom nn (TSIZ8 * count)).flatMap line := by
  induction count generalizing nn out with
  | zero => exact ⟨out, .pure out, full, by simp [primesFrom]⟩
  | succ count ih =>
      have size : TSIZ8 = 8000 := rfl
      rw [Nat.mul_succ] at room
      obtain ⟨middle, first, full', text⟩ := window_spec odd low (by omega) full
      obtain ⟨last, rest, full'', text'⟩ :=
        ih (show (nn + TSIZ8) % 2 = 1 by omega) (by omega) (by omega) full'
      refine ⟨last, ?_, full'', ?_⟩
      · exact (first.bind (fun fuel next => windows fuel count next.2 next.1) rest).congr
          fun fuel => by rw [windows]
      · rw [text', text, Nat.mul_succ, Nat.add_comm (TSIZ8 * count), primesFrom_append,
          List.flatMap_append, List.append_assoc]

/-- A window that reaches the square of the largest `int` overflows. -/
theorem window_overflow (far : top * top ≤ nn + TSIZ8) (fuel : ℕ) (next : Out × ℕ) :
    window fuel nn out ≠ .ok next := by
  intro ended
  cases table : divisors nn fuel (mark nn (mark nn (mark nn (fun _ => 0) 3) 5) 7) 11 1 with
  | ok after => exact divisors_overflow _ start_at (by decide) far fuel after table
  | error fault =>
      rw [window, table, long] at ended
      split at ended <;> exact nomatch ended

/-- A window is left with the number behind it. -/
theorem window_next {fuel : ℕ} {next : Out × ℕ} (ended : window fuel nn out = .ok next) :
    next.2 = nn + TSIZ8 := by
  rw [window, long] at ended
  split at ended
  · cases table : divisors nn fuel (mark nn (mark nn (mark nn (fun _ => 0) 3) 5) 7) 11 1 with
    | ok after =>
        rw [table] at ended
        rw [← Except.ok.inj ended]
        exact sweep_next after nn out rfl (Nat.zero_le _)
    | error fault =>
        rw [table] at ended
        exact nomatch ended
  · exact nomatch ended

/-- A run that reaches the square of the largest `int` overflows. -/
theorem windows_overflow (count : ℕ) (some : 0 < count) (far : top * top ≤ nn + TSIZ8 * count)
    (fuel : ℕ) (last : Out) : windows fuel count nn out ≠ .ok last := by
  induction count generalizing nn out with
  | zero => exact absurd some (Nat.lt_irrefl 0)
  | succ count ih =>
      intro ended
      rw [windows] at ended
      cases first : window fuel nn out with
      | error fault =>
          rw [first] at ended
          exact nomatch ended
      | ok next =>
          simp only [first, bind, Except.bind] at ended
          have place := window_next first
          cases count with
          | zero =>
              rw [Nat.zero_add, Nat.mul_one] at far
              exact window_overflow far fuel next first
          | succ count =>
              have later : top * top ≤ next.2 + TSIZ8 * (count + 1) := by
                rw [place]
                rw [Nat.mul_succ] at far
                omega
              exact ih (Nat.succ_pos count) later ended

/-! ## The start -/

/-- The number with which the windows start. -/
def first (n : ℕ) : ℕ := (start n).2 / 2 * 2 + 1

/-- The table holds the primes up to a hundred. -/
theorem pt_eq : pt = primesFrom 0 101 := by
  decide +kernel

theorem mem_primesFrom {p count : ℕ} :
    p ∈ primesFrom n count ↔ p.Prime ∧ n ≤ p ∧ p < n + count := by
  rw [primesFrom, List.mem_filter, List.mem_range'_1, decide_eq_true_iff]
  exact and_comm

theorem pt_dropWhile (small : n ≤ 101) : pt.dropWhile (· < n) = primesFrom n (101 - n) := by
  have split : pt = primesFrom 0 n ++ primesFrom n (101 - n) := by
    have parts := primesFrom_append 0 n (101 - n)
    rw [Nat.add_sub_cancel' small, Nat.zero_add] at parts
    exact pt_eq.trans parts
  rw [split, List.dropWhile_append_of_pos fun p mem => ?_]
  · cases rest : primesFrom n (101 - n) with
    | nil => rfl
    | cons p rest' =>
        have above := (mem_primesFrom.mp (rest ▸ List.mem_cons_self)).2.1
        rw [List.dropWhile_cons_of_neg]
        simpa using above
  · have below := (mem_primesFrom.mp mem).2.2
    simpa using below

theorem pt_dropWhile_large (large : 98 ≤ n) : pt.dropWhile (· < n) = [] := by
  have bound : ∀ p ∈ pt, p < 98 := by decide
  exact List.dropWhile_eq_nil_iff.mpr fun p mem => decide_eq_true ((bound p mem).trans_le large)

theorem start_small (small : n < 98) :
    start n = ((primesFrom n (101 - n)).foldl print .empty, 100) := by
  have largest : 97 ∈ primesFrom n (101 - n) :=
    mem_primesFrom.mpr ⟨by decide, by omega, by omega⟩
  rw [start, if_pos (by omega), pt_dropWhile (by omega)]
  cases list : primesFrom n (101 - n) with
  | nil =>
      rw [list] at largest
      exact absurd largest List.not_mem_nil
  | cons p rest => rfl

theorem start_large (large : 98 ≤ n) : start n = (.empty, n) := by
  rw [start, pt_dropWhile_large large]
  exact ite_self _

/-- The start prints what lies before the windows. -/
theorem start_spec (positive : 0 < n) : first n % 2 = 1 ∧ 99 ≤ first n ∧ n ≤ first n ∧
    (start n).1.Full 512 ∧ (start n).1.text = (primesFrom n (first n - n)).flatMap line := by
  have full : Writer.Full 512 (.empty : Out) := .empty (by decide)
  obtain small | large := Nat.lt_or_ge n 98
  · have place : first n = 101 := by simp [first, start_small small]
    rw [place, start_small small]
    exact ⟨rfl, by decide, by omega, foldl_full full _, foldl_print _ _⟩
  · have place : first n = n / 2 * 2 + 1 := by rw [first, start_large large]
    rw [place, start_large large]
    refine ⟨by omega, by omega, by omega, full, ?_⟩
    obtain even | odd := Nat.mod_two_eq_zero_or_one n
    · have composite : ¬ n.Prime := fun prime => by
        have := prime.eq_two_or_odd
        omega
      have one : n / 2 * 2 + 1 - n = 1 := by omega
      simp [one, primesFrom, List.range'_succ, composite]
    · have none : n / 2 * 2 + 1 - n = 0 := by omega
      rw [none]
      rfl

/-- As long as the windows end below the square of the largest `int`, each prime from the number on
is put out once and in order, and nothing else. -/
theorem primes_printed {count : ℕ} (positive : 0 < n)
    (room : first n + TSIZ8 * count < top * top) : ∃ (out : Out) (printed : List ℕ),
      Settles (fun fuel => primes fuel count n) out ∧ out.buffer.length < 512 ∧
      out.writes.flatten ++ out.buffer = printed.flatMap line ∧ printed.Pairwise (· < ·) ∧
      ∀ p, p ∈ printed ↔ p.Prime ∧ n ≤ p ∧ p < first n + TSIZ8 * count := by
  obtain ⟨odd, low, above, full, text⟩ := start_spec positive
  obtain ⟨out, settled, full', text'⟩ := windows_spec odd low count room full
  refine ⟨out, primesFrom n (first n - n + TSIZ8 * count), ?_, full'.waiting, ?_, ?_, fun p => ?_⟩
  · refine settled.congr fun fuel => ?_
    rw [primes, if_neg (by omega)]
    rfl
  · refine text'.trans ?_
    rw [text, primesFrom_append, List.flatMap_append, Nat.add_sub_cancel' above]
  · exact (List.pairwise_lt_range').filter _
  · have last : n + (first n - n + TSIZ8 * count) = first n + TSIZ8 * count := by omega
    rw [mem_primesFrom, last]

theorem primes_printed_hundred : 0 < 100 ∧ first 100 + TSIZ8 * 10 ^ 14 < top * top ∧
    ∃ (out : Out) (printed : List ℕ),
      Settles (fun fuel => primes fuel (10 ^ 14) 100) out ∧ out.buffer.length < 512 ∧
      out.writes.flatten ++ out.buffer = printed.flatMap line ∧ printed.Pairwise (· < ·) ∧
      ∀ p, p ∈ printed ↔ p.Prime ∧ 100 ≤ p ∧ p < first 100 + TSIZ8 * 10 ^ 14 :=
  ⟨by decide, by decide, primes_printed (by decide) (by decide)⟩

/-- Nothing is printed for the number zero, and a run from a hundred ends in an overflow. -/
theorem not_every_prime :
    (¬ ∃ (out : Out) (printed : List ℕ), Settles (fun fuel => primes fuel 1 0) out ∧
      out.writes.flatten ++ out.buffer = printed.flatMap line ∧
      ∀ p, p ∈ printed ↔ p.Prime ∧ 0 ≤ p ∧ p < first 0 + TSIZ8 * 1) ∧
    ∀ fuel out, primes fuel (10 ^ 15) 100 ≠ .ok out := by
  constructor
  · rintro ⟨out, printed, settled, text, primes⟩
    have empty : out = .empty := settled.unique (.pure _)
    have two : 2 ∈ printed := (primes 2).mpr ⟨by decide, by decide, by decide⟩
    rw [empty] at text
    obtain ⟨before, after, rfl⟩ := List.append_of_mem two
    simp [line, Writer.empty] at text
  · intro fuel out
    rw [primes, if_neg (by decide)]
    exact windows_overflow _ (by decide) (by decide) fuel out

end UnixV7.Primes
