import Mathlib.Algebra.BigOperators.Group.List.Basic
import Mathlib.Algebra.Order.BigOperators.Group.List
import Mathlib.Algebra.Order.Ring.Int
import Mathlib.Algebra.Order.Ring.Nat
import Mathlib.Logic.Function.Iterate
import Mathlib.Tactic.Common
import Mathlib.Tactic.IntervalCases

/-!
# The Gregorian calendar

Dates are counted from Thursday, 1 January 1970, one day at a time, forwards and backwards without
end. The day a year begins with has a closed form, and the number of a day determines its date.
-/

namespace UnixV7

namespace Calendar

/-- A year with a 29 February. -/
def Leap (y : ℤ) : Prop := 4 ∣ y ∧ (¬100 ∣ y ∨ 400 ∣ y)

instance (y : ℤ) : Decidable (Leap y) := inferInstanceAs (Decidable (_ ∧ _))

/-- The days of a year. -/
def yearLength (y : ℤ) : ℕ := if Leap y then 366 else 365

/-- The days of the months. -/
def monthLengths (y : ℤ) : List ℕ :=
  [31, if Leap y then 29 else 28, 31, 30, 31, 30, 31, 31, 30, 31, 30, 31]

/-- A date: the months are counted from 0, the days of the week from Sunday on, and the days of the
year from 0. -/
@[ext]
structure Date where
  year : ℤ
  month : ℕ
  mday : ℕ
  wday : ℕ
  yday : ℕ
  deriving DecidableEq

/-- The days of the month that a date lies in. -/
def Date.monthLength (d : Date) : ℕ := (monthLengths d.year).getD d.month 0

/-- The day after. -/
def Date.next (d : Date) : Date :=
  let wday := (d.wday + 1) % 7
  if d.mday < d.monthLength then
    { d with mday := d.mday + 1, wday := wday, yday := d.yday + 1 }
  else if d.month < 11 then
    { d with month := d.month + 1, mday := 1, wday := wday, yday := d.yday + 1 }
  else
    { year := d.year + 1, month := 0, mday := 1, wday := wday, yday := 0 }

/-- The day before. -/
def Date.prev (d : Date) : Date :=
  let wday := (d.wday + 6) % 7
  if 1 < d.mday then
    { d with mday := d.mday - 1, wday := wday, yday := d.yday - 1 }
  else if 0 < d.month then
    { d with
      month := d.month - 1
      mday := (monthLengths d.year).getD (d.month - 1) 0
      wday := wday
      yday := d.yday - 1 }
  else
    { year := d.year - 1, month := 11, mday := 31, wday := wday
      yday := yearLength (d.year - 1) - 1 }

/-- Thursday, 1 January 1970. -/
def epoch : Date := ⟨1970, 0, 1, 4, 0⟩

/-- The date so many days after the epoch, or before it. -/
def date : ℤ → Date
  | .ofNat n => Date.next^[n] epoch
  | .negSucc n => Date.prev^[n + 1] epoch

/-- The number of the day that a year begins with. -/
def yearStart (y : ℤ) : ℤ := 365 * (y - 1970) + (y - 1) / 4 - (y - 1) / 100 + (y - 1) / 400 - 477

/-- The days of a year before a month. -/
def before (y : ℤ) (month : ℕ) : ℕ := ((monthLengths y).take month).sum

/-- The date of the day with a number. -/
structure Date.Is (n : ℤ) (d : Date) : Prop where
  day : n = yearStart d.year + d.yday
  month : d.month < 12
  first : 1 ≤ d.mday
  last : d.mday ≤ d.monthLength
  yday : d.yday + 1 = before d.year d.month + d.mday
  wday : (d.wday : ℤ) = (n + 4) % 7

variable {y z n : ℤ} {m : ℕ} {d e : Date}

theorem yearStart_succ (y : ℤ) : yearStart (y + 1) = yearStart y + yearLength y := by
  have leap : (yearLength y : ℤ) = if Leap y then 366 else 365 := by
    rw [yearLength]
    split <;> rfl
  rw [leap, yearStart, yearStart]
  simp only [Leap]
  split_ifs <;> omega

/-- After 400 years the calendar begins again. -/
theorem yearStart_add (y c : ℤ) : yearStart (y + 400 * c) = yearStart y + 146097 * c := by
  simp only [yearStart]
  omega

theorem yearStart_le (less : y < z) : yearStart y + yearLength y ≤ yearStart z := by
  rw [← yearStart_succ]
  simp only [yearStart]
  omega

theorem leap_add (y c : ℤ) : Leap (y + 400 * c) ↔ Leap y := by
  simp only [Leap]
  omega

theorem before_succ (y : ℤ) (inside : m < 12) :
    before y (m + 1) = before y m + (monthLengths y).getD m 0 := by
  have bound : m < (monthLengths y).length := inside
  rw [before, List.sum_take_succ _ _ bound, before, List.getD_eq_getElem?_getD,
    List.getElem?_eq_getElem bound]
  rfl

theorem before_mono (y : ℤ) {k : ℕ} (le : m ≤ k) : before y m ≤ before y k :=
  List.monotone_sum_take (monthLengths y) le

theorem month_pos (y : ℤ) (inside : m < 12) : 1 ≤ (monthLengths y).getD m 0 := by
  rw [monthLengths]
  split <;> interval_cases m <;> decide

/-- December is the last month. -/
theorem before_december (y : ℤ) : before y 11 + 31 = yearLength y := by
  rw [before, monthLengths, yearLength]
  split <;> rfl

namespace Date

theorem Is.yday_lt (is : d.Is n) : d.yday < yearLength d.year := by
  have last := is.last
  have yday := is.yday
  have upto := before_mono d.year (show d.month + 1 ≤ 12 from is.month)
  have whole : before d.year 12 = yearLength d.year := by
    rw [before_succ _ (by decide), ← before_december]
    rfl
  rw [before_succ _ is.month] at upto
  rw [monthLength] at last
  omega

/-- A day has one date. -/
theorem Is.unique (is : d.Is n) (is' : e.Is n) : d = e := by
  have same : d.year = e.year := by
    have low := is.yday_lt
    have low' := is'.yday_lt
    have day := is.day
    have day' := is'.day
    rcases lt_trichotomy d.year e.year with less | same | more
    · have := yearStart_le less
      omega
    · exact same
    · have := yearStart_le more
      omega
  have yday : d.yday = e.yday := by
    have day := is.day
    have day' := is'.day
    rw [same] at day
    omega
  have sum := is.yday
  have sum' := is'.yday
  have last := is.last
  have last' := is'.last
  rw [monthLength, same] at last
  rw [monthLength] at last'
  rw [same] at sum
  have up := before_succ e.year is.month
  have up' := before_succ e.year is'.month
  have first := is.first
  have first' := is'.first
  have month : d.month = e.month := by
    rcases lt_trichotomy d.month e.month with less | same | more
    · have := before_mono e.year (show d.month + 1 ≤ e.month from less)
      omega
    · exact same
    · have := before_mono e.year (show e.month + 1 ≤ d.month from more)
      omega
  rw [month] at sum
  have wday := is.wday
  have wday' := is'.wday
  exact Date.ext same month (by omega) (by omega) yday

theorem Is.next (is : d.Is n) : d.next.Is (n + 1) := by
  obtain ⟨day, month, first, last, yday, wday⟩ := is
  rw [Date.next]
  split
  next more =>
    refine ⟨?_, month, ?_, more, ?_, ?_⟩
    · push_cast
      omega
    · exact Nat.le_add_left 1 _
    · dsimp only
      omega
    · push_cast
      omega
  next full =>
    have up := before_succ d.year month
    rw [monthLength] at full last
    split
    next more =>
      refine ⟨?_, Nat.succ_lt_succ more, le_rfl, month_pos _ (Nat.succ_lt_succ more), ?_, ?_⟩
      · push_cast
        omega
      · dsimp only
        omega
      · push_cast
        omega
    next december =>
      have eleven : d.month = 11 := by omega
      have whole := before_december d.year
      rw [eleven] at yday full last
      have last' : d.mday ≤ 31 := last
      have full' : ¬d.mday < 31 := full
      refine ⟨?_, Nat.succ_pos 11, le_rfl, month_pos _ (Nat.succ_pos 11), rfl, ?_⟩
      · dsimp only
        rw [yearStart_succ]
        omega
      · push_cast
        omega

theorem Is.prev (is : d.Is n) : d.prev.Is (n - 1) := by
  obtain ⟨day, month, first, last, yday, wday⟩ := is
  rw [Date.prev]
  split
  next more =>
    rw [monthLength] at last
    refine ⟨?_, month, ?_, ?_, ?_, ?_⟩
    · push_cast
      omega
    · dsimp only
      omega
    · rw [monthLength]
      dsimp only
      omega
    · dsimp only
      omega
    · push_cast
      omega
  next one =>
    split
    next later =>
      have up := before_succ d.year (show d.month - 1 < 12 by omega)
      rw [Nat.sub_add_cancel later] at up
      have some := month_pos d.year (show d.month - 1 < 12 by omega)
      refine ⟨?_, ?_, some, le_rfl, ?_, ?_⟩
      · push_cast
        omega
      · dsimp only
        omega
      · dsimp only
        omega
      · push_cast
        omega
    next january =>
      have zero : d.month = 0 := by omega
      have start := yearStart_succ (d.year - 1)
      rw [sub_add_cancel] at start
      have whole := before_december (d.year - 1)
      rw [zero] at yday
      have yday' : d.yday + 1 = 0 + d.mday := yday
      refine ⟨?_, Nat.lt_succ_self 11, Nat.succ_pos 30, le_rfl, ?_, ?_⟩
      · dsimp only
        omega
      · dsimp only
        omega
      · push_cast
        omega

end Date

theorem epoch_is : epoch.Is 0 := ⟨rfl, by decide, by decide, by decide, rfl, rfl⟩

/-- Counting leads to the date of the day with that number. -/
theorem date_is (n : ℤ) : (date n).Is n := by
  cases n with
  | ofNat n =>
      induction n with
      | zero => exact epoch_is
      | succ n ih =>
          have step := ih.next
          rw [date, Function.iterate_succ_apply']
          exact step
  | negSucc n =>
      induction n with
      | zero => exact epoch_is.prev
      | succ n ih =>
          have step := ih.prev
          rw [date, Function.iterate_succ_apply']
          exact step

/-- The date of a day is found by counting. -/
theorem Date.Is.eq_date (is : d.Is n) : d = date n := is.unique (date_is n)

end Calendar

end UnixV7
