import UnixV7.Library.Calendar
import UnixV7.Library.Fuel

/-!
# Calendar time

`gmtime` and `dysize` of `ctime.c`, in integers of the sizes of C: a sum, a product or a conversion
that does not fit is an error.
-/

namespace UnixV7.Libc

open Fuel Calendar

/-- An `int`. -/
def int (x : ℤ) : Except Unit ℤ := if -2 ^ 31 ≤ x ∧ x < 2 ^ 31 then .ok x else .error ()

/-- A `time_t`, which is a `long long`. -/
def time (x : ℤ) : Except Unit ℤ := if -2 ^ 63 ≤ x ∧ x < 2 ^ 63 then .ok x else .error ()

/-- `struct tm` -/
structure Tm where
  tm_sec : ℤ
  tm_min : ℤ
  tm_hour : ℤ
  tm_mday : ℤ
  tm_mon : ℤ
  tm_year : ℤ
  tm_wday : ℤ
  tm_yday : ℤ
  tm_isdst : ℤ
  deriving DecidableEq

/-- `dysize` -/
def dysize (y : ℤ) : ℤ :=
  if y.tmod 4 = 0 ∧ (y.tmod 100 ≠ 0 ∨ y.tmod 400 = 0) then 366 else 365

/-- `dmsize`, for a leap year or another. -/
def dmsize (leap : Bool) : List ℤ :=
  [31, if leap then 29 else 28, 31, 30, 31, 30, 31, 31, 30, 31, 30, 31]

/-- `hms` and `day` -/
def clock (tim : ℤ) : Except Unit (ℤ × ℤ) :=
  let hms := tim.tmod 86400
  let day := tim.tdiv 86400
  if hms < 0 then do
    let hms ← time (hms + 86400)
    let day ← time (day - 1)
    .ok (hms, day)
  else
    .ok (hms, day)

/-- The loop `day >= dysize(d1)`, with `d1` and `day`. -/
def yearsUp : ℕ → ℤ → ℤ → Except Unit (ℤ × ℤ)
  | 0, _, _ => .error ()
  | fuel + 1, d1, day =>
      if dysize d1 ≤ day then do
        let day ← time (day - dysize d1)
        let d1 ← int (d1 + 1)
        yearsUp fuel d1 day
      else
        .ok (d1, day)

/-- The loop `day<0`. -/
def yearsDown : ℕ → ℤ → ℤ → Except Unit (ℤ × ℤ)
  | 0, _, _ => .error ()
  | fuel + 1, d1, day =>
      if day < 0 then do
        let before ← int (d1 - 1)
        let day ← time (day + dysize before)
        yearsDown fuel before day
      else
        .ok (d1, day)

/-- The year number. -/
def years (fuel : ℕ) (day : ℤ) : Except Unit (ℤ × ℤ) :=
  if 0 ≤ day then yearsUp fuel 1970 day else yearsDown fuel 1970 day

/-- The loop over the months, with `d1` and `d0`. -/
def months (sizes : List ℤ) : ℕ → ℕ → ℤ → Except Unit (ℕ × ℤ)
  | 0, _, _ => .error ()
  | fuel + 1, d1, d0 =>
      match sizes[d1]? with
      | none => .error ()
      | some size => if size ≤ d0 then months sizes fuel (d1 + 1) (d0 - size) else .ok (d1, d0)

/-- `gmtime` -/
def gmtime (tim : ℤ) (fuel : ℕ) : Except Unit Tm := do
  let (hms, day) ← clock tim
  let cyc := day.tdiv 146097
  let day := day.tmod 146097
  let tm_sec ← int (hms.tmod 60)
  let minutes ← int (hms.tdiv 60)
  let wday ← time (day + 7340036)
  let tm_wday ← int (wday.tmod 7)
  let (d1, day) ← years fuel day
  let years ← time (cyc.tmod 25 * 400)
  let year ← time (d1 + years)
  let year ← time (year + 10000)
  let tm_year ← int (year.tmod 10000 - 1900)
  let d0 ← int day
  let (mon, mday) ← months (dmsize (dysize d1 = 366)) fuel 0 d0
  let tm_mday ← int (mday + 1)
  .ok
    { tm_sec := tm_sec
      tm_min := minutes.tmod 60
      tm_hour := minutes.tdiv 60
      tm_mday := tm_mday
      tm_mon := mon
      tm_year := tm_year
      tm_wday := tm_wday
      tm_yday := d0
      tm_isdst := 0 }

/-- A time by the calendar: the date of its day, the year of it modulo 10000, and the time of
day. -/
def civil (tim : ℤ) : Tm :=
  let d := date (tim / 86400)
  let s := tim % 86400
  { tm_sec := s % 60
    tm_min := s / 60 % 60
    tm_hour := s / 3600
    tm_mday := d.mday
    tm_mon := d.month
    tm_year := d.year % 10000 - 1900
    tm_wday := d.wday
    tm_yday := d.yday
    tm_isdst := 0 }

variable {x y day tim : ℤ} {n : ℕ}

theorem int_eq (low : -2 ^ 31 ≤ x) (high : x < 2 ^ 31) : int x = .ok x := if_pos ⟨low, high⟩

theorem time_eq (low : -2 ^ 63 ≤ x) (high : x < 2 ^ 63) : time x = .ok x := if_pos ⟨low, high⟩

theorem dysize_eq (y : ℤ) : dysize y = yearLength y := by
  have leap : (y.tmod 4 = 0 ∧ (y.tmod 100 ≠ 0 ∨ y.tmod 400 = 0)) ↔ Leap y := by
    simp only [Leap, ne_eq, ← Int.dvd_iff_tmod_eq_zero]
  rw [dysize, yearLength]
  simp only [leap]
  split <;> rfl

theorem yearLength_bounds (y : ℤ) : 365 ≤ yearLength y ∧ yearLength y ≤ 366 := by
  rw [yearLength]
  split <;> decide

/-- What C's division leaves. -/
theorem truncated (x : ℤ) {b : ℤ} (positive : 0 < b) :
    b * x.tdiv b + x.tmod b = x ∧ -b < x.tmod b ∧ x.tmod b < b ∧ (0 ≤ x → 0 ≤ x.tmod b) ∧
      (x < 0 → x.tmod b ≤ 0) := by
  refine ⟨Int.mul_tdiv_add_tmod x b, Int.lt_tmod_of_pos x positive, Int.tmod_lt_of_pos x positive,
    Int.tmod_nonneg b, fun negative => ?_⟩
  have opposite := Int.tmod_nonneg b (show 0 ≤ -x by omega)
  rw [Int.neg_tmod] at opposite
  omega

/-- The second of the day and the number of the day. -/
theorem clock_eq (low : -2 ^ 63 ≤ tim) (high : tim < 2 ^ 63) :
    clock tim = .ok (tim % 86400, tim / 86400) := by
  obtain ⟨whole, above, below, positive, negative⟩ := truncated tim (show 0 < 86400 by decide)
  rw [clock]
  generalize tim.tmod 86400 = hms at whole above below positive negative ⊢
  generalize tim.tdiv 86400 = day at whole ⊢
  split
  next less =>
    rw [time_eq (by omega) (by omega), time_eq (by omega) (by omega)]
    rw [show hms + 86400 = tim % 86400 by omega, show day - 1 = tim / 86400 by omega]
    rfl
  next more =>
    rw [show hms = tim % 86400 by omega, show day = tim / 86400 by omega]

/-- The loop forwards from a year. -/
theorem yearsUp_spec (n : ℕ) (d1 day : ℤ) (size : day < n) (nonneg : 0 ≤ day) (low : -2 ^ 31 ≤ d1)
    (high : d1 + day < 2 ^ 31 - 1) :
    ∃ y d : ℤ, Settles (fun fuel => yearsUp fuel d1 day) (y, d) ∧
      yearStart d1 + day = yearStart y + d ∧ 0 ≤ d ∧ d < yearLength y := by
  induction n generalizing d1 day with
  | zero =>
      push_cast at size
      omega
  | succ n ih =>
      have bounds := yearLength_bounds d1
      have next := yearStart_succ d1
      by_cases more : dysize d1 ≤ day
      · have more' := more
        rw [dysize_eq] at more'
        obtain ⟨y, d, settles, sum, rest⟩ := ih (d1 + 1) (day - yearLength d1)
          (by push_cast at size; omega) (by omega) (by omega) (by omega)
        refine ⟨y, d, settles.succ fun fuel => ?_, by omega, rest⟩
        rw [yearsUp, if_pos more, dysize_eq, time_eq (by omega) (by omega),
          int_eq (by omega) (by omega)]
        rfl
      · have less := more
        rw [dysize_eq] at less
        refine ⟨d1, day, (Settles.pure _).succ fun fuel => ?_, rfl, nonneg, by omega⟩
        rw [yearsUp, if_neg more]

/-- The loop backwards from a year. -/
theorem yearsDown_spec (n : ℕ) (d1 day : ℤ) (size : -day < n) (less : day < yearLength d1)
    (bounds : -2 ^ 31 ≤ d1 + day) (low : -2 ^ 62 ≤ day) (high : d1 < 2 ^ 31) :
    ∃ y d : ℤ, Settles (fun fuel => yearsDown fuel d1 day) (y, d) ∧
      yearStart d1 + day = yearStart y + d ∧ 0 ≤ d ∧ d < yearLength y := by
  induction n generalizing d1 day with
  | zero =>
      push_cast at size
      refine ⟨d1, day, (Settles.pure _).succ fun fuel => ?_, rfl, by omega, less⟩
      rw [yearsDown, if_neg (by omega)]
  | succ n ih =>
      by_cases negative : day < 0
      · have length := yearLength_bounds (d1 - 1)
        have next := yearStart_succ (d1 - 1)
        rw [sub_add_cancel] at next
        obtain ⟨y, d, settles, sum, rest⟩ := ih (d1 - 1) (day + yearLength (d1 - 1))
          (by push_cast at size; omega) (by omega) (by omega) (by omega) (by omega)
        refine ⟨y, d, settles.succ fun fuel => ?_, by omega, rest⟩
        rw [yearsDown, if_pos negative, int_eq (by omega) (by omega)]
        simp only [dysize_eq]
        rw [show (Except.ok (d1 - 1) >>= fun before => time (day + yearLength before) >>=
          fun day => yearsDown fuel before day) = time (day + yearLength (d1 - 1)) >>=
          fun day => yearsDown fuel (d1 - 1) day from rfl, time_eq (by omega) (by omega)]
        rfl
      · refine ⟨d1, day, (Settles.pure _).succ fun fuel => ?_, rfl, by omega, less⟩
        rw [yearsDown, if_neg negative]

/-- The year of a day of the 400 years around the epoch. -/
theorem years_spec (low : -146097 < day) (high : day < 146097) :
    ∃ y d : ℤ, Settles (fun fuel => years fuel day) (y, d) ∧ day = yearStart y + d ∧ 0 ≤ d ∧
      d < yearLength y ∧ 1569 ≤ y ∧ y ≤ 2370 := by
  have start : yearStart 1970 = 0 := rfl
  have range : ∀ y d : ℤ, day = yearStart y + d → 0 ≤ d → d < yearLength y →
      1569 ≤ y ∧ y ≤ 2370 := by
    intro y d sum nonneg less
    have bounds := yearLength_bounds y
    rw [yearStart] at sum
    omega
  by_cases positive : 0 ≤ day
  · obtain ⟨y, d, settles, sum, nonneg, less⟩ := yearsUp_spec (day.toNat + 1) 1970 day
      (by omega) positive (by omega) (by omega)
    rw [start, zero_add] at sum
    refine ⟨y, d, settles.congr fun fuel => ?_, sum, nonneg, less, range y d sum nonneg less⟩
    rw [years, if_pos positive]
  · have bounds := yearLength_bounds 1970
    obtain ⟨y, d, settles, sum, nonneg, less⟩ := yearsDown_spec ((-day).toNat + 1) 1970 day
      (by omega) (by omega) (by omega) (by omega) (by omega)
    rw [start, zero_add] at sum
    refine ⟨y, d, settles.congr fun fuel => ?_, sum, nonneg, less, range y d sum nonneg less⟩
    rw [years, if_neg positive]

/-- The loop over the months from one of them on. -/
theorem months_spec (sizes : List ℕ) (k i : ℕ) (d0 : ℤ) (left : i + k = sizes.length)
    (nonneg : 0 ≤ d0) (less : (sizes.take i).sum + d0 < sizes.sum) :
    ∃ (m : ℕ) (d : ℤ), Settles (fun fuel => months (sizes.map (↑)) fuel i d0) (m, d) ∧
      m < sizes.length ∧ 0 ≤ d ∧ d < sizes.getD m 0 ∧
      (sizes.take i).sum + d0 = (sizes.take m).sum + d := by
  induction k generalizing i d0 with
  | zero =>
      rw [List.take_of_length_le (by omega)] at less
      omega
  | succ k ih =>
      have inside : i < sizes.length := by omega
      have next := List.sum_take_succ sizes i inside
      have entry : (sizes.map ((↑) : ℕ → ℤ))[i]? = some (sizes[i] : ℤ) := by
        rw [List.getElem?_map, List.getElem?_eq_getElem inside]
        rfl
      by_cases more : (sizes[i] : ℤ) ≤ d0
      · obtain ⟨m, d, settles, rest⟩ := ih (i + 1) (d0 - sizes[i]) (by omega) (by omega)
          (by rw [next, Nat.cast_add]; omega)
        obtain ⟨inside', low, high, sum⟩ := rest
        refine ⟨m, d, settles.succ fun fuel => ?_, inside', low, high, ?_⟩
        · rw [months, entry]
          exact if_pos more
        · rw [next, Nat.cast_add] at sum
          omega
      · refine ⟨i, d0, (Settles.pure _).succ fun fuel => ?_, inside, nonneg, ?_, rfl⟩
        · rw [months, entry]
          exact if_neg more
        · rw [List.getD_eq_getElem?_getD, List.getElem?_eq_getElem inside]
          exact not_le.mp more

theorem dmsize_eq (y : ℤ) :
    dmsize (decide (dysize y = 366)) = (monthLengths y).map (↑) := by
  have leap : dysize y = 366 ↔ Leap y := by
    rw [dysize_eq, yearLength]
    split
    next leap => exact iff_of_true rfl leap
    next other => exact iff_of_false (by decide) other
  simp only [dmsize, leap, decide_eq_true_eq, monthLengths]
  split <;> rfl

theorem sum_monthLengths (y : ℤ) : (monthLengths y).sum = yearLength y := by
  rw [monthLengths, yearLength]
  split <;> rfl

/-- `gmtime` gives the date of the calendar and the time of day, and no number on the way is too
large. -/
theorem gmtime_spec (low : -2 ^ 63 ≤ tim) (high : tim < 2 ^ 63) :
    Settles (fun fuel => gmtime tim fuel) (civil tim) := by
  obtain ⟨whole, above, below, -, -⟩ :=
    truncated (tim / 86400) (show 0 < 146097 by decide)
  obtain ⟨whole', above', below', -, -⟩ :=
    truncated ((tim / 86400).tdiv 146097) (show 0 < 25 by decide)
  obtain ⟨y, d, ⟨n, year⟩, sum, nonneg, less, early, late⟩ := years_spec above below
  obtain ⟨m, e, ⟨k, month⟩, inside, nonneg', less', sum'⟩ :=
    months_spec (monthLengths y) 12 0 d rfl nonneg (by
      rw [sum_monthLengths]
      simpa using less)
  have zero : ((List.take 0 (monthLengths y)).sum : ℤ) = 0 := rfl
  rw [zero, zero_add] at sum'
  have leap : monthLengths (y + 400 * (tim / 86400).tdiv 146097) = monthLengths y := by
    simp only [monthLengths, leap_add]
  have is : Date.Is (tim / 86400) ⟨y + 400 * (tim / 86400).tdiv 146097, m, (e + 1).toNat,
      ((tim / 86400 + 4) % 7).toNat, d.toNat⟩ := by
    refine ⟨?_, inside, ?_, ?_, ?_, ?_⟩
    · dsimp only
      rw [yearStart_add]
      omega
    · dsimp only
      omega
    · rw [Date.monthLength, leap]
      dsimp only
      omega
    · rw [before, leap]
      dsimp only
      omega
    · dsimp only
      omega
  have clock := clock_eq low high
  rw [civil, ← is.eq_date]
  have second := Int.emod_nonneg tim (show (86400 : ℤ) ≠ 0 by decide)
  have second' := Int.emod_lt_of_pos tim (show (0 : ℤ) < 86400 by decide)
  have range : -2 ^ 63 ≤ tim / 86400 ∧ tim / 86400 < 2 ^ 63 := by omega
  generalize tim / 86400 = D at clock range whole above below whole' above' below' year ⊢
  generalize tim % 86400 = s at clock second second' ⊢
  have week : (D.tmod 146097 + 7340036).tmod 7 = (D + 4) % 7 := by
    rw [Int.tmod_eq_emod_of_nonneg (by omega)]
    omega
  have cycle : (y + (D.tdiv 146097).tmod 25 * 400 + 10000).tmod 10000 =
      (y + 400 * D.tdiv 146097) % 10000 := by
    rw [Int.tmod_eq_emod_of_nonneg (by omega)]
    omega
  refine ⟨max n k, fun fuel enough => ?_⟩
  have found : years fuel (D.tmod 146097) = .ok (y, d) :=
    year fuel ((Nat.le_max_left n k).trans enough)
  have found' : months ((monthLengths y).map (↑)) fuel 0 d = .ok (m, e) :=
    month fuel ((Nat.le_max_right n k).trans enough)
  rw [← dmsize_eq] at found'
  simp only [gmtime, clock, bind, Except.bind, Int.tmod_eq_emod_of_nonneg second,
    Int.tdiv_eq_ediv_of_nonneg second]
  rw [int_eq (x := s % 60) (by omega) (by omega), int_eq (x := s / 60) (by omega) (by omega),
    time_eq (x := D.tmod 146097 + 7340036) (by omega) (by omega)]
  dsimp only
  rw [week, int_eq (x := (D + 4) % 7) (by omega) (by omega)]
  dsimp only
  rw [found]
  dsimp only
  rw [time_eq (x := (D.tdiv 146097).tmod 25 * 400) (by omega) (by omega)]
  dsimp only
  rw [time_eq (x := y + (D.tdiv 146097).tmod 25 * 400) (by omega) (by omega)]
  dsimp only
  rw [time_eq (x := y + (D.tdiv 146097).tmod 25 * 400 + 10000) (by omega) (by omega)]
  dsimp only
  rw [cycle, int_eq (x := (y + 400 * D.tdiv 146097) % 10000 - 1900) (by omega) (by omega)]
  dsimp only
  have length := yearLength_bounds y
  rw [int_eq (x := d) (by omega) (by omega)]
  dsimp only
  rw [found']
  dsimp only
  rw [int_eq (x := e + 1) (by omega) (by omega)]
  rw [Int.tmod_eq_emod_of_nonneg (show 0 ≤ s / 60 by omega),
    Int.tdiv_eq_ediv_of_nonneg (show 0 ≤ s / 60 by omega), show s / 60 / 60 = s / 3600 by omega,
    Int.toNat_of_nonneg (show 0 ≤ e + 1 by omega), Int.toNat_of_nonneg nonneg,
    Int.toNat_of_nonneg (show 0 ≤ (D + 4) % 7 by omega)]

/-- The last second before the epoch. -/
theorem gmtime_spec_before : Settles (fun fuel => gmtime (-1) fuel) (civil (-1)) :=
  gmtime_spec (by decide) (by decide)

end UnixV7.Libc
