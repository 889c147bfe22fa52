import Jive5ab.Lib.Segments

/-! # Day numbers

`DayConversion`: month 0 is January, day 0 the first day of a month and day number 0 January
first, by the header's comment. `dayNrToMonthDay` counts both of them from 1. -/
namespace Jive5ab.Dot.DayConversion
open Lib.Segments

def isLeapYear (year : Int) : Bool :=
  year.tmod 4 = 0 && (!decide (year.tmod 100 = 0) || decide (year.tmod 400 = 0))

def daysPerMonth (year : Int) : List Nat :=
  if isLeapYear year then [31, 29, 31, 30, 31, 30, 31, 31, 30, 31, 30, 31]
  else [31, 28, 31, 30, 31, 30, 31, 31, 30, 31, 30, 31]

/-- The loop over the months that are left. -/
def findMonth (daynr : Int) : List Nat → Int → Int → Option (Int × Int)
  | [], _, _ => none
  | days :: rest, monthcnt, cumulativeday =>
    if cumulativeday < daynr then
      if daynr ≤ cumulativeday + days then some (monthcnt, daynr - cumulativeday)
      else findMonth daynr rest (monthcnt + 1) (cumulativeday + days)
    else none

/-- The month and the day, if the result is true. -/
def dayNrToMonthDay (daynr year : Int) : Option (Int × Int) :=
  findMonth daynr (daysPerMonth year) 0 0

def addMonths (month : Int) : List Nat → Int → Int → Int × Int
  | [], monthcnt, daynr => (monthcnt, daynr)
  | days :: rest, monthcnt, daynr =>
    if monthcnt < month then addMonths month rest (monthcnt + 1) (daynr + days)
    else (monthcnt, daynr)

/-- The day number, if the result is true. -/
def dayMonthDayToNr (month day year : Int) : Option Int :=
  let (monthcnt, daynr) := addMonths month (daysPerMonth year) 0 day
  let daynr := if 11 < monthcnt then -1 else daynr
  if daynr ≠ -1 then some daynr else none

/-! ## What is converted -/

def daysPerYear (year : Int) : Nat := if isLeapYear year then 366 else 365

def ValidDate (year month day : Int) : Prop :=
  0 ≤ month ∧ month ≤ 11 ∧ 0 ≤ day ∧ day < (daysPerMonth year).getD month.toNat 0

/-- A day number of the year comes back, any other one is refused. -/
def NumberComesBack (year daynr : Int) : Prop :=
  if 0 ≤ daynr ∧ daynr < daysPerYear year then
    ∃ month day, dayNrToMonthDay daynr year = some (month, day) ∧ ValidDate year month day ∧
      dayMonthDayToNr month day year = some daynr
  else dayNrToMonthDay daynr year = none

def DateComesBack (year month day : Int) : Prop :=
  ValidDate year month day → ∃ daynr, dayMonthDayToNr month day year = some daynr ∧
    dayNrToMonthDay daynr year = some (month, day)

/-- The number of the first day of a month, or of the year after. -/
def StartsMonth (year daynr : Int) : Prop := ∃ m ≤ 12, daynr = start (daysPerMonth year) m

theorem daysPerMonth_length (year : Int) : (daysPerMonth year).length = 12 := by
  unfold daysPerMonth
  split <;> rfl

theorem daysPerMonth_sum (year : Int) : (daysPerMonth year).sum = daysPerYear year := by
  unfold daysPerMonth daysPerYear
  split <;> rfl

theorem daysPerMonth_pos {year : Int} {m : Nat} (h : m < 12) :
    0 < (daysPerMonth year).getD m 0 := by
  unfold daysPerMonth
  split
  · revert m
    decide
  · revert m
    decide

/-! ## The loops -/

/-- The place that is found is the one before the day number. -/
theorem findMonth_eq_some {daynr : Int} {lengths : List Nat} {monthcnt cumulativeday : Int}
    {month day : Int} :
    findMonth daynr lengths monthcnt cumulativeday = some (month, day) ↔
      ∃ n m k : Nat, IsAt lengths n m k ∧ daynr = cumulativeday + n + 1 ∧ month = monthcnt + m ∧
        day = k + 1 := by
  induction lengths generalizing monthcnt cumulativeday with
  | nil => simp [findMonth, IsAt]
  | cons days rest ih =>
    rw [findMonth]
    by_cases hlow : cumulativeday < daynr
    · rw [if_pos hlow]
      by_cases hhigh : daynr ≤ cumulativeday + days
      · rw [if_pos hhigh]
        have hplace : IsAt (days :: rest) (daynr - cumulativeday - 1).toNat 0
            (daynr - cumulativeday - 1).toNat := ⟨rfl, by omega⟩
        simp only [Option.some.injEq, Prod.mk.injEq]
        constructor
        · rintro ⟨rfl, rfl⟩
          exact ⟨_, _, _, hplace, by omega, by omega, by omega⟩
        · rintro ⟨n, m, k, hat, hdaynr, rfl, rfl⟩
          obtain rfl : n = (daynr - cumulativeday - 1).toNat := by omega
          obtain ⟨rfl, rfl⟩ := hat.unique hplace
          omega
      · rw [if_neg hhigh, ih]
        constructor
        · rintro ⟨n, m, k, hat, rfl, rfl, rfl⟩
          exact ⟨days + n, m + 1, k, ⟨n, rfl, hat⟩, by omega, by omega, rfl⟩
        · rintro ⟨n, m, k, hat, rfl, rfl, rfl⟩
          cases m with
          | zero =>
            obtain ⟨rfl, hlt⟩ := hat
            omega
          | succ m =>
            obtain ⟨n', rfl, hat⟩ := hat
            exact ⟨n', m, k, hat, by omega, by omega, rfl⟩
    · rw [if_neg hlow]
      simp only [reduceCtorEq, false_iff]
      rintro ⟨n, m, k, -, rfl, -, -⟩
      omega

theorem dayNrToMonthDay_eq_some {daynr year month day : Int} :
    dayNrToMonthDay daynr year = some (month, day) ↔
      ∃ n m k : Nat, IsAt (daysPerMonth year) n m k ∧ daynr = n + 1 ∧ month = m ∧ day = k + 1 := by
  rw [dayNrToMonthDay, findMonth_eq_some]
  simp only [Int.zero_add]

theorem addMonths_eq {m : Nat} {lengths : List Nat} (h : m ≤ lengths.length)
    (monthcnt daynr : Int) :
    addMonths (monthcnt + m) lengths monthcnt daynr =
      (monthcnt + m, daynr + start lengths m) := by
  induction m generalizing lengths monthcnt daynr with
  | zero =>
    cases lengths with
    | nil => simp [addMonths]
    | cons days rest => simp [addMonths]
  | succ m ih =>
    cases lengths with
    | nil => simp at h
    | cons days rest =>
      have hstep : monthcnt + ((m + 1 : Nat) : Int) = monthcnt + 1 + m := by omega
      rw [List.length_cons] at h
      rw [addMonths, if_pos (by omega), hstep, ih (by omega), start_cons_succ]
      simp only [Prod.mk.injEq, true_and]
      omega

theorem dayMonthDayToNr_eq {year : Int} {m : Nat} {day : Int} (hm : m < 12) (hday : 0 ≤ day) :
    dayMonthDayToNr m day year = some (day + start (daysPerMonth year) m) := by
  have hlength := daysPerMonth_length year
  have hloop := addMonths_eq (show m ≤ (daysPerMonth year).length by omega) 0 day
  rw [Int.zero_add] at hloop
  unfold dayMonthDayToNr
  rw [hloop]
  simp only
  rw [if_neg (show ¬(11 : Int) < m by omega), if_pos (by omega)]

/-! ## Places of the year -/

theorem ValidDate.isAt {year month day : Int} (h : ValidDate year month day) :
    ∃ m k : Nat, month = m ∧ day = k ∧ m < 12 ∧
      IsAt (daysPerMonth year) (start (daysPerMonth year) m + k) m k := by
  obtain ⟨hmonth, hmonth', hday, hday'⟩ := h
  have hlength := daysPerMonth_length year
  refine ⟨month.toNat, day.toNat, by omega, by omega, by omega, isAt_iff.mpr ⟨?_, ?_, rfl⟩⟩
  · omega
  · omega

theorem validDate_of_isAt {year : Int} {n m k : Nat} (h : IsAt (daysPerMonth year) n m k) :
    ValidDate year m k := by
  obtain ⟨hm, hk, -⟩ := isAt_iff.mp h
  have hlength := daysPerMonth_length year
  refine ⟨by omega, by omega, by omega, ?_⟩
  rw [Int.toNat_natCast]
  omega

theorem isAt_of_pos {lengths : List Nat} {n m k : Nat} (h : IsAt lengths n m (k + 1)) :
    ∃ n', n = n' + 1 ∧ IsAt lengths n' m k := by
  obtain ⟨hm, hk, rfl⟩ := isAt_iff.mp h
  exact ⟨start lengths m + k, by omega, isAt_iff.mpr ⟨hm, by omega, rfl⟩⟩

/-- In the year, a day comes back if it is not the first of its month. -/
theorem numberComesBack_inYear {year : Int} {n m k : Nat}
    (h : IsAt (daysPerMonth year) n m k) :
    (∃ month day, dayNrToMonthDay n year = some (month, day) ∧ ValidDate year month day ∧
      dayMonthDayToNr month day year = some (n : Int)) ↔ k ≠ 0 := by
  constructor
  · rintro ⟨month, day, hconvert, hvalid, -⟩ rfl
    obtain ⟨n', m', k', hat', hn, rfl, rfl⟩ := dayNrToMonthDay_eq_some.mp hconvert
    obtain ⟨m'', k'', hm'', hk'', -, hat''⟩ := hvalid.isAt
    obtain ⟨-, -, rfl⟩ := isAt_iff.mp hat'
    obtain rfl : m' = m'' := by omega
    obtain rfl : n = start (daysPerMonth year) m' + k'' := by omega
    obtain ⟨-, rfl⟩ := h.unique hat''
    omega
  · intro hk
    obtain ⟨k, rfl⟩ := Nat.exists_eq_succ_of_ne_zero hk
    obtain ⟨n', rfl, hat'⟩ := isAt_of_pos h
    obtain ⟨hm, -, hn⟩ := isAt_iff.mp h
    have hlength := daysPerMonth_length year
    refine ⟨m, (k : Int) + 1, dayNrToMonthDay_eq_some.mpr ⟨n', m, k, hat', by omega, rfl, rfl⟩,
      validDate_of_isAt h, ?_⟩
    rw [dayMonthDayToNr_eq (by omega) (by omega)]
    exact congrArg some (by omega)

theorem startsMonth_iff_of_isAt {year : Int} {n m k : Nat}
    (h : IsAt (daysPerMonth year) n m k) : StartsMonth year n ↔ k = 0 := by
  have hlength := daysPerMonth_length year
  have hlt := h.lt_sum
  obtain ⟨hm, -, hn⟩ := isAt_iff.mp h
  constructor
  · rintro ⟨m', hm', hstart⟩
    have hm'' : m' ≠ 12 := by
      rintro rfl
      have hall : start (daysPerMonth year) 12 = (daysPerMonth year).sum := by
        rw [start, List.take_of_length_le (by omega)]
      omega
    have hat' : IsAt (daysPerMonth year) n m' 0 :=
      isAt_iff.mpr ⟨by omega, daysPerMonth_pos (by omega), by omega⟩
    exact (h.unique hat').2
  · rintro rfl
    exact ⟨m, by omega, by omega⟩

theorem numberComesBack_iff (year daynr : Int) :
    NumberComesBack year daynr ↔ ¬StartsMonth year daynr := by
  have hsum := daysPerMonth_sum year
  have hlength := daysPerMonth_length year
  unfold NumberComesBack
  split
  next hin =>
    obtain ⟨n, rfl⟩ := Int.eq_ofNat_of_zero_le hin.1
    obtain ⟨m, k, hat⟩ := exists_isAt (show n < (daysPerMonth year).sum by omega)
    exact (numberComesBack_inYear hat).trans (not_congr (startsMonth_iff_of_isAt hat).symm)
  next hout =>
    -- only the number of days itself is taken for a day of the year
    constructor
    · rintro hnone ⟨m, hm, rfl⟩
      have hle := start_le (daysPerMonth year) m
      have hpos : 0 < daysPerYear year := by
        unfold daysPerYear
        split <;> omega
      obtain ⟨m', k, hat⟩ :=
        exists_isAt (show daysPerYear year - 1 < (daysPerMonth year).sum by omega)
      have hsome := dayNrToMonthDay_eq_some.mpr
        ⟨_, m', k, hat, show (start (daysPerMonth year) m : Int) = _ by omega, rfl, rfl⟩
      rw [hnone] at hsome
      cases hsome
    · intro hstart
      rw [Option.eq_none_iff_forall_ne_some]
      rintro ⟨month, day⟩ hconvert
      obtain ⟨n, m, k, hat, rfl, -, -⟩ := dayNrToMonthDay_eq_some.mp hconvert
      have hlt := hat.lt_sum
      refine hstart ⟨12, Nat.le_refl 12, ?_⟩
      rw [start, List.take_of_length_le (by omega)]
      omega

theorem dateComesBack_iff (year month day : Int) :
    DateComesBack year month day ↔ ¬(ValidDate year month day ∧ day = 0) := by
  unfold DateComesBack
  rw [not_and]
  refine forall_congr' fun hvalid => ?_
  obtain ⟨m, k, rfl, rfl, hm, hat⟩ := hvalid.isAt
  rw [dayMonthDayToNr_eq hm (by omega)]
  simp only [Option.some.injEq, exists_eq_left', dayNrToMonthDay_eq_some]
  constructor
  · rintro ⟨n, m', k', -, -, -, hk⟩
    omega
  · intro hk
    obtain ⟨k, rfl⟩ := Nat.exists_eq_succ_of_ne_zero (show k ≠ 0 by omega)
    obtain ⟨n', hn, hat'⟩ := isAt_of_pos hat
    exact ⟨n', m, k, hat', by omega, rfl, by omega⟩

/-- Conversions go wrong for the first days of the months, and for the number behind the
last day of the year. -/
theorem dayConversion_iff (year daynr month day : Int) :
    (NumberComesBack year daynr ↔ ¬StartsMonth year daynr) ∧
      (DateComesBack year month day ↔ ¬(ValidDate year month day ∧ day = 0)) :=
  ⟨numberComesBack_iff year daynr, dateComesBack_iff year month day⟩

/-- January first. -/
theorem januaryFirst_refused : dayNrToMonthDay 0 2024 = none ∧ ¬NumberComesBack 2024 0 := by
  have hnone : dayNrToMonthDay 0 2024 = none := by decide
  refine ⟨hnone, ?_⟩
  unfold NumberComesBack
  rw [if_pos (by decide), hnone]
  rintro ⟨month, day, hsome, -⟩
  cases hsome

end Jive5ab.Dot.DayConversion
