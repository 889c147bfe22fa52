import Mathlib

/-! # Calendar time

`gmtime` and `mktime` for a process whose time zone is UTC: the Gregorian
calendar in both directions, no leap seconds. Months count from 0, years from
1900, as in `struct tm`. -/
namespace Jive5ab.Lib.Calendar

structure Tm where
  year : Int
  mon : Nat
  mday : Int
  hour : Int
  min : Int
  sec : Int

def isLeap (y : Int) : Bool := y % 4 = 0 && (y % 100 ≠ 0 || y % 400 = 0)

/-- Days from 1 January 1970 to 1 January of `y`. -/
def daysBeforeYear (y : Int) : Int :=
  365 * (y - 1970) + (y - 1) / 4 - (y - 1) / 100 + (y - 1) / 400 - 477

def monthStart (leap : Bool) (mon : Nat) : Int :=
  [0, 31, 59, 90, 120, 151, 181, 212, 243, 273, 304, 334].getD mon 365 +
    if leap && 2 ≤ mon then 1 else 0

def mktime (tm : Tm) : Int :=
  (daysBeforeYear (tm.year + 1900) + monthStart (isLeap (tm.year + 1900)) tm.mon + tm.mday - 1) *
    86400 + tm.hour * 3600 + tm.min * 60 + tm.sec

/-- The mean year is off by at most one. -/
def yearOf (days : Int) : Int :=
  let y := 1970 + 400 * days / 146097
  if days < daysBeforeYear y then y - 1
  else if daysBeforeYear (y + 1) ≤ days then y + 1
  else y

def monthOf (leap : Bool) (yday : Int) : Nat :=
  (List.range 11).countP fun m => decide (monthStart leap (m + 1) ≤ yday)

def gmtime (t : Int) : Tm :=
  let days := t / 86400
  let y := yearOf days
  let yday := days - daysBeforeYear y
  let mon := monthOf (isLeap y) yday
  { year := y - 1900, mon, mday := yday - monthStart (isLeap y) mon + 1
    hour := t % 86400 / 3600, min := t % 3600 / 60, sec := t % 60 }

/-- 97 leap years in 400, give or take two. -/
theorem daysBeforeYear_mean (y : Int) :
    146097 * (y - 1970) - 800 ≤ 400 * daysBeforeYear y ∧
      400 * daysBeforeYear y ≤ 146097 * (y - 1970) + 800 := by
  simp only [daysBeforeYear]
  omega

theorem daysBeforeYear_yearOf (days : Int) :
    daysBeforeYear (yearOf days) ≤ days ∧ days < daysBeforeYear (yearOf days + 1) := by
  have hmean : 146097 * (400 * days / 146097) ≤ 400 * days ∧
      400 * days < 146097 * (400 * days / 146097) + 146097 := by omega
  rw [yearOf]
  generalize hy : 1970 + 400 * days / 146097 = y
  split
  · have hbefore := daysBeforeYear_mean (y - 1)
    have hsame : y - 1 + 1 = y := by omega
    rw [hsame]
    omega
  split
  · have hafter := daysBeforeYear_mean (y + 1 + 1)
    omega
  · omega

theorem daysBeforeYear_mono {y z : Int} (h : y ≤ z) : daysBeforeYear y ≤ daysBeforeYear z := by
  obtain ⟨k, rfl⟩ := Int.le.dest h
  clear h
  induction k with
  | zero => exact Int.le_of_eq (congrArg daysBeforeYear (Int.add_zero y).symm)
  | succ k ih =>
    refine Int.le_trans ih ?_
    rw [Int.natCast_succ, ← Int.add_assoc]
    generalize y + (k : Int) = u
    simp only [daysBeforeYear]
    omega

/-- The year of a day between two new years. -/
theorem yearOf_between {days y z : Int} (hfrom : daysBeforeYear y ≤ days)
    (hto : days < daysBeforeYear z) : y ≤ yearOf days ∧ yearOf days < z := by
  obtain ⟨hle, hlt⟩ := daysBeforeYear_yearOf days
  constructor
  · by_contra hearly
    have hmono := daysBeforeYear_mono (show yearOf days + 1 ≤ y by omega)
    omega
  · by_contra hlate
    have hmono := daysBeforeYear_mono (show z ≤ yearOf days by omega)
    omega

/-- `tm_yday`, days since 1 January. -/
def yday (t : Int) : Int := t / 86400 - daysBeforeYear (yearOf (t / 86400))

theorem yday_range (t : Int) : 0 ≤ yday t ∧ yday t ≤ 365 := by
  obtain ⟨hle, hlt⟩ := daysBeforeYear_yearOf (t / 86400)
  have hlength : ∀ y, daysBeforeYear (y + 1) ≤ daysBeforeYear y + 366 := fun y => by
    simp only [daysBeforeYear]
    omega
  have hyear := hlength (yearOf (t / 86400))
  unfold yday
  omega

/-- A date given as the day of the year. -/
theorem mktime_yday (t : Int) :
    mktime ⟨(gmtime t).year, 0, yday t + 1, (gmtime t).hour, (gmtime t).min, (gmtime t).sec⟩ = t := by
  have hjanuary : ∀ leap, monthStart leap 0 = 0 := fun leap => by cases leap <;> rfl
  simp only [mktime, gmtime, yday, hjanuary, Int.sub_add_cancel]
  omega

theorem mktime_sec (tm : Tm) (sec : Int) :
    mktime { tm with sec } = mktime { tm with sec := 0 } + sec := by
  simp only [mktime]
  omega

theorem monthStart_nonneg (leap : Bool) (mon : Nat) : 0 ≤ monthStart leap mon := by
  by_cases hmon : mon < 12
  · cases leap <;> revert mon <;> decide
  · rw [monthStart, List.getD_eq_getElem?_getD, List.getElem?_eq_none (Nat.not_lt.mp hmon)]
    split <;> decide

theorem monthOf_first_half {leap : Bool} {yday : Int} (h : yday < monthStart leap 6) :
    monthOf leap yday < 6 := by
  have hsplit : List.range 11 = List.range 5 ++ [5, 6, 7, 8, 9, 10] := rfl
  have hlate : List.countP (fun m => decide (monthStart leap (m + 1) ≤ yday)) [5, 6, 7, 8, 9, 10] = 0 := by
    rw [List.countP_eq_zero]
    intro m hm
    have hmono : monthStart leap 6 ≤ monthStart leap (m + 1) := by
      cases leap <;> revert m <;> decide
    simp only [decide_eq_true_eq]
    omega
  have hearly := List.countP_le_length (l := List.range 5)
    (p := fun m => decide (monthStart leap (m + 1) ≤ yday))
  rw [List.length_range] at hearly
  rw [monthOf, hsplit, List.countP_append, hlate]
  omega

/-- The half of the year a day falls in has begun. -/
theorem monthStart_half_le (leap : Bool) (yday : Int) (h : 0 ≤ yday) :
    monthStart leap (monthOf leap yday / 6 * 6) ≤ yday := by
  have hle : monthOf leap yday ≤ 11 := List.countP_le_length
  by_cases hsecond : monthStart leap 6 ≤ yday
  · have hhalf : monthOf leap yday / 6 * 6 = 0 ∨ monthOf leap yday / 6 * 6 = 6 := by omega
    rcases hhalf with h0 | h6
    · rw [h0]
      cases leap <;> exact h
    · rw [h6]
      exact hsecond
  · have hfirst := monthOf_first_half (Int.not_le.mp hsecond)
    have hzero : monthOf leap yday / 6 * 6 = 0 := by omega
    rw [hzero]
    cases leap <;> exact h

/-! ## Digits of a time code -/

/-- Digits as they are put together again. -/
theorem three_digits (n : Nat) :
    100 * (n / 10 ^ 2 % 10) + 10 * (n / 10 ^ 1 % 10) + n / 10 ^ 0 % 10 = n % 10 ^ 3 := by
  rw [Nat.mod_pow_succ, Nat.mod_pow_succ, Nat.mod_pow_succ, pow_zero, Nat.mod_one]
  ring

theorem three_digits_of_lt {n : Nat} (h : n < 1000) :
    100 * (n / 10 ^ 2 % 10) + 10 * (n / 10 ^ 1 % 10) + n % 10 = n := by
  have hdigits := three_digits n
  rwa [Nat.mod_eq_of_lt (show n < 10 ^ 3 from h), pow_zero, Nat.div_one] at hdigits

theorem four_digits (n : Nat) :
    1000 * (n / 10 ^ 3 % 10) + (100 * (n / 10 ^ 2 % 10) + 10 * (n / 10 ^ 1 % 10) + n / 10 ^ 0 % 10) =
      n % 10 ^ 4 := by
  rw [three_digits, Nat.mod_pow_succ (k := 3), Nat.add_comm]

/-- The seconds of a day. -/
theorem clock_seconds (rest : Nat) :
    rest / 3600 * 3600 + rest % 3600 / 60 * 60 + rest % 3600 % 60 = rest := by
  have hminutes := Nat.div_add_mod (rest % 3600) 60
  have hhours := Nat.div_add_mod rest 3600
  rw [Nat.add_assoc, Nat.mul_comm _ 60, hminutes, Nat.mul_comm, hhours]

end Jive5ab.Lib.Calendar
