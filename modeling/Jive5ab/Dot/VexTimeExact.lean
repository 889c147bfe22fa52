import Jive5ab.Dot.VexTime

/-! # What a VEX time does to the time

A parse is exact and atomic when it changes nothing, or stores all of a text that is nothing but
fields in their ranges. -/
namespace Jive5ab.Dot.VexTime
open Lib.Scanf DayConversion

/-! ## Exact and atomic -/

/-- An unsigned number and its separator, or nothing. -/
def States (sep : Char) (v : Option Nat) (text rest : List Char) : Prop :=
  match v with
  | some n => ∃ digits, Numeral digits ∧ n = ofDigits 10 digits ∧ text = digits ++ sep :: rest
  | none => rest = text

/-- The whole text is the last of the fields. -/
def Plain (text : List Char) (p : Fields (Option Nat) ℚ) : Prop :=
  ∃ d h m s digits, States 'y' p.year text d ∧ States 'd' p.doy d h ∧ States 'h' p.hh h m ∧
    States 'm' p.mm m s ∧ Decimal digits p.ss ∧ s = digits ++ ['s'] ∧ p.InSequence

def present {α : Type} (v : Option α) : Nat := if v.isSome then 1 else 0

def Fields.count (p : Fields (Option Nat) ℚ) : Nat :=
  present p.year + present p.doy + present p.hh + present p.mm + 1

/-- The members of the fields that are stated have their values, to the microsecond, the others
are what they were. -/
structure Replaces (p : Fields (Option Nat) ℚ) (t t' : Tm) (microseconds : Nat) : Prop where
  year : t'.year = (p.year.map fun n : Nat => (n : Int) - 1900).getD t.year
  date : p.doy.elim (t'.mon = t.mon ∧ t'.mday = t.mday) fun n =>
    ValidDate (t'.year + 1900) t'.mon (t'.mday - 1) ∧
      dayMonthDayToNr t'.mon (t'.mday - 1) (t'.year + 1900) = some ((n : Int) - 1)
  hour : p.hh.elim (t'.hour = t.hour) fun n => t'.hour = n ∧ n ≤ 23
  minute : p.mm.elim (t'.min = t.min) fun n => t'.min = n ∧ n ≤ 59
  second : 0 ≤ t'.sec ∧ t'.sec ≤ 59 ∧ microseconds < 1000000 ∧
    |(t'.sec : ℚ) + microseconds / 1000000 - p.ss| ≤ 1 / 2000000
  others : t'.wday = t.wday ∧ t'.yday = t.yday ∧ t'.isdst = t.isdst

def ExactAtomic (text : List Char) (t : Tm) (microseconds : Nat) : Prop :=
  match parseVexTime text t microseconds with
  | (.error _, t', microseconds') => t' = t ∧ microseconds' = microseconds
  | (.ok k, t', microseconds') =>
    (k = 0 ∧ t' = t ∧ microseconds' = microseconds) ∨
      ∃ p, Plain text p ∧ k = p.count ∧ Replaces p t t' microseconds'

/-! ## The condition -/

/-- Every number is the one that stands for a field that is not there. -/
structure Fields.Nothing (g : Fields Int Double) : Prop where
  year : g.year = notGiven
  doy : g.doy = notGiven
  hh : g.hh = notGiven
  mm : g.mm = notGiven
  ss : toInt g.ss = notGiven

def KeepsYear (g : Fields Int Double) (t : Tm) : Prop :=
  g.year ≠ notGiven → t.year = g.year - 1900

def DayRefused (g : Fields Int Double) (t : Tm) : Prop :=
  g.doy ≠ notGiven ∧ dayNrToMonthDay (g.doy - 1) (t.year + 1900) = none

def KeepsDay (g : Fields Int Double) (t : Tm) : Prop :=
  g.doy ≠ notGiven → dayNrToMonthDay (g.doy - 1) (t.year + 1900) = some (t.mon, t.mday - 1)

def KeepsHour (g : Fields Int Double) (t : Tm) : Prop :=
  g.hh ≠ notGiven → g.hh ≤ 23 ∧ t.hour = g.hh

def KeepsMinute (g : Fields Int Double) (t : Tm) : Prop :=
  g.mm ≠ notGiven → g.mm ≤ 59 ∧ t.min = g.mm

def SecondRefused (g : Fields Int Double) : Prop :=
  toInt g.ss ≠ notGiven ∧ splitSeconds g.ss = none

/-- One of the numbers is refused, and those before it are what there was. -/
def RefusedInTime (g : Fields Int Double) (t : Tm) : Prop :=
  KeepsYear g t ∧ (DayRefused g t ∨ KeepsDay g t ∧
    (23 < g.hh ∨ KeepsHour g t ∧ (59 < g.mm ∨ KeepsMinute g t ∧ SecondRefused g)))

/-- Numbers in their ranges, a day that is not the first of a month, and seconds that are not
rounded up to the next one. -/
structure Fits (p : Fields (Option Nat) ℚ) (t : Tm) : Prop where
  year : ∀ n ∈ p.year, n < 2 ^ 31
  doy : ∀ n ∈ p.doy, 1 ≤ n ∧ n ≤ daysPerYear ((p.year.map Int.ofNat).getD (t.year + 1900)) ∧
    ¬StartsMonth ((p.year.map Int.ofNat).getD (t.year + 1900)) ((n : Int) - 1)
  hour : ∀ n ∈ p.hh, n ≤ 23
  minute : ∀ n ∈ p.mm, n ≤ 59
  second : p.ss < 60 ∧ p.ss - ⌊p.ss⌋ < 1999999 / 2000000

/-- Of every sequence of fields that `sscanf` reads at the beginning of the text. -/
def Sound (text : List Char) (t : Tm) : Prop :=
  ∀ f, Reads (cString text) f →
    f.values.Nothing ∨ RefusedInTime f.values t ∨ ∃ p, Plain text p ∧ Fits p t

/-! ## Checks that fail -/

variable {g : Fields Int Double} {t : Tm} {microseconds : Nat}

/-- Something is thrown, and everything is what it was. -/
def Stops (t : Tm) (microseconds : Nat) (takes : List (Taken → Except Dotclock Taken))
    (st : Taken) : Prop :=
  (takeAll takes st).1.isSome = true ∧ (takeAll takes st).2.result = t ∧
    (takeAll takes st).2.microseconds = microseconds

def Same (t : Tm) (microseconds : Nat) (st : Taken) : Prop :=
  st.result = t ∧ st.microseconds = microseconds

theorem stops_error {take : Taken → Except Dotclock Taken}
    {takes : List (Taken → Except Dotclock Taken)} {st : Taken} {e : Dotclock}
    (h : take st = .error e) :
    Stops t microseconds (take :: takes) st ↔ Same t microseconds st := by
  unfold Stops Same takeAll
  rw [h]
  simp

theorem stops_ok {take : Taken → Except Dotclock Taken}
    {takes : List (Taken → Except Dotclock Taken)} {st st' : Taken} (h : take st = .ok st') :
    Stops t microseconds (take :: takes) st ↔ Stops t microseconds takes st' := by
  unfold Stops
  rw [takeAll, h]

theorem stops_second {st : Taken} :
    Stops t microseconds [takeSecond g.ss] st ↔ Same t microseconds st ∧ SecondRefused g := by
  by_cases hrefused : SecondRefused g
  · have herror : takeSecond g.ss st = .error (.second g.ss) := by
      unfold takeSecond
      rw [if_pos hrefused.1, hrefused.2]
    rw [stops_error herror]
    exact (and_iff_left hrefused).symm
  · obtain ⟨st', hok⟩ : ∃ st', takeSecond g.ss st = .ok st' := by
      unfold takeSecond
      split
      · split
        · exact ⟨_, rfl⟩
        · rename_i hgiven _ hnone
          exact absurd ⟨hgiven, hnone⟩ hrefused
      · exact ⟨st, rfl⟩
    rw [stops_ok hok]
    unfold Stops takeAll
    simp [hrefused]

theorem stops_minute {st : Taken} (hmin : st.result.min = t.min) :
    Stops t microseconds [takeMinute g.mm, takeSecond g.ss] st ↔
      Same t microseconds st ∧ (59 < g.mm ∨ KeepsMinute g t ∧ SecondRefused g) := by
  by_cases hgiven : g.mm = notGiven
  · have hok : takeMinute g.mm st = .ok st := if_neg (not_not.mpr hgiven)
    have hlow : ¬59 < g.mm := by rw [hgiven]; decide
    have hkeeps : KeepsMinute g t := fun hne => absurd hgiven hne
    rw [stops_ok hok, stops_second, or_iff_right hlow, and_iff_right hkeeps]
  · by_cases hhigh : 59 < g.mm
    · have herror : takeMinute g.mm st = .error (.minute g.mm) := by
        rw [takeMinute, if_pos hgiven, if_neg (by omega)]
      rw [stops_error herror]
      exact (and_iff_left (.inl hhigh)).symm
    · have hok := show takeMinute g.mm st = .ok _ by
        rw [takeMinute, if_pos hgiven, if_pos (by omega)]
      rw [stops_ok hok, stops_second, or_iff_right hhigh]
      unfold Same KeepsMinute
      simp only [Tm.ext_iff]
      constructor
      · rintro ⟨⟨hsame, hus⟩, hrefused⟩
        exact ⟨⟨by simp_all, hus⟩, fun _ => ⟨by omega, hsame.2.1.symm⟩, hrefused⟩
      · rintro ⟨⟨hsame, hus⟩, hkeeps, hrefused⟩
        exact ⟨⟨by simp_all, hus⟩, hrefused⟩

theorem stops_hour {st : Taken} (hhour : st.result.hour = t.hour) (hmin : st.result.min = t.min) :
    Stops t microseconds [takeHour g.hh, takeMinute g.mm, takeSecond g.ss] st ↔
      Same t microseconds st ∧
        (23 < g.hh ∨ KeepsHour g t ∧ (59 < g.mm ∨ KeepsMinute g t ∧ SecondRefused g)) := by
  by_cases hgiven : g.hh = notGiven
  · have hok : takeHour g.hh st = .ok st := if_neg (not_not.mpr hgiven)
    have hlow : ¬23 < g.hh := by rw [hgiven]; decide
    have hkeeps : KeepsHour g t := fun hne => absurd hgiven hne
    rw [stops_ok hok, stops_minute hmin, or_iff_right hlow, and_iff_right hkeeps]
  · by_cases hhigh : 23 < g.hh
    · have herror : takeHour g.hh st = .error (.hour g.hh) := by
        rw [takeHour, if_pos hgiven, if_neg (by omega)]
      rw [stops_error herror]
      exact (and_iff_left (.inl hhigh)).symm
    · have hok := show takeHour g.hh st = .ok _ by
        rw [takeHour, if_pos hgiven, if_pos (by omega)]
      rw [stops_ok hok, or_iff_right hhigh]
      refine (stops_minute (by exact hmin)).trans ?_
      unfold Same KeepsHour
      simp only [Tm.ext_iff]
      constructor
      · rintro ⟨⟨hsame, hus⟩, hrest⟩
        exact ⟨⟨by simp_all, hus⟩, fun _ => ⟨by omega, hsame.2.2.1.symm⟩, hrest⟩
      · rintro ⟨⟨hsame, hus⟩, hkeeps, hrest⟩
        exact ⟨⟨by simp_all, hus⟩, hrest⟩

theorem stops_day {st : Taken} (hmon : st.result.mon = t.mon) (hmday : st.result.mday = t.mday)
    (hhour : st.result.hour = t.hour) (hmin : st.result.min = t.min) :
    Stops t microseconds [takeDay g.doy, takeHour g.hh, takeMinute g.mm, takeSecond g.ss] st ↔
      Same t microseconds st ∧ (DayRefused g t ∨ KeepsDay g t ∧
        (23 < g.hh ∨ KeepsHour g t ∧ (59 < g.mm ∨ KeepsMinute g t ∧ SecondRefused g))) := by
  by_cases hgiven : g.doy = notGiven
  · have hok : takeDay g.doy st = .ok st := if_neg (not_not.mpr hgiven)
    have hnot : ¬DayRefused g t := fun hrefused => hrefused.1 hgiven
    have hkeeps : KeepsDay g t := fun hne => absurd hgiven hne
    rw [stops_ok hok, stops_hour hhour hmin, or_iff_right hnot, and_iff_right hkeeps]
  · cases hday : dayNrToMonthDay (g.doy - 1) (st.result.year + 1900) with
    | none =>
      have herror : takeDay g.doy st = .error (.dayOfYear g.doy) := by
        rw [takeDay, if_pos hgiven, hday]
      rw [stops_error herror]
      refine (and_iff_left_of_imp fun hsame => .inl ⟨hgiven, ?_⟩).symm
      rwa [← hsame.1]
    | some date =>
      obtain ⟨month, daymonth⟩ := date
      have hok := show takeDay g.doy st = .ok _ by rw [takeDay, if_pos hgiven, hday]
      rw [stops_ok hok]
      refine (stops_hour (by exact hhour) (by exact hmin)).trans ?_
      unfold Same KeepsDay
      constructor
      · rintro ⟨⟨rfl, hus⟩, hrest⟩
        dsimp only at hmon hmday hus ⊢
        refine ⟨⟨?_, hus⟩, .inr ⟨fun _ => ?_, hrest⟩⟩
        · rw [← hmon, ← hmday]
        · rw [hday, Int.add_sub_cancel]
      · rintro ⟨⟨hsame, hus⟩, hrest⟩
        subst hsame
        rcases hrest with hrefused | ⟨hkeeps, hrest⟩
        · rw [DayRefused, hday] at hrefused
          exact absurd hrefused.2 nofun
        · have hdate := hkeeps hgiven
          rw [hday] at hdate
          obtain ⟨rfl, hdaymonth⟩ := Prod.mk.inj (Option.some.inj hdate)
          refine ⟨⟨?_, hus⟩, hrest⟩
          rw [hdaymonth, Int.sub_add_cancel]

/-- Something is thrown with nothing changed, exactly when a number is refused in time. -/
theorem stops_takeOver (g : Fields Int Double) (t : Tm) (microseconds : Nat) :
    ((takeOver g ⟨t, microseconds, 0⟩).1.isSome = true ∧
      (takeOver g ⟨t, microseconds, 0⟩).2.result = t ∧
      (takeOver g ⟨t, microseconds, 0⟩).2.microseconds = microseconds) ↔ RefusedInTime g t := by
  change Stops t microseconds [takeYear g.year, takeDay g.doy, takeHour g.hh, takeMinute g.mm,
    takeSecond g.ss] ⟨t, microseconds, 0⟩ ↔ _
  unfold RefusedInTime KeepsYear
  by_cases hgiven : g.year = notGiven
  · have hok : takeYear g.year ⟨t, microseconds, 0⟩ = .ok ⟨t, microseconds, 0⟩ :=
      if_neg (not_not.mpr hgiven)
    rw [stops_ok hok]
    refine (stops_day rfl rfl rfl rfl).trans ?_
    simp [Same, hgiven]
  · have hok := show takeYear g.year ⟨t, microseconds, 0⟩ = .ok _ by
      rw [takeYear, if_pos hgiven]
    rw [stops_ok hok]
    refine (stops_day (by rfl) (by rfl) (by rfl) (by rfl)).trans ?_
    simp [Same, hgiven, Tm.ext_iff, eq_comm]

/-! ## What is stored -/

/-- Of the numbers that are not refused. -/
structure Stored (g : Fields Int Double) (t : Tm) (microseconds : Nat) (st : Taken) : Prop where
  year : st.result.year = if g.year ≠ notGiven then g.year - 1900 else t.year
  day : if g.doy ≠ notGiven then
      dayNrToMonthDay (g.doy - 1) (st.result.year + 1900) =
        some (st.result.mon, st.result.mday - 1)
    else st.result.mon = t.mon ∧ st.result.mday = t.mday
  hour : if g.hh ≠ notGiven then g.hh ≤ 23 ∧ st.result.hour = g.hh else st.result.hour = t.hour
  minute : if g.mm ≠ notGiven then g.mm ≤ 59 ∧ st.result.min = g.mm else st.result.min = t.min
  second : if toInt g.ss ≠ notGiven then splitSeconds g.ss = some (st.result.sec, st.microseconds)
    else st.result.sec = t.sec ∧ st.microseconds = microseconds
  others : st.result.wday = t.wday ∧ st.result.yday = t.yday ∧ st.result.isdst = t.isdst
  count : st.fieldsParsed = (if g.year ≠ notGiven then 1 else 0) +
    (if g.doy ≠ notGiven then 1 else 0) + (if g.hh ≠ notGiven then 1 else 0) +
    (if g.mm ≠ notGiven then 1 else 0) + (if toInt g.ss ≠ notGiven then 1 else 0)

theorem takeAll_cons {take : Taken → Except Dotclock Taken}
    {takes : List (Taken → Except Dotclock Taken)} {st out : Taken} :
    takeAll (take :: takes) st = (none, out) ↔
      ∃ st', take st = .ok st' ∧ takeAll takes st' = (none, out) := by
  rw [takeAll]
  cases take st with
  | ok st' => simp
  | error e => simp

theorem takeYear_ok {year : Int} {st st' : Taken} (h : takeYear year st = .ok st') :
    st' = ⟨{ st.result with year := if year ≠ notGiven then year - 1900 else st.result.year },
      st.microseconds, st.fieldsParsed + if year ≠ notGiven then 1 else 0⟩ := by
  unfold takeYear at h
  split at h
  · rename_i hgiven
    cases h
    simp only [if_pos hgiven]
  · rename_i hgiven
    cases h
    simp only [if_neg hgiven, Nat.add_zero]

theorem takeDay_ok {doy : Int} {st st' : Taken} (h : takeDay doy st = .ok st') :
    ∃ mon mday, (if doy ≠ notGiven then
        dayNrToMonthDay (doy - 1) (st.result.year + 1900) = some (mon, mday - 1)
      else mon = st.result.mon ∧ mday = st.result.mday) ∧
      st' = ⟨{ st.result with mon := mon, mday := mday }, st.microseconds,
        st.fieldsParsed + if doy ≠ notGiven then 1 else 0⟩ := by
  unfold takeDay at h
  split at h
  · rename_i hgiven
    split at h
    · rename_i month daymonth hday
      cases h
      refine ⟨month, daymonth + 1, ?_, ?_⟩
      · rw [if_pos hgiven, hday, Int.add_sub_cancel]
      · rw [if_pos hgiven]
    · cases h
  · rename_i hgiven
    cases h
    exact ⟨st.result.mon, st.result.mday, by rw [if_neg hgiven]; exact ⟨rfl, rfl⟩,
      by rw [if_neg hgiven, Nat.add_zero]⟩

theorem takeHour_ok {hh : Int} {st st' : Taken} (h : takeHour hh st = .ok st') :
    ∃ hour, (if hh ≠ notGiven then hh ≤ 23 ∧ hour = hh else hour = st.result.hour) ∧
      st' = ⟨{ st.result with hour := hour }, st.microseconds,
        st.fieldsParsed + if hh ≠ notGiven then 1 else 0⟩ := by
  unfold takeHour at h
  split at h
  · rename_i hgiven
    split at h
    · rename_i hrange
      cases h
      exact ⟨hh, by rw [if_pos hgiven]; exact ⟨hrange, rfl⟩, by rw [if_pos hgiven]⟩
    · cases h
  · rename_i hgiven
    cases h
    exact ⟨st.result.hour, by rw [if_neg hgiven], by rw [if_neg hgiven, Nat.add_zero]⟩

theorem takeMinute_ok {mm : Int} {st st' : Taken} (h : takeMinute mm st = .ok st') :
    ∃ min, (if mm ≠ notGiven then mm ≤ 59 ∧ min = mm else min = st.result.min) ∧
      st' = ⟨{ st.result with min := min }, st.microseconds,
        st.fieldsParsed + if mm ≠ notGiven then 1 else 0⟩ := by
  unfold takeMinute at h
  split at h
  · rename_i hgiven
    split at h
    · rename_i hrange
      cases h
      exact ⟨mm, by rw [if_pos hgiven]; exact ⟨hrange, rfl⟩, by rw [if_pos hgiven]⟩
    · cases h
  · rename_i hgiven
    cases h
    exact ⟨st.result.min, by rw [if_neg hgiven], by rw [if_neg hgiven, Nat.add_zero]⟩

theorem takeSecond_ok {ss : Double} {st st' : Taken} (h : takeSecond ss st = .ok st') :
    ∃ sec us, (if toInt ss ≠ notGiven then splitSeconds ss = some (sec, us)
        else sec = st.result.sec ∧ us = st.microseconds) ∧
      st' = ⟨{ st.result with sec := sec }, us,
        st.fieldsParsed + if toInt ss ≠ notGiven then 1 else 0⟩ := by
  unfold takeSecond at h
  split at h
  · rename_i hgiven
    split at h
    · rename_i sec us hsplit
      cases h
      exact ⟨sec, us, by rw [if_pos hgiven]; exact hsplit, by rw [if_pos hgiven]⟩
    · cases h
  · rename_i hgiven
    cases h
    exact ⟨st.result.sec, st.microseconds, by rw [if_neg hgiven]; exact ⟨rfl, rfl⟩,
      by rw [if_neg hgiven, Nat.add_zero]⟩

theorem stored_of_takeOver {st : Taken} (h : takeOver g ⟨t, microseconds, 0⟩ = (none, st)) :
    Stored g t microseconds st := by
  unfold takeOver at h
  simp only [takeAll_cons] at h
  obtain ⟨st₁, hyear, st₂, hday, st₃, hhour, st₄, hminute, st₅, hsecond, hend⟩ := h
  obtain ⟨-, rfl⟩ := Prod.mk.inj hend
  obtain rfl := takeYear_ok hyear
  obtain ⟨mon, mday, hdate, rfl⟩ := takeDay_ok hday
  obtain ⟨hour, hhour', rfl⟩ := takeHour_ok hhour
  obtain ⟨min, hminute', rfl⟩ := takeMinute_ok hminute
  obtain ⟨sec, us, hsecond', rfl⟩ := takeSecond_ok hsecond
  exact ⟨rfl, hdate, hhour', hminute', hsecond', ⟨rfl, rfl, rfl⟩, by simp⟩

/-- Numbers that are not refused are all stored. -/
theorem takeOver_none
    (hday : g.doy ≠ notGiven → (dayNrToMonthDay (g.doy - 1)
      ((if g.year ≠ notGiven then g.year - 1900 else t.year) + 1900)).isSome = true)
    (hhour : g.hh ≤ 23) (hminute : g.mm ≤ 59)
    (hsecond : toInt g.ss ≠ notGiven → (splitSeconds g.ss).isSome = true) :
    ∃ st, takeOver g ⟨t, microseconds, 0⟩ = (none, st) := by
  obtain ⟨st₁, h₁⟩ : ∃ st, takeYear g.year ⟨t, microseconds, 0⟩ = .ok st := by
    unfold takeYear
    split
    · exact ⟨_, rfl⟩
    · exact ⟨_, rfl⟩
  obtain ⟨st₂, h₂⟩ : ∃ st, takeDay g.doy st₁ = .ok st := by
    rw [takeYear_ok h₁]
    unfold takeDay
    split
    · rename_i hgiven
      obtain ⟨date, hdate⟩ := Option.isSome_iff_exists.mp (hday hgiven)
      dsimp only
      rw [hdate]
      exact ⟨_, rfl⟩
    · exact ⟨_, rfl⟩
  obtain ⟨st₃, h₃⟩ : ∃ st, takeHour g.hh st₂ = .ok st := by
    unfold takeHour
    rw [if_pos hhour]
    split
    · exact ⟨_, rfl⟩
    · exact ⟨_, rfl⟩
  obtain ⟨st₄, h₄⟩ : ∃ st, takeMinute g.mm st₃ = .ok st := by
    unfold takeMinute
    rw [if_pos hminute]
    split
    · exact ⟨_, rfl⟩
    · exact ⟨_, rfl⟩
  obtain ⟨st₅, h₅⟩ : ∃ st, takeSecond g.ss st₄ = .ok st := by
    unfold takeSecond
    split
    · rename_i hgiven
      obtain ⟨parts, hparts⟩ := Option.isSome_iff_exists.mp (hsecond hgiven)
      rw [hparts]
      exact ⟨_, rfl⟩
    · exact ⟨_, rfl⟩
  refine ⟨st₅, ?_⟩
  unfold takeOver
  simp only [takeAll_cons]
  exact ⟨st₁, h₁, st₂, h₂, st₃, h₃, st₄, h₄, st₅, h₅, rfl⟩

/-! ## Numbers as they are scanned -/

theorem storedInt_of_lt {n : Nat} (h : n < 2 ^ 31) : storedInt n = n := by
  rw [storedInt, Int.bmod_def]
  omega

theorem storedInt_lt (n : Int) : storedInt n < 2 ^ 31 := by
  rw [storedInt, Int.bmod_def]
  omega

/-- What `sscanf` makes of unsigned numbers. -/
def Fields.scanned (p : Fields (Option Nat) ℚ) : Fields (Option Int) Double :=
  ⟨p.year.map fun n : Nat => storedInt n, p.doy.map fun n : Nat => storedInt n,
    p.hh.map fun n : Nat => storedInt n, p.mm.map fun n : Nat => storedInt n, .finite p.ss⟩

def given (x : Int) : Nat := if x ≠ notGiven then 1 else 0

/-- One of the numbers of a text. -/
def scannedValue (v : Option Nat) : Int := (v.map fun n : Nat => storedInt n).getD notGiven

theorem given_le (v : Option Nat) : given (scannedValue v) ≤ present v := by
  cases v with
  | none => exact Nat.le_refl 0
  | some n =>
    unfold given
    split
    · exact Nat.le_refl 1
    · exact Nat.zero_le 1

theorem given_eq {v : Option Nat} (h : ∀ n ∈ v, n < 2 ^ 31) :
    given (scannedValue v) = present v := by
  cases v with
  | none => rfl
  | some n =>
    have hn : scannedValue (some n) = n := storedInt_of_lt (h n rfl)
    rw [given, hn, if_pos (by unfold notGiven; omega)]
    rfl

theorem ne_of_given {n : Nat} (h : given (scannedValue (some n)) = present (some n)) :
    storedInt n ≠ notGiven := by
  intro heq
  have hvalue : scannedValue (some n) = notGiven := heq
  rw [given, if_neg (not_not.mpr hvalue)] at h
  cases h

theorem year_iff {v : Option Nat} {year year' : Int}
    (hstored : year' = if scannedValue v ≠ notGiven then scannedValue v - 1900 else year)
    (hgiven : given (scannedValue v) = present v) :
    year' = (v.map fun n : Nat => (n : Int) - 1900).getD year ↔ ∀ n ∈ v, n < 2 ^ 31 := by
  subst hstored
  cases v with
  | none => simp [scannedValue]
  | some n =>
    have hlt := storedInt_lt n
    have hne := ne_of_given hgiven
    change (if storedInt n ≠ notGiven then storedInt n - 1900 else year) = (n : Int) - 1900 ↔ _
    rw [if_pos hne]
    constructor
    · rintro heq _ ⟨⟩
      omega
    · intro hn
      rw [storedInt_of_lt (hn n rfl)]

/-- Hours and minutes. -/
theorem bounded_iff {v : Option Nat} {bound : Nat} (hbound : bound < 2 ^ 31) {x x' : Int}
    (hstored : if scannedValue v ≠ notGiven then scannedValue v ≤ bound ∧ x' = scannedValue v
      else x' = x) (hgiven : given (scannedValue v) = present v) :
    (v.elim (x' = x) fun n => x' = n ∧ n ≤ bound) ↔ ∀ n ∈ v, n ≤ bound := by
  cases v with
  | none => simpa [scannedValue] using hstored
  | some n =>
    have hne := ne_of_given hgiven
    change if storedInt n ≠ notGiven then storedInt n ≤ bound ∧ x' = storedInt n else x' = x
      at hstored
    rw [if_pos hne] at hstored
    constructor
    · rintro ⟨-, hle⟩ _ ⟨⟩
      exact hle
    · intro hn
      have hle := hn n rfl
      rw [storedInt_of_lt (by omega)] at hstored
      exact ⟨hstored.2, hle⟩

theorem daysPerYear_lt (year : Int) : daysPerYear year < 2 ^ 31 := by
  unfold daysPerYear
  split
  · decide
  · decide

theorem year_add (v : Option Nat) (year : Int) :
    (v.map fun n : Nat => (n : Int) - 1900).getD year + 1900 =
      (v.map Int.ofNat).getD (year + 1900) := by
  cases v with
  | none => rfl
  | some n => simp

theorem day_iff {v : Option Nat} {mon mday mon' mday' year : Int}
    (hstored : if scannedValue v ≠ notGiven then
        dayNrToMonthDay (scannedValue v - 1) year = some (mon', mday' - 1)
      else mon' = mon ∧ mday' = mday)
    (hgiven : given (scannedValue v) = present v) :
    (v.elim (mon' = mon ∧ mday' = mday) fun n => ValidDate year mon' (mday' - 1) ∧
      dayMonthDayToNr mon' (mday' - 1) year = some ((n : Int) - 1)) ↔
    ∀ n ∈ v, 1 ≤ n ∧ n ≤ daysPerYear year ∧ ¬StartsMonth year ((n : Int) - 1) := by
  cases v with
  | none => simpa [scannedValue] using hstored
  | some n =>
    have hne := ne_of_given hgiven
    change if storedInt n ≠ notGiven then
        dayNrToMonthDay (storedInt n - 1) year = some (mon', mday' - 1)
      else mon' = mon ∧ mday' = mday at hstored
    rw [if_pos hne] at hstored
    have hdays := daysPerYear_lt year
    constructor
    · rintro ⟨hvalid, hnumber⟩ _ ⟨⟩
      obtain ⟨m, k, hm, hk, hlt, hat⟩ := hvalid.isAt
      have hsum := hat.lt_sum
      rw [daysPerMonth_sum] at hsum
      have hback := hnumber
      rw [hm, hk, dayMonthDayToNr_eq hlt (by omega)] at hback
      have hplace := Option.some.inj hback
      rw [storedInt_of_lt (by omega)] at hstored
      refine ⟨by omega, by omega, ?_⟩
      rw [← numberComesBack_iff, NumberComesBack, if_pos (by omega)]
      exact ⟨_, _, hstored, hvalid, hnumber⟩
    · intro hn
      obtain ⟨hpos, hle, hstart⟩ := hn n rfl
      rw [storedInt_of_lt (by omega)] at hstored
      rw [← numberComesBack_iff, NumberComesBack, if_pos (by omega)] at hstart
      obtain ⟨month, day, hday, hvalid, hnumber⟩ := hstart
      rw [hstored] at hday
      obtain ⟨rfl, rfl⟩ := Prod.mk.inj (Option.some.inj hday)
      exact ⟨hvalid, hnumber⟩

theorem wholePart_eq {q : ℚ} (h : 0 ≤ q) : wholePart q = ⌊q⌋ := by
  rw [wholePart, Int.tdiv_eq_ediv_of_nonneg (Rat.num_nonneg.mpr h), Rat.floor_def']

theorem given_second {q : ℚ} (h : 0 ≤ q) : toInt (.finite q) ≠ notGiven := by
  have hpos : 0 ≤ ⌊q⌋ := Int.floor_nonneg.mpr h
  unfold toInt notGiven
  dsimp only
  rw [wholePart_eq h]
  split
  · omega
  · decide

/-- The seconds are cut off, and what is left is rounded to the microsecond. -/
theorem splitSeconds_eq {q : ℚ} (h : 0 ≤ q) (hq : q < 60) :
    ∃ us : Nat, splitSeconds (.finite q) = some (⌊q⌋, us) ∧
      (us : ℚ) ≤ (q - ⌊q⌋) * 1000000 + 1 / 2 ∧ (q - ⌊q⌋) * 1000000 + 1 / 2 < us + 1 := by
  have hlow : 0 ≤ ⌊q⌋ := Int.floor_nonneg.mpr h
  have hhigh : ⌊q⌋ < 60 := Int.floor_lt.mpr (by exact_mod_cast hq)
  have hfloor : (⌊q⌋ : ℚ) ≤ q := Int.floor_le q
  have hlt : q < ⌊q⌋ + 1 := Int.lt_floor_add_one q
  have hround : roundAway ((q - ⌊q⌋) * 1000000) = ⌊(q - ⌊q⌋) * 1000000 + 1 / 2⌋ :=
    if_pos (mul_nonneg (sub_nonneg.mpr hfloor) (by norm_num))
  have hrlow : 0 ≤ ⌊(q - ⌊q⌋) * 1000000 + 1 / 2⌋ := Int.floor_nonneg.mpr (by linarith)
  have hrhigh : ⌊(q - ⌊q⌋) * 1000000 + 1 / 2⌋ < 1000001 :=
    Int.floor_lt.mpr (by push_cast; linarith)
  have hle := Int.floor_le ((q - ⌊q⌋) * 1000000 + 1 / 2)
  have hlt' := Int.lt_floor_add_one ((q - ⌊q⌋) * 1000000 + 1 / 2)
  unfold splitSeconds
  dsimp only
  rw [if_pos hq, wholePart_eq h, hround]
  generalize ⌊(q - ⌊q⌋) * 1000000 + 1 / 2⌋ = r at *
  obtain ⟨us, rfl⟩ := Int.eq_ofNat_of_zero_le hrlow
  refine ⟨us, ?_, by exact_mod_cast hle, by exact_mod_cast hlt'⟩
  generalize ⌊q⌋ = n at *
  have hus : toUnsigned us = us := by
    rw [toUnsigned, if_pos (by omega)]
    omega
  have hn : Int.bmod (toUnsigned n) (2 ^ 32) = n := by
    rw [toUnsigned, if_pos (by omega), Int.bmod_def]
    omega
  rw [hus, hn]

theorem second_iff {q : ℚ} {sec : Int} {us : Nat} (h : 0 ≤ q)
    (hstored : splitSeconds (.finite q) = some (sec, us)) :
    (0 ≤ sec ∧ sec ≤ 59 ∧ us < 1000000 ∧ |(sec : ℚ) + us / 1000000 - q| ≤ 1 / 2000000) ↔
      q < 60 ∧ q - ⌊q⌋ < 1999999 / 2000000 := by
  have hq : q < 60 := by
    by_contra hnot
    rw [splitSeconds, if_neg hnot] at hstored
    cases hstored
  obtain ⟨us', hsplit, hle, hlt⟩ := splitSeconds_eq h hq
  rw [hstored] at hsplit
  obtain ⟨rfl, rfl⟩ := Prod.mk.inj (Option.some.inj hsplit)
  have hlow : 0 ≤ ⌊q⌋ := Int.floor_nonneg.mpr h
  have hhigh : ⌊q⌋ < 60 := Int.floor_lt.mpr (by exact_mod_cast hq)
  constructor
  · rintro ⟨-, -, hus, -⟩
    have hus' : (us : ℚ) + 1 ≤ 1000000 := by exact_mod_cast hus
    exact ⟨hq, by linarith⟩
  · rintro ⟨-, hfraction⟩
    have hus : (us : ℚ) < 1000000 := by linarith
    refine ⟨hlow, by omega, by exact_mod_cast hus, ?_⟩
    rw [abs_le]
    constructor
    · linarith
    · linarith

/-- A text of nothing but fields is stored as it stands when it fits. -/
theorem replaces_iff {p : Fields (Option Nat) ℚ} {st : Taken} (hss : 0 ≤ p.ss)
    (hstored : Stored p.scanned.values t microseconds st) :
    st.fieldsParsed = p.count ∧ Replaces p t st.result st.microseconds ↔ Fits p t := by
  obtain ⟨hyear, hday, hhour, hminute, hsecond, hothers, hcount⟩ := hstored
  have hcount' : st.fieldsParsed = given (scannedValue p.year) + given (scannedValue p.doy) +
      given (scannedValue p.hh) + given (scannedValue p.mm) + 1 := by
    rw [hcount, if_pos (show toInt p.scanned.values.ss ≠ notGiven from given_second hss)]
    rfl
  replace hsecond : splitSeconds (.finite p.ss) = some (st.result.sec, st.microseconds) := by
    rwa [if_pos (show toInt p.scanned.values.ss ≠ notGiven from given_second hss)] at hsecond
  constructor
  · rintro ⟨hk, hreplaces⟩
    have hy := given_le p.year
    have hd := given_le p.doy
    have hh := given_le p.hh
    have hm := given_le p.mm
    rw [hcount', Fields.count] at hk
    refine ⟨(year_iff hyear (by omega)).mp hreplaces.year, ?_,
      (bounded_iff (by decide) hhour (by omega)).mp hreplaces.hour,
      (bounded_iff (by decide) hminute (by omega)).mp hreplaces.minute,
      (second_iff hss hsecond).mp hreplaces.second⟩
    rw [← year_add, ← hreplaces.year]
    exact (day_iff hday (by omega)).mp hreplaces.date
  · intro hfits
    have hy := given_eq hfits.year
    have hd : given (scannedValue p.doy) = present p.doy :=
      given_eq fun n hn => (hfits.doy n hn).2.1.trans_lt (daysPerYear_lt _)
    have hh : given (scannedValue p.hh) = present p.hh :=
      given_eq fun n hn => (hfits.hour n hn).trans_lt (by decide)
    have hm : given (scannedValue p.mm) = present p.mm :=
      given_eq fun n hn => (hfits.minute n hn).trans_lt (by decide)
    have hreplaced := (year_iff hyear hy).mpr hfits.year
    refine ⟨by rw [hcount', hy, hd, hh, hm, Fields.count], hreplaced, ?_,
      (bounded_iff (by decide) hhour hh).mpr hfits.hour,
      (bounded_iff (by decide) hminute hm).mpr hfits.minute,
      (second_iff hss hsecond).mpr hfits.second, hothers⟩
    refine (day_iff hday hd).mpr ?_
    rw [hreplaced, year_add]
    exact hfits.doy

/-! ## Texts of fields -/

variable {sep : Char} {v : Option Nat} {text rest : List Char} {seps : List Char}

/-- What can come behind a number that is scanned there. -/
def ScansTo (seps text : List Char) : Prop :=
  ∀ n c after, scanInt text = some (n, c :: after) → c ∈ seps

theorem reads_of_states (hsep : sep.isDigit = false) (hnot : sep ∉ seps)
    (h : States sep v text rest) (hrest : ScansTo seps rest) :
    ReadsInt sep (v.map fun n : Nat => storedInt n) text rest ∧ ScansTo (sep :: seps) text := by
  cases v with
  | none =>
    obtain rfl : rest = text := h
    refine ⟨⟨rfl, fun n after hscan => hnot (hrest n sep after hscan)⟩, fun n c after hscan => ?_⟩
    exact List.mem_cons_of_mem _ (hrest n c after hscan)
  | some n =>
    obtain ⟨digits, hdigits, rfl, rfl⟩ := h
    have hscan := scanInt_numeral (sep :: rest) hdigits (by rintro c ⟨⟩; exact hsep)
    refine ⟨hscan, fun n' c after hscan' => ?_⟩
    rw [hscan] at hscan'
    cases hscan'
    exact List.mem_cons_self

theorem reads_of_plain {p : Fields (Option Nat) ℚ} (h : Plain text p) :
    Reads text p.scanned := by
  obtain ⟨d, h, m, s, digits, hyear, hdoy, hhh, hmm, hdecimal, rfl, hseq⟩ := h
  have hend : Ends 's' := ⟨by decide, by decide, by decide, by decide⟩
  have hsecond : ScansTo ['.', 's'] (digits ++ ['s']) := by
    intro n c after hscan
    rcases scanInt_decimal hdecimal hend hscan with rfl | rfl
    · exact List.mem_cons_self
    · exact List.mem_cons_of_mem _ List.mem_cons_self
  obtain ⟨hm, hscans⟩ := reads_of_states (by decide) (by decide) hmm hsecond
  obtain ⟨hh, hscans⟩ := reads_of_states (by decide) (by decide) hhh hscans
  obtain ⟨hd, hscans⟩ := reads_of_states (by decide) (by decide) hdoy hscans
  obtain ⟨hy, -⟩ := reads_of_states (by decide) (by decide) hyear hscans
  refine ⟨d, h, m, _, [], hy, hd, hh, hm, scanDouble_decimal hdecimal hend, ?_⟩
  constructor
  · simpa only [Fields.scanned, Option.isSome_map] using hseq.doy
  · simpa only [Fields.scanned, Option.isSome_map] using hseq.hh
  · simpa only [Fields.scanned, Option.isSome_map] using hseq.mm

theorem zero_notMem_of_states (hsep : sep ≠ '\x00') (h : States sep v text rest)
    (hrest : '\x00' ∉ rest) : '\x00' ∉ text := by
  cases v with
  | none =>
    obtain rfl : rest = text := h
    exact hrest
  | some n =>
    obtain ⟨digits, hdigits, -, rfl⟩ := h
    intro hmem
    rcases List.mem_append.mp hmem with hmem | hmem
    · exact absurd (hdigits.isDigit _ hmem) (by decide)
    · rcases List.mem_cons.mp hmem with heq | hmem
      · exact hsep heq.symm
      · exact hrest hmem

/-- Nothing is cut off such a text. -/
theorem cString_of_plain {p : Fields (Option Nat) ℚ} (h : Plain text p) : cString text = text := by
  obtain ⟨d, h, m, s, digits, hyear, hdoy, hhh, hmm, hdecimal, rfl, -⟩ := h
  have hsecond : '\x00' ∉ digits ++ ['s'] := by
    intro hmem
    rcases List.mem_append.mp hmem with hmem | hmem
    · rcases hdecimal.chars.2 _ hmem with hdigit | heq
      · exact absurd hdigit (by decide)
      · exact absurd heq (by decide)
    · exact absurd hmem (by decide)
  have hall : '\x00' ∉ text := zero_notMem_of_states (by decide) hyear
    (zero_notMem_of_states (by decide) hdoy (zero_notMem_of_states (by decide) hhh
      (zero_notMem_of_states (by decide) hmm hsecond)))
  rw [cString, List.takeWhile_eq_self_iff]
  intro c hc
  rw [decide_eq_true_eq]
  rintro rfl
  exact hall hc

theorem ss_nonneg {p : Fields (Option Nat) ℚ} (h : Plain text p) : 0 ≤ p.ss := by
  obtain ⟨_, _, _, _, digits, -, -, -, -, hdecimal, -⟩ := h
  generalize p.ss = q at hdecimal
  cases hdecimal with
  | whole h => exact Nat.cast_nonneg _
  | fraction h => exact div_nonneg (Nat.cast_nonneg _) (pow_nonneg (by norm_num) _)

theorem scannedValue_le {v : Option Nat} {bound : Nat} (hbound : bound < 2 ^ 31)
    (h : ∀ n ∈ v, n ≤ bound) : scannedValue v ≤ bound := by
  cases v with
  | none => exact (show (-1 : Int) ≤ 0 by decide).trans (Int.natCast_nonneg bound)
  | some n =>
    have hle := h n rfl
    have hn : scannedValue (some n) = n := storedInt_of_lt (by omega)
    rw [hn]
    exact_mod_cast hle

/-- Nothing is refused of what fits. -/
theorem takeOver_of_fits {p : Fields (Option Nat) ℚ} (hss : 0 ≤ p.ss) (h : Fits p t) :
    ∃ st, takeOver p.scanned.values ⟨t, microseconds, 0⟩ = (none, st) := by
  refine takeOver_none ?_ (scannedValue_le (by decide) h.hour)
    (scannedValue_le (by decide) h.minute) fun _ => ?_
  · change scannedValue p.doy ≠ notGiven → (dayNrToMonthDay (scannedValue p.doy - 1)
      ((if scannedValue p.year ≠ notGiven then scannedValue p.year - 1900 else t.year) +
        1900)).isSome = true
    intro hgiven
    rw [(year_iff rfl (given_eq h.year)).mpr h.year, year_add]
    cases hdoy : p.doy with
    | none =>
      rw [hdoy] at hgiven
      exact absurd rfl hgiven
    | some n =>
      obtain ⟨hpos, hle, hstart⟩ := h.doy n hdoy
      have hn : scannedValue (some n) = n := storedInt_of_lt (hle.trans_lt (daysPerYear_lt _))
      rw [hn]
      rw [← numberComesBack_iff, NumberComesBack, if_pos (by omega)] at hstart
      obtain ⟨month, day, hday, -⟩ := hstart
      exact Option.isSome_iff_exists.mpr ⟨_, hday⟩
  · obtain ⟨us, hsplit, -⟩ := splitSeconds_eq hss h.second.1
    exact Option.isSome_iff_exists.mpr ⟨_, hsplit⟩

/-! ## All texts -/

theorem fieldsParsed_eq_zero {st : Taken} (h : Stored g t microseconds st) :
    st.fieldsParsed = 0 ↔ g.Nothing := by
  rw [h.count]
  constructor
  · intro hzero
    constructor
    all_goals
      by_contra hne
      simp [hne] at hzero
  · rintro ⟨hyear, hdoy, hhh, hmm, hss⟩
    simp [hyear, hdoy, hhh, hmm, hss]

theorem unchanged_of_nothing {st : Taken} (h : Stored g t microseconds st) (hg : g.Nothing) :
    st.result = t ∧ st.microseconds = microseconds := by
  obtain ⟨hyear, hday, hhour, hminute, hsecond, ⟨hwday, hyday, hisdst⟩, -⟩ := h
  rw [if_neg (not_not.mpr hg.year)] at hyear
  rw [if_neg (not_not.mpr hg.doy)] at hday
  rw [if_neg (not_not.mpr hg.hh)] at hhour
  rw [if_neg (not_not.mpr hg.mm)] at hminute
  rw [if_neg (not_not.mpr hg.ss)] at hsecond
  exact ⟨Tm.ext hsecond.1 hminute hhour hday.2 hday.1 hyear hwday hyday hisdst, hsecond.2⟩

theorem takeOver_of_nothing (h : g.Nothing) :
    ∃ st, takeOver g ⟨t, microseconds, 0⟩ = (none, st) :=
  takeOver_none (fun hne => absurd h.doy hne) (by rw [h.hh]; decide) (by rw [h.mm]; decide)
    fun hne => absurd h.ss hne

/-- The three ways of a sequence of fields that is there. -/
theorem exactAtomic_of_decode {text : List Char} (hdecode : decode text = .ok g) :
    ExactAtomic text t microseconds ↔
      g.Nothing ∨ RefusedInTime g t ∨ ∃ p, Plain text p ∧ Fits p t := by
  have hvalues {p : Fields (Option Nat) ℚ} (hp : Plain text p) : g = p.scanned.values := by
    have hreads := reads_of_plain hp
    rw [← cString_of_plain hp] at hreads
    rw [decode_of_reads hreads] at hdecode
    exact (Except.ok.inj hdecode).symm
  have hstops := stops_takeOver g t microseconds
  unfold ExactAtomic parseVexTime
  rw [hdecode]
  dsimp only
  cases hout : takeOver g ⟨t, microseconds, 0⟩ with
  | mk e st =>
    rw [hout] at hstops
    cases e with
    | some e =>
      have hthrows : ¬∃ st, takeOver g ⟨t, microseconds, 0⟩ = (none, st) := by
        rintro ⟨st', hnone⟩
        rw [hout] at hnone
        cases hnone
      constructor
      · intro hsame
        exact .inr (.inl (hstops.mp ⟨rfl, hsame⟩))
      · rintro (hnothing | hrefused | ⟨p, hplain, hfits⟩)
        · exact absurd (takeOver_of_nothing hnothing) hthrows
        · exact (hstops.mpr hrefused).2
        · rw [hvalues hplain] at hthrows
          exact absurd (takeOver_of_fits (ss_nonneg hplain) hfits) hthrows
    | none =>
      have hstored := stored_of_takeOver hout
      have hfits {p : Fields (Option Nat) ℚ} (hplain : Plain text p) :
          st.fieldsParsed = p.count ∧ Replaces p t st.result st.microseconds ↔ Fits p t := by
        have hstored' := hstored
        rw [hvalues hplain] at hstored'
        exact replaces_iff (ss_nonneg hplain) hstored'
      constructor
      · rintro (⟨hzero, -⟩ | ⟨p, hplain, hreplaces⟩)
        · exact .inl ((fieldsParsed_eq_zero hstored).mp hzero)
        · exact .inr (.inr ⟨p, hplain, (hfits hplain).mp hreplaces⟩)
      · rintro (hnothing | hrefused | ⟨p, hplain, hfit⟩)
        · exact .inl ⟨(fieldsParsed_eq_zero hstored).mpr hnothing,
            unchanged_of_nothing hstored hnothing⟩
        · exact absurd (hstops.mpr hrefused).1 nofun
        · exact .inr ⟨p, hplain, (hfits hplain).mpr hfit⟩

/-- A parse goes wrong with a sign or an exponent in the text or with more behind the seconds, with
a number out of its range, a first day of a month or seconds that are rounded up, and with a number
refused after others have been stored. -/
theorem exactAtomic_iff (text : List Char) (t : Tm) (microseconds : Nat) :
    ExactAtomic text t microseconds ↔ Sound text t := by
  cases hdecode : decode text with
  | error e =>
    constructor
    · intro _ f hreads
      rw [decode_of_reads hreads] at hdecode
      cases hdecode
    · intro _
      unfold ExactAtomic parseVexTime
      rw [hdecode]
      exact ⟨rfl, rfl⟩
  | ok g =>
    rw [exactAtomic_of_decode hdecode]
    constructor
    · intro h f hreads
      rw [decode_of_reads hreads] at hdecode
      rwa [Except.ok.inj hdecode]
    · intro hsound
      rcases decode_ok hdecode with ⟨f, hreads, rfl⟩ | rfl
      · exact hsound f hreads
      · exact .inl ⟨rfl, rfl, rfl, rfl, by decide⟩

/-- The hour is stored before the minute is refused. -/
theorem hour_stored_before_refusal :
    ¬ExactAtomic "5h70m0s".toList ⟨0, 0, 0, 1, 0, 124, 1, 0, 0⟩ 0 := by
  have hparse : parseVexTime "5h70m0s".toList ⟨0, 0, 0, 1, 0, 124, 1, 0, 0⟩ 0 =
      (.error (.minute 70), ⟨0, 0, 5, 1, 0, 124, 1, 0, 0⟩, 0) := by decide +kernel
  rw [ExactAtomic, hparse]
  decide

end Jive5ab.Dot.VexTime
