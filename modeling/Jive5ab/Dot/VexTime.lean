import Jive5ab.Dot.DayConversion
import Jive5ab.Lib.Checked
import Jive5ab.Lib.Scanf
import Mathlib.Data.Rat.Floor

/-! # VEX times

`parse_vex_time`: the fields that are in the text are stored one after the other, and the checks
are in between. -/
namespace Jive5ab.Dot.VexTime
open Lib Lib.Scanf DayConversion

/-! ## The fields -/

/-- `struct tm` -/
@[ext] structure Tm where
  sec : Int
  min : Int
  hour : Int
  mday : Int
  mon : Int
  year : Int
  wday : Int
  yday : Int
  isdst : Int
  deriving DecidableEq

/-- The numbers are those of the messages. -/
inductive Dotclock where
  | notInSequence
  | dayOfYear (doy : Int)
  | hour (hh : Int)
  | minute (mm : Int)
  | second (ss : Double)
  deriving DecidableEq

/-- `c_str()` -/
def cString (s : List Char) : List Char := s.takeWhile (· ≠ '\x00')

/-- `fld_type::operator()`: the value, if the separator is behind it. -/
def fld {α : Type} (scan : List Char → Option (α × List Char)) (sep : Char) (s : List Char) :
    Option α :=
  match scan s with
  | some (v, c :: _) => if c = sep then some v else none
  | _ => none

/-- Behind the first separator, as `strchr` finds it. -/
def afterSep (sep : Char) (s : List Char) : List Char := (s.dropWhile (· ≠ sep)).tail

/-- Where to read, and whether decoding has started. -/
structure Cursor where
  ptr : List Char
  started : Bool

/-- One round of the loop over the fields. -/
def field {α : Type} (scan : List Char → Option (α × List Char)) (sep : Char) (cur : Cursor) :
    Except Dotclock (Option α × Cursor) :=
  match fld scan sep cur.ptr with
  | some v => .ok (some v, ⟨afterSep sep cur.ptr, true⟩)
  | none => if cur.started then .error .notInSequence else .ok (none, cur)

structure Fields (α β : Type) where
  year : α
  doy : α
  hh : α
  mm : α
  ss : β

def notGiven : Int := -1

def decode (text : List Char) : Except Dotclock (Fields Int Double) := do
  let (year, cur) ← field scanInt 'y' ⟨cString text, false⟩
  let (doy, cur) ← field scanInt 'd' cur
  let (hh, cur) ← field scanInt 'h' cur
  let (mm, cur) ← field scanInt 'm' cur
  let (ss, _) ← field scanDouble 's' cur
  return ⟨year.getD notGiven, doy.getD notGiven, hh.getD notGiven, mm.getD notGiven,
    ss.getD (.finite notGiven)⟩

/-! ## Seconds -/

/-- `modf`: towards zero. -/
def wholePart (q : ℚ) : Int := q.num.tdiv q.den

/-- `(int)ss`, where a number that does not fit becomes the lowest one. -/
def toInt : Double → Int
  | .finite q => if -2 ^ 31 ≤ wholePart q ∧ wholePart q < 2 ^ 31 then wholePart q else -2 ^ 31
  | _ => -2 ^ 31

/-- `round`: halves away from zero. -/
def roundAway (q : ℚ) : Int := if 0 ≤ q then ⌊q + 1 / 2⌋ else -⌊-q + 1 / 2⌋

/-- `(unsigned int)`, by way of 64 bits. -/
def toUnsigned (n : Int) : Nat :=
  if -2 ^ 63 ≤ n ∧ n < 2 ^ 63 then (n % 2 ^ 32).toNat else 0

/-- The seconds and the microseconds, of less than 60. -/
def splitSeconds : Double → Option (Int × Nat)
  | .finite q =>
    if q < 60 then
      some (Int.bmod (toUnsigned (wholePart q)) (2 ^ 32),
        toUnsigned (roundAway ((q - wholePart q) * 1000000)))
    else none
  | .infinite true => some (0, 0)
  | _ => none

/-! ## Taking over -/

structure Taken where
  result : Tm
  microseconds : Nat
  fieldsParsed : Nat

def takeYear (year : Int) (st : Taken) : Except Dotclock Taken :=
  if year ≠ notGiven then
    .ok { st with
      result := { st.result with year := year - 1900 }, fieldsParsed := st.fieldsParsed + 1 }
  else .ok st

def takeDay (doy : Int) (st : Taken) : Except Dotclock Taken :=
  if doy ≠ notGiven then
    match dayNrToMonthDay (doy - 1) (st.result.year + 1900) with
    | some (month, daymonth) =>
      .ok { st with
        result := { st.result with mon := month, mday := daymonth + 1 },
        fieldsParsed := st.fieldsParsed + 1 }
    | none => .error (.dayOfYear doy)
  else .ok st

def takeHour (hh : Int) (st : Taken) : Except Dotclock Taken :=
  if hh ≠ notGiven then
    if hh ≤ 23 then
      .ok { st with result := { st.result with hour := hh }, fieldsParsed := st.fieldsParsed + 1 }
    else .error (.hour hh)
  else .ok st

def takeMinute (mm : Int) (st : Taken) : Except Dotclock Taken :=
  if mm ≠ notGiven then
    if mm ≤ 59 then
      .ok { st with result := { st.result with min := mm }, fieldsParsed := st.fieldsParsed + 1 }
    else .error (.minute mm)
  else .ok st

def takeSecond (ss : Double) (st : Taken) : Except Dotclock Taken :=
  if toInt ss ≠ notGiven then
    match splitSeconds ss with
    | some (sec, microseconds) =>
      .ok ⟨{ st.result with sec := sec }, microseconds, st.fieldsParsed + 1⟩
    | none => .error (.second ss)
  else .ok st

/-- What is stored before a check that fails stays. -/
def takeAll : List (Taken → Except Dotclock Taken) → Taken → Option Dotclock × Taken
  | [], st => (none, st)
  | take :: takes, st =>
    match take st with
    | .ok st => takeAll takes st
    | .error e => (some e, st)

def takeOver (f : Fields Int Double) : Taken → Option Dotclock × Taken :=
  takeAll [takeYear f.year, takeDay f.doy, takeHour f.hh, takeMinute f.mm, takeSecond f.ss]

/-- With the result and the microseconds afterwards. -/
def parseVexTime (text : List Char) (result : Tm) (microseconds : Nat) :
    Except Dotclock Nat × Tm × Nat :=
  match decode text with
  | .error e => (.error e, result, microseconds)
  | .ok f =>
    match takeOver f ⟨result, microseconds, 0⟩ with
    | (some e, st) => (.error e, st.result, st.microseconds)
    | (none, st) => (.ok st.fieldsParsed, st.result, st.microseconds)

/-! ## What is read -/

/-- No field is left out after one that is there. -/
structure Fields.InSequence {α β : Type} (f : Fields (Option α) β) : Prop where
  doy : f.year.isSome = true → f.doy.isSome = true
  hh : f.doy.isSome = true → f.hh.isSome = true
  mm : f.hh.isSome = true → f.mm.isSome = true

/-- A number that `sscanf` finds, up to its separator, or none. -/
def ReadsInt (sep : Char) (v : Option Int) (text rest : List Char) : Prop :=
  match v with
  | some n => scanInt text = some (n, sep :: rest)
  | none => rest = text ∧ ∀ n after, scanInt text ≠ some (n, sep :: after)

/-- The text begins with the last of the fields. -/
def Reads (text : List Char) (f : Fields (Option Int) Double) : Prop :=
  ∃ d h m s after, ReadsInt 'y' f.year text d ∧ ReadsInt 'd' f.doy d h ∧ ReadsInt 'h' f.hh h m ∧
    ReadsInt 'm' f.mm m s ∧ scanDouble s = some (f.ss, 's' :: after) ∧ f.InSequence

def Fields.values (f : Fields (Option Int) Double) : Fields Int Double :=
  ⟨f.year.getD notGiven, f.doy.getD notGiven, f.hh.getD notGiven, f.mm.getD notGiven, f.ss⟩

def nothing : Fields Int Double := ⟨notGiven, notGiven, notGiven, notGiven, .finite notGiven⟩

theorem fld_eq_some {α : Type} {scan : List Char → Option (α × List Char)} {sep : Char}
    {s : List Char} {v : α} : fld scan sep s = some v ↔ ∃ rest, scan s = some (v, sep :: rest) := by
  unfold fld
  split
  · rename_i w c rest heq
    rw [heq]
    by_cases hc : c = sep
    · subst hc
      simp
    · simp [hc]
  · rename_i hnot
    simp only [reduceCtorEq, false_iff]
    rintro ⟨rest, heq⟩
    exact hnot v sep rest heq

/-- The number has no separator in it. -/
theorem afterSep_of_scanInt {sep : Char} {s rest : List Char} {v : Int}
    (hsep : sep ∈ ['y', 'd', 'h', 'm']) (h : scanInt s = some (v, sep :: rest)) :
    afterSep sep s = rest := by
  obtain ⟨front, rfl, hfront⟩ := scanInt_front h
  have hkinds : ∀ c ∈ ['y', 'd', 'h', 'm'],
      isSpace c = false ∧ isSign c = false ∧ c.isDigit = false := by
    simp only [List.mem_cons, List.not_mem_nil, or_false, forall_eq_or_imp, forall_eq]
    decide
  have hkind := hkinds sep hsep
  have hall : ∀ c ∈ front, decide (c ≠ sep) = true := by
    intro c hc
    rw [decide_eq_true_eq]
    rintro rfl
    simpa [hkind] using hfront c hc
  unfold afterSep
  rw [List.dropWhile_append_of_pos hall, List.dropWhile_cons_of_neg (by simp), List.tail_cons]

theorem field_int {sep : Char} {v : Option Int} {ptr rest : List Char} {started : Bool}
    (hsep : sep ∈ ['y', 'd', 'h', 'm']) (h : ReadsInt sep v ptr rest)
    (hstarted : started = true → v.isSome = true) :
    field scanInt sep ⟨ptr, started⟩ = .ok (v, ⟨rest, started || v.isSome⟩) := by
  unfold field
  cases v with
  | some n =>
    rw [fld_eq_some.mpr ⟨rest, h⟩]
    dsimp only
    rw [afterSep_of_scanInt hsep h, Option.isSome_some, Bool.or_true]
  | none =>
    obtain ⟨rfl, hnot⟩ := h
    have hnone : fld scanInt sep rest = none := by
      rw [Option.eq_none_iff_forall_ne_some]
      intro n hn
      obtain ⟨after, hscan⟩ := fld_eq_some.mp hn
      exact hnot n after hscan
    have hfalse : started = false := by
      rw [Bool.eq_false_iff]
      exact fun htrue => absurd (hstarted htrue) (by decide)
    rw [hnone, hfalse]
    rfl

theorem field_ok {sep : Char} {v : Option Int} {ptr : List Char} {started : Bool} {cur : Cursor}
    (hsep : sep ∈ ['y', 'd', 'h', 'm']) (h : field scanInt sep ⟨ptr, started⟩ = .ok (v, cur)) :
    ReadsInt sep v ptr cur.ptr ∧ cur.started = (started || v.isSome) ∧
      (started = true → v.isSome = true) := by
  unfold field at h
  split at h
  · rename_i n heq
    obtain ⟨rest, hscan⟩ := fld_eq_some.mp heq
    cases h
    refine ⟨?_, by simp, by simp⟩
    dsimp only
    rw [afterSep_of_scanInt hsep hscan]
    exact hscan
  · rename_i heq
    split at h
    · cases h
    · rename_i hnot
      cases h
      dsimp only at hnot
      refine ⟨⟨rfl, fun n after hscan => ?_⟩, by simp, fun htrue => absurd htrue hnot⟩
      rw [fld_eq_some.mpr ⟨after, hscan⟩] at heq
      cases heq

theorem decode_of_reads {text : List Char} {f : Fields (Option Int) Double}
    (h : Reads (cString text) f) : decode text = .ok f.values := by
  obtain ⟨d, h, m, s, after, hyear, hdoy, hhh, hmm, hss, hseq⟩ := h
  have hsecond (started : Bool) :
      field scanDouble 's' ⟨s, started⟩ = .ok (some f.ss, ⟨afterSep 's' s, true⟩) := by
    unfold field
    rw [fld_eq_some.mpr ⟨after, hss⟩]
  have hy := field_int (by decide) hyear (show false = true → _ from nofun)
  have hd := field_int (by decide) hdoy (show (false || f.year.isSome) = true → _ from hseq.doy)
  have hh := field_int (by decide) hhh
    (show (false || f.year.isSome || f.doy.isSome) = true → f.hh.isSome = true by
      have := hseq.doy
      have := hseq.hh
      grind)
  have hm := field_int (by decide) hmm
    (show (false || f.year.isSome || f.doy.isSome || f.hh.isSome) = true → f.mm.isSome = true by
      have := hseq.doy
      have := hseq.hh
      have := hseq.mm
      grind)
  unfold decode
  rw [hy]
  refine Checked.bind_eq_ok.mpr ⟨_, rfl, ?_⟩
  refine Checked.bind_eq_ok.mpr ⟨_, hd, ?_⟩
  refine Checked.bind_eq_ok.mpr ⟨_, hh, ?_⟩
  refine Checked.bind_eq_ok.mpr ⟨_, hm, ?_⟩
  exact Checked.bind_eq_ok.mpr ⟨_, hsecond _, rfl⟩

theorem decode_ok {text : List Char} {g : Fields Int Double} (h : decode text = .ok g) :
    (∃ f, Reads (cString text) f ∧ g = f.values) ∨ g = nothing := by
  unfold decode at h
  obtain ⟨⟨year, cur₁⟩, hy, h⟩ := Checked.bind_eq_ok.mp h
  obtain ⟨⟨doy, cur₂⟩, hd, h⟩ := Checked.bind_eq_ok.mp h
  obtain ⟨⟨hh, cur₃⟩, hh', h⟩ := Checked.bind_eq_ok.mp h
  obtain ⟨⟨mm, cur₄⟩, hm, h⟩ := Checked.bind_eq_ok.mp h
  obtain ⟨⟨ss, cur₅⟩, hs, h⟩ := Checked.bind_eq_ok.mp h
  cases h
  obtain ⟨hyear, hstarted₁, -⟩ := field_ok (by decide) hy
  obtain ⟨hdoy, hstarted₂, hseq₂⟩ := field_ok (by decide) hd
  obtain ⟨hhour, hstarted₃, hseq₃⟩ := field_ok (by decide) hh'
  obtain ⟨hminute, hstarted₄, hseq₄⟩ := field_ok (by decide) hm
  rw [hstarted₁] at hseq₂ hstarted₂
  rw [hstarted₂] at hseq₃ hstarted₃
  rw [hstarted₃] at hseq₄ hstarted₄
  unfold field at hs
  split at hs
  · rename_i value heq
    obtain ⟨after, hscan⟩ := fld_eq_some.mp heq
    cases hs
    refine .inl ⟨⟨year, doy, hh, mm, value⟩,
      ⟨_, _, _, _, after, hyear, hdoy, hhour, hminute, hscan, ?_⟩, rfl⟩
    constructor
    · intro hsome
      exact hseq₂ (by simpa using hsome)
    · intro hsome
      exact hseq₃ (by simp only at hsome; simp [hsome])
    · intro hsome
      exact hseq₄ (by simp only at hsome; simp [hsome])
  · split at hs
    · cases hs
    · rename_i hnot
      cases hs
      rw [hstarted₄] at hnot
      simp only [Bool.false_or, Bool.or_eq_true, not_or, Bool.not_eq_true,
        Option.isSome_eq_false_iff, Option.isNone_iff_eq_none] at hnot
      obtain ⟨⟨⟨rfl, rfl⟩, rfl⟩, rfl⟩ := hnot
      exact .inr rfl

end Jive5ab.Dot.VexTime
