import Jive5ab.Lib.Calendar
import Jive5ab.Lib.Rounding
import Mathlib.Data.NNRat.Defs
import Mathlib.Data.List.Infix

/-! # Selecting a scan

`scan_set_vbs_fn`: the name of a scan, and where in it to start and to end. The two
positions are read one after the other, each relative to what is set so far, and
compared with the ends of the recording, but not with each other. -/
namespace Jive5ab.Vbs.ScanSet
open Lib.Calendar Lib.Rounding

abbrev Text := List Char

/-! ## Numbers -/

def int64 (x : Int) : Int := Int.bmod x (2 ^ 64)

/-- `std::round` -/
def roundAway (x : ℚ) : Int := if 0 ≤ x then ⌊x + 1 / 2⌋ else -⌊-x + 1 / 2⌋

/-- What the machine makes of a double that is no `int64_t`. -/
def doubleToInt64 (x : Int) : Int := if -2 ^ 63 ≤ x ∧ x < 2 ^ 63 then x else -2 ^ 63

/-- `boost::rational_cast<double>` -/
def rationalCastDouble (q : ℚ) : ℚ :=
  let magnitude := toDouble (toDouble q.num.natAbs / toDouble q.den)
  if q < 0 then -magnitude else magnitude

def isSpace (c : Char) : Bool := c == ' ' || (9 ≤ c.toNat && c.toNat ≤ 13)

def digitValue (c : Char) : Nat :=
  if c.isDigit then c.toNat - 48
  else if c.isLower then c.toNat - 87
  else if c.isUpper then c.toNat - 55
  else 36

def readDigits (base : Nat) (digits : Text) : Option Nat :=
  if digits ≠ [] ∧ digits.all (digitValue · < base) then
    some (digits.foldl (fun n c => n * base + digitValue c) 0)
  else none

/-- Base 0: the prefix tells. -/
def readUnsigned : Nat → Text → Option Nat
  | 0, '0' :: x :: digits =>
    if x = 'x' ∨ x = 'X' then readDigits 16 digits else readDigits 8 ('0' :: x :: digits)
  | 0, digits => readDigits 10 digits
  | base, digits => readDigits base digits

/-- `strtoll`, of which nothing may be left over. -/
def strtoll (base : Nat) (s : Text) : Option Int :=
  match s.dropWhile isSpace with
  | '-' :: digits => (readUnsigned base digits).map fun n => -(n : Int)
  | '+' :: digits => (readUnsigned base digits).map fun n => (n : Int)
  | digits => (readUnsigned base digits).map fun n => (n : Int)

/-! ## What a command finds -/

structure Recording where
  fd : Int
  length : Nat
  length_lt : length < 2 ^ 63

/-- Of a scan check: where and when the data starts; and the bytes per second. -/
structure ScanCheck where
  startSec : Int
  startSubsecond : ℚ≥0
  startByteOffset : UInt64
  dataRate : UInt64

/-- The recordings, and what texts say of times: `parse_vex_time` gives the number of fields
that it found, and the time with these fields set. -/
structure Env where
  openVbs : Text → Except String Recording
  scanCheck : Recording → Except String ScanCheck
  parseVexTime : Text → Tm × UInt32 → Option (Nat × Tm × UInt32)
  secondsInYear : Tm → Option UInt32

/-- The part of `mk6info_type` that a scan is selected in. -/
structure Mk6Info where
  dirList : List Text
  scanName : Text
  fpStart : Int
  fpEnd : Int
  fDescriptor : Option Int
  deriving DecidableEq

inductive Rejection
  | refused (reply : String)
  | throws (what : String)
  deriving DecidableEq

/-! ## The name -/

def toupper (s : Text) : Text := s.map Char.toUpper

/-- From place `i` of the names on, around the end; `n2check` names are left to be checked. -/
def search (names : List Text) (word : Text) : Nat → Nat → Option Text
  | 0, _ => none
  | n2check + 1, i =>
    let i := if i = names.length then 0 else i
    match names[i]? with
    | none => none
    | some name => if word <:+: toupper name then some name else search names word n2check (i + 1)

/-- The last search string, after a search for it. -/
def searchFor (names : List Text) (word : Text) (start : Nat) : Text × Option Text :=
  ((search names (toupper word) names.length start).getD word, some word)

/-- The scan that the first argument names, and the search string that is remembered. The
names are those of `dirList` from its end, `names.length` is `rend()`, behind which a
list starts over. -/
def selectScan (s : Mk6Info) (previous : Option Text) (arg : Text) :
    Except Rejection (Text × Option Text) :=
  let names := s.dirList.reverse
  let nextScan := if s.scanName = [] then names.length else names.idxOf s.scanName
  if arg = [] then
    match names.getLast? with
    | none => .error (.refused " 6 : there are no scans recorded in this session ;")
    | some name => .ok (name, previous)
  else if arg = "inc".toList then
    if nextScan = names.length then
      .error (.refused " 6 : there is no recorded scan to increment from;")
    else .ok (names.getD (if nextScan + 1 = names.length then 0 else nextScan + 1) [], previous)
  else if arg = "dec".toList then
    if nextScan = names.length then
      .error (.refused " 6 : there is no recorded scan to decrement from ;")
    else .ok (names.getD ((if nextScan = 0 then names.length else nextScan) - 1) [], previous)
  else if arg = "null".toList then .ok ("null".toList, previous)
  else
    let number := (strtoll 10 arg).filter fun n : Int => 1 ≤ n ∧ n ≤ names.length
    match number with
    | some n => .ok (names.getD (n.toNat - 1) [], previous)
    | none =>
      if arg = "next".toList then
        match previous with
        | none => .error (.refused " 4 : no search string given yet ;")
        | some word => .ok (searchFor names word ((nextScan + 1) % (names.length + 1)))
      else .ok (searchFor names arg 0)

/-! ## The positions -/

/-- How an argument states a position. -/
inductive Reading
  | bytes (plus : Bool) (byteOffset : Int)
  | relativeTime (minus : Bool) (byteOffset : Int)
  | absoluteTime (byteOffset : Int)
  deriving DecidableEq

def Reading.place (r : Reading) (fpStart fpEnd : Int) : Int :=
  match r with
  | .bytes plus byteOffset =>
    if byteOffset < 0 then int64 (byteOffset + fpEnd)
    else if plus then int64 (byteOffset + fpStart)
    else byteOffset
  | .relativeTime minus byteOffset =>
    if minus then int64 (fpEnd - byteOffset) else int64 (fpStart + byteOffset)
  | .absoluteTime byteOffset => byteOffset

/-- `(int64_t)round((seconds + microseconds / 1e6) * data_rate)` -/
def timeOffset (seconds microseconds : UInt32) (dataRate : UInt64) : Int :=
  doubleToInt64 (roundAway (toDouble
    (toDouble (seconds.toNat + toDouble ((microseconds.toNat : ℚ) / 1000000)) *
      toDouble dataRate.toNat)))

def zeroTm : Tm := ⟨0, 0, 1, 0, 0, 0⟩

def fieldSecondValues : List Int := [1, 60, 60 * 60, 24 * 60 * 60, 365 * 24 * 60 * 60]

section
variable (env : Env)

/-- A time that is not relative: from the fields that it leaves open the next such time is taken
if it is before the data. -/
def readAbsolute (scr : ScanCheck) (arg : Text) : Except Rejection Reading :=
  let startMicro : ℚ := scr.startSubsecond * 1000000
  let default := (gmtime scr.startSec, UInt32.ofInt (roundAway (rationalCastDouble startMicro)))
  match env.parseVexTime arg default with
  | none => .error (.throws "parse_vex_time")
  | some (0, _, _) => .error (.throws "fields > 0")
  | some (fields + 1, parsedTime, microseconds) =>
    let requestedTime := mktime parsedTime
    let micro : ℚ := microseconds.toNat
    if requestedTime = -1 then .error (.throws "requested_time != (time_t)-1")
    else
      let requestedTime :=
        if requestedTime < scr.startSec ∨ (requestedTime = scr.startSec ∧ micro < startMicro) then
          requestedTime + fieldSecondValues.getD (min (fields + 1) 4) 0
        else requestedTime
      if scr.startSec < requestedTime ∨ (requestedTime = scr.startSec ∧ startMicro ≤ micro) then
        let seconds := UInt32.ofInt (requestedTime - scr.startSec)
        let before := roundAway (rationalCastDouble
          ((scr.startSubsecond - micro / 1000000) * scr.dataRate.toNat))
        .ok (.absoluteTime (int64 (seconds.toNat * scr.dataRate.toNat - before +
          scr.startByteOffset.toNat)))
      else .error (.throws "requested_time > scr.start_time.tv_sec")

def readTime (recording : Recording) (relative minus : Bool) (arg : Text) (parsedTime : Tm)
    (microseconds : UInt32) : Except Rejection Reading :=
  match env.scanCheck recording with
  | .error what => .error (.throws what)
  | .ok scr =>
    if relative then
      match env.secondsInYear parsedTime with
      | none => .error (.throws "seconds_in_year")
      | some seconds =>
        .ok (.relativeTime minus (timeOffset seconds microseconds scr.dataRate))
    else readAbsolute env scr arg

/-- First it is tried as a time; what is none has to be a relative number of bytes. -/
def readPosition (recording : Recording) (arg : Text) : Except Rejection Reading :=
  let plus := arg.head? = some '+'
  let minus := arg.head? = some '-'
  let relative := plus ∨ minus
  match env.parseVexTime (if relative then arg.tail else arg) (zeroTm, 0) with
  | some (_ + 1, parsedTime, microseconds) =>
    readTime env recording relative minus arg parsedTime microseconds
  | _ =>
    if ¬relative then
      .error (.refused " 8 : only relative byte numbers allowed in this command ;")
    else
      match (strtoll 0 arg).filter fun n => -2 ^ 63 ≤ n ∧ n < 2 ^ 63 with
      | some byteOffset => .ok (.bytes plus byteOffset)
      | none => .error (.throws
          s!" failed to parse byte offset or time code from '{String.ofList arg}'")

/-- What an argument states that may be left out. -/
def readOptional (recording : Recording) (arg : Option Text) : Except Rejection (Option Reading) :=
  match arg.filter (· ≠ []) with
  | none => .ok none
  | some arg => (readPosition env recording arg).map some

/-- `s`, `c`, `e` and `s+`, for the start only. -/
def keyword (length : Int) (arg : Text) : Option Int :=
  if arg = "s".toList then some 0
  else if arg = "c".toList then some (length / 2)
  else if arg = "e".toList then some (length - 1000000)
  else if arg = "s+".toList then some 65536
  else none

def startPointer (recording : Recording) (args : List Text) : Except Rejection Int :=
  match args[2]?.bind (keyword recording.length) with
  | some fpStart => .ok fpStart
  | none => (readOptional env recording args[2]?).map fun r =>
      r.elim 0 fun r => r.place 0 recording.length

def endPointer (recording : Recording) (args : List Text) (fpStart : Int) : Except Rejection Int :=
  (readOptional env recording args[3]?).map fun r =>
    r.elim recording.length fun r => r.place fpStart recording.length

/-- From the name of the scan on. -/
def setScan (s : Mk6Info) (scanName : Text) (args : List Text) : Except Rejection Mk6Info :=
  match env.openVbs scanName with
  | .error what => .error (.throws what)
  | .ok recording => do
    let fpStart ← startPointer env recording args
    let fpEnd ← endPointer env recording args fpStart
    if fpStart < 0 ∨ (recording.length : Int) < fpEnd then
      .error (.refused " 8 : scan pointer offset(s) are out of bound ;")
    else return { s with scanName, fpStart, fpEnd, fDescriptor := some recording.fd }

/-- `scan_set_vbs_fn` for a command, with the transfer that is in progress. -/
def scanSet (transfer : Option String) (s : Mk6Info) (previous : Option Text)
    (args : List Text) : Except Rejection Unit × Mk6Info × Option Text :=
  match transfer with
  | some transfermode =>
    (.error (.refused s!" 6 : not whilst {transfermode} is in progress ;"), s, previous)
  | none =>
    match selectScan s previous (args.getD 1 []) with
    | .error e => (.error e, s, previous)
    | .ok (scanName, previous) =>
      if args.length < 2 then
        (.ok (), { s with scanName, fpStart := 0, fpEnd := 0, fDescriptor := none }, previous)
      else
        match setScan env s scanName args with
        | .error e => (.error e, s, previous)
        | .ok s => (.ok (), s, previous)

end

/-! ## What is selected -/

/-- A selection lies in the recording, its end not before its start, and without one nothing of
the old one has changed. -/
def ValidAndAtomic (env : Env) (transfer : Option String) (s : Mk6Info) (previous : Option Text)
    (args : List Text) : Prop :=
  match scanSet env transfer s previous args with
  | (.ok (), s', _) =>
    0 ≤ s'.fpStart ∧ s'.fpStart ≤ s'.fpEnd ∧
      ∀ recording, env.openVbs s'.scanName = .ok recording → s'.fpEnd ≤ recording.length
  | (.error _, s', _) =>
    s'.scanName = s.scanName ∧ s'.fpStart = s.fpStart ∧ s'.fpEnd = s.fpEnd ∧
      s'.fDescriptor = s.fDescriptor

/-- Where in a recording a start that is read so lies. -/
def startsAt (length : Int) : Option Reading → Int
  | none => 0
  | some (.bytes _ n) => if n < 0 then length + n else n
  | some (.relativeTime minus n) => if minus then length - n else n
  | some (.absoluteTime n) => n

/-- The second argument states a start. -/
def StatesStart (env : Env) (recording : Recording) (arg : Option Text) (fpStart : Int) : Prop :=
  match arg.bind (keyword recording.length) with
  | some place => fpStart = place
  | none => ∃ r, readOptional env recording arg = .ok r ∧ fpStart = startsAt recording.length r

/-- What the arguments state: the recording, where in it to start, and how the end is stated. -/
structure Requests (env : Env) (s : Mk6Info) (previous : Option Text) (args : List Text)
    (recording : Recording) (fpStart : Int) (r : Option Reading) : Prop where
  select : ∃ scanName previous',
    selectScan s previous (args.getD 1 []) = .ok (scanName, previous') ∧
      env.openVbs scanName = .ok recording
  start : StatesStart env recording args[2]? fpStart
  fits : 0 ≤ fpStart ∧ fpStart < 2 ^ 63
  stop : readOptional env recording args[3]? = .ok r

/-- How an end that is stated so is not before the start. -/
def InOrder (length fpStart : Int) : Option Reading → Prop
  | none => fpStart ≤ length
  | some (.bytes plus n) =>
    if n < 0 then fpStart ≤ length + n
    else if plus then fpStart + n < 2 ^ 63
    else n ≤ length → fpStart ≤ n
  | some (.relativeTime minus n) =>
    0 ≤ n ∧ if minus then fpStart ≤ length - n else fpStart + n < 2 ^ 63
  | some (.absoluteTime n) => n ≤ length → fpStart ≤ n

/-! ## Positions in 64 bits -/

theorem int64_of_fits {x : Int} (hlow : -2 ^ 63 ≤ x) (hhigh : x < 2 ^ 63) : int64 x = x := by
  simp only [int64, Int.bmod]
  split <;> omega

theorem int64_of_exceeds {x : Int} (hlow : 2 ^ 63 ≤ x) (hhigh : x < 2 ^ 64) :
    int64 x = x - 2 ^ 64 := by
  simp only [int64, Int.bmod]
  split <;> omega

theorem int64_bounds (x : Int) : -2 ^ 63 ≤ int64 x ∧ int64 x < 2 ^ 63 := by
  simp only [int64, Int.bmod]
  split <;> omega

theorem Reading.place_bytes (plus : Bool) (n fpStart fpEnd : Int) :
    (bytes plus n).place fpStart fpEnd =
      if n < 0 then int64 (n + fpEnd) else if plus then int64 (n + fpStart) else n := rfl

theorem Reading.place_relativeTime (minus : Bool) (n fpStart fpEnd : Int) :
    (relativeTime minus n).place fpStart fpEnd =
      if minus then int64 (fpEnd - n) else int64 (fpStart + n) := rfl

theorem inOrder_bytes {length fpStart : Int} (plus : Bool) (n : Int) :
    InOrder length fpStart (some (.bytes plus n)) ↔
      if n < 0 then fpStart ≤ length + n else if plus then fpStart + n < 2 ^ 63
      else n ≤ length → fpStart ≤ n := Iff.rfl

theorem inOrder_relativeTime {length fpStart : Int} (minus : Bool) (n : Int) :
    InOrder length fpStart (some (.relativeTime minus n)) ↔
      0 ≤ n ∧ if minus then fpStart ≤ length - n else fpStart + n < 2 ^ 63 := Iff.rfl

def Reading.offset : Reading → Int
  | .bytes _ n => n
  | .relativeTime _ n => n
  | .absoluteTime n => n

/-- The offset of a time is not negative, or it was too large. -/
structure Reading.InRange (r : Reading) : Prop where
  low : -2 ^ 63 ≤ r.offset
  high : r.offset < 2 ^ 63
  time : ∀ minus n, r = .relativeTime minus n → 0 ≤ n ∨ n = -2 ^ 63

theorem Reading.InRange.place_lt {r : Reading} (h : r.InRange) (fpStart fpEnd : Int) :
    r.place fpStart fpEnd < 2 ^ 63 := by
  have hhigh := h.high
  cases r with
  | bytes plus n =>
    rw [place_bytes]
    split
    · exact (int64_bounds _).2
    split
    · exact (int64_bounds _).2
    · exact hhigh
  | relativeTime minus n =>
    rw [place_relativeTime]
    split <;> exact (int64_bounds _).2
  | absoluteTime n => exact hhigh

theorem Reading.InRange.inOrder_iff {r : Reading} (h : r.InRange) {length fpStart : Int}
    (hlength : 0 ≤ length) (hlength' : length < 2 ^ 63) (hstart : 0 ≤ fpStart)
    (hstart' : fpStart < 2 ^ 63) :
    (r.place fpStart length ≤ length → fpStart ≤ r.place fpStart length) ↔
      InOrder length fpStart (some r) := by
  obtain ⟨hlow, hhigh, htime⟩ := h
  -- an offset from the start ends behind it, unless the sum wraps
  have hforward (n : Int) (hn : 0 ≤ n) (hn' : n < 2 ^ 63) :
      (int64 (fpStart + n) ≤ length → fpStart ≤ int64 (fpStart + n)) ↔ fpStart + n < 2 ^ 63 := by
    rcases lt_or_ge (fpStart + n) (2 ^ 63) with hlt | hge
    · rw [int64_of_fits (by omega) hlt]
      omega
    · rw [int64_of_exceeds hge (by omega)]
      omega
  cases r with
  | bytes plus n =>
    change -2 ^ 63 ≤ n at hlow
    change n < 2 ^ 63 at hhigh
    rw [place_bytes, inOrder_bytes]
    rcases lt_or_ge n 0 with hneg | hpos
    · rw [if_pos hneg, if_pos hneg, int64_of_fits (by omega) (by omega)]
      omega
    · rw [if_neg (not_lt.mpr hpos), if_neg (not_lt.mpr hpos), add_comm n]
      cases plus with
      | true => exact hforward n hpos hhigh
      | false => exact Iff.rfl
  | relativeTime minus n =>
    change n < 2 ^ 63 at hhigh
    rw [place_relativeTime, inOrder_relativeTime]
    rcases htime minus n rfl with hpos | rfl
    · cases minus with
      | true =>
        rw [if_pos rfl, if_pos rfl, int64_of_fits (by omega) (by omega)]
        omega
      | false => simpa [hpos] using hforward n hpos hhigh
    · cases minus with
      | true =>
        rw [if_pos rfl, int64_of_exceeds (by omega) (by omega)]
        omega
      | false =>
        rw [if_neg Bool.false_ne_true, int64_of_fits (by omega) (by omega)]
        omega
  | absoluteTime n => exact Iff.rfl

/-! ## What is read -/

theorem roundAway_nonneg {x : ℚ} (h : 0 ≤ x) : 0 ≤ roundAway x := by
  unfold roundAway
  rw [if_pos h]
  exact Int.floor_nonneg.mpr (by linarith)

theorem timeOffset_range (seconds microseconds : UInt32) (dataRate : UInt64) :
    -2 ^ 63 ≤ timeOffset seconds microseconds dataRate ∧
      timeOffset seconds microseconds dataRate < 2 ^ 63 ∧
      (0 ≤ timeOffset seconds microseconds dataRate ∨
        timeOffset seconds microseconds dataRate = -2 ^ 63) := by
  have hmicro : (0 : ℚ) ≤ toDouble ((microseconds.toNat : ℚ) / 1000000) :=
    toDouble_nonneg (by positivity)
  have hsum : (0 : ℚ) ≤ toDouble (seconds.toNat + toDouble ((microseconds.toNat : ℚ) / 1000000)) :=
    toDouble_nonneg (add_nonneg (Nat.cast_nonneg _) hmicro)
  have hrate : (0 : ℚ) ≤ toDouble (dataRate.toNat : ℚ) := toDouble_nonneg (Nat.cast_nonneg _)
  have hround := roundAway_nonneg (toDouble_nonneg (mul_nonneg hsum hrate))
  simp only [timeOffset, doubleToInt64]
  split <;> omega

theorem absoluteTime_range (n : Int) : (Reading.absoluteTime (int64 n)).InRange :=
  ⟨(int64_bounds n).1, (int64_bounds n).2, fun _ _ heq => nomatch heq⟩

theorem readAbsolute_range {env : Env} {scr : ScanCheck} {arg : Text} {r : Reading}
    (h : readAbsolute env scr arg = .ok r) : r.InRange := by
  unfold readAbsolute at h
  simp only at h
  split at h
  · cases h
  · cases h
  · split at h
    · cases h
    · split at h
      all_goals
        split at h
        · cases h
          exact absoluteTime_range _
        · cases h

theorem readTime_range {env : Env} {recording : Recording} {relative minus : Bool} {arg : Text}
    {parsedTime : Tm} {microseconds : UInt32} {r : Reading}
    (h : readTime env recording relative minus arg parsedTime microseconds = .ok r) :
    r.InRange := by
  unfold readTime at h
  split at h
  · cases h
  next scr _ =>
    split at h
    · split at h
      · cases h
      next seconds _ =>
        obtain rfl : _ = r := Except.ok.inj h
        obtain ⟨hlow, hhigh, hsign⟩ := timeOffset_range seconds microseconds scr.dataRate
        refine ⟨hlow, hhigh, fun minus' n heq => ?_⟩
        cases heq
        exact hsign
    · exact readAbsolute_range h

theorem readPosition_range {env : Env} {recording : Recording} {arg : Text} {r : Reading}
    (h : readPosition env recording arg = .ok r) : r.InRange := by
  unfold readPosition at h
  simp only at h
  split at h
  · exact readTime_range h
  · split at h
    · cases h
    · split at h
      next byteOffset hread =>
        obtain rfl : _ = r := Except.ok.inj h
        obtain ⟨-, hfits⟩ := Option.filter_eq_some_iff.mp hread
        obtain ⟨hlow, hhigh⟩ := of_decide_eq_true hfits
        exact ⟨hlow, hhigh, fun _ _ heq => nomatch heq⟩
      · cases h

theorem readOptional_range {env : Env} {recording : Recording} {arg : Option Text} {r : Reading}
    (h : readOptional env recording arg = .ok (some r)) : r.InRange := by
  unfold readOptional at h
  split at h
  · cases h
  next arg _ =>
    cases hread : readPosition env recording arg with
    | error e => rw [hread] at h; cases h
    | ok r' =>
      rw [hread] at h
      obtain rfl : r' = r := Option.some.inj (Except.ok.inj h)
      exact readPosition_range hread

/-- A start that is read is where it is stated to be, if it is not negative. -/
theorem Reading.InRange.start_iff {r : Reading} (h : r.InRange) {length fpStart : Int}
    (hlength : 0 ≤ length) (hlength' : length < 2 ^ 63) (hstart : 0 ≤ fpStart) :
    r.place 0 length = fpStart ↔ fpStart = startsAt length (some r) ∧ fpStart < 2 ^ 63 := by
  obtain ⟨hlow, hhigh, htime⟩ := h
  cases r with
  | bytes plus n =>
    change -2 ^ 63 ≤ n at hlow
    change n < 2 ^ 63 at hhigh
    rw [place_bytes]
    simp only [startsAt]
    rcases lt_or_ge n 0 with hneg | hpos
    · rw [if_pos hneg, if_pos hneg, int64_of_fits (by omega) (by omega)]
      omega
    · rw [if_neg (not_lt.mpr hpos), if_neg (not_lt.mpr hpos), add_zero,
        int64_of_fits (by omega) hhigh, ite_self]
      omega
  | relativeTime minus n =>
    change n < 2 ^ 63 at hhigh
    rw [place_relativeTime, zero_add]
    simp only [startsAt]
    rcases htime minus n rfl with hpos | rfl
    · rw [int64_of_fits (by omega) (by omega), int64_of_fits (by omega) hhigh]
      split <;> omega
    · rw [int64_of_exceeds (by omega) (by omega), int64_of_fits (by omega) (by omega)]
      split <;> omega
  | absoluteTime n =>
    change n < 2 ^ 63 at hhigh
    change n = fpStart ↔ fpStart = n ∧ _
    omega

theorem keyword_lt {length : Int} {arg : Text} {fpStart : Int} (hlength : 0 ≤ length)
    (hlength' : length < 2 ^ 63) (h : keyword length arg = some fpStart) : fpStart < 2 ^ 63 := by
  unfold keyword at h
  split at h
  · cases h; decide
  split at h
  · obtain rfl := Option.some.inj h
    omega
  split at h
  · obtain rfl := Option.some.inj h
    omega
  split at h
  · cases h; decide
  · cases h

theorem startPointer_iff {env : Env} {recording : Recording} {args : List Text} {fpStart : Int}
    (hstart : 0 ≤ fpStart) :
    startPointer env recording args = .ok fpStart ↔
      StatesStart env recording args[2]? fpStart ∧ fpStart < 2 ^ 63 := by
  have hlength : (0 : Int) ≤ recording.length := Int.natCast_nonneg _
  have hlength' : (recording.length : Int) < 2 ^ 63 := by exact_mod_cast recording.length_lt
  unfold startPointer StatesStart
  cases hkey : args[2]?.bind (keyword recording.length) with
  | some place =>
    obtain ⟨arg, -, hplace⟩ := Option.bind_eq_some_iff.mp hkey
    have hlt := keyword_lt hlength hlength' hplace
    change Except.ok place = Except.ok fpStart ↔ fpStart = place ∧ fpStart < 2 ^ 63
    constructor
    · intro h
      cases h
      exact ⟨rfl, hlt⟩
    · rintro ⟨rfl, -⟩
      rfl
  | none =>
    simp only
    cases hread : readOptional env recording args[2]? with
    | error e => simp [Except.map]
    | ok r =>
      cases r with
      | none =>
        simp only [Except.map, Option.elim_none, Except.ok.injEq, exists_eq_left', startsAt]
        omega
      | some r =>
        simp only [Except.map, Option.elim_some, Except.ok.injEq, exists_eq_left']
        exact (readOptional_range hread).start_iff hlength hlength' hstart

theorem endPointer_eq {env : Env} {recording : Recording} {args : List Text} {fpStart : Int}
    {r : Option Reading} (h : readOptional env recording args[3]? = .ok r) :
    endPointer env recording args fpStart =
      .ok (r.elim recording.length fun r => r.place fpStart recording.length) := by
  unfold endPointer
  rw [h]
  rfl

/-- An end that is read is not before the start, if it is not behind the recording. -/
theorem end_inOrder_iff {env : Env} {recording : Recording} {arg : Option Text}
    {r : Option Reading} {fpStart : Int} (h : readOptional env recording arg = .ok r)
    (hstart : 0 ≤ fpStart) (hstart' : fpStart < 2 ^ 63) :
    let fpEnd := r.elim (recording.length : Int) fun r => r.place fpStart recording.length
    (fpEnd ≤ recording.length → fpStart ≤ fpEnd) ↔ InOrder recording.length fpStart r := by
  have hlength : (0 : Int) ≤ recording.length := Int.natCast_nonneg _
  have hlength' : (recording.length : Int) < 2 ^ 63 := by exact_mod_cast recording.length_lt
  cases r with
  | none =>
    change ((recording.length : Int) ≤ recording.length → fpStart ≤ recording.length) ↔ _
    exact forall_prop_of_true le_rfl
  | some r => exact (readOptional_range h).inOrder_iff hlength hlength' hstart hstart'

/-! ## Setting the scan -/

theorem setScan_iff {env : Env} {s s' : Mk6Info} {scanName : Text} {args : List Text} :
    setScan env s scanName args = .ok s' ↔
      ∃ recording fpStart fpEnd, env.openVbs scanName = .ok recording ∧
        startPointer env recording args = .ok fpStart ∧
        endPointer env recording args fpStart = .ok fpEnd ∧
        0 ≤ fpStart ∧ fpEnd ≤ recording.length ∧
        s' = { s with scanName, fpStart, fpEnd, fDescriptor := some recording.fd } := by
  unfold setScan
  cases hopen : env.openVbs scanName with
  | error what => simp
  | ok recording =>
    simp only [Except.ok.injEq, exists_and_left, exists_eq_left']
    cases hstart : startPointer env recording args with
    | error e => simp [bind, Except.bind]
    | ok fpStart =>
      simp only [bind, Except.bind, Except.ok.injEq, exists_eq_left']
      cases hend : endPointer env recording args fpStart with
      | error e => simp
      | ok fpEnd =>
        simp only [Except.ok.injEq, exists_eq_left']
        split
        next hout =>
          constructor
          · intro h
            cases h
          · rintro ⟨hlow, hhigh, -⟩
            omega
        next hin =>
          rw [not_or, not_lt, not_lt] at hin
          constructor
          · intro h
            exact ⟨hin.1, hin.2, (Except.ok.inj h).symm⟩
          · rintro ⟨-, -, rfl⟩
            rfl

/-- What the arguments state is what is set, and it is set if the ends lie in the recording. -/
theorem setScan_inOrder_iff {env : Env} {s : Mk6Info} {previous : Option Text} {scanName : Text}
    {previous' : Option Text} {args : List Text}
    (hselect : selectScan s previous (args.getD 1 []) = .ok (scanName, previous')) :
    (∀ s', setScan env s scanName args = .ok s' → s'.fpStart ≤ s'.fpEnd) ↔
      ∀ recording fpStart r, Requests env s previous args recording fpStart r →
        InOrder recording.length fpStart r := by
  constructor
  · rintro h recording fpStart r ⟨⟨name, previous'', hname, hopen⟩, hstart, ⟨hlow, hhigh⟩, hstop⟩
    obtain ⟨rfl, -⟩ := Prod.mk.inj (Except.ok.inj (hname.symm.trans hselect))
    refine (end_inOrder_iff hstop hlow hhigh).mp fun hend => ?_
    exact h _ (setScan_iff.mpr ⟨recording, fpStart, _, hopen,
      (startPointer_iff hlow).mpr ⟨hstart, hhigh⟩, endPointer_eq hstop, hlow, hend, rfl⟩)
  · intro h s' hset
    obtain ⟨recording, fpStart, fpEnd, hopen, hstart, hend, hlow, hle, rfl⟩ := setScan_iff.mp hset
    obtain ⟨hstates, hhigh⟩ := (startPointer_iff hlow).mp hstart
    change fpStart ≤ fpEnd
    cases hstop : readOptional env recording args[3]? with
    | error e =>
      unfold endPointer at hend
      rw [hstop] at hend
      cases hend
    | ok r =>
      rw [endPointer_eq hstop] at hend
      obtain rfl := Except.ok.inj hend
      exact (end_inOrder_iff hstop hlow hhigh).mpr
        (h recording fpStart r ⟨⟨scanName, previous', hselect, hopen⟩, hstates, ⟨hlow, hhigh⟩,
          hstop⟩) hle

/-- A selection is valid, and nothing of a rejected one remains, if and only if each end that
the arguments state is not before the start that they state. -/
theorem scanSet_iff (env : Env) (transfer : Option String) (s : Mk6Info) (previous : Option Text)
    (args : List Text) :
    ValidAndAtomic env transfer s previous args ↔
      (transfer = none → 2 ≤ args.length → ∀ recording fpStart r,
        Requests env s previous args recording fpStart r →
          InOrder recording.length fpStart r) := by
  unfold ValidAndAtomic scanSet
  cases transfer with
  | some transfermode => simp
  | none =>
    rw [forall_prop_of_true rfl]
    cases hselect : selectScan s previous (args.getD 1 []) with
    | error e =>
      have hnone (recording fpStart r) : ¬Requests env s previous args recording fpStart r := by
        rintro ⟨⟨name, previous', hname, -⟩, -, -, -⟩
        rw [hselect] at hname
        cases hname
      simp [hnone]
    | ok selected =>
      obtain ⟨scanName, previous'⟩ := selected
      rcases Nat.lt_or_ge args.length 2 with hshort | hlong
      · simp only [if_pos hshort]
        simp [Nat.not_le.mpr hshort]
      · simp only [if_neg (Nat.not_lt.mpr hlong)]
        rw [forall_prop_of_true hlong, ← setScan_inOrder_iff hselect]
        cases hset : setScan env s scanName args with
        | error e => simp
        | ok s' =>
          obtain ⟨recording, fpStart, fpEnd, hopen, -, -, hlow, hle, rfl⟩ := setScan_iff.mp hset
          simp [hopen, hlow, hle]

/-! ## An end before the start -/

/-- One recording of 1000 bytes. -/
def oneRecording : Env where
  openVbs _ := .ok ⟨3, 1000, by decide⟩
  scanCheck _ := .error "could not deduce recorded data rate for time based scan_set"
  parseVexTime _ _ := none
  secondsInYear _ := none

def oneScan : Mk6Info where
  dirList := ["scan".toList]
  scanName := "scan".toList
  fpStart := 0
  fpEnd := 0
  fDescriptor := none

/-- From 600 bytes behind the start to 600 bytes before the end. -/
def crossing : List Text := ["scan_set".toList, "scan".toList, "+600".toList, "-600".toList]

theorem scanSet_crossing :
    scanSet oneRecording none oneScan none crossing =
      (.ok (), { oneScan with fpStart := 600, fpEnd := 400, fDescriptor := some 3 },
        some "scan".toList) := by
  decide

theorem validAndAtomic_crossing : ¬ValidAndAtomic oneRecording none oneScan none crossing := by
  unfold ValidAndAtomic
  rw [scanSet_crossing]
  rintro ⟨-, hle, -⟩
  revert hle
  decide

end Jive5ab.Vbs.ScanSet
