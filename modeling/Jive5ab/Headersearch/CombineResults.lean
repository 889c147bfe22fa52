import Jive5ab.Headersearch.VdifProbe
import Jive5ab.Highrestime.Arithmetic

/-! # Combining the results of two data checks

`combine_data_check_results` of `data_check.cc`: a result that lacks its bit rate takes
it from the other one, or from a guess if both do, and its fraction of a second from the
frame number. The number of bits before the frame is computed in 32-bit words. -/
namespace Jive5ab.Headersearch
open Lib Lib.Checked
open Highrestime (Subsecond unknownSubsecond)

/-! ## The code -/

def DataCheckType.isPartial (d : DataCheckType) : Bool :=
  d.trackbitrate == unknownRate || d.time.2.isNone

/-- `payloadSz` -/
def DataCheckType.payloadSize (d : DataCheckType) : Nat :=
  (framesize d.format d.ntrack d.vdifDataSize + 2 ^ 32 - headersize d.format d.ntrack) % 2 ^ 32

/-- `nsec`, from the frame number and the bit rate. -/
def DataCheckType.frameSubsecond (d : DataCheckType) : Except FormatError Subsecond :=
  orBadRational ((Fraction.ofNat (d.frameNumber * d.payloadSize * 8 % 2 ^ 32)).div
    (d.trackbitrate.mul (.ofNat d.ntrack)))

/-- `highrestime_type(sec, nsec)` -/
def timeAt (sec : Int) (nsec : Subsecond) : TimeStamp :=
  let t := Highrestime.HighResTime.normalize ⟨sec, nsec⟩
  (t.tvSec, if t.tvSubsecond = unknownSubsecond then none else some t.tvSubsecond.value)

def DataCheckType.withSubsecond (d : DataCheckType) : Except FormatError DataCheckType := do
  let nsec ← d.frameSubsecond
  return { d with time := timeAt d.time.1 nsec }

def copySubsecond (source destination : DataCheckType) : Except FormatError DataCheckType :=
  { destination with trackbitrate := source.trackbitrate }.withSubsecond

/-- What the bit rate is guessed from: bits and tracks and seconds between two results, and the
bits of a frame, the larger frame number and the tracks of one. -/
structure RateEvidence where
  bits : Int
  tracks : Nat
  seconds : Int
  frameBits : Nat
  frameNumber : Nat
  ntrack : Nat

/-- A power of two in megabits per second, by logarithms in double precision; nothing if it is
below `2^-6`. -/
abbrev RateGuess := RateEvidence → Option UInt64

def DataCheckType.threadCount (d : DataCheckType) : Nat :=
  if isVdif d.format then d.vdifThreads.size else 1

/-- Where the frame with number 0 of this second is, from where the result is. -/
def DataCheckType.secondOffset (d : DataCheckType) (frameSz threads : Nat) : Int :=
  d.byteOffset - d.frameNumber * frameSz * threads

section
variable (guess : RateGuess)

/-- Neither has a bit rate. -/
def guessRate (first last : DataCheckType) (byteOffset : Nat) :
    Except FormatError (Bool × DataCheckType × DataCheckType) :=
  if last.time.1 ≤ first.time.1 then .ok (false, first, last)
  else
    let threads := last.vdifThreads.foldl (fun t k w => t.insertIfNew k w) first.vdifThreads
    let first := { first with vdifThreads := threads }
    let last := { last with vdifThreads := threads }
    let vdifThreads := first.threadCount
    let frameSz := framesize first.format first.ntrack first.vdifDataSize
    let byteDiff : Int := Int.bmod (byteOffset + last.secondOffset frameSz vdifThreads -
      first.secondOffset frameSz vdifThreads) (2 ^ 64)
    if byteDiff ≤ 0 then .ok (false, first, last)
    else
      match guess {
        bits := Int.bmod (8 * byteDiff) (2 ^ 64)
        tracks := first.ntrack * vdifThreads % 2 ^ 32
        seconds := last.time.1 - first.time.1
        frameBits := 8 * first.payloadSize % 2 ^ 32
        frameNumber := max first.frameNumber last.frameNumber
        ntrack := first.ntrack } with
      | none => .ok (false, first, last)
      | some rate => do
        let first ← { first with trackbitrate := .ofNat rate.toNat }.withSubsecond
        return (true, first, ← copySubsecond first last)

/-- `combine_data_check_results`: whether they are complete now, and what has become of them. -/
def combineDataCheckResults (first last : DataCheckType) (byteOffset : Nat) :
    Except FormatError (Bool × DataCheckType × DataCheckType) :=
  if !first.isPartial && !last.isPartial then .ok (true, first, last)
  else if first.format ≠ last.format ∨ first.ntrack ≠ last.ntrack then .ok (false, first, last)
  else if isVdif first.format ∧
      (first.vdifThreads.size = 0 ∨ first.vdifFrameSize ≠ last.vdifFrameSize) then
    .ok (false, first, last)
  else if !first.isPartial then return (true, first, ← copySubsecond first last)
  else if !last.isPartial then return (true, ← copySubsecond last first, last)
  else guessRate guess first last byteOffset

end

/-! ## The exact time -/

/-- The bit rate of all tracks, per second. -/
def DataCheckType.bitrate (d : DataCheckType) : ℚ≥0 := d.trackbitrate.value * d.ntrack

/-- How long the payload of a frame takes. -/
def DataCheckType.frameDuration (d : DataCheckType) : ℚ≥0 := (d.payloadSize * 8 : ℕ) / d.bitrate

/-- As far as a format goes: at most `2^24` frames of `2^30` bits a second, in less than `2^31`
seconds. -/
structure DataCheckType.Allowed (d : DataCheckType) : Prop where
  tracks : 0 < d.ntrack
  rate : 0 < d.trackbitrate.num
  lowest : d.trackbitrate.Normal
  num : d.bitrate.num < 2 ^ 63
  den : d.bitrate.den < 2 ^ 31

/-- The time, if the fraction of the second is known. -/
def TimeStamp.exact (t : TimeStamp) : Option ℚ := t.2.map fun ss : ℚ≥0 => (t.1 : ℚ) + ss

/-- `d'` has the second that `d` had, and its frame number of frames past that. -/
def DataCheckType.Exact (d d' : DataCheckType) : Prop :=
  TimeStamp.exact d'.time = some (d.time.1 + d'.frameNumber * (d'.frameDuration : ℚ))

/-- The bits before the frame fit a word. -/
def DataCheckType.FitsWord (d : DataCheckType) : Prop := d.frameNumber * d.payloadSize * 8 < 2 ^ 32

theorem payloadSize_vdif {d : DataCheckType} (h : isVdif d.format = true)
    (hword : d.vdifDataSize < 2 ^ 32) : d.payloadSize = d.vdifDataSize := by
  have hsizes : headersize d.format d.ntrack ≤ 32 ∧ framesize d.format d.ntrack d.vdifDataSize =
      (headersize d.format d.ntrack + d.vdifDataSize) % 2 ^ 32 := by
    generalize d.format = fmt at h ⊢
    cases fmt <;> first
      | exact absurd h (by decide)
      | simp [headersize, framesize, isSt]
  obtain ⟨hheader, hframe⟩ := hsizes
  rw [DataCheckType.payloadSize, hframe]
  omega

/-! ## Subseconds -/

section Subsecond

variable {d : DataCheckType}

theorem DataCheckType.Allowed.bitrate_pos (h : d.Allowed) : 0 < d.bitrate := by
  have hvalue : 0 < d.trackbitrate.value :=
    div_pos (Nat.cast_pos.mpr h.rate) (Nat.cast_pos.mpr h.lowest.den_pos)
  exact mul_pos hvalue (Nat.cast_pos.mpr h.tracks)

/-- The quotient is exact, of the number of bits that is left in the word. -/
theorem frameSubsecond_spec (h : d.Allowed) :
    ∃ nsec, d.frameSubsecond = .ok nsec ∧ nsec.Normal ∧ nsec.den < 2 ^ 64 ∧ nsec.num < 2 ^ 63 ∧
      nsec.value = (d.frameNumber * d.payloadSize * 8 % 2 ^ 32 : ℕ) / d.bitrate := by
  have hpos := h.bitrate_pos
  have hwords : InWords (2 ^ 64) d.bitrate :=
    ⟨h.num.trans (by norm_num), h.den.trans (by norm_num)⟩
  have htotal : d.trackbitrate.mul (.ofNat d.ntrack) = .wrap d.bitrate := by
    rw [Fraction.mul_eq h.lowest (Fraction.normal_ofNat _), Fraction.value_ofNat]
    rfl
  have hne : (Fraction.wrap d.bitrate : Samplerate).num ≠ 0 := by
    rw [Fraction.wrap_eq hwords]
    exact (NNRat.num_pos.mpr hpos).ne'
  unfold DataCheckType.frameSubsecond
  rw [htotal]
  generalize hn : d.frameNumber * d.payloadSize * 8 % 2 ^ 32 = n
  have hlt : n < 2 ^ 32 := by
    rw [← hn]
    exact Nat.mod_lt _ (by norm_num)
  rcases Nat.eq_zero_or_pos n with rfl | hnpos
  · rw [Fraction.ofNat_zero_div hne]
    exact ⟨.ofNat 0, rfl, Fraction.normal_ofNat 0, by decide, by decide, by simp⟩
  · have hquot : InWords (2 ^ 63) ((n : ℚ≥0) / d.bitrate) := by
      have hfrac : (n : ℚ≥0) / d.bitrate = ((n * d.bitrate.den : ℕ) : ℚ≥0) / d.bitrate.num := by
        conv_lhs => rw [← NNRat.num_div_den d.bitrate]
        rw [div_div_eq_mul_div, Nat.cast_mul]
      rw [hfrac]
      refine Fraction.inWords_div (by norm_num) ?_ h.num
      calc n * d.bitrate.den < 2 ^ 32 * 2 ^ 31 := Nat.mul_lt_mul'' hlt h.den
        _ = 2 ^ 63 := by norm_num
    have hquot' : InWords (2 ^ 64) ((n : ℚ≥0) / d.bitrate) :=
      ⟨hquot.num.trans (by norm_num), hquot.den.trans (by norm_num)⟩
    rw [Fraction.div_eq (Fraction.normal_ofNat n) (Fraction.normal_wrap hwords) hne hnpos.ne',
      Fraction.value_ofNat, Fraction.value_wrap hwords]
    refine ⟨_, rfl, Fraction.normal_wrap hquot', ?_, ?_, Fraction.value_wrap hquot'⟩
    · rw [Fraction.wrap_eq hquot']
      exact hquot'.den
    · rw [Fraction.wrap_eq hquot']
      exact hquot.num

theorem timeAt_value {sec : Int} {nsec : Subsecond} (hnormal : nsec.Normal)
    (hden : nsec.den < 2 ^ 64) (hnum : nsec.num < 2 ^ 63) :
    TimeStamp.exact (timeAt sec nsec) = some ((sec : ℚ) + nsec.value) := by
  have hknown : nsec ≠ unknownSubsecond := by
    rintro rfl
    exact absurd hnum (by decide)
  obtain ⟨hproper, hvalue, -⟩ := Highrestime.HighResTime.normalize_spec (t := ⟨sec, nsec⟩)
    hnormal.den_pos hden (hnum.trans (by norm_num)) hknown
  unfold TimeStamp.exact timeAt
  dsimp only
  rw [if_neg hproper.known, Option.map_some]
  exact congrArg some hvalue

theorem withSubsecond_spec (h : d.Allowed) : ∃ t, d.withSubsecond = .ok { d with time := t } ∧
    TimeStamp.exact t =
      some (d.time.1 + ((d.frameNumber * d.payloadSize * 8 % 2 ^ 32 : ℕ) : ℚ) / d.bitrate) := by
  obtain ⟨nsec, hnsec, hnormal, hden, hnum, hvalue⟩ := frameSubsecond_spec h
  refine ⟨timeAt d.time.1 nsec, ?_, ?_⟩
  · rw [DataCheckType.withSubsecond, hnsec]
    rfl
  · rw [timeAt_value hnormal hden hnum, hvalue, NNRat.cast_div, NNRat.cast_natCast]

/-- Exact just when no bits are lost. -/
theorem withSubsecond_exact_iff {d' : DataCheckType} (h : d.Allowed)
    (hd' : d.withSubsecond = .ok d') : d.Exact d' ↔ d.FitsWord := by
  obtain ⟨t, hok, ht⟩ := withSubsecond_spec h
  obtain rfl : { d with time := t } = d' := Except.ok.inj (hok.symm.trans hd')
  have hpos : (0 : ℚ) < d.bitrate := by exact_mod_cast h.bitrate_pos
  have hduration : ((d.frameNumber : ℕ) : ℚ) * (d.frameDuration : ℚ) =
      ((d.frameNumber * d.payloadSize * 8 : ℕ) : ℚ) / d.bitrate := by
    rw [DataCheckType.frameDuration, NNRat.cast_div, NNRat.cast_natCast]
    push_cast
    ring
  unfold DataCheckType.Exact DataCheckType.FitsWord
  change TimeStamp.exact t = some (d.time.1 + d.frameNumber * (d.frameDuration : ℚ)) ↔ _
  rw [ht, hduration, Option.some_inj, add_right_inj, div_left_inj' hpos.ne', Nat.cast_inj]
  constructor
  · intro hmod
    rw [← hmod]
    exact Nat.mod_lt _ (by norm_num)
  · exact Nat.mod_eq_of_lt

end Subsecond

/-! ## What is combined -/

/-- `d'` is `d` with another rate and other threads, and the subsecond from these. -/
def DataCheckType.Filled (d d' : DataCheckType) : Prop :=
  ∃ rate threads,
    { d with trackbitrate := rate, vdifThreads := threads }.withSubsecond = .ok d'

theorem DataCheckType.Filled.exact_iff {d d' : DataCheckType} (h : d.Filled d')
    (hallowed : d'.Allowed) : d.Exact d' ↔ d.FitsWord := by
  obtain ⟨rate, threads, hd'⟩ := h
  have hd : { d with trackbitrate := rate, vdifThreads := threads }.Allowed := by
    obtain ⟨nsec, -, hok⟩ := bind_eq_ok.mp hd'
    obtain rfl := Except.ok.inj hok
    exact ⟨hallowed.tracks, hallowed.rate, hallowed.lowest, hallowed.num, hallowed.den⟩
  exact (withSubsecond_exact_iff hd hd' :)

theorem filled_of_copy {source d d' : DataCheckType} (h : copySubsecond source d = .ok d') :
    d.Filled d' := ⟨source.trackbitrate, d.vdifThreads, h⟩

section Combine

variable {guess : RateGuess} {first last first' last' : DataCheckType} {byteOffset : Nat}

theorem guessRate_filled (h : guessRate guess first last byteOffset = .ok (true, first', last')) :
    first.Filled first' ∧ last.Filled last' := by
  unfold guessRate at h
  split at h
  · cases h
  · dsimp only at h
    split at h
    · cases h
    · split at h
      · cases h
      · rename_i rate _
        obtain ⟨f, hf, h⟩ := bind_eq_ok.mp h
        obtain ⟨l, hl, h⟩ := bind_eq_ok.mp h
        cases h
        exact ⟨⟨_, _, hf⟩, ⟨_, _, hl⟩⟩

/-- Whatever was partial has been filled. -/
theorem combine_filled
    (h : combineDataCheckResults guess first last byteOffset = .ok (true, first', last')) :
    (first.isPartial = true → first.Filled first') ∧
      (last.isPartial = true → last.Filled last') := by
  unfold combineDataCheckResults at h
  cases hfirst : first.isPartial <;> cases hlast : last.isPartial <;>
    rw [hfirst, hlast] at h <;> simp only [Bool.not_true, Bool.not_false, Bool.and_self,
      Bool.and_true, Bool.and_false, if_true, Bool.false_eq_true, if_false] at h
  · exact ⟨nofun, nofun⟩
  · split at h
    · cases h
    split at h
    · cases h
    · obtain ⟨l, hl, h⟩ := bind_eq_ok.mp h
      cases h
      exact ⟨nofun, fun _ => filled_of_copy hl⟩
  · split at h
    · cases h
    split at h
    · cases h
    · obtain ⟨f, hf, h⟩ := bind_eq_ok.mp h
      cases h
      exact ⟨fun _ => filled_of_copy hf, nofun⟩
  · split at h
    · cases h
    split at h
    · cases h
    · obtain ⟨hf, hl⟩ := guessRate_filled h
      exact ⟨fun _ => hf, fun _ => hl⟩

/-- The times that are filled in are exact just when the bits before the frame fit a word. -/
theorem combine_exact_iff
    (h : combineDataCheckResults guess first last byteOffset = .ok (true, first', last'))
    (hfirst : first'.Allowed) (hlast : last'.Allowed) :
    ((first.isPartial = true → first.Exact first') ∧ (last.isPartial = true → last.Exact last')) ↔
      (first.isPartial = true → first.FitsWord) ∧ (last.isPartial = true → last.FitsWord) := by
  obtain ⟨hf, hl⟩ := combine_filled h
  exact and_congr (imp_congr_right fun hp => (hf hp).exact_iff hfirst)
    (imp_congr_right fun hp => (hl hp).exact_iff hlast)

theorem combine_copies (hfirst : first.isPartial = false) (hlast : last.isPartial = true)
    (hformat : first.format = last.format) (hntrack : first.ntrack = last.ntrack)
    (hthreads : first.vdifThreads.size ≠ 0) (hsize : first.vdifFrameSize = last.vdifFrameSize)
    (h : copySubsecond first last = .ok last') :
    combineDataCheckResults guess first last byteOffset = .ok (true, first, last') := by
  have hsame : ¬(first.format ≠ last.format ∨ first.ntrack ≠ last.ntrack) := by
    rw [hformat, hntrack]
    exact fun h => h.elim (· rfl) (· rfl)
  have hshape : ¬(isVdif first.format = true ∧
      (first.vdifThreads.size = 0 ∨ first.vdifFrameSize ≠ last.vdifFrameSize)) := by
    rw [hsize]
    exact fun h => h.2.elim hthreads (· rfl)
  rw [combineDataCheckResults, hfirst, hlast]
  rw [if_neg (by decide), if_neg hsame, if_neg hshape, if_pos (by decide), h]
  rfl

end Combine

/-! ## Eight gigabit per second -/

/-- VDIF of two tracks, 8000 bytes to a frame. -/
def vdifResult (rate : Samplerate) (time : TimeStamp) (frameNumber : Nat) : DataCheckType :=
  ⟨.vdif, 2, rate, time, 0, 8032, 8000, (∅ : ThreadMap).insert 0 fun _ => 0, frameNumber⟩

def eightGbps : Samplerate := .ofNat 4000000000

def knownStart : DataCheckType := vdifResult eightGbps (0, some 0) 0

def partialEnd (frameNumber : Nat) : DataCheckType := vdifResult unknownRate (7, none) frameNumber

theorem eightGbps_allowed (time : TimeStamp) (frameNumber : Nat) :
    (vdifResult eightGbps time frameNumber).Allowed := by
  have hrate : (vdifResult eightGbps time frameNumber).bitrate = (8000000000 : ℕ) := by
    rw [DataCheckType.bitrate, vdifResult, eightGbps, Fraction.value_ofNat]
    norm_num
  have hnum : 0 < eightGbps.num := by decide
  exact ⟨Nat.two_pos, hnum, Fraction.normal_ofNat _, by rw [hrate, NNRat.num_natCast]; norm_num,
    by rw [hrate, NNRat.den_natCast]; norm_num⟩

theorem combine_eightGbps (guess : RateGuess) (frameNumber : Nat) : ∃ t,
    combineDataCheckResults guess knownStart (partialEnd frameNumber) 0 =
      .ok (true, knownStart, vdifResult eightGbps t frameNumber) := by
  obtain ⟨t, ht, -⟩ := withSubsecond_spec (eightGbps_allowed (7, none) frameNumber)
  exact ⟨t, combine_copies (by decide) rfl rfl rfl (by decide) rfl ht⟩

theorem partialEnd_fitsWord {frameNumber : Nat} :
    (partialEnd frameNumber).FitsWord ↔ frameNumber * 8000 * 8 < 2 ^ 32 := by
  have hword : 8000 < 2 ^ 32 := by norm_num
  rw [DataCheckType.FitsWord, payloadSize_vdif rfl hword]
  rfl

theorem combine_exact_eightGbps : ∃ t,
    (partialEnd 1000).Exact (vdifResult eightGbps t 1000) := by
  obtain ⟨t, ht⟩ := combine_eightGbps (fun _ => none) 1000
  have hiff := combine_exact_iff ht (eightGbps_allowed _ _) (eightGbps_allowed _ _)
  have hfits : (partialEnd 1000).FitsWord := partialEnd_fitsWord.mpr (by norm_num)
  exact ⟨t, (hiff.mpr ⟨nofun, fun _ => hfits⟩).2 rfl⟩

/-- Frame 100000 is past the half of the second, and its bits are past the word. -/
theorem combine_wraps : ¬∀ (guess : RateGuess) (first last first' last' : DataCheckType)
    (byteOffset : Nat),
    combineDataCheckResults guess first last byteOffset = .ok (true, first', last') →
    first'.Allowed → last'.Allowed →
    (first.isPartial = true → first.Exact first') ∧ (last.isPartial = true → last.Exact last') := by
  intro h
  obtain ⟨t, ht⟩ := combine_eightGbps (fun _ => none) 100000
  have hexact := (h _ _ _ _ _ _ ht (eightGbps_allowed _ _) (eightGbps_allowed _ _)).2 rfl
  have hfits := (((combine_filled ht).2 rfl).exact_iff (eightGbps_allowed _ _)).mp hexact
  exact absurd (partialEnd_fitsWord.mp hfits) (by norm_num)

end Jive5ab.Headersearch
