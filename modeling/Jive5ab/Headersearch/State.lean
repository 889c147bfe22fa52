import Jive5ab.Vdif.Reframe

/-! # Header formats and what a decoder knows of them

`headersearch_type` and its `decoderstate_type`, as far as time stamps are
concerned: frame rate and frame time, and the table that finds the start of the
period when that is not a second. -/
namespace Jive5ab.Headersearch
open Vdif (HighResTime)

inductive FormatType
  | unknown
  | mark4
  | vlba
  | mark5b
  | mark4St
  | vlbaSt
  | vdif
  | vdifLegacy
  | vdifComplex
  | vdifLegacyComplex
  | tvg
  | mark5bTvg
  | mark5aTvg
  | ssTestPattern
  deriving DecidableEq

def isLegacy (f : FormatType) : Bool := f == .vdifLegacy || f == .vdifLegacyComplex

def isComplex (f : FormatType) : Bool := f == .vdifComplex || f == .vdifLegacyComplex

inductive HeaderError
  | invalidTrackBitrate
  | invalidNumberOfTracks
  | notRepresentable
  | framenumOverflow
  | zeroBitrate
  | badRational
  | framenoOutOfRange
  | subsecondMismatch
  | invalidTrackRequested
  | invalidLastDigit
  deriving DecidableEq

/-! ## Numerals

The facts that the numerals of the definitions rest on, by name. -/

theorem neZero_three : NeZero 3 := ⟨by decide⟩
theorem neZero_four : NeZero 4 := ⟨by decide⟩
theorem atLeastTwo_2 : Nat.AtLeastTwo 2 := ⟨by decide⟩
theorem atLeastTwo_3 : Nat.AtLeastTwo 3 := ⟨by decide⟩
theorem atLeastTwo_25 : Nat.AtLeastTwo 25 := ⟨by decide⟩
theorem atLeastTwo_1000 : Nat.AtLeastTwo 1000 := ⟨by decide⟩
theorem atLeastTwo_10000 : Nat.AtLeastTwo 10000 := ⟨by decide⟩
theorem atLeastTwo_100000 : Nat.AtLeastTwo 100000 := ⟨by decide⟩
theorem atLeastTwo_8000000 : Nat.AtLeastTwo 8000000 := ⟨by decide⟩
theorem atLeastTwo_16000000 : Nat.AtLeastTwo 16000000 := ⟨by decide⟩

section
attribute [local instance] atLeastTwo_2

def unknownTrackbitrate : ℚ≥0 := 2 ^ 64 - 1

end

/-- How a header is checked. -/
structure Strict where
  chkSyncword : Bool
  chkCrc : Bool
  chkConsistent : Bool
  chkStrict : Bool
  chkAllowDbe : Bool
  chkNothrow : Bool

def Strict.chkDefault : Strict := ⟨true, true, true, true, false, false⟩

/-! ## The offset table -/

/-- `operator+=` of a time stamp, for a step forward. -/
def advance (t : HighResTime) (dt : ℚ≥0) : HighResTime := .normalize t.tvSec (t.tvSubsecond + dt)

/-- `boost::rational_cast<unsigned int>`: both parts are cast before they are
divided. -/
def rationalCastUnsigned (r : ℚ) : Nat := (r.num % 2 ^ 32).toNat / (r.den % 2 ^ 32)

/-- A fraction in lowest terms is no larger in either part. -/
theorem num_den_le (y : Nat) {p : Nat} (hp : 0 < p) :
    ((y : ℚ) / p).num ≤ y ∧ ((y : ℚ) / p).den ≤ p := by
  have hdef : (y : ℚ) / p = Rat.divInt y p := by
    rw [Rat.divInt_eq_div]
    rfl
  rw [hdef]
  constructor
  · rcases Nat.eq_zero_or_pos y with rfl | hpos
    · simp
    · exact Int.le_of_dvd (by omega) (Rat.num_dvd _ (by omega))
  · exact Nat.le_of_dvd hp (by exact_mod_cast Rat.den_dvd (y : ℤ) (p : ℤ))

/-- The cast of a fraction rounds down, if both parts are small. -/
theorem rationalCastUnsigned_div {y p : Nat} (hp : 0 < p) (hplt : p < 2 ^ 32) (hy : y < 2 ^ 32) :
    rationalCastUnsigned ((y : ℚ) / p) = y / p := by
  have hnonneg : 0 ≤ ((y : ℚ) / p).num := Rat.num_nonneg.mpr (by positivity)
  obtain ⟨hnum, hden⟩ := num_den_le y hp
  have hfloor : ((y : ℚ) / p).num / (((y : ℚ) / p).den : ℤ) = ((y / p : ℕ) : ℤ) := by
    rw [← Rat.floor_def, Int.natCast_div]
    exact Rat.floor_intCast_div_natCast (y : ℤ) p
  unfold rationalCastUnsigned
  rw [Int.emod_eq_of_lt hnonneg (by omega), Nat.mod_eq_of_lt (by omega)]
  have htoNat : ((((y : ℚ) / p).num.toNat : ℕ) : ℤ) = ((y : ℚ) / p).num := Int.toNat_of_nonneg hnonneg
  rw [← htoNat] at hfloor
  exact_mod_cast hfloor

/-- The numerator of a subsecond over the denominator of the frame time, modulo
the period. -/
def moduloPeriod (frametime ss : ℚ≥0) : Nat := ss.num * (frametime.den / ss.den) % frametime.num

/-- An entry of the table, and on to the first frame of the next second. -/
def lutStep (frametime : ℚ≥0) (s : HighResTime × List Int) (t0 : Nat) : HighResTime × List Int :=
  let (tm, lut) := s
  let nframe := rationalCastUnsigned (((t0 + 1 : ℕ) - tm.value) / frametime) + 1
  (advance tm (frametime * (nframe % 2 ^ 32 : ℕ)),
    lut.set (moduloPeriod frametime tm.tvSubsecond % 2 ^ 32) (-tm.tvSec))

def computeOffsetLut (frametime : ℚ≥0) : List Int :=
  ((List.range frametime.num).foldl (lutStep frametime)
    (.normalize 0 frametime, List.replicate frametime.num 0)).2

/-! ## Header formats -/

structure DecoderState where
  framerate : ℚ≥0
  frametime : ℚ≥0
  offsetLut : List Int

def validSamplerate (x : ℚ≥0) : Bool := x ≠ unknownTrackbitrate && x ≠ 0

/-- `payloadsz * 8` is an `unsigned int`. -/
def DecoderState.make (ntrack : Nat) (trackbitrate : ℚ≥0) (payloadsz : Nat) : DecoderState :=
  let framerate : ℚ≥0 :=
    if payloadsz ≠ 0 ∧ validSamplerate trackbitrate then
      ntrack * trackbitrate / (payloadsz * 8 % 2 ^ 32 : ℕ)
    else 0
  let frametime : ℚ≥0 :=
    if ntrack ≠ 0 ∧ validSamplerate trackbitrate then
      (payloadsz * 8 % 2 ^ 32 : ℕ) / (ntrack * trackbitrate)
    else 0
  { framerate, frametime
    offsetLut :=
      if validSamplerate frametime ∧ validSamplerate framerate ∧ framerate.den ≠ 1 then
        computeOffsetLut frametime
      else [] }

structure Headersearch where
  frameformat : FormatType
  ntrack : Nat
  trackbitrate : ℚ≥0
  payloadsize : Nat
  state : DecoderState

def Headersearch.make (frameformat : FormatType) (ntrack : Nat) (trackbitrate : ℚ≥0)
    (payloadsize : Nat) : Headersearch where
  frameformat := frameformat
  ntrack := ntrack
  trackbitrate := trackbitrate
  payloadsize := payloadsize
  state := .make ntrack trackbitrate payloadsize

/-- What has to be known to encode a time, or `invalid_track_bitrate` and
`invalid_number_of_tracks`. -/
def Headersearch.checkRates (hdr : Headersearch) : Except HeaderError Unit :=
  if hdr.trackbitrate = 0 ∨ hdr.trackbitrate = unknownTrackbitrate then .error .invalidTrackBitrate
  else if hdr.ntrack = 0 then .error .invalidNumberOfTracks
  else .ok ()

theorem make_frametime {fmt : FormatType} {ntrack payloadsz : Nat} {trackbitrate : ℚ≥0}
    (h : (Headersearch.make fmt ntrack trackbitrate payloadsz).state.framerate ≠ 0) :
    (Headersearch.make fmt ntrack trackbitrate payloadsz).state.frametime =
        ((Headersearch.make fmt ntrack trackbitrate payloadsz).state.framerate)⁻¹ ∧
      (Headersearch.make fmt ntrack trackbitrate payloadsz).checkRates = .ok () ∧
      0 < trackbitrate ∧ trackbitrate ≠ unknownTrackbitrate := by
  unfold Headersearch.make DecoderState.make at h ⊢
  dsimp only at h ⊢
  split at h
  · rename_i hvalid
    obtain ⟨hpayload, hrate⟩ := hvalid
    have hntrack : ntrack ≠ 0 := by
      rintro rfl
      exact h (by simp)
    unfold validSamplerate at hrate
    rw [Bool.and_eq_true, decide_eq_true_eq, decide_eq_true_eq] at hrate
    refine ⟨?_, ?_, pos_of_ne_zero hrate.2, hrate.1⟩
    · rw [if_pos ⟨hntrack, by simpa [validSamplerate] using hrate⟩,
        if_pos ⟨hpayload, by simpa [validSamplerate] using hrate⟩, inv_div]
    · unfold Headersearch.checkRates
      dsimp only
      rw [if_neg (not_or.mpr ⟨hrate.2, hrate.1⟩), if_neg hntrack]
  · exact absurd rfl h

end Jive5ab.Headersearch
