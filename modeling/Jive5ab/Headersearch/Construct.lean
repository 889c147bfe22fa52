import Jive5ab.Headersearch.State
import Jive5ab.Lib.Checked
import Jive5ab.Lib.Fraction

/-! # The constructor of a header format

`headersearch_type` as it is built: sizes in 32-bit words, and a sample rate that is a fraction of
two 64-bit words. -/
namespace Jive5ab.Headersearch
open Lib

/-- `samplerate_type` -/
abbrev Samplerate := Fraction (2 ^ 64)

inductive FormatError
  | badRational
  | runtime (what : String)
  | headersearch (what : String)
  deriving DecidableEq

def ezassert (cond : Prop) [Decidable cond] (what : String) : Except FormatError Unit :=
  if cond then .ok () else .error (.headersearch what)

/-- A quotient, or `bad_rational`. -/
def orBadRational : Option Samplerate → Except FormatError Samplerate
  | none => .error .badRational
  | some r => .ok r

/-! ## Sizes -/

def isVdif (f : FormatType) : Bool :=
  f == .vdif || f == .vdifLegacy || f == .vdifComplex || f == .vdifLegacyComplex

def isMk4Vlba (f : FormatType) : Bool := f == .mark4 || f == .vlba

def isSt (f : FormatType) : Bool := f == .mark4St || f == .vlbaSt

def headersize (fmt : FormatType) (ntrack : Nat) : Nat :=
  let (ntrack, trackheadersize) := match fmt with
    | .vdifLegacy | .vdifLegacyComplex => (1, 16)
    | .vdif | .vdifComplex => (1, 32)
    | .mark5b => (1, 16)
    | .vlba | .vlbaSt => (ntrack, 12)
    | .mark4 | .mark4St => (ntrack, 20)
    | _ => (ntrack, 0)
  if isSt fmt then ntrack * trackheadersize * 9 % 2 ^ 32 / 8
  else ntrack * trackheadersize % 2 ^ 32

def framesize (fmt : FormatType) (ntrack vdifpayloadsize : Nat) : Nat :=
  let hsize := headersize fmt ntrack
  match fmt with
  | .mark5b => (hsize + 10000) % 2 ^ 32
  | .mark4 => (hsize + ntrack * 2480) % 2 ^ 32
  | .vlba => (hsize + ntrack * 2508) % 2 ^ 32
  | .mark4St => (hsize + ntrack * 2480 * 9 % 2 ^ 32 / 8) % 2 ^ 32
  | .vlbaSt => (hsize + ntrack * 2508 * 9 % 2 ^ 32 / 8) % 2 ^ 32
  | .vdif | .vdifLegacy | .vdifComplex | .vdifLegacyComplex => (hsize + vdifpayloadsize) % 2 ^ 32
  | _ => 0

/-- `PAYLOADSIZE_VDIF`; a straight-through format has 32 tracks. -/
def payloadsize (fmt : FormatType) (ntrk frsz : Nat) : Nat :=
  if isVdif fmt then frsz
  else if isSt fmt then 2500 * 32
  else if isMk4Vlba fmt then 2500 * ntrk % 2 ^ 32
  else if fmt = .mark5b then 10000
  else 0

/-! ## Rates -/

/-- `UNKNOWN_TRACKBITRATE` -/
def unknownRate : Samplerate := .ofNat (2 ^ 64 - 1)

/-- `VALID_SAMPLERATE` -/
def isValidRate (x : Samplerate) : Bool := x ≠ unknownRate && x ≠ .ofNat 0

/-- The numbers of a `decoderstate_type`. -/
structure DecoderRates where
  framerate : Samplerate
  frametime : Samplerate
  deriving DecidableEq

def framerateOf (ntrack : Nat) (trackbitrate : Samplerate) (payloadsz : Nat) :
    Except FormatError Samplerate :=
  if payloadsz ≠ 0 ∧ isValidRate trackbitrate then
    orBadRational ((trackbitrate.mul (.ofNat ntrack)).div (.ofNat (payloadsz * 8 % 2 ^ 32)))
  else .ok (.ofNat 0)

def frametimeOf (ntrack : Nat) (trackbitrate : Samplerate) (payloadsz : Nat) :
    Except FormatError Samplerate :=
  if ntrack ≠ 0 ∧ isValidRate trackbitrate then
    orBadRational ((Fraction.ofNat (payloadsz * 8 % 2 ^ 32)).div (trackbitrate.mul (.ofNat ntrack)))
  else .ok (.ofNat 0)

def DecoderRates.make (ntrack : Nat) (trackbitrate : Samplerate) (payloadsz : Nat) :
    Except FormatError DecoderRates := do
  let framerate ← framerateOf ntrack trackbitrate payloadsz
  let frametime ← frametimeOf ntrack trackbitrate payloadsz
  return ⟨framerate, frametime⟩

/-! ## The constructor -/

/-- `headersearch_type` -/
structure HeadersearchType where
  frameformat : FormatType
  ntrack : Nat
  trackbitrate : Samplerate
  headersize : Nat
  framesize : Nat
  payloadsize : Nat
  state : DecoderRates
  deriving DecidableEq

/-- `headersearch_type()`, of no format at all. -/
def HeadersearchType.none : HeadersearchType :=
  ⟨.unknown, 0, .ofNat 0, 0, 0, 0, ⟨.ofNat 0, .ofNat 0⟩⟩

/-- The assertions at the end of the constructor. -/
def checkFormat (fmt : FormatType) (ntrack : Nat) (trackbitrate : Samplerate) (payloadsz : Nat) :
    Except FormatError Unit := do
  let mintrack := if fmt = .mark5b then 1 else 8
  let numerator := trackbitrate.num
  let product := ntrack * numerator % 2 ^ 64
  if isMk4Vlba fmt || fmt == .mark5b then
    ezassert (mintrack ≤ ntrack ∧ ntrack ≤ 64 ∧ ntrack &&& (ntrack - 1) = 0)
      s!"ntrack ({ntrack}) is NOT a power of 2 which is >={mintrack} and <=64"
  if isSt fmt then
    ezassert (ntrack = 32) s!"ntrack ({ntrack}) is NOT 32 while mode is straight through"
  if isVdif fmt then
    ezassert (payloadsz % 8 = 0) "The VDIF dataarraysize is not a multiple of 8"
  if trackbitrate ≠ unknownRate then
    ezassert (numerator ≤ product)
      ("It seems that the number of tracks x the trackbitrate would overflow the 64-bit number " ++
        s!"holding this product: {ntrack} x {numerator} = {product}")
  if trackbitrate.den ≠ 1 then
    ezassert (isVdif fmt) "Only VDIF format can handle non-integer samplerate per second"

def HeadersearchType.make (fmt : FormatType) (tracks : Nat) (trkbitrate : Samplerate)
    (vdifpayloadsize : Nat) : Except FormatError HeadersearchType := do
  let payloadsz := Jive5ab.Headersearch.payloadsize fmt tracks vdifpayloadsize
  let state ← DecoderRates.make tracks trkbitrate payloadsz
  checkFormat fmt tracks trkbitrate payloadsz
  return {
    frameformat := fmt
    ntrack := tracks
    trackbitrate := trkbitrate
    headersize := Jive5ab.Headersearch.headersize fmt tracks
    framesize := Jive5ab.Headersearch.framesize fmt tracks vdifpayloadsize
    payloadsize := payloadsz
    state }

/-! ## What is constructed -/

theorem HeadersearchType.make_ok {fmt : FormatType} {tracks : Nat} {trkbitrate : Samplerate}
    {vdifpayloadsize : Nat} {h : HeadersearchType}
    (hmake : HeadersearchType.make fmt tracks trkbitrate vdifpayloadsize = .ok h) :
    let payloadsz := Jive5ab.Headersearch.payloadsize fmt tracks vdifpayloadsize
    ∃ state, DecoderRates.make tracks trkbitrate payloadsz = .ok state ∧
      checkFormat fmt tracks trkbitrate payloadsz = .ok () ∧
      h = ⟨fmt, tracks, trkbitrate, Jive5ab.Headersearch.headersize fmt tracks,
        Jive5ab.Headersearch.framesize fmt tracks vdifpayloadsize, payloadsz, state⟩ := by
  dsimp only
  unfold HeadersearchType.make at hmake
  dsimp only [bind, Except.bind] at hmake
  split at hmake
  · cases hmake
  · rename_i state hstate
    split at hmake
    · cases hmake
    · rename_i hcheck
      cases hmake
      exact ⟨state, hstate, hcheck, rfl⟩

/-- A tape has 8, 16, 32 or 64 tracks. -/
theorem checkFormat_tape {fmt : FormatType} {ntrack payloadsz : Nat} {trackbitrate : Samplerate}
    (hfmt : isMk4Vlba fmt = true) (h : checkFormat fmt ntrack trackbitrate payloadsz = .ok ()) :
    8 ≤ ntrack ∧ ntrack ∣ 64 := by
  have hmark5b : fmt ≠ .mark5b := by
    rintro rfl
    cases hfmt
  have hpow : 8 ≤ ntrack ∧ ntrack ≤ 64 ∧ ntrack &&& (ntrack - 1) = 0 := by
    unfold checkFormat ezassert at h
    rw [if_neg hmark5b, hfmt, Bool.true_or, if_pos rfl] at h
    by_contra hne
    rw [if_neg hne] at h
    cases h
  have hall : ∀ n : Fin 65, 8 ≤ n.val → n.val &&& (n.val - 1) = 0 → n.val ∣ 64 := by decide
  exact ⟨hpow.1, hall ⟨ntrack, by omega⟩ hpow.1 hpow.2.2⟩

theorem unknownTrackbitrate_eq : unknownTrackbitrate = ((2 ^ 64 - 1 : ℕ) : ℚ≥0) := by
  decide +kernel

theorem isValidRate_eq {t : Samplerate} (ht : t.Normal) :
    isValidRate t = validSamplerate t.value := by
  have hiff (n : Nat) : t = .ofNat n ↔ t.value = n := by
    constructor
    · rintro rfl
      exact Fraction.value_ofNat n
    · intro hval
      obtain ⟨hnum, hden⟩ := ht.num_den
      rw [hval, NNRat.num_natCast] at hnum
      rw [hval, NNRat.den_natCast] at hden
      obtain ⟨num, den⟩ := t
      dsimp only at hnum hden
      rw [← hnum, ← hden]
      rfl
  have hunknown : t = unknownRate ↔ t.value = unknownTrackbitrate := by
    rw [unknownRate, hiff, unknownTrackbitrate_eq]
  unfold isValidRate validSamplerate
  simp only [ne_eq, hunknown, hiff 0, Nat.cast_zero]

/-- What a number is divided by is not zero. -/
theorem div_value {n : Nat} {b r : Samplerate} {q : ℚ≥0} (hb : b.Normal) (hq : b.value = q)
    (h : orBadRational ((Fraction.ofNat n).div b) = .ok r) :
    r.value = (Fraction.wrap (n / q) : Samplerate).value := by
  subst hq
  by_cases hbnum : b.num = 0
  · unfold Fraction.div at h
    rw [if_pos hbnum] at h
    cases h
  · by_cases hn : n = 0
    · rw [hn, Fraction.ofNat_zero_div hbnum] at h
      cases h
      rw [hn, Nat.cast_zero, zero_div, Fraction.wrap_zero (by decide)]
    · rw [Fraction.div_eq (Fraction.normal_ofNat n) hb hbnum hn, Fraction.value_ofNat] at h
      cases h
      rfl

/-- The frame time is that of the decoder's state, if that fits the words. -/
theorem DecoderRates.frametime_value {ntrack payloadsz : Nat} {t : Samplerate} {st : DecoderRates}
    (h : DecoderRates.make ntrack t payloadsz = .ok st) (ht : t.Normal)
    (hfit : InWords (2 ^ 64) (ntrack * t.value)) :
    st.frametime.value =
      (Fraction.wrap (DecoderState.make ntrack t.value payloadsz).frametime : Samplerate).value := by
  unfold DecoderRates.make at h
  obtain ⟨framerate, -, h⟩ := Checked.bind_eq_ok.mp h
  obtain ⟨frametime, hframetime, h⟩ := Checked.bind_eq_ok.mp h
  cases h
  unfold frametimeOf at hframetime
  unfold DecoderState.make
  dsimp only
  rw [← isValidRate_eq ht]
  by_cases hvalid : ntrack ≠ 0 ∧ isValidRate t = true
  · rw [if_pos hvalid] at hframetime ⊢
    have hrate : t.mul (.ofNat ntrack) = Fraction.wrap (ntrack * t.value) := by
      rw [Fraction.mul_eq ht (Fraction.normal_ofNat ntrack), Fraction.value_ofNat, mul_comm]
    rw [hrate] at hframetime
    exact div_value (Fraction.normal_wrap hfit) (Fraction.value_wrap hfit) hframetime
  · rw [if_neg hvalid] at hframetime ⊢
    cases hframetime
    rw [Fraction.wrap_zero (by decide)]

end Jive5ab.Headersearch
