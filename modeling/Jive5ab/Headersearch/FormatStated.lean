import Mathlib.Tactic.IntervalCases
import Jive5ab.Headersearch.FormatText

/-! # What the text of a format states

The numbers of a format description without the words that they are read into, and when the format
that `text2headersearch` makes of the text has them. -/
namespace Jive5ab.Headersearch
open Lib Ere

/-- The numbers of a format description. A sample of complex numbers counts as fanned out to
two. -/
structure Stated where
  format : FormatType
  channels : Nat
  bits : Nat
  fanIn : Nat
  fanOut : Nat
  mbps : ℚ≥0
  payload : Nat

def statedMark5B (mr : Groups) : Stated where
  format := .mark5b
  channels := decimal (mr 3)
  bits := decimal (mr 4)
  fanIn := 1
  fanOut := 1
  mbps := (rateParts (mr 1)).1 / (rateParts (mr 1)).2
  payload := 10000

def statedVdif (mr : Groups) : Stated where
  format := vdifFmt (decide ('l' ∈ mr 1)) (decide ('c' ∈ mr 1))
  channels := decimal (mr 5)
  bits := decimal (mr 6)
  fanIn := 1
  fanOut := if 'c' ∈ mr 1 then 2 else 1
  mbps := (rateParts (mr 3)).1 / (rateParts (mr 3)).2
  payload := decimal (mr 2)

def statedFanned (fmt : FormatType) (mr : Groups) : Stated where
  format := fmt
  channels := decimal (mr 4)
  bits := decimal (mr 5)
  fanIn := decimal (mr 1)
  fanOut := decimal (mr 2)
  mbps := decimal (mr 3)
  payload := 0

/-- What the text states, read as a description of that kind of format. -/
def stated (fmt : FormatType) (s : Text) : Option Stated :=
  match fmt with
  | .mark5b => (rxMatches rxMark5B (cStr s)).map statedMark5B
  | .vlba => (rxMatches rxVLBA (cStr s)).map (statedFanned .vlba)
  | .mark4 => (rxMatches rxMKIV (cStr s)).map (statedFanned .mark4)
  | .vdif | .vdifLegacy | .vdifComplex | .vdifLegacyComplex =>
    (rxMatches rxVDIF (cStr s)).map statedVdif
  | _ => none

def Stated.ntrack (st : Stated) : ℚ≥0 := st.channels * st.bits * st.fanOut / st.fanIn

/-- In bits per second. -/
def Stated.rate (st : Stated) : ℚ≥0 := st.mbps * 1000000

def Stated.payloadBytes (st : Stated) : ℚ≥0 :=
  if isMk4Vlba st.format then 2500 * st.ntrack else st.payload

def Stated.frameBytes (st : Stated) : ℚ≥0 :=
  match st.format with
  | .mark4 => st.payloadBytes
  | .vlba => st.payloadBytes + 20 * st.ntrack
  | .vdif | .vdifComplex => st.payloadBytes + 32
  | _ => st.payloadBytes + 16

/-- The format is the one that is stated. -/
structure Consistent (st : Stated) (h : HeadersearchType) : Prop where
  format : h.frameformat = st.format
  ntrack : (h.ntrack : ℚ≥0) = st.ntrack
  rate : h.ntrack * h.trackbitrate.value = st.rate
  framesize : (h.framesize : ℚ≥0) = st.frameBytes
  frametime : st.rate ≠ 0 → h.state.frametime.value = 8 * st.payloadBytes / st.rate

/-- What the fractions need: each, in lowest terms, has to fit its words, and no track rate may be
the one that stands for none. -/
structure Stated.FractionsFit (st : Stated) : Prop where
  rate : InWords (2 ^ 64) st.rate
  trackRate : InWords (2 ^ 64) (st.rate / st.ntrack)
  framesize : st.frameBytes < 2 ^ 32
  payload : st.rate ≠ 0 → 8 * st.payloadBytes < 2 ^ 32
  frametime : st.rate ≠ 0 → InWords (2 ^ 64) (8 * st.payloadBytes / st.rate)
  known : st.rate ≠ 0 → st.payloadBytes ≠ 0 → st.rate / st.ntrack ≠ unknownTrackbitrate

/-- No product leaves the words in which it is computed, and the fan mode leaves no remainder. -/
structure Stated.Fits (st : Stated) : Prop where
  tracks : st.channels * st.bits * st.fanOut < 2 ^ 32
  whole : st.fanIn ∣ st.channels * st.bits * st.fanOut
  rates : if isMk4Vlba st.format then st.rate < 2 ^ 32 else st.FractionsFit

/-! ## Numbers as they are read -/

/-- A word that is the number, if that is a word. -/
structure Reads (x v : Nat) : Prop where
  le : x ≤ v
  eq : v < 2 ^ 32 → x = v

theorem reads_scanUnsigned (digits : Text) : Reads (scanUnsigned digits) (decimal digits) := by
  unfold scanUnsigned
  split
  · exact ⟨Nat.mod_le _ _, Nat.mod_eq_of_lt⟩
  · exact ⟨by omega, by omega⟩

/-- A product of words is the one of the numbers just if that is a word. -/
theorem Reads.product_iff {x y v w f : Nat} (hx : Reads x v) (hy : Reads y w)
    (hne : x * y * f % 2 ^ 32 ≠ 0) : x * y * f % 2 ^ 32 = v * w * f ↔ v * w * f < 2 ^ 32 := by
  constructor
  · intro h
    rw [← h]
    exact Nat.mod_lt _ (by decide)
  · intro hlt
    have hpos : 0 < x * y * f := Nat.pos_of_ne_zero fun h => hne (by rw [h, Nat.zero_mod])
    have hf : 0 < f := Nat.pos_of_mul_pos_left hpos
    have hxy : 0 < x * y := Nat.pos_of_mul_pos_right hpos
    have hv : 0 < v := (Nat.pos_of_mul_pos_right hxy).trans_le hx.le
    have hw : 0 < w := (Nat.pos_of_mul_pos_left hxy).trans_le hy.le
    have hvle : v ≤ v * w * f := by
      rw [Nat.mul_assoc]
      exact Nat.le_mul_of_pos_right v (Nat.mul_pos hw hf)
    have hwle : w ≤ v * w * f := by
      rw [Nat.mul_comm v w, Nat.mul_assoc]
      exact Nat.le_mul_of_pos_right w (Nat.mul_pos hv hf)
    rw [hx.eq (by omega), hy.eq (by omega), Nat.mod_eq_of_lt hlt]

theorem readRate_ok {rate : Text} {r : Samplerate} (h : readRate rate = .ok r) :
    r.Normal ∧ r.value = (rateParts rate).1 / (rateParts rate).2 ∧ r.den < 2 ^ 64 := by
  unfold readRate at h
  dsimp only at h
  split_ifs at h with hlt
  cases hn : (Fraction.normalize (rateParts rate).1 (rateParts rate).2 : Option Samplerate) with
  | none =>
    rw [hn] at h
    cases h
  | some a =>
    rw [hn] at h
    cases h
    obtain ⟨hnormal, hval, -, hden⟩ := Fraction.normalize_spec hn
    exact ⟨hnormal, hval, by omega⟩

/-! ## Rates -/

theorem trackRate_ok {rate t : Samplerate} {nTrk : Nat} (hnormal : rate.Normal)
    (h : trackRate rate nTrk = .ok t) :
    (Fraction.wrap (rate.value * 1000000) : Samplerate).div (.ofNat nTrk) = some t := by
  have hmul : rate.mul (.ofNat 1000000) = Fraction.wrap (rate.value * 1000000) := by
    rw [Fraction.mul_eq hnormal (Fraction.normal_ofNat _), Fraction.value_ofNat, Nat.cast_ofNat]
  unfold trackRate at h
  rw [hmul] at h
  cases hdiv : (Fraction.wrap (rate.value * 1000000) : Samplerate).div (.ofNat nTrk) with
  | none =>
    rw [hdiv] at h
    cases h
  | some r =>
    rw [hdiv] at h
    cases h
    rfl

/-- Without a wrap the rate of a track is the whole rate divided among the tracks. -/
theorem trackRate_eq {rate t : Samplerate} {nTrk : Nat} (hnormal : rate.Normal)
    (hne : nTrk ≠ 0) (h : trackRate rate nTrk = .ok t)
    (hfit : InWords (2 ^ 64) (rate.value * 1000000)) :
    t = Fraction.wrap (rate.value * 1000000 / nTrk) := by
  have hdiv := trackRate_ok hnormal h
  by_cases hzero : rate.value * 1000000 = 0
  · rw [hzero, Fraction.wrap_zero (by decide), Fraction.ofNat_zero_div hne] at hdiv
    rw [hzero, zero_div, Fraction.wrap_zero (by decide)]
    exact (Option.some.inj hdiv).symm
  · have hnum : (Fraction.wrap (rate.value * 1000000) : Samplerate).num ≠ 0 := by
      rw [Fraction.wrap_eq hfit]
      exact NNRat.num_ne_zero.mpr hzero
    rw [Fraction.div_eq (Fraction.normal_wrap hfit) (Fraction.normal_ofNat nTrk) hne hnum,
      Fraction.value_wrap hfit, Fraction.value_ofNat] at hdiv
    exact (Option.some.inj hdiv).symm

/-- The rate of a track times the tracks is the whole rate just if no part has wrapped. -/
theorem trackRate_iff {rate t : Samplerate} {nTrk : Nat} (hnormal : rate.Normal)
    (hden : rate.den < 2 ^ 64) (hne : nTrk ≠ 0) (hlt : nTrk < 2 ^ 32)
    (h : trackRate rate nTrk = .ok t) :
    nTrk * t.value = rate.value * 1000000 ↔
      InWords (2 ^ 64) (rate.value * 1000000) ∧ InWords (2 ^ 64) (rate.value * 1000000 / nTrk) := by
  constructor
  · intro hval
    have hden' : (rate.value * 1000000).den < 2 ^ 64 := by
      have hle := Fraction.den_mul_le rate.value 1000000
      rw [Nat.cast_ofNat, hnormal.num_den.2] at hle
      omega
    exact Fraction.inWords_of_div_wrap hden' (by omega) (by omega) (trackRate_ok hnormal h) hval
  · rintro ⟨hfit, hfit'⟩
    have hne' : (nTrk : ℚ≥0) ≠ 0 := Nat.cast_ne_zero.mpr hne
    rw [trackRate_eq hnormal hne h hfit, Fraction.value_wrap hfit', mul_div_cancel₀ _ hne']

/-- The frame time is the payload's at the whole rate just if neither it nor the payload has
wrapped, and the rate of a track is not taken for none. -/
theorem frametime_iff {nTrk p payload : Nat} {rate : ℚ≥0} {t : Samplerate} {state : DecoderRates}
    (hne : nTrk ≠ 0) (hrate : rate ≠ 0) (hfit : InWords (2 ^ 64) rate) (ht : t.Normal)
    (hval : nTrk * t.value = rate) (hp : Reads p payload)
    (hstate : DecoderRates.make nTrk t p = .ok state) :
    state.frametime.value = 8 * payload / rate ↔
      (8 * (payload : ℚ≥0) < 2 ^ 32 ∧ InWords (2 ^ 64) (8 * payload / rate) ∧
        ((payload : ℚ≥0) ≠ 0 → t.value ≠ unknownTrackbitrate)) := by
  have htval : t.value ≠ 0 := fun h => hrate (by rw [← hval, h, mul_zero])
  have hframetime := DecoderRates.frametime_value hstate ht (by rwa [hval])
  rw [hframetime]
  unfold DecoderState.make
  dsimp only
  rw [hval]
  by_cases hpayload : payload = 0
  · have hzero : p = 0 := Nat.eq_zero_of_le_zero (hpayload ▸ hp.le)
    rw [hpayload, hzero, Nat.zero_mul, Nat.zero_mod, Nat.cast_zero, mul_zero, zero_div, ite_self,
      Fraction.wrap_zero (by decide), Fraction.value_ofNat, Nat.cast_zero]
    refine iff_of_true rfl ⟨by positivity, ⟨by decide, by decide⟩, fun h => absurd rfl h⟩
  · have hpos : (8 * (payload : ℚ≥0) / rate) ≠ 0 :=
      div_ne_zero (mul_ne_zero (by norm_num) (Nat.cast_ne_zero.mpr hpayload)) hrate
    by_cases hknown : t.value = unknownTrackbitrate
    · rw [if_neg (fun h => by simp [validSamplerate, hknown] at h), Fraction.wrap_zero (by decide),
        Fraction.value_ofNat]
      refine iff_of_false (fun h => hpos (by rw [← h, Nat.cast_zero])) ?_
      exact fun h => h.2.2 (Nat.cast_ne_zero.mpr hpayload) hknown
    · rw [if_pos ⟨hne, by simp [validSamplerate, hknown, htval]⟩]
      constructor
      · intro hwrap
        have hle : ((p * 8 % 2 ^ 32 : ℕ) : ℚ≥0) / rate ≤ 8 * payload / rate := by
          have hnat : p * 8 % 2 ^ 32 ≤ 8 * payload := by
            have := hp.le
            have := Nat.mod_le (p * 8) (2 ^ 32)
            omega
          exact div_le_div_of_nonneg_right (by exact_mod_cast hnat) zero_le
        have hden := (Fraction.den_div_le (p * 8 % 2 ^ 32) hrate).trans_lt hfit.num
        obtain ⟨hword, heq⟩ := Fraction.inWords_of_value_wrap (by decide) hden hle hwrap
        have hnat : p * 8 % 2 ^ 32 = 8 * payload := by
          have hnum := (div_left_inj' hrate).mp heq
          exact_mod_cast hnum
        have hlt : 8 * payload < 2 ^ 32 := hnat ▸ Nat.mod_lt _ (by decide)
        exact ⟨by exact_mod_cast hlt, heq ▸ hword, fun _ => hknown⟩
      · rintro ⟨hlt, hword, -⟩
        have hlt : 8 * payload < 2 ^ 32 := by exact_mod_cast hlt
        rw [hp.eq (by omega), Nat.mul_comm payload, Nat.mod_eq_of_lt hlt, Nat.cast_mul, Nat.cast_ofNat,
          Fraction.value_wrap hword]

/-! ## Formats with a rate that is a fraction -/

/-- Header and payload of a format that is not for tapes. -/
theorem Stated.frame_eq {st : Stated} (hfmt : isVdif st.format = true ∨ st.format = .mark5b) :
    isMk4Vlba st.format = false ∧ st.payloadBytes = st.payload ∧
      ∃ hdr ≤ 32, st.frameBytes = ((st.payload + hdr : ℕ) : ℚ≥0) ∧ ∀ ntrk frsz,
        framesize st.format ntrk frsz = (payloadsize st.format ntrk frsz + hdr) % 2 ^ 32 := by
  obtain ⟨fmt, channels, bits, fanIn, fanOut, mbps, payload⟩ := st
  cases fmt with
  | vdif | vdifComplex =>
    refine ⟨rfl, rfl, 32, by decide, (Nat.cast_add payload 32).symm, fun ntrk frsz => ?_⟩
    simp only [framesize, headersize, payloadsize, isVdif, isSt]
    simp [Nat.add_comm]
  | vdifLegacy | vdifLegacyComplex =>
    refine ⟨rfl, rfl, 16, by decide, (Nat.cast_add payload 16).symm, fun ntrk frsz => ?_⟩
    simp only [framesize, headersize, payloadsize, isVdif, isSt]
    simp [Nat.add_comm]
  | mark5b =>
    refine ⟨rfl, rfl, 16, by decide, (Nat.cast_add payload 16).symm, fun ntrk frsz => ?_⟩
    simp [framesize, headersize, payloadsize, isVdif, isSt, isMk4Vlba]
  | _ => simp [isVdif] at hfmt

theorem consistent_iff_of_fraction {st : Stated} {h : HeadersearchType} {r t : Samplerate}
    {nTrk x y frsz : Nat} (hfmt : isVdif st.format = true ∨ st.format = .mark5b)
    (hfan : st.fanIn = 1) (hx : Reads x st.channels) (hy : Reads y st.bits)
    (hnTrk : nTrk = x * y * st.fanOut % 2 ^ 32) (hne : nTrk ≠ 0) (hnormal : r.Normal)
    (hden : r.den < 2 ^ 64) (hmbps : r.value = st.mbps) (htrack : trackRate r nTrk = .ok t)
    (hp : Reads (payloadsize st.format nTrk frsz) st.payload)
    (hmake : HeadersearchType.make st.format nTrk t frsz = .ok h) : Consistent st h ↔ st.Fits := by
  obtain ⟨state, hstate, -, rfl⟩ := HeadersearchType.make_ok hmake
  obtain ⟨htape, hpayload, hdr, hhdr, hframe, hframesize⟩ := Stated.frame_eq hfmt
  have hlt : nTrk < 2 ^ 32 := hnTrk ▸ Nat.mod_lt _ (by decide)
  have htracks : (nTrk : ℚ≥0) = st.ntrack ↔ st.channels * st.bits * st.fanOut < 2 ^ 32 := by
    rw [Stated.ntrack, hfan, Nat.cast_one, div_one, ← hx.product_iff hy (hnTrk ▸ hne), ← hnTrk]
    exact_mod_cast Iff.rfl
  have hrates : nTrk * t.value = st.rate ↔
      InWords (2 ^ 64) st.rate ∧ InWords (2 ^ 64) (st.rate / nTrk) := by
    rw [Stated.rate, ← hmbps]
    exact trackRate_iff hnormal hden hne hlt htrack
  have hsizes : ((framesize st.format nTrk frsz : ℕ) : ℚ≥0) = st.frameBytes ↔
      st.frameBytes < 2 ^ 32 := by
    rw [hframe, hframesize]
    constructor
    · intro heq
      have heq : (payloadsize st.format nTrk frsz + hdr) % 2 ^ 32 = st.payload + hdr := by
        exact_mod_cast heq
      have hsum : st.payload + hdr < 2 ^ 32 := heq ▸ Nat.mod_lt _ (by decide)
      exact_mod_cast hsum
    · intro hsum
      have hsum : st.payload + hdr < 2 ^ 32 := by exact_mod_cast hsum
      rw [hp.eq (by omega), Nat.mod_eq_of_lt hsum]
  have htimes (htrk : (nTrk : ℚ≥0) = st.ntrack) (hrate : st.rate ≠ 0)
      (hfit : InWords (2 ^ 64) st.rate) (hfit' : InWords (2 ^ 64) (st.rate / nTrk)) :
      state.frametime.value = 8 * st.payloadBytes / st.rate ↔
        8 * st.payloadBytes < 2 ^ 32 ∧ InWords (2 ^ 64) (8 * st.payloadBytes / st.rate) ∧
          (st.payloadBytes ≠ 0 → st.rate / st.ntrack ≠ unknownTrackbitrate) := by
    have ht : t = Fraction.wrap (st.rate / nTrk) := by
      rw [Stated.rate, ← hmbps] at hfit ⊢
      exact trackRate_eq hnormal hne htrack hfit
    have htval : t.value = st.rate / st.ntrack := by rw [ht, Fraction.value_wrap hfit', htrk]
    rw [hpayload, ← htval]
    exact frametime_iff hne hrate hfit (ht ▸ Fraction.normal_wrap hfit')
      (hrates.mpr ⟨hfit, hfit'⟩) hp hstate
  constructor
  · rintro ⟨-, hntrack, hrate, hsize, htime⟩
    obtain ⟨hfit, hfit'⟩ := hrates.mp hrate
    have htime (hne : st.rate ≠ 0) := (htimes hntrack hne hfit hfit').mp (htime hne)
    refine ⟨htracks.mp hntrack, hfan ▸ one_dvd _, ?_⟩
    rw [htape, if_neg Bool.false_ne_true]
    exact ⟨hfit, hntrack ▸ hfit', hsizes.mp hsize, fun hne => (htime hne).1,
      fun hne => (htime hne).2.1, fun hne => (htime hne).2.2⟩
  · rintro ⟨htracks', -, hfractions⟩
    rw [htape, if_neg Bool.false_ne_true] at hfractions
    have hntrack := htracks.mpr htracks'
    have hfit' : InWords (2 ^ 64) (st.rate / nTrk) := hntrack ▸ hfractions.trackRate
    exact ⟨rfl, hntrack, hrates.mpr ⟨hfractions.rate, hfit'⟩, hsizes.mpr hfractions.framesize,
      fun hne => (htimes hntrack hne hfractions.rate hfit').mpr
        ⟨hfractions.payload hne, hfractions.frametime hne, hfractions.known hne⟩⟩

/-! ## Formats with a fan mode -/

/-- Frame and payload of a tape format. -/
theorem tape_frame {fmt : FormatType} {ntrk : Nat} (hfmt : isMk4Vlba fmt = true) (hle : ntrk ≤ 64) :
    payloadsize fmt ntrk 0 = 2500 * ntrk ∧
      framesize fmt ntrk 0 = 2500 * ntrk + (if fmt = .vlba then 20 * ntrk else 0) := by
  cases fmt with
  | mark4 | vlba =>
    simp only [framesize, headersize, payloadsize, isVdif, isSt, isMk4Vlba]
    simp
    omega
  | _ => simp [isMk4Vlba] at hfmt

theorem Stated.tape_frame {st : Stated} (hfmt : isMk4Vlba st.format = true) :
    st.payloadBytes = 2500 * st.ntrack ∧
      st.frameBytes = 2500 * st.ntrack + (if st.format = .vlba then 20 * st.ntrack else 0) := by
  have hpayload : st.payloadBytes = 2500 * st.ntrack := if_pos hfmt
  refine ⟨hpayload, ?_⟩
  unfold Stated.frameBytes
  rw [hpayload]
  cases hf : st.format with
  | mark4 => simp
  | vlba => simp
  | _ =>
    rw [hf] at hfmt
    cases hfmt

/-- With the tracks of a tape, a rate that has not wrapped has no remainder. -/
theorem tape_rate_iff {nTrk x r : Nat} (htracks : nTrk ∣ 64) (hx : Reads x r) :
    nTrk * (x * 1000000 % 2 ^ 32 / nTrk) = r * 1000000 ↔ r * 1000000 < 2 ^ 32 := by
  constructor
  · intro h
    rw [← h]
    exact (Nat.mul_div_le _ _).trans_lt (Nat.mod_lt _ (by decide))
  · intro hlt
    rw [hx.eq (by omega), Nat.mod_eq_of_lt hlt]
    exact Nat.mul_div_cancel' ((htracks.trans (by decide : 64 ∣ 1000000)).trans (Nat.dvd_mul_left _ r))

theorem consistent_iff_of_fanned {st : Stated} {h : HeadersearchType} {nTrk x y z r : Nat}
    (hfmt : isMk4Vlba st.format = true) (hin : st.fanIn ≠ 0) (hfan : st.fanIn < 2 ^ 8)
    (hx : Reads x st.channels) (hy : Reads y st.bits) (hz : Reads z r) (hmbps : st.mbps = r)
    (hnTrk : nTrk = x * y * st.fanOut % 2 ^ 32 / st.fanIn)
    (hmake : HeadersearchType.make st.format nTrk (.ofNat (z * 1000000 % 2 ^ 32 / nTrk)) 0 = .ok h) :
    Consistent st h ↔ st.Fits := by
  obtain ⟨state, hstate, hcheck, rfl⟩ := HeadersearchType.make_ok hmake
  obtain ⟨hmin, hdvd⟩ := checkFormat_tape hfmt hcheck
  have hpos : 0 < nTrk := by omega
  have hle : nTrk ≤ 64 := Nat.le_of_dvd (by decide) hdvd
  obtain ⟨hp, hframesize⟩ := tape_frame hfmt hle
  obtain ⟨hpayload, hframe⟩ := Stated.tape_frame hfmt
  have htracks : (nTrk : ℚ≥0) = st.ntrack ↔
      st.channels * st.bits * st.fanOut < 2 ^ 32 ∧ st.fanIn ∣ st.channels * st.bits * st.fanOut := by
    have hin' : (st.fanIn : ℚ≥0) ≠ 0 := Nat.cast_ne_zero.mpr hin
    have hnat : (nTrk : ℚ≥0) = st.ntrack ↔ nTrk * st.fanIn = st.channels * st.bits * st.fanOut := by
      rw [Stated.ntrack, eq_div_iff hin']
      exact_mod_cast Iff.rfl
    rw [hnat]
    constructor
    · intro heq
      have hbound : nTrk * st.fanIn ≤ 64 * st.fanIn := Nat.mul_le_mul_right _ hle
      exact ⟨by omega, heq ▸ Nat.dvd_mul_left _ _⟩
    · rintro ⟨hlt, hwhole⟩
      have hne : x * y * st.fanOut % 2 ^ 32 ≠ 0 := by
        intro hzero
        rw [hzero, Nat.zero_div] at hnTrk
        omega
      rw [hnTrk, (hx.product_iff hy hne).mpr hlt]
      exact Nat.div_mul_cancel hwhole
  have hrates : nTrk * (Fraction.ofNat (z * 1000000 % 2 ^ 32 / nTrk) : Samplerate).value = st.rate ↔
      st.rate < 2 ^ 32 := by
    have hnat := tape_rate_iff hdvd hz
    rw [Stated.rate, hmbps, Fraction.value_ofNat]
    exact_mod_cast hnat
  have hsizes (hntrack : (nTrk : ℚ≥0) = st.ntrack) :
      ((framesize st.format nTrk 0 : ℕ) : ℚ≥0) = st.frameBytes := by
    rw [hframesize, hframe, ← hntrack]
    push_cast
    rfl
  have htimes (hntrack : (nTrk : ℚ≥0) = st.ntrack) (hrate : st.rate < 2 ^ 32) (hne : st.rate ≠ 0) :
      state.frametime.value = 8 * st.payloadBytes / st.rate := by
    have hrate' : st.rate = ((r * 1000000 : ℕ) : ℚ≥0) := by
      rw [Stated.rate, hmbps]
      push_cast
      rfl
    have hlt : r * 1000000 < 2 ^ 32 := by
      rw [hrate'] at hrate
      exact_mod_cast hrate
    have hpayload' : st.payloadBytes = ((2500 * nTrk : ℕ) : ℚ≥0) := by
      rw [hpayload, ← hntrack]
      push_cast
      rfl
    rw [hp] at hstate
    rw [hpayload', frametime_iff hpos.ne' hne ?_ (Fraction.normal_ofNat _) (hrates.mpr hrate)
      ⟨le_rfl, fun _ => rfl⟩ hstate]
    · have hbits : (8 : ℚ≥0) * ((2500 * nTrk : ℕ) : ℚ≥0) = ((8 * (2500 * nTrk) : ℕ) : ℚ≥0) := by
        push_cast
        rfl
      have hunknown : z * 1000000 % 2 ^ 32 / nTrk ≠ 2 ^ 64 - 1 := by
        have hquo := Nat.div_le_self (z * 1000000 % 2 ^ 32) nTrk
        have hmod := Nat.mod_lt (z * 1000000) (show 0 < 2 ^ 32 by decide)
        omega
      refine ⟨?_, ?_, fun _ => ?_⟩
      · rw [hbits]
        have hbound : 8 * (2500 * nTrk) < 2 ^ 32 := by omega
        exact_mod_cast hbound
      · rw [hbits, hrate']
        exact Fraction.inWords_div (by decide) (by omega) (by omega)
      · rw [Fraction.value_ofNat, unknownTrackbitrate_eq]
        exact_mod_cast hunknown
    · rw [hrate']
      exact ⟨hlt.trans (by decide), by rw [NNRat.den_natCast]; decide⟩
  constructor
  · rintro ⟨-, hntrack, hrate, -, -⟩
    obtain ⟨hlt, hwhole⟩ := htracks.mp hntrack
    refine ⟨hlt, hwhole, ?_⟩
    rw [if_pos hfmt]
    exact hrates.mp hrate
  · rintro ⟨hlt, hwhole, hrate⟩
    rw [if_pos hfmt] at hrate
    have hntrack := htracks.mpr ⟨hlt, hwhole⟩
    exact ⟨rfl, hntrack, hrates.mpr hrate, hsizes hntrack, htimes hntrack hrate⟩

/-! ## The parsers -/

theorem map_make_ok {x : Except FormatError HeadersearchType} {h : HeadersearchType}
    (hx : (some <$> x : Except FormatError (Option HeadersearchType)) = .ok (some h)) :
    x = .ok h := by
  cases x with
  | error e => cases hx
  | ok h' =>
    cases hx
    rfl

theorem pMark5B_iff {s : Text} {h : HeadersearchType} (hs : pMark5B s = .ok (some h)) :
    h.frameformat = .mark5b ∧ ∃ mr, rxMatches rxMark5B s = some mr ∧
      (Consistent (statedMark5B mr) h ↔ (statedMark5B mr).Fits) := by
  unfold pMark5B at hs
  cases hmr : rxMatches rxMark5B s with
  | none =>
    rw [hmr] at hs
    cases hs
  | some mr =>
    rw [hmr] at hs
    obtain ⟨r, hr, hs⟩ := Checked.bind_eq_ok.mp hs
    obtain ⟨hnormal, hval, hden⟩ := readRate_ok hr
    dsimp only at hs
    split at hs
    · cases hs
    · rename_i hne
      obtain ⟨t, ht, hs⟩ := Checked.bind_eq_ok.mp hs
      have hmake := map_make_ok hs
      obtain ⟨state, -, -, rfl⟩ := HeadersearchType.make_ok hmake
      refine ⟨rfl, mr, rfl, ?_⟩
      exact consistent_iff_of_fraction (.inr rfl) rfl (reads_scanUnsigned _) (reads_scanUnsigned _)
        (Nat.mul_one _ ▸ rfl) hne hnormal hden hval ht ⟨le_rfl, fun _ => rfl⟩ hmake

theorem vdifFmt_isVdif (l c : Bool) : isVdif (vdifFmt l c) = true := by
  cases l <;> cases c <;> rfl

theorem pVDIF_iff {s : Text} {h : HeadersearchType} (hs : pVDIF s = .ok (some h)) :
    isVdif h.frameformat = true ∧ ∃ mr, rxMatches rxVDIF s = some mr ∧
      (Consistent (statedVdif mr) h ↔ (statedVdif mr).Fits) := by
  unfold pVDIF at hs
  cases hmr : rxMatches rxVDIF s with
  | none =>
    rw [hmr] at hs
    cases hs
  | some mr =>
    rw [hmr] at hs
    obtain ⟨r, hr, hs⟩ := Checked.bind_eq_ok.mp hs
    obtain ⟨hnormal, hval, hden⟩ := readRate_ok hr
    simp only [decide_eq_true_eq] at hs
    generalize hnTrk : scanUnsigned (mr 5) * scanUnsigned (mr 6) * (if 'c' ∈ mr 1 then 2 else 1) %
      2 ^ 32 = nTrk at hs
    split at hs
    · cases hs
    · rename_i hne
      obtain ⟨t, ht, hs⟩ := Checked.bind_eq_ok.mp hs
      have hmake := map_make_ok hs
      have hvdif := vdifFmt_isVdif (decide ('l' ∈ mr 1)) (decide ('c' ∈ mr 1))
      have hpayload : Reads (payloadsize (statedVdif mr).format nTrk (scanUnsigned (mr 2)))
          (statedVdif mr).payload := by
        have hfrsz : payloadsize (statedVdif mr).format nTrk (scanUnsigned (mr 2)) =
            scanUnsigned (mr 2) := if_pos hvdif
        rw [hfrsz]
        exact reads_scanUnsigned _
      obtain ⟨state, -, -, rfl⟩ := HeadersearchType.make_ok hmake
      refine ⟨hvdif, mr, rfl, ?_⟩
      exact consistent_iff_of_fraction (.inl hvdif) rfl (reads_scanUnsigned _) (reads_scanUnsigned _)
        hnTrk.symm hne hnormal hden hval ht hpayload hmake

theorem pFanned_iff {fmt : FormatType} {rx s : Text} {h : HeadersearchType}
    (hfmt : isMk4Vlba fmt = true) (hrx : rx = rxVLBA ∨ rx = rxMKIV)
    (hs : pFanned fmt rx s = .ok (some h)) :
    h.frameformat = fmt ∧ ∃ mr, rxMatches rx s = some mr ∧
      (Consistent (statedFanned fmt mr) h ↔ (statedFanned fmt mr).Fits) := by
  unfold pFanned at hs
  cases hmr : rxMatches rx s with
  | none =>
    rw [hmr] at hs
    cases hs
  | some mr =>
    have hin : scanUnsigned (mr 1) = decimal (mr 1) := by
      have hle := decimal_fan_le hmr hrx (.inl rfl)
      exact (reads_scanUnsigned _).eq (by omega)
    have hout : scanUnsigned (mr 2) = decimal (mr 2) := by
      have hle := decimal_fan_le hmr hrx (.inr rfl)
      exact (reads_scanUnsigned _).eq (by omega)
    rw [hmr] at hs
    dsimp only at hs
    obtain ⟨-, -, hs⟩ := Checked.bind_eq_ok.mp hs
    rw [hin, hout] at hs
    split at hs
    · cases hs
    · rename_i hne
      split at hs
      · cases hs
      · have hmake := map_make_ok hs
        obtain ⟨state, -, -, rfl⟩ := HeadersearchType.make_ok hmake
        refine ⟨rfl, mr, rfl, ?_⟩
        have hle := decimal_fan_le hmr hrx (.inl rfl)
        exact consistent_iff_of_fanned hfmt hne (show decimal (mr 1) < 2 ^ 8 by omega)
          (reads_scanUnsigned _) (reads_scanUnsigned _) (reads_scanUnsigned _) rfl rfl hmake

theorem pNone_unknown {s : Text} {h : HeadersearchType} (hs : pNone s = .ok (some h)) :
    h.frameformat = .unknown := by
  obtain ⟨mr, -, rfl⟩ := Option.map_eq_some_iff.mp (Except.ok.inj hs)
  rfl

theorem pVDIFUnsupported_ne (s : Text) {h : HeadersearchType} :
    pVDIFUnsupported s ≠ .ok (some h) := by
  unfold pVDIFUnsupported
  cases rxMatches rxVDIFu s with
  | none => exact fun hs => nomatch hs
  | some mr => exact fun hs => nomatch hs

theorem stated_vdif {fmt : FormatType} {s : Text} (hfmt : isVdif fmt = true) :
    stated fmt s = (rxMatches rxVDIF (cStr s)).map statedVdif := by
  cases fmt with
  | vdif | vdifLegacy | vdifComplex | vdifLegacyComplex => rfl
  | _ => cases hfmt

/-- A format that is made of a text has the numbers that the text states, exactly if these fit the
words that they are computed in. -/
theorem text2headersearch_iff {s : Text} {h : HeadersearchType}
    (hs : text2headersearch s = .ok (some h)) (hformat : h.frameformat ≠ .unknown) :
    ∃ st, stated h.frameformat s = some st ∧ (Consistent st h ↔ st.Fits) := by
  obtain ⟨f, hf, hfs⟩ := firstOf_ok hs
  simp only [formats, List.mem_cons, List.not_mem_nil, or_false] at hf
  obtain rfl | rfl | rfl | rfl | rfl | rfl := hf
  · exact absurd (pNone_unknown hfs) hformat
  · exact absurd hfs (pVDIFUnsupported_ne _)
  · obtain ⟨hfmt, mr, hmr, hiff⟩ := pMark5B_iff hfs
    exact ⟨_, by rw [hfmt, stated, hmr]; rfl, hiff⟩
  · obtain ⟨hfmt, mr, hmr, hiff⟩ := pVDIF_iff hfs
    exact ⟨_, by rw [stated_vdif hfmt, hmr]; rfl, hiff⟩
  · obtain ⟨hfmt, mr, hmr, hiff⟩ := pFanned_iff rfl (.inl rfl) hfs
    exact ⟨_, by rw [hfmt, stated, hmr]; rfl, hiff⟩
  · obtain ⟨hfmt, mr, hmr, hiff⟩ := pFanned_iff rfl (.inr rfl) hfs
    exact ⟨_, by rw [hfmt, stated, hmr]; rfl, hiff⟩

/-- 16 channels of 2 bits, at 2048 Mbps in VDIF frames of 8032 bytes. -/
theorem text2headersearch_iff_vdif :
    ∃ st, stated .vdif "VDIF_8000-2048-16-2".toList = some st ∧
      (Consistent st ⟨.vdif, 32, ⟨64000000, 1⟩, 32, 8032, 8000, ⟨⟨32000, 1⟩, ⟨1, 32000⟩⟩⟩ ↔
        st.Fits) :=
  text2headersearch_iff (s := "VDIF_8000-2048-16-2".toList)
    (h := ⟨.vdif, 32, ⟨64000000, 1⟩, 32, 8032, 8000, ⟨⟨32000, 1⟩, ⟨1, 32000⟩⟩⟩)
    (by decide +kernel) (by decide)

/-- At 4295 Mbps the product with a million is 32704 in 32 bits, and the track rate 1022. -/
theorem text2headersearch_wraps :
    ¬ ∀ s h, text2headersearch s = .ok (some h) → h.frameformat ≠ .unknown →
      ∃ st, stated h.frameformat s = some st ∧ Consistent st h := by
  intro hall
  obtain ⟨st, hst, hcons⟩ := hall "VLBA1_1-4295-16-2".toList
    ⟨.vlba, 32, ⟨1022, 1⟩, 384, 80640, 80000, ⟨⟨511, 10000⟩, ⟨10000, 511⟩⟩⟩ (by decide +kernel)
    (by decide)
  have hrate : (stated .vlba "VLBA1_1-4295-16-2".toList).map (·.mbps) = some 4295 := by
    decide +kernel
  rw [hst] at hrate
  have hrate : st.mbps = 4295 := Option.some.inj hrate
  have hwrong := hcons.rate
  rw [Stated.rate, hrate] at hwrong
  revert hwrong
  decide +kernel

end Jive5ab.Headersearch
