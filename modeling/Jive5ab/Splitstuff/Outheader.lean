import Jive5ab.ChannelExtractor.Config
import Jive5ab.Headersearch.OverflowTest

/-! # The header of what a splitter makes

The frame is divided into chunks, and chunks of several frames are put together; the header says
how long that takes. -/
namespace Jive5ab.Splitstuff
open ChannelExtractor (Config)
open Headersearch Lib

/-! ## A header that is divided or multiplied -/

def rateText (t : Samplerate) : String := s!"{t.num}/{t.den}"

def refactorVerb (factor : Int) : String := if factor < 0 then "divide" else "multiply"

/-- `headersearch_type(other, factor)`: a negative factor divides. -/
def refactor (other : HeadersearchType) (factor : Int) : Except FormatError HeadersearchType := do
  let ntrack := if factor < 0 then other.ntrack / factor.natAbs else other.ntrack
  let payloadsize :=
    if factor < 0 then other.payloadsize / factor.natAbs
    else other.payloadsize * factor.natAbs % 2 ^ 32
  let state ← DecoderRates.make ntrack other.trackbitrate payloadsize
  ezassert (factor ≠ 0 ∧ 0 < ntrack ∧ 0 < other.trackbitrate.num ∧ 0 < payloadsize)
    (s!"cannot {refactorVerb factor} header by {factor.natAbs} with " ++
      s!"ntrack={ntrack} trackbitrate={rateText other.trackbitrate} payloadsize={payloadsize}\n")
  return { other with
    ntrack := ntrack, headersize := 0, framesize := 0, payloadsize := payloadsize, state := state }

/-- `headersearch_type(other, complex)`: into `real` chunks, with `imag` tracks if that is not zero. -/
def refactorComplex (other : HeadersearchType) (real imag : Nat) :
    Except FormatError HeadersearchType := do
  let ntrack := if imag = 0 then other.ntrack / real else imag
  let payloadsize :=
    if other.ntrack = 0 then 2 ^ 32 - 1
    else other.payloadsize * ntrack % 2 ^ 32 / other.ntrack
  let state ← DecoderRates.make ntrack other.trackbitrate payloadsize
  ezassert (0 < ntrack ∧ 0 < other.trackbitrate.num ∧ 0 < payloadsize ∧ imag ≤ other.ntrack)
    (s!"cannot divide header by complex ({real},{imag}) with ntrack={ntrack} " ++
      s!"trackbitrate={rateText other.trackbitrate}payloadsize={payloadsize}\n")
  return { other with
    ntrack := ntrack, headersize := 0, framesize := 0, payloadsize := payloadsize, state := state }

/-- `operator/` -/
def divide (h : HeadersearchType) (real imag : Nat) : Except FormatError HeadersearchType := do
  ezassert (0 < real) "Cannot divide frame into 0 pieces"
  refactorComplex h real imag

/-- `operator*`, where the factor becomes an `int`. -/
def multiply (h : HeadersearchType) (factor : Nat) : Except FormatError HeadersearchType := do
  ezassert (0 < factor) "Cannot multiply frame by 0"
  refactor h (Int.bmod factor (2 ^ 32))

/-! ## The splitter -/

/-- `splitproperties_type`, without the function. -/
inductive Splitter where
  | pieces (n : Nat) (pos : 0 < n)
  | extractor (config : Config) (wellFormed : config.WellFormed)

def Splitter.nchunk : Splitter → Nat
  | pieces n _ => n
  | extractor config _ => config.channels.length

def naturalAccumulation : Nat := 2 ^ 32 - 1

def Splitter.chunk (sp : Splitter) (ntrack : Nat) : Nat × Nat :=
  match sp with
  | pieces n _ => (n, 0)
  | extractor config _ =>
    (config.channels.length,
      ntrack * config.bitsperchannel % 2 ^ 32 / config.bitsperinputword.toNat)

def outheader (sp : Splitter) (inheader : HeadersearchType) (naccumulate : Nat) :
    Except FormatError HeadersearchType := do
  let (real, imag) := sp.chunk inheader.ntrack
  let splithdr ← divide inheader real imag
  multiply splithdr
    (if naccumulate = naturalAccumulation then inheader.payloadsize / splithdr.payloadsize
      else naccumulate)

/-! ## What should come out -/

/-- Bits that are taken together from the bits of the tracks. -/
def Splitter.bits (sp : Splitter) (ntrack : Nat) : Nat :=
  match sp with
  | pieces _ _ => 0
  | extractor config _ => ntrack * config.bitsperchannel

def Splitter.tracks (sp : Splitter) (ntrack : Nat) : Nat :=
  match sp with
  | pieces n _ => ntrack / n
  | extractor config _ =>
    if ntrack * config.bitsperchannel / config.bitsperinputword.toNat = 0 then
      ntrack / config.channels.length
    else ntrack * config.bitsperchannel / config.bitsperinputword.toNat

/-- Of one frame in one chunk. -/
def Splitter.payload (sp : Splitter) (h : HeadersearchType) : Nat :=
  h.payloadsize * sp.tracks h.ntrack / h.ntrack

def Splitter.count (sp : Splitter) (h : HeadersearchType) (naccumulate : Nat) : Nat :=
  if naccumulate = naturalAccumulation then h.payloadsize / sp.payload h else naccumulate

/-- The bits of a frame over the bits a second. -/
def frameduration (h : HeadersearchType) : ℚ≥0 :=
  (8 * h.payloadsize : ℕ) / (h.ntrack * h.trackbitrate.value)

/-- Every product is one of words, and the factor an `int`. -/
structure NoWrap (sp : Splitter) (h : HeadersearchType) (naccumulate : Nat) : Prop where
  bits : sp.bits h.ntrack < 2 ^ 32
  payload : h.payloadsize * sp.tracks h.ntrack < 2 ^ 32
  factor : sp.count h naccumulate < 2 ^ 31
  frame : 8 * (sp.payload h * sp.count h naccumulate) < 2 ^ 32
  rate : sp.tracks h.ntrack * h.trackbitrate.num < 2 ^ 64

/-- As long as the frames that it is made of, and not bigger. -/
structure KeepsTime (sp : Splitter) (h : HeadersearchType) (naccumulate : Nat)
    (out : HeadersearchType) : Prop where
  time : out.state.frametime.value = sp.count h naccumulate * frameduration h
  size : sp.nchunk * out.payloadsize ≤ sp.count h naccumulate * h.payloadsize
  products : NoWrap sp h naccumulate

/-- The bytes of a chunk are whole, there are no more tracks than before, and the frame time is a
fraction of 64 bit words. -/
structure Divides (sp : Splitter) (h : HeadersearchType) (naccumulate : Nat) : Prop where
  products : NoWrap sp h naccumulate
  whole : h.ntrack ∣ h.payloadsize * sp.tracks h.ntrack
  tracks : sp.nchunk * sp.tracks h.ntrack ≤ h.ntrack
  words : (sp.count h naccumulate * frameduration h).num < 2 ^ 64

/-! ## What returns -/

variable {sp : Splitter} {h split out : HeadersearchType} {real imag n naccumulate : Nat}

theorem refactorComplex_ok (hok : refactorComplex h real imag = .ok out) :
    (out.ntrack = if imag = 0 then h.ntrack / real else imag) ∧
    (out.payloadsize = if h.ntrack = 0 then 2 ^ 32 - 1
      else h.payloadsize * out.ntrack % 2 ^ 32 / h.ntrack) ∧
    out.trackbitrate = h.trackbitrate ∧ 0 < out.ntrack ∧ 0 < h.trackbitrate.num ∧
    0 < out.payloadsize ∧ imag ≤ h.ntrack := by
  unfold refactorComplex at hok
  obtain ⟨state, -, hok⟩ := Checked.bind_eq_ok.mp hok
  obtain ⟨_, hassert, hok⟩ := Checked.bind_eq_ok.mp hok
  obtain ⟨htracks, hrate, hpayload, himag⟩ := ezassert_ok.mp hassert
  cases hok
  exact ⟨rfl, rfl, rfl, htracks, hrate, hpayload, himag⟩

/-- A factor that is not negative. -/
theorem refactor_ok {factor : Nat} (hok : refactor h factor = .ok out) :
    out.ntrack = h.ntrack ∧ out.payloadsize = h.payloadsize * factor % 2 ^ 32 ∧
    DecoderRates.make out.ntrack h.trackbitrate out.payloadsize = .ok out.state ∧
    0 < out.payloadsize := by
  unfold refactor at hok
  have hnot : ¬(factor : Int) < 0 := by omega
  simp only [if_neg hnot, Int.natAbs_natCast] at hok
  obtain ⟨state, hstate, hok⟩ := Checked.bind_eq_ok.mp hok
  obtain ⟨_, hassert, hok⟩ := Checked.bind_eq_ok.mp hok
  obtain ⟨-, -, -, hpayload⟩ := ezassert_ok.mp hassert
  cases hok
  exact ⟨rfl, rfl, hstate, hpayload⟩

theorem multiply_ok (hn : n < 2 ^ 31) (hok : multiply h n = .ok out) :
    0 < n ∧ refactor h n = .ok out := by
  unfold multiply at hok
  obtain ⟨_, hassert, hok⟩ := Checked.bind_eq_ok.mp hok
  have hmod : Int.bmod n (2 ^ 32) = n := by
    rw [Int.bmod_def]
    omega
  rw [hmod] at hok
  exact ⟨ezassert_ok.mp hassert, hok⟩

theorem tracks_eq (hbits : sp.bits h.ntrack < 2 ^ 32) :
    (if (sp.chunk h.ntrack).2 = 0 then h.ntrack / (sp.chunk h.ntrack).1
      else (sp.chunk h.ntrack).2) = sp.tracks h.ntrack := by
  cases sp with
  | pieces n pos => rfl
  | extractor config wellFormed =>
    have hmod : h.ntrack * config.bitsperchannel % 2 ^ 32 = h.ntrack * config.bitsperchannel :=
      Nat.mod_eq_of_lt hbits
    simp only [Splitter.chunk, Splitter.tracks, hmod]

/-- Within the words the two headers are those of exact arithmetic. -/
theorem outheader_ok (hwrap : NoWrap sp h naccumulate)
    (hok : outheader sp h naccumulate = .ok out) :
    out.ntrack = sp.tracks h.ntrack ∧
    out.payloadsize = sp.payload h * sp.count h naccumulate ∧
    DecoderRates.make out.ntrack h.trackbitrate out.payloadsize = .ok out.state ∧
    0 < out.ntrack ∧ out.ntrack ≤ h.ntrack ∧ 0 < h.trackbitrate.num ∧ 0 < out.payloadsize := by
  have hexact := tracks_eq hwrap.bits
  unfold outheader at hok
  generalize sp.chunk h.ntrack = chunk at hexact hok
  obtain ⟨real, imag⟩ := chunk
  dsimp only at hexact hok
  obtain ⟨split, hdivide, hmultiply⟩ := Checked.bind_eq_ok.mp hok
  obtain ⟨_, -, hcomplex⟩ := Checked.bind_eq_ok.mp hdivide
  obtain ⟨htracks, hpayload, hrate, hpos, hnum, -, himag⟩ := refactorComplex_ok hcomplex
  have hle : split.ntrack ≤ h.ntrack := by
    rw [htracks]
    split
    · exact Nat.div_le_self _ _
    · exact himag
  rw [hexact] at htracks
  have hne : h.ntrack ≠ 0 := by omega
  rw [if_neg hne, htracks, Nat.mod_eq_of_lt hwrap.payload] at hpayload
  have hsplit : split.payloadsize = sp.payload h := hpayload
  have hcount : (if naccumulate = naturalAccumulation then h.payloadsize / split.payloadsize
      else naccumulate) = sp.count h naccumulate := by rw [hsplit, Splitter.count]
  rw [hcount] at hmultiply
  obtain ⟨-, hrefactor⟩ := multiply_ok hwrap.factor hmultiply
  obtain ⟨hsame, hbytes, hstate, hsome⟩ := refactor_ok hrefactor
  have hframe := hwrap.frame
  rw [hsplit, Nat.mod_eq_of_lt (by omega)] at hbytes
  refine ⟨hsame.trans htracks, hbytes, by rwa [← hrate], ?_, ?_, hnum, hsome⟩
  · rwa [hsame]
  · rwa [hsame]

/-! ## When time is kept -/

/-- A split header is at most as long as its share. -/
theorem payload_mul_le (sp : Splitter) (h : HeadersearchType) :
    sp.payload h * h.ntrack ≤ h.payloadsize * sp.tracks h.ntrack := Nat.div_mul_le_self _ _

theorem payload_mul_eq_iff :
    sp.payload h * h.ntrack = h.payloadsize * sp.tracks h.ntrack ↔
      h.ntrack ∣ h.payloadsize * sp.tracks h.ntrack := by
  constructor
  · intro hmul
    exact Dvd.intro_left _ hmul
  · intro hdvd
    exact Nat.div_mul_cancel hdvd

/-- A rate that is known and of an assertion that it is not zero. -/
theorem isValidRate_of_num {t : Samplerate} (hknown : t ≠ unknownRate) (hnum : 0 < t.num) :
    isValidRate t = true := by
  have hne : t ≠ .ofNat 0 := by
    rintro rfl
    exact absurd hnum (by decide)
  simp [isValidRate, hknown, hne]

/-- What the frame time would be without a 64 bit word to put it in. -/
def splitduration (sp : Splitter) (h : HeadersearchType) (naccumulate : Nat) : ℚ≥0 :=
  (8 * (sp.payload h * sp.count h naccumulate) : ℕ) / (sp.tracks h.ntrack * h.trackbitrate.value)

theorem frametime_eq (ht : h.trackbitrate.Normal) (hden : h.trackbitrate.den < 2 ^ 64)
    (hknown : h.trackbitrate ≠ unknownRate) (hwrap : NoWrap sp h naccumulate)
    (hok : outheader sp h naccumulate = .ok out) :
    out.state.frametime = .wrap (splitduration sp h naccumulate) ∧
      (splitduration sp h naccumulate).den < 2 ^ 64 := by
  obtain ⟨htracks, hbytes, hmade, hpos, -, hnum, hsome⟩ := outheader_ok hwrap hok
  rw [htracks, hbytes] at hmade
  rw [htracks] at hpos
  rw [hbytes] at hsome
  have hall : Nonzero (sp.tracks h.ntrack) h.trackbitrate
      (sp.payload h * sp.count h naccumulate) :=
    ⟨hpos.ne', isValidRate_of_num hknown hnum, hsome.ne'⟩
  have hwords := inWords_mul ht hden hwrap.rate
  have hne := mul_num_ne_zero_of_fits hall.tracks hnum hwrap.rate
  have htime := (rates_made hmade).2
  rw [frametimeOf_eq hall ht hwords hwrap.frame hne] at htime
  refine ⟨(Except.ok.inj htime).symm, ?_⟩
  have hvalue : h.trackbitrate.value ≠ 0 := by
    rw [Fraction.value]
    exact div_ne_zero (Nat.cast_ne_zero.mpr hnum.ne') (Nat.cast_ne_zero.mpr ht.den_pos.ne')
  exact (Fraction.den_div_le _ (mul_ne_zero (Nat.cast_ne_zero.mpr hpos.ne') hvalue)).trans_lt
    hwords.num

/-- The share of a chunk is what a whole number of bytes a track gives. -/
theorem splitduration_le (hpos : 0 < h.ntrack) (htracks : 0 < sp.tracks h.ntrack)
    (hrate : h.trackbitrate.value ≠ 0) (hsome : 0 < sp.count h naccumulate) :
    splitduration sp h naccumulate ≤ sp.count h naccumulate * frameduration h ∧
    (splitduration sp h naccumulate = sp.count h naccumulate * frameduration h ↔
      h.ntrack ∣ h.payloadsize * sp.tracks h.ntrack) := by
  have hle := payload_mul_le sp h
  rw [← payload_mul_eq_iff]
  unfold splitduration frameduration
  generalize sp.payload h = payload at *
  generalize sp.tracks h.ntrack = tracks at *
  generalize sp.count h naccumulate = n at *
  have hT : (0 : ℚ≥0) < tracks := by exact_mod_cast htracks
  have hN : (0 : ℚ≥0) < h.ntrack := by exact_mod_cast hpos
  have ht : 0 < h.trackbitrate.value := pos_of_ne_zero hrate
  have hfactor : (0 : ℚ≥0) < 8 * n * h.trackbitrate.value :=
    mul_pos (mul_pos (by norm_num) (by exact_mod_cast hsome)) ht
  have hhere : ((8 * (payload * n) : ℕ) : ℚ≥0) * (h.ntrack * h.trackbitrate.value) =
      8 * n * h.trackbitrate.value * ((payload * h.ntrack : ℕ) : ℚ≥0) := by
    push_cast
    ring
  have hthere : (n : ℚ≥0) * (8 * h.payloadsize : ℕ) * (tracks * h.trackbitrate.value) =
      8 * n * h.trackbitrate.value * ((h.payloadsize * tracks : ℕ) : ℚ≥0) := by
    push_cast
    ring
  rw [← mul_div_assoc]
  constructor
  · rw [div_le_div_iff₀ (mul_pos hT ht) (mul_pos hN ht), hhere, hthere]
    exact mul_le_mul_of_nonneg_left (by exact_mod_cast hle) hfactor.le
  · rw [div_eq_div_iff (mul_pos hT ht).ne' (mul_pos hN ht).ne', hhere, hthere,
      mul_right_inj' hfactor.ne', Nat.cast_inj]

/-- Of whole bytes a chunk has its share of the frame. -/
theorem size_iff (hpos : 0 < h.ntrack) (hbytes : 0 < h.payloadsize) (hn : 0 < n)
    (hwhole : h.ntrack ∣ h.payloadsize * sp.tracks h.ntrack) :
    sp.nchunk * (sp.payload h * n) ≤ n * h.payloadsize ↔
      sp.nchunk * sp.tracks h.ntrack ≤ h.ntrack := by
  have hshare := payload_mul_eq_iff.mpr hwhole
  have hfactor : 0 < n * h.payloadsize := Nat.mul_pos hn hbytes
  have hhere : sp.nchunk * (sp.payload h * n) * h.ntrack =
      n * h.payloadsize * (sp.nchunk * sp.tracks h.ntrack) := by
    calc sp.nchunk * (sp.payload h * n) * h.ntrack
        = n * sp.nchunk * (sp.payload h * h.ntrack) := by ring
      _ = n * h.payloadsize * (sp.nchunk * sp.tracks h.ntrack) := by rw [hshare]; ring
  rw [← Nat.mul_le_mul_right_iff hpos, hhere, Nat.mul_le_mul_left_iff hfactor]

/-- Nothing is zero of a splitter that returns. -/
theorem outheader_pos (ht : h.trackbitrate.Normal) (hwrap : NoWrap sp h naccumulate)
    (hok : outheader sp h naccumulate = .ok out) :
    0 < h.ntrack ∧ 0 < sp.tracks h.ntrack ∧ h.trackbitrate.value ≠ 0 ∧
      0 < sp.count h naccumulate ∧ 0 < h.payloadsize := by
  obtain ⟨htracks, hbytes, -, hpos, hle, hnum, hsome⟩ := outheader_ok hwrap hok
  rw [hbytes] at hsome
  have hpayload : 0 < sp.payload h := Nat.pos_of_mul_pos_right hsome
  refine ⟨hpos.trans_le hle, htracks ▸ hpos, ?_, Nat.pos_of_mul_pos_left hsome, ?_⟩
  · rw [Fraction.value]
    exact div_ne_zero (Nat.cast_ne_zero.mpr hnum.ne') (Nat.cast_ne_zero.mpr ht.den_pos.ne')
  · refine Nat.pos_of_ne_zero fun hzero => hpayload.ne' ?_
    rw [Splitter.payload, hzero, Nat.zero_mul, Nat.zero_div]

/-- A frame time that is kept is one of whole bytes, and of words. -/
theorem time_iff (ht : h.trackbitrate.Normal) (hden : h.trackbitrate.den < 2 ^ 64)
    (hknown : h.trackbitrate ≠ unknownRate) (hwrap : NoWrap sp h naccumulate)
    (hok : outheader sp h naccumulate = .ok out) :
    out.state.frametime.value = sp.count h naccumulate * frameduration h ↔
      h.ntrack ∣ h.payloadsize * sp.tracks h.ntrack ∧
        (sp.count h naccumulate * frameduration h).num < 2 ^ 64 := by
  obtain ⟨hpos, htracks, hrate, hn, -⟩ := outheader_pos ht hwrap hok
  obtain ⟨htime, hword⟩ := frametime_eq ht hden hknown hwrap hok
  obtain ⟨hle, hwhole⟩ := splitduration_le hpos htracks hrate hn
  rw [htime, ← hwhole]
  constructor
  · intro hkept
    obtain ⟨hwords, heq⟩ := Fraction.inWords_of_value_wrap (by decide) hword hle hkept
    exact ⟨heq, heq ▸ hwords.num⟩
  · rintro ⟨heq, hnum⟩
    rw [← heq] at hnum ⊢
    exact Fraction.value_wrap ⟨hnum, hword⟩

/-- A chunk keeps time when it takes whole bytes from every frame. -/
theorem keepsTime_iff (ht : h.trackbitrate.Normal) (hden : h.trackbitrate.den < 2 ^ 64)
    (hknown : h.trackbitrate ≠ unknownRate) (hok : outheader sp h naccumulate = .ok out) :
    (KeepsTime sp h naccumulate out ↔ Divides sp h naccumulate) ∧
    (FitsWords h.ntrack h.trackbitrate h.payloadsize →
      DecoderRates.make h.ntrack h.trackbitrate h.payloadsize = .ok h.state →
      h.state.frametime.value = frameduration h) := by
  have hsize (hwrap : NoWrap sp h naccumulate)
      (hwhole : h.ntrack ∣ h.payloadsize * sp.tracks h.ntrack) :
      sp.nchunk * out.payloadsize ≤ sp.count h naccumulate * h.payloadsize ↔
        sp.nchunk * sp.tracks h.ntrack ≤ h.ntrack := by
    obtain ⟨hpos, -, -, hn, hbytes⟩ := outheader_pos ht hwrap hok
    rw [(outheader_ok hwrap hok).2.1]
    exact size_iff hpos hbytes hn hwhole
  refine ⟨⟨?_, ?_⟩, ?_⟩
  · rintro ⟨htime, hbytes, hwrap⟩
    obtain ⟨hwhole, hwords⟩ := (time_iff ht hden hknown hwrap hok).mp htime
    exact ⟨hwrap, hwhole, (hsize hwrap hwhole).mp hbytes, hwords⟩
  · rintro ⟨hwrap, hwhole, htracks, hwords⟩
    exact ⟨(time_iff ht hden hknown hwrap hok).mpr ⟨hwhole, hwords⟩,
      (hsize hwrap hwhole).mpr htracks, hwrap⟩
  · intro hfits hstate
    rw [(rates_exact ht hden hknown hfits hstate).2, inv_div]
    rfl

/-- Four chunks of a frame of 32 tracks. -/
theorem keepsTime_four_pieces : ∃ h out,
    HeadersearchType.make .mark5b 32 (.ofNat 2000000) 0 = .ok h ∧
    outheader (.pieces 4 (by decide)) h 1 = .ok out ∧
    (KeepsTime (.pieces 4 (by decide)) h 1 out ↔ Divides (.pieces 4 (by decide)) h 1) ∧
    (FitsWords h.ntrack h.trackbitrate h.payloadsize →
      DecoderRates.make h.ntrack h.trackbitrate h.payloadsize = .ok h.state →
      h.state.frametime.value = frameduration h) := by
  refine ⟨_, _, rfl, rfl, ?_⟩
  exact keepsTime_iff (Fraction.normal_ofNat _) (by decide) (by decide) rfl

/-- One bit of 32, of which 10000 bytes do not have a whole number of bytes. -/
def oneOfThirtyTwo : Config := ⟨32, 1, [[0]]⟩

theorem oneOfThirtyTwo_wellFormed : oneOfThirtyTwo.WellFormed where
  width_pos := by decide
  width_mod := by decide
  channels_ne := by decide
  channels_le := by decide
  bits_pos := by decide
  length_eq := by decide
  bits_lt := by
    intro channel hchannel bit hbit
    obtain rfl := List.mem_singleton.mp hchannel
    obtain rfl := List.mem_singleton.mp hbit
    decide

theorem half_byte_lost : ∃ h out,
    HeadersearchType.make .mark5b 32 (.ofNat 2000000) 0 = .ok h ∧
    outheader (.extractor oneOfThirtyTwo oneOfThirtyTwo_wellFormed) h 1 = .ok out ∧
    ¬KeepsTime (.extractor oneOfThirtyTwo oneOfThirtyTwo_wellFormed) h 1 out := by
  refine ⟨_, _, rfl, rfl, fun hkeeps => ?_⟩
  have hdvd := ((time_iff (Fraction.normal_ofNat _) (by decide) (by decide) hkeeps.products
    rfl).mp hkeeps.time).1
  revert hdvd
  decide

end Jive5ab.Splitstuff
