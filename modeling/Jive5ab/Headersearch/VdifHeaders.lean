import Jive5ab.Headersearch.State
import Jive5ab.Lib.BitField
import Jive5ab.Vdif.ReframeTime

/-! # VDIF headers

`encode_vdif_timestamp` writes six fields of the first four words of a frame, for
formats with a whole number of frames in a second; `vdif_frame_timestamp` reads
three of them. -/
namespace Jive5ab.Headersearch
open Lib Lib.Calendar Vdif

/-! ## The header in memory -/

/-- The first four little-endian words of a frame. -/
abbrev Words := Fin 4 → BitVec 32

/-- The members of `vdif_header`. -/
inductive Field
  | epochSeconds
  | legacy
  | invalid
  | dataFrameNum
  | refEpoch
  | unused
  | dataFrameLen8
  | log2nchans
  | version
  | stationId
  | threadId
  | bitsPerSample
  | complex
  deriving DecidableEq

namespace Field

section
attribute [local instance] neZero_four

def word : Field → Fin 4
  | epochSeconds | legacy | invalid => 0
  | dataFrameNum | refEpoch | unused => 1
  | dataFrameLen8 | log2nchans | version => 2
  | stationId | threadId | bitsPerSample | complex => 3

end

def off : Field → Nat
  | epochSeconds | dataFrameNum | dataFrameLen8 | stationId => 0
  | legacy => 30
  | invalid | complex => 31
  | refEpoch | log2nchans => 24
  | unused => 30
  | version => 29
  | threadId => 16
  | bitsPerSample => 26

def len : Field → Nat
  | epochSeconds => 30
  | legacy | invalid | complex => 1
  | dataFrameNum | dataFrameLen8 => 24
  | refEpoch => 6
  | unused => 2
  | log2nchans | bitsPerSample => 5
  | version => 3
  | stationId => 16
  | threadId => 10

theorem fits (f : Field) : f.off + f.len ≤ 32 := by cases f <;> decide

/-- No two members share a bit. -/
theorem apart (f g : Field) : f ≠ g → f.word = g.word →
    f.off + f.len ≤ g.off ∨ g.off + g.len ≤ f.off := by
  cases f <;> cases g <;> decide

/-- Bit `b` of word `i` belongs to the member. -/
def Covers (f : Field) (i : Fin 4) (b : Nat) : Prop := f.word = i ∧ f.off ≤ b ∧ b < f.off + f.len

end Field

namespace Words

def get (w : Words) (f : Field) : Nat := BitField.get (w f.word) f.off f.len

def set (w : Words) (f : Field) (v : Nat) : Words :=
  Function.update w f.word (BitField.set (w f.word) f.off f.len v)

variable {w : Words} {f g : Field} {v : Nat}

@[simp] theorem get_set_self : (w.set f v).get f = v % 2 ^ f.len := by
  unfold get set
  rw [Function.update_self, BitField.get_set_self _ f.fits]

theorem get_set_ne (h : g ≠ f) : (w.set f v).get g = w.get g := by
  unfold get set
  by_cases hword : g.word = f.word
  · rw [hword, Function.update_self]
    exact BitField.get_set_apart _ g.fits (Field.apart f g h.symm hword.symm) v
  · rw [Function.update_of_ne hword]

theorem getLsbD_set (i : Fin 4) {b : Nat} (hb : b < 32) (h : ¬ f.Covers i b) :
    ((w.set f v) i).getLsbD b = (w i).getLsbD b := by
  unfold set
  by_cases hword : i = f.word
  · subst hword
    rw [Function.update_self, BitField.getLsbD_set _ _ _ _ hb, if_neg fun hin => h ⟨rfl, hin⟩]
  · rw [Function.update_of_ne hword]

/-- The header as the other readers of it see it. -/
def header (w : Words) : VdifHeader where
  epochSeconds := w.get .epochSeconds
  dataFrameNum := w.get .dataFrameNum
  refEpoch := w.get .refEpoch
  dataFrameLen8 := w.get .dataFrameLen8
  log2nchans := w.get .log2nchans
  stationId := w.get .stationId
  threadId := w.get .threadId
  bitsPerSample := w.get .bitsPerSample
  complex := w.get .complex = 1

end Words

/-! ## Encoding -/

/-- Both encoders end like this. -/
def writeVdifHeader (hdr : Headersearch) (w : Words) (epoch epochSeconds framenum : Int) : Words :=
  let w := w.set .legacy (isLegacy hdr.frameformat).toNat
  let w := w.set .complex (isComplex hdr.frameformat).toNat
  let w := w.set .dataFrameLen8
    ((hdr.payloadsize + if w.get .legacy = 1 then 16 else 32) % 2 ^ 32 / 8 % 2 ^ 24)
  let w := w.set .refEpoch (epoch % 2 ^ 6).toNat
  let w := w.set .epochSeconds (epochSeconds % 2 ^ 30).toNat
  w.set .dataFrameNum (framenum % 2 ^ 24).toNat

def encodeVdifTimestamp (w : Words) (ts : HighResTime) (hdr : Headersearch) :
    Except HeaderError Words :=
  match hdr.checkRates with
  | .error e => .error e
  | .ok () =>
    let (epoch, tmEpoch) := vdifEpoch ts
    let framenum := ts.tvSubsecond / hdr.state.frametime
    if framenum.den ≠ 1 then .error .notRepresentable
    else if ¬ framenum.num < 2 ^ 24 - 1 then .error .framenumOverflow
    else .ok (writeVdifHeader hdr w epoch (ts.tvSec - tmEpoch) framenum.num)

/-! ## Decoding -/

/-- A time stamp, or only its second when the bit rate is not known. -/
inductive Decoded
  | time (t : HighResTime)
  | unknownSubsecond (sec : Int)

def vdifFrameTimestamp (w : Words) (trackbitrate : ℚ≥0) (decoder : DecoderState) :
    Except HeaderError Decoded :=
  if 0 < trackbitrate then
    let t := Vdif.vdifFrameTimestamp decoder.frametime w.header
    if trackbitrate = unknownTrackbitrate then
      .ok (.unknownSubsecond (epochStart (100 + (w.get .refEpoch / 2 : ℕ)) (6 * (w.get .refEpoch % 2))
        (w.get .epochSeconds)))
    else .ok (.time t)
  else .error .zeroBitrate

/-! ## What is written -/

/-- The members that an encoder sets. -/
def written : List Field :=
  [.legacy, .complex, .dataFrameLen8, .refEpoch, .epochSeconds, .dataFrameNum]

section
variable (hdr : Headersearch) (w : Words) (epoch epochSeconds framenum : Int)

theorem writeVdifHeader_refEpoch :
    (writeVdifHeader hdr w epoch epochSeconds framenum).get .refEpoch = (epoch % 2 ^ 6).toNat := by
  unfold writeVdifHeader
  simp only [ne_eq, reduceCtorEq, not_false_eq_true, Words.get_set_ne, Words.get_set_self, Field.len]
  omega

theorem writeVdifHeader_epochSeconds :
    (writeVdifHeader hdr w epoch epochSeconds framenum).get .epochSeconds =
      (epochSeconds % 2 ^ 30).toNat := by
  unfold writeVdifHeader
  simp only [ne_eq, reduceCtorEq, not_false_eq_true, Words.get_set_ne, Words.get_set_self, Field.len]
  omega

theorem writeVdifHeader_dataFrameNum :
    (writeVdifHeader hdr w epoch epochSeconds framenum).get .dataFrameNum =
      (framenum % 2 ^ 24).toNat := by
  unfold writeVdifHeader
  simp only [Words.get_set_self, Field.len]
  omega

theorem writeVdifHeader_keeps {i : Fin 4} {b : Nat} (hb : b < 32) (h : ∀ f ∈ written, ¬ f.Covers i b) :
    ((writeVdifHeader hdr w epoch epochSeconds framenum) i).getLsbD b = (w i).getLsbD b := by
  have hno : ∀ f, f ∈ written → ∀ (w : Words) (v : Nat),
      ((w.set f v) i).getLsbD b = (w i).getLsbD b := fun f hf w v => Words.getLsbD_set i hb (h f hf)
  unfold writeVdifHeader
  rw [hno .dataFrameNum (by decide), hno .epochSeconds (by decide), hno .refEpoch (by decide),
    hno .dataFrameLen8 (by decide), hno .complex (by decide), hno .legacy (by decide)]

end

/-! ## There and back -/

theorem normalize_of_lt {sec : Int} {ss : ℚ≥0} (h : ss < 1) :
    HighResTime.normalize sec ss = ⟨sec, ss, h⟩ := by
  have hzero : ss.num / ss.den = 0 := by
    rw [← NNRat.floor_def]
    exact Nat.floor_eq_zero.mpr h
  unfold HighResTime.normalize
  simp [hzero]

/-- The half years that six bits can count. -/
theorem vdifEpoch_range {t : HighResTime} (hfrom : mktime ⟨100, 0, 1, 0, 0, 0⟩ ≤ t.tvSec)
    (hto : t.tvSec < mktime ⟨132, 0, 1, 0, 0, 0⟩) :
    0 ≤ (vdifEpoch t).1 ∧ (vdifEpoch t).1 < 64 := by
  have hstart : mktime ⟨100, 0, 1, 0, 0, 0⟩ = daysBeforeYear 2000 * 86400 := by decide
  have hend : mktime ⟨132, 0, 1, 0, 0, 0⟩ = daysBeforeYear 2032 * 86400 := by decide
  rw [hstart] at hfrom
  rw [hend] at hto
  have hyear : 2000 ≤ yearOf (t.tvSec / 86400) ∧ yearOf (t.tvSec / 86400) < 2032 :=
    yearOf_between (by omega) (by omega)
  have hhalf : ∀ mon : Nat, 0 ≤ (if 6 ≤ mon then (1 : Int) else 0) ∧
      (if 6 ≤ mon then (1 : Int) else 0) ≤ 1 := by
    intro mon
    split <;> decide
  have hmon := hhalf (gmtime t.tvSec).mon
  simp only [vdifEpoch, gmtime] at hmon ⊢
  omega

/-- What the decoder makes of a header: the half year, the seconds in it and the
frame number. -/
theorem vdifFrameTimestamp_write {hdr : Headersearch} {t : HighResTime} (w : Words)
    (h0 : 0 ≤ (vdifEpoch t).1) (h64 : (vdifEpoch t).1 < 64) (epochSeconds framenum : Int) :
    Vdif.vdifFrameTimestamp hdr.state.frametime
        (writeVdifHeader hdr w (vdifEpoch t).1 epochSeconds framenum).header =
      .normalize ((vdifEpoch t).2 + epochSeconds % 2 ^ 30)
        ((framenum % 2 ^ 24).toNat * hdr.state.frametime) := by
  have hsec := mktime_sec ⟨100 + (((vdifEpoch t).1 % 2 ^ 6).toNat / 2 : ℕ),
    6 * (((vdifEpoch t).1 % 2 ^ 6).toNat % 2), 1, 0, 0, 0⟩ ((epochSeconds % 2 ^ 30).toNat : ℕ)
  have hnonneg : (((epochSeconds % 2 ^ 30).toNat : ℕ) : Int) = epochSeconds % 2 ^ 30 :=
    Int.toNat_of_nonneg (Int.emod_nonneg _ (by decide))
  have hstart := vdifEpoch_start h0 h64
  unfold Vdif.vdifFrameTimestamp Words.header
  dsimp only
  rw [writeVdifHeader_refEpoch, writeVdifHeader_epochSeconds, writeVdifHeader_dataFrameNum]
  unfold epochStart at hstart ⊢
  rw [hsec, hstart, hnonneg]

/-- The header takes the values as they are, not only their low bits; the rest of
the frame keeps its bits; and the decoder gives the time stamp back. -/
structure RoundTrip (hdr : Headersearch) (ts : HighResTime) (w out : Words) : Prop where
  refEpoch : ((out.get .refEpoch : ℕ) : Int) = (vdifEpoch ts).1
  epochSeconds : ((out.get .epochSeconds : ℕ) : Int) = ts.tvSec - (vdifEpoch ts).2
  dataFrameNum : ((out.get .dataFrameNum : ℕ) : ℚ≥0) = ts.tvSubsecond / hdr.state.frametime
  keeps : ∀ (i : Fin 4) (b : Nat), b < 32 → (∀ f ∈ written, ¬ f.Covers i b) →
    (out i).getLsbD b = (w i).getLsbD b
  decodes : vdifFrameTimestamp out hdr.trackbitrate hdr.state = .ok (.time ts)

/-- Sixteen tracks of 32 Mbps, 8000 frames a second. -/
def vdif8000 : Headersearch := .make .vdif 16 32000000 8000

/-- The last frame of a leap day. -/
def leapDayEnd : HighResTime := ⟨1456790399, 7999 / 8000, by decide +kernel⟩

end Jive5ab.Headersearch
