import Jive5ab.Headersearch.Tracks
import Jive5ab.Headersearch.VdifHeaders
import Jive5ab.Headersearch.VlbaTime
import Mathlib.Data.Fin.VecNotation
import Mathlib.Tactic.NormNum

/-! # VLBA headers

Four bytes of sync word and the time code with a CRC on every track. The encoder
takes the CRC of the words as the host stores them, the checker of the bytes on the
track. -/
namespace Jive5ab.Headersearch
open Lib Lib.Calendar Vdif

/-! ## Encoding -/

/-- The bytes of a word as a little-endian host stores it. -/
def hostBytes (w : BitVec 32) : List Crc.Byte :=
  [0, 8, 16, 24].map fun s => (w >>> s).setWidth 8

/-- `word`, with the CRC, in the byte order of the track. -/
def vlbaHeader (sec mjd dms : Int) : List Crc.Byte :=
  let word0 := timeWord sec mjd
  let word1 := fractionWord dms
  let crc := crc16Vlba (hostBytes word0 ++ hostBytes word1)
  networkBytes word0 ++ networkBytes (word1 ||| (crc &&& 0xffff))

def encodeVlbaTimestamp (framedata : Framedata) (ts : HighResTime) (hdr : Headersearch) :
    Except HeaderError Framedata :=
  putHeader hdr.ntrack framedata 32
    (vlbaHeader (ts.tvSec.tmod 86400) (mjdOf ts.tvSec) (deciMilliseconds ts.tvSubsecond))

/-! ## Checking -/

/-- The CRC is over the time code, behind the four bytes of sync word. -/
def checkVlba (buffer : Framedata) (strict : Strict) (track : Nat) (hdr : Headersearch) :
    Except HeaderError Bool :=
  checkTape buffer strict track hdr.ntrack (mark4Syncword hdr.ntrack) 0 false 12 fun trackheader =>
    crc16Vlba (trackheader.drop 4)

/-! ## Decoding -/

/-- `vlba_tape_ts` -/
def vlbaTapeTs (timecode : List Crc.Byte) : VlbaDigits :=
  let low (i : Nat) : Nat := BitField.get (timecode.getD i 0) 0 4
  let high (i : Nat) : Nat := BitField.get (timecode.getD i 0) 4 4
  { j := ![high 1, low 0, high 0]
    s := ![low 3, high 3, low 2, high 2, low 1]
    ss := ![low 5, high 5, low 4, high 4] }

def vlbaFrameTimestamp (currentMjd : Int) (framedata : Framedata) (track : Nat) (hdr : Headersearch) :
    Except HeaderError HighResTime :=
  match extractBitstream false track hdr.ntrack 8 fun a => framedata (4 * hdr.ntrack + a) with
  | .error e => .error e
  | .ok timecode => .ok (decodeVlbaTimestamp currentMjd (vlbaTapeTs timecode))

/-! ## The digits on the track -/

theorem getNibble (w : BitVec 32) (s : Nat) {off : Nat} (hoff : off + 4 ≤ 8) :
    BitField.get ((w >>> s).setWidth 8) off 4 = nibble w (s + off) := by
  refine Nat.eq_of_testBit_eq fun j => ?_
  unfold nibble
  rw [BitField.testBit_get, BitField.testBit_get, BitVec.getLsbD_setWidth, BitVec.getLsbD_ushiftRight]
  by_cases hj : j < 4
  · have hin : off + j < 8 := by omega
    rw [decide_eq_true hin, Bool.true_and, Nat.add_assoc]
  · rw [decide_eq_false hj, Bool.false_and, Bool.false_and]

theorem vlbaTapeTs_header (sec mjd dms : Nat) :
    vlbaTapeTs (vlbaHeader sec mjd dms) = .of sec mjd dms := by
  have hsec : ∀ s off, off + 4 ≤ 8 → ∀ k < 5, s + off = 4 * k →
      BitField.get ((timeWord sec mjd >>> s).setWidth 8) off 4 = sec / 10 ^ k % 10 := by
    intro s off hoff k hk hplace
    rw [getNibble _ _ hoff, hplace, nibble_timeWord_sec sec mjd hk]
  have hmjd : ∀ s off, off + 4 ≤ 8 → ∀ k < 3, s + off = 20 + 4 * k →
      BitField.get ((timeWord sec mjd >>> s).setWidth 8) off 4 = mjd / 10 ^ k % 10 := by
    intro s off hoff k hk hplace
    rw [getNibble _ _ hoff, hplace, nibble_timeWord_mjd sec mjd hk]
  have hdms : ∀ c s off, off + 4 ≤ 8 → ∀ k < 4, s + off = 16 + 4 * k →
      BitField.get (((fractionWord dms ||| (c &&& 0xffff)) >>> s).setWidth 8) off 4 =
        dms / 10 ^ k % 10 := by
    intro c s off hoff k hk hplace
    rw [getNibble _ _ hoff, hplace, nibble_or_low _ _ (by omega), nibble_fractionWord dms hk]
  unfold vlbaTapeTs VlbaDigits.of
  dsimp only
  congr 1
  · funext k
    match k with
    | 0 => exact hmjd 16 4 le_rfl 0 (by omega) rfl
    | 1 => exact hmjd 24 0 (by omega) 1 (by omega) rfl
    | 2 => exact hmjd 24 4 le_rfl 2 (by omega) rfl
  · funext k
    match k with
    | 0 => exact hsec 0 0 (by omega) 0 (by omega) rfl
    | 1 => exact hsec 0 4 le_rfl 1 (by omega) rfl
    | 2 => exact hsec 8 0 (by omega) 2 (by omega) rfl
    | 3 => exact hsec 8 4 le_rfl 3 (by omega) rfl
    | 4 => exact hsec 16 0 (by omega) 4 (by omega) rfl
  · funext k
    match k with
    | 0 => exact hdms _ 16 0 (by omega) 0 (by omega) rfl
    | 1 => exact hdms _ 16 4 le_rfl 1 (by omega) rfl
    | 2 => exact hdms _ 24 0 (by omega) 2 (by omega) rfl
    | 3 => exact hdms _ 24 4 le_rfl 3 (by omega) rfl

/-- The hundreds of a day are a decimal digit. -/
theorem vlbaHeader_first (sec mjd : Nat) (dms : Int) (h : 0 < (vlbaHeader sec mjd dms).length) :
    (vlbaHeader sec mjd dms)[0] ≠ 0xff := by
  have hdigit := @nibble_timeWord_mjd sec mjd 2 (Nat.lt_succ_self 2)
  have hbyte : BitField.get ((timeWord sec mjd >>> 24).setWidth 8) 4 4 =
      nibble (timeWord sec mjd) (20 + 4 * 2) := getNibble (timeWord sec mjd) 24 le_rfl
  intro hones
  have hfirst : (timeWord sec mjd >>> 24).setWidth 8 = (0xff : Crc.Byte) := hones
  have hfull : BitField.get (0xff : Crc.Byte) 4 4 = 15 := rfl
  rw [hfirst, hfull, hdigit] at hbyte
  omega

/-! ## There and back -/

/-- The time code with an empty CRC, as transmitted and as stored, one exclusive or-ed
with the other. -/
def byteOrderDifference (sec mjd dms : Int) : List Crc.Byte :=
  (networkBytes (timeWord sec mjd) ++ networkBytes (fractionWord dms)).zipWith (· ^^^ ·)
    (hostBytes (timeWord sec mjd) ++ hostBytes (fractionWord dms))

theorem xor_eq_zero_iff {a b : BitVec 32} : a ^^^ b = 0 ↔ a = b := by
  constructor
  · intro h
    have hcancel : a ^^^ b ^^^ b = b := by
      rw [h]
      exact BitVec.zero_xor
    rwa [BitVec.xor_assoc, BitVec.xor_self, BitVec.xor_zero] at hcancel
  · rintro rfl
    exact BitVec.xor_self

theorem crc_vlbaHeader (sec mjd dms : Int) :
    crc16Vlba (vlbaHeader sec mjd dms) = 0 ↔ crc16Vlba (byteOrderDifference sec mjd dms) = 0 := by
  have hlen : (networkBytes (timeWord sec mjd) ++ networkBytes (fractionWord dms)).length =
      (hostBytes (timeWord sec mjd) ++ hostBytes (fractionWord dms)).length := rfl
  have hdiff : crc16Vlba (byteOrderDifference sec mjd dms) = _ := Crc.crc_xor 16 0x8005 hlen
  have hheader : crc16Vlba (vlbaHeader sec mjd dms) = _ :=
    crc16_low (fun i hi => fractionWord_low dms hi) (toNat_crc16_lt _)
  rw [hdiff, hheader]
  exact Iff.rfl

/-- Written at byte 4 of every track, behind the sync word. -/
theorem checkVlba_putBits {hdr : Headersearch} (hntrack : validNtrack hdr.ntrack = true)
    {framedata : Framedata} (hsync : ∀ a < 4 * hdr.ntrack, framedata a = 0xff)
    {header : List Crc.Byte} (hlen : header.length = 8) (hfirst : header[0] ≠ 0xff) {track : Nat}
    (htrack : track < hdr.ntrack) :
    checkVlba (putBits (hdr.ntrack / 8) framedata 32 (headerBits header)) .chkDefault track hdr =
      .ok (crc16Vlba header == 0) := by
  have hwhole : 8 * 4 * (hdr.ntrack / 8) = 4 * hdr.ntrack ∧ 0 < hdr.ntrack / 8 := by
    simp only [validNtrack, List.contains_cons, List.contains_nil, Bool.or_eq_true, beq_iff_eq,
      Bool.or_false] at hntrack
    omega
  obtain ⟨hstart, hnb⟩ := hwhole
  have hkept : checkSyncword (mark4Syncword hdr.ntrack) 0
      (putBits (hdr.ntrack / 8) framedata 32 (headerBits header)) = true := by
    refine checkSyncword_ones fun i hi => ?_
    rw [Nat.zero_add, putBits_outside (.inl (by omega)), hsync i hi]
  have hzero : zeroFollows (putBits (hdr.ntrack / 8) framedata 32 (headerBits header))
      (0 + (mark4Syncword hdr.ntrack).length) (hdr.ntrack / 8) 8 = true := by
    have hplace : 0 + (mark4Syncword hdr.ntrack).length = (32 + 8 * 0) * (hdr.ntrack / 8) := by
      unfold mark4Syncword
      rw [List.length_replicate]
      omega
    rw [hplace]
    exact zeroFollows_putBits hnb (by omega) hfirst
  obtain ⟨l, hread, hlen12, hbytes⟩ := @extract_putBits header framedata hdr.ntrack track 4 0 12
    hntrack htrack
  have hcode : l.drop 4 = header := by
    refine List.ext_getElem? fun i => ?_
    rw [List.getElem?_drop]
    by_cases hi : i < 8
    · have hbyte := hbytes (4 + i) (by omega) (by omega) (by omega)
      rwa [Nat.zero_add, Nat.add_sub_cancel_left] at hbyte
    · rw [List.getElem?_eq_none (by omega), List.getElem?_eq_none (by omega)]
  rw [Nat.mul_zero, Nat.zero_mul] at hread
  simp only [Nat.zero_add] at hread
  unfold checkVlba checkTape
  rw [hkept, hzero, hread]
  dsimp only
  rw [hcode]
  rfl

theorem vlbaFrameTimestamp_putBits {hdr : Headersearch} (hntrack : validNtrack hdr.ntrack = true)
    (framedata : Framedata) {header : List Crc.Byte} (hlen : header.length = 8) {track : Nat}
    (htrack : track < hdr.ntrack) (currentMjd : Int) :
    vlbaFrameTimestamp currentMjd (putBits (hdr.ntrack / 8) framedata 32 (headerBits header)) track
        hdr = .ok (decodeVlbaTimestamp currentMjd (vlbaTapeTs header)) := by
  have hstart : 8 * 4 * (hdr.ntrack / 8) = 4 * hdr.ntrack := by
    simp only [validNtrack, List.contains_cons, List.contains_nil, Bool.or_eq_true, beq_iff_eq,
      Bool.or_false] at hntrack
    omega
  obtain ⟨l, hread, hlen8, hbytes⟩ := @extract_putBits header framedata hdr.ntrack track 4 4 8
    hntrack htrack
  have hcode : l = header := by
    refine List.ext_getElem? fun i => ?_
    by_cases hi : i < 8
    · have hbyte := hbytes i hi (by omega) (by omega)
      rwa [Nat.add_sub_cancel_left] at hbyte
    · rw [List.getElem?_eq_none (by omega), List.getElem?_eq_none (by omega)]
  rw [hstart] at hread
  unfold vlbaFrameTimestamp
  rw [hread, hcode]

/-- What is encoded passes the checks and decodes to the same time, on every track. -/
def VlbaRoundTrips (currentMjd : Int) (framedata : Framedata) (ts : HighResTime)
    (hdr : Headersearch) : Prop :=
  ∃ out, encodeVlbaTimestamp framedata ts hdr = .ok out ∧
    ∀ track < hdr.ntrack, checkVlba out .chkDefault track hdr = .ok true ∧
      vlbaFrameTimestamp currentMjd out track hdr = .ok ts

theorem deciMilliseconds_exact {ss : ℚ≥0} {dms : Nat} (hss : ss = dms / 10000) (hlt : ss < 1) :
    dms < 10000 ∧ deciMilliseconds ss = dms := by
  have hdms : dms < 10000 := by
    rw [hss, div_lt_one (by norm_num)] at hlt
    exact_mod_cast hlt
  refine ⟨hdms, ?_⟩
  have hcut : ((dms : Int) % 2 ^ 32).toNat = dms := by omega
  unfold deciMilliseconds rationalCastUnsigned
  rw [hss, div_mul_cancel₀ _ (by norm_num), NNRat.cast_natCast, Rat.num_natCast, Rat.den_natCast, hcut]
  exact Nat.div_one dms

/-- For the time stamps of the last thousand days that four decimals can tell. -/
theorem encodeVlba_roundTrip_iff {hdr : Headersearch} (hntrack : validNtrack hdr.ntrack = true)
    {framedata : Framedata} (hsync : ∀ a < 4 * hdr.ntrack, framedata a = 0xff) {ts : HighResTime}
    {currentMjd : Int} (h0 : 0 ≤ ts.tvSec) (hle : mjdOf ts.tvSec ≤ currentMjd)
    (hlt : currentMjd < mjdOf ts.tvSec + 1000) {dms : Nat} (hdms : ts.tvSubsecond = dms / 10000) :
    VlbaRoundTrips currentMjd framedata ts hdr ↔
      crc16Vlba (byteOrderDifference (ts.tvSec.tmod 86400) (mjdOf ts.tvSec) dms) = 0 := by
  obtain ⟨hsmall, hcast⟩ := deciMilliseconds_exact hdms ts.normal
  obtain ⟨sec, hsec⟩ : ∃ sec : Nat, ts.tvSec.tmod 86400 = sec :=
    Int.eq_ofNat_of_zero_le (Int.tmod_nonneg _ h0)
  obtain ⟨mjd, hmjd⟩ : ∃ mjd : Nat, mjdOf ts.tvSec = mjd := by
    refine Int.eq_ofNat_of_zero_le ?_
    unfold mjdOf
    rw [Int.tdiv_eq_ediv_of_nonneg h0]
    omega
  have hencode : encodeVlbaTimestamp framedata ts hdr =
      .ok (putBits (hdr.ntrack / 8) framedata 32 (headerBits (vlbaHeader sec mjd dms))) := by
    unfold encodeVlbaTimestamp putHeader
    rw [hcast, hsec, hmjd, if_pos hntrack]
  have hdecode : decodeVlbaTimestamp currentMjd (vlbaTapeTs (vlbaHeader sec mjd dms)) = ts := by
    have hback := decodeVlba_of h0 hle hlt dms
    rw [hsec, hmjd, Int.toNat_natCast, Int.toNat_natCast, Nat.mod_eq_of_lt hsmall, ← hdms,
      normalize_of_lt ts.normal] at hback
    rw [vlbaTapeTs_header, hback]
  have hcheck := fun track htrack => @checkVlba_putBits hdr hntrack framedata hsync
    (vlbaHeader sec mjd dms) rfl (vlbaHeader_first sec mjd dms _) track htrack
  have hpos : 0 < hdr.ntrack := by
    rw [Nat.pos_iff_ne_zero]
    intro hzero
    rw [hzero] at hntrack
    exact Bool.noConfusion hntrack
  rw [hsec, hmjd, ← crc_vlbaHeader]
  constructor
  · rintro ⟨out, hout, hall⟩
    have hok := (hall 0 hpos).1
    rw [← Except.ok.inj (hencode.symm.trans hout), hcheck 0 hpos] at hok
    exact beq_iff_eq.mp (Except.ok.inj hok)
  · intro hzero
    refine ⟨_, hencode, fun track htrack => ⟨?_, ?_⟩⟩
    · rw [hcheck track htrack, hzero]
      rfl
    · rw [vlbaFrameTimestamp_putBits hntrack framedata rfl htrack, hdecode]

section
attribute [local instance] atLeastTwo_8000000

/-- Sixteen tracks. -/
def vlba16 : Headersearch := .make .vlba 16 8000000 40000

end

/-- Day 040 and second 40404, the same from both ends. -/
def vlbaMirrored : HighResTime := .normalize 1594379604 0

theorem encodeVlba_roundTrip_iff_mirrored : VlbaRoundTrips 59106 (fun _ => 0xff) vlbaMirrored vlba16 :=
  (@encodeVlba_roundTrip_iff vlba16 rfl (fun _ => 0xff) (fun _ _ => rfl) vlbaMirrored 59106
    (by decide +kernel) (by decide +kernel) (by decide +kernel) 0 (by decide +kernel)).mpr
    (by decide +kernel)

/-- 13 September 2020, 12h26m40s. -/
def vlbaOrdinary : HighResTime := .normalize 1600000000 0

theorem vlbaCrc_rejected : ¬ VlbaRoundTrips 59106 (fun _ => 0xff) vlbaOrdinary vlba16 := by
  rintro ⟨out, hout, hall⟩
  have hfalse : ((encodeVlbaTimestamp (fun _ => 0xff) vlbaOrdinary vlba16).bind fun out =>
      checkVlba out .chkDefault 0 vlba16).toOption = some false := by decide +kernel
  rw [hout] at hfalse
  have htrue : (checkVlba out .chkDefault 0 vlba16).toOption = some true := by
    rw [(hall 0 (by decide)).1]
    rfl
  exact Bool.noConfusion (Option.some.inj (htrue.symm.trans hfalse))

end Jive5ab.Headersearch
