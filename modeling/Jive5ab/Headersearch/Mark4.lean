import Jive5ab.Headersearch.Tracks
import Jive5ab.Headersearch.VdifHeaders
import Jive5ab.Lib.BitField
import Mathlib.Tactic.IntervalCases
import Mathlib.Tactic.Linarith
import Mathlib.Tactic.LinearCombination
import Mathlib.Tactic.NormNum

/-! # Mark4 headers

Twenty bytes on every track: eight that are not used, the sync word, thirteen decimal
digits of time down to the millisecond, and a CRC. Quarters of a millisecond are
implied by the last digit. -/
namespace Jive5ab.Headersearch
open Lib Lib.Calendar Vdif

/-! ## Encoding -/

/-- `(v / 10^k) % 10`, on an `int`. -/
def digit (v : Int) (k : Nat) : Int := (v.tdiv (10 ^ k)).tmod 10

/-- Two digits in a byte. -/
def pack (hi lo : Int) : Crc.Byte := BitVec.ofInt 8 hi <<< 4 ||| BitVec.ofInt 8 lo

def crc12Mark4 (data : List Crc.Byte) : BitVec 32 := Crc.crc 12 0x80f data

/-- Auxiliary data, sync word and the first six bytes of the time. -/
def mk4Prefix (tm : Tm) (yday : Int) (ms : Nat) : List Crc.Byte :=
  List.replicate 8 0 ++ List.replicate 4 0xff ++
    [pack (digit tm.year 0) (digit yday 2), pack (digit yday 1) (digit yday 0),
      pack (digit tm.hour 1) (digit tm.hour 0), pack (digit tm.min 1) (digit tm.min 0),
      pack (digit tm.sec 1) (digit tm.sec 0), pack (digit ms 2) (digit ms 1)]

def mk4Header (tm : Tm) (yday : Int) (ms : Nat) : List Crc.Byte :=
  let last : Crc.Byte := BitVec.ofInt 8 (digit ms 0) <<< 4
  let crc := crc12Mark4 (mk4Prefix tm yday ms ++ [last, 0])
  mk4Prefix tm yday ms ++
    [last ||| ((crc >>> 8) &&& 0x0f).setWidth 8, (crc &&& 0xff).setWidth 8]

def milliseconds (ss : ℚ≥0) : Nat := rationalCastUnsigned ((ss * 1000 : ℚ≥0) : ℚ)

def encodeMk4Timestamp (framedata : Framedata) (ts : HighResTime) (hdr : Headersearch) :
    Except HeaderError Framedata :=
  if hdr.trackbitrate = 0 ∨ hdr.trackbitrate = unknownTrackbitrate ∨ hdr.trackbitrate.den ≠ 1 then
    .error .invalidTrackBitrate
  else if hdr.state.frametime = 0 then .error .badRational
  else
    let ms := milliseconds ts.tvSubsecond
    if (ts.tvSubsecond / hdr.state.frametime).den ≠ 1 then .error .notRepresentable
    else if digit ms 0 = 4 ∨ digit ms 0 = 9 then .error .invalidLastDigit
    else putHeader hdr.ntrack framedata 0 (mk4Header (gmtime ts.tvSec) (yday ts.tvSec + 1) ms)

/-! ## Checking -/

/-- `memcpy(frame + syncwordoffset, syncword, syncwordsize)` -/
def placeSyncword (framedata : Framedata) (syncword : List Crc.Byte) (offset : Nat) : Framedata :=
  fun a => if offset ≤ a ∧ a < offset + syncword.length then syncword.getD (a - offset) 0
    else framedata a

def checkMark4 (stripParity : Bool) (syncword : List Crc.Byte) (syncwordoffset : Nat)
    (buffer : Framedata) (strict : Strict) (track : Nat) (hdr : Headersearch) :
    Except HeaderError Bool :=
  checkTape buffer strict track hdr.ntrack syncword syncwordoffset stripParity 20 crc12Mark4

/-! ## Decoding -/

def isModulo (dt frameduration : ℚ≥0) : Bool := (dt / frameduration).den == 1

/-- `tv_sec` and `tv_subsecond`, which nobody normalizes. The seconds are not there yet
when the subseconds are compared with the frame time. -/
def decodeMk4Timestamp (currentYear : Int) (trackdata : List Crc.Byte) (trackbitrate : ℚ≥0)
    (strict : Strict) (decoder : DecoderState) : Except HeaderError (Int × ℚ≥0) :=
  let low (i : Nat) : Nat := BitField.get (trackdata.getD i 0) 0 4
  let high (i : Nat) : Nat := BitField.get (trackdata.getD i 0) 4 4
  let ss0 := high 6
  let illegal (e : HeaderError) : Except HeaderError (Int × ℚ≥0) :=
    if strict.chkNothrow then .ok (0, 0) else .error e
  if strict.chkStrict ∧ (ss0 = 4 ∨ ss0 = 9) then illegal .invalidLastDigit
  else
    -- the last digit implies quarters of a millisecond at the two highest rates
    let correction : ℚ≥0 :=
      if trackbitrate = 8000000 ∨ trackbitrate = 16000000 then
        ((ss0 % 5 : ℕ) : ℚ≥0) * (25 / 100000) else 0
    let subsecond : ℚ≥0 := ((100 * high 5 + 10 * low 5 + ss0 : ℕ) : ℚ≥0) / 1000 + correction
    if strict.chkStrict ∧ trackbitrate ≠ unknownTrackbitrate ∧ decoder.frametime = 0 then
      .error .badRational
    else if strict.chkStrict ∧ trackbitrate ≠ unknownTrackbitrate ∧
        isModulo subsecond decoder.frametime = false then illegal .notRepresentable
    else
      let year := (high 0 : Int) + currentYear - currentYear.tmod 10
      let year := if year > currentYear then year - 10 else year
      .ok (mktime ⟨year - 1900, 0, (100 * low 0 + 10 * high 1 + low 1 : ℕ),
        (10 * high 2 + low 2 : ℕ), (10 * high 3 + low 3 : ℕ), (10 * high 4 + low 4 : ℕ)⟩, subsecond)

/-- Behind twelve bytes of every track, or what these are with parity. -/
def mk4FrameTimestamp (stripParity : Bool) (currentYear : Int) (framedata : Framedata) (track : Nat)
    (hdr : Headersearch) (strict : Strict) : Except HeaderError (Int × ℚ≥0) :=
  let offset := if stripParity then 12 * hdr.ntrack * 9 / 8 else 12 * hdr.ntrack
  match extractBitstream stripParity track hdr.ntrack 8 fun a => framedata (offset + a) with
  | .error e => .error e
  | .ok timecode => decodeMk4Timestamp currentYear timecode hdr.trackbitrate strict hdr.state

theorem mk4FrameTimestamp_of_read {hdr : Headersearch} {framedata : Framedata} {track : Nat}
    {timecode : List Crc.Byte} (hread : extractBitstream false track hdr.ntrack 8
      (fun a => framedata (12 * hdr.ntrack + a)) = .ok timecode) (currentYear : Int) (strict : Strict) :
    mk4FrameTimestamp false currentYear framedata track hdr strict =
      decodeMk4Timestamp currentYear timecode hdr.trackbitrate strict hdr.state := by
  unfold mk4FrameTimestamp
  dsimp only
  rw [if_neg Bool.false_ne_true, hread]

/-! ## Digits -/

theorem digit_natCast (v k : Nat) : digit v k = ((v / 10 ^ k % 10 : ℕ) : Int) := by
  unfold digit
  norm_cast

theorem pack_digits {hi lo : Nat} (hhi : hi < 10) (hlo : lo < 10) :
    BitField.get (pack hi lo) 4 4 = hi ∧ BitField.get (pack hi lo) 0 4 = lo := by
  have hall : ∀ hi < 10, ∀ lo < 10, BitField.get (pack (hi : ℕ) (lo : ℕ)) 4 4 = hi ∧
      BitField.get (pack (hi : ℕ) (lo : ℕ)) 0 4 = lo := by decide
  exact hall hi hhi lo hlo

/-! ## What the header says -/

section
variable (tm : Tm) (yd : Int) (ms : Nat)

/-- The time code, with the CRC in its last three digits. -/
def mk4Timecode (crc : BitVec 32) : List Crc.Byte :=
  [pack (digit tm.year 0) (digit yd 2), pack (digit yd 1) (digit yd 0),
    pack (digit tm.hour 1) (digit tm.hour 0), pack (digit tm.min 1) (digit tm.min 0),
    pack (digit tm.sec 1) (digit tm.sec 0), pack (digit ms 2) (digit ms 1),
    BitVec.ofInt 8 (digit ms 0) <<< 4 ||| ((crc >>> 8) &&& 0x0f).setWidth 8,
    (crc &&& 0xff).setWidth 8]

theorem length_mk4Header : (mk4Header tm yd ms).length = 20 := rfl

theorem mk4Header_timecode : ∃ crc, (mk4Header tm yd ms).drop 12 = mk4Timecode tm yd ms crc :=
  ⟨_, rfl⟩

theorem last_digit {d : Nat} (hd : d < 10) (x : BitVec 32) :
    BitField.get (BitVec.ofInt 8 d <<< 4 ||| (x &&& 0x0f).setWidth 8) 4 4 = d := by
  have hdigit : BitField.get (BitVec.ofNat 8 d <<< 4) 4 4 = d :=
    BitField.get_ofNat_shiftLeft_self le_rfl (Nat.lt_trans hd (by norm_num))
  have hcrc : BitField.get ((x &&& 0x0f).setWidth 8) 4 4 = 0 := by
    refine Nat.eq_of_testBit_eq fun j => ?_
    have hnibble : (0x0f : BitVec 32).getLsbD (4 + j) = false := by
      show Nat.testBit (2 ^ 4 - 1) (4 + j) = false
      rw [Nat.testBit_two_pow_sub_one]
      simp
    rw [BitField.testBit_get, BitVec.getLsbD_setWidth, BitVec.getLsbD_and, hnibble, Bool.and_false,
      Bool.and_false, Bool.and_false, Nat.zero_testBit]
  rw [BitVec.ofInt_natCast, BitField.get_or, hdigit, hcrc, Nat.or_zero]

/-- The last digit leaves room for the CRC. -/
theorem crc_mk4Header : crc12Mark4 (mk4Header tm yd ms) = 0 := by
  generalize hcrc : crc12Mark4 (mk4Prefix tm yd ms ++ [BitVec.ofInt 8 (digit ms 0) <<< 4, 0]) = crc
  have hlt : crc.toNat < 2 ^ 12 := by
    rw [← hcrc]
    exact Crc.toNat_crc_lt 12 0x80f (by norm_num) _
  have hhigh : BitVec.ofInt 8 (digit ms 0) <<< 4 ||| ((crc >>> 8) &&& 0x0f).setWidth 8 =
      BitVec.ofInt 8 (digit ms 0) <<< 4 ^^^ (crc >>> 8).setWidth 8 := by
    ext i hi
    have hnibble : (0x0f : BitVec 32).getLsbD i = decide (i < 4) := by
      show Nat.testBit (2 ^ 4 - 1) i = decide (i < 4)
      exact Nat.testBit_two_pow_sub_one 4 i
    rw [BitVec.getElem_or, BitVec.getElem_xor, BitVec.getElem_shiftLeft, BitVec.getElem_setWidth,
      BitVec.getElem_setWidth, BitVec.getLsbD_and, hnibble, BitVec.getLsbD_ushiftRight]
    by_cases h4 : i < 4
    · simp [h4]
    · have hnone : crc.getLsbD (8 + i) = false := by
        refine Nat.testBit_lt_two_pow (Nat.lt_of_lt_of_le hlt (Nat.pow_le_pow_right Nat.two_pos ?_))
        omega
      simp [h4, hnone]
  have hlow : (crc &&& 0xff).setWidth 8 = (crc.setWidth 8 : Crc.Byte) := by
    ext i hi
    have hbyte : (0xff : BitVec 32).getLsbD i = true := by
      show Nat.testBit (2 ^ 8 - 1) i = true
      rw [Nat.testBit_two_pow_sub_one]
      exact decide_eq_true hi
    rw [BitVec.getElem_setWidth, BitVec.getElem_setWidth, BitVec.getLsbD_and, hbyte, Bool.and_true]
  unfold mk4Header
  dsimp only
  rw [hcrc, hhigh, hlow]
  exact Crc.crc_own 12 0x80f (by norm_num) (by norm_num) hcrc

end

/-! ## Milliseconds -/

/-- Megabits per second, in bits: 1/8, 1/4, 1/2, 1, 2, 4, 8 and 16. -/
def standardBitrates : List Nat :=
  [125000, 250000, 500000, 1000000, 2000000, 4000000, 8000000, 16000000]

/-- Quarters of a millisecond in a frame of 2500 bytes. -/
def quarters (bitrate : Nat) : Nat := 80000000 / bitrate

/-- The last digit implies the quarters. -/
theorem quarters_digits {bitrate j : Nat} (hrate : bitrate ∈ standardBitrates) :
    (j * quarters bitrate / 4 % 10 ≠ 4 ∧ j * quarters bitrate / 4 % 10 ≠ 9) ∧
      j * quarters bitrate / 4 * 4 +
        (if bitrate = 8000000 ∨ bitrate = 16000000 then j * quarters bitrate / 4 % 10 % 5 else 0) =
          j * quarters bitrate := by
  unfold standardBitrates at hrate
  unfold quarters
  simp only [List.mem_cons, List.not_mem_nil, or_false] at hrate
  rcases hrate with rfl | rfl | rfl | rfl | rfl | rfl | rfl | rfl <;> norm_num <;> omega

/-! ## The decoded time -/

/-- The digits of the header, as the decoder puts them together. -/
theorem decodeMk4_digits {y yd h m sec ms : Nat} (hyd : yd < 1000) (hh : h < 100) (hm : m < 100)
    (hsec : sec < 100) (hms : ms < 1000) (crc : BitVec 32) (mon : Nat) (mday currentYear : Int)
    (trackbitrate : ℚ≥0) (strict : Strict) (decoder : DecoderState) :
    decodeMk4Timestamp currentYear (mk4Timecode ⟨y, mon, mday, h, m, sec⟩ yd ms crc) trackbitrate
        strict decoder =
      let illegal (e : HeaderError) : Except HeaderError (Int × ℚ≥0) :=
        if strict.chkNothrow then .ok (0, 0) else .error e
      if strict.chkStrict ∧ (ms % 10 = 4 ∨ ms % 10 = 9) then illegal .invalidLastDigit
      else
        let correction : ℚ≥0 :=
          if trackbitrate = 8000000 ∨ trackbitrate = 16000000 then
            ((ms % 10 % 5 : ℕ) : ℚ≥0) * (25 / 100000) else 0
        let subsecond : ℚ≥0 := (ms : ℚ≥0) / 1000 + correction
        if strict.chkStrict ∧ trackbitrate ≠ unknownTrackbitrate ∧ decoder.frametime = 0 then
          .error .badRational
        else if strict.chkStrict ∧ trackbitrate ≠ unknownTrackbitrate ∧
            isModulo subsecond decoder.frametime = false then illegal .notRepresentable
        else
          let year := ((y % 10 : ℕ) : Int) + currentYear - currentYear.tmod 10
          let year := if year > currentYear then year - 10 else year
          .ok (mktime ⟨year - 1900, 0, yd, h, m, sec⟩, subsecond) := by
  have hpack : ∀ v k v' k' : Nat, BitField.get (pack (digit v k) (digit v' k')) 4 4 = v / 10 ^ k % 10 ∧
      BitField.get (pack (digit v k) (digit v' k')) 0 4 = v' / 10 ^ k' % 10 := by
    intro v k v' k'
    rw [digit_natCast, digit_natCast]
    exact pack_digits (Nat.mod_lt _ (by norm_num)) (Nat.mod_lt _ (by norm_num))
  have hlast : BitField.get (BitVec.ofInt 8 (digit ms 0) <<< 4 |||
      ((crc >>> 8) &&& 0x0f).setWidth 8) 4 4 = ms % 10 := by
    rw [digit_natCast, pow_zero, Nat.div_one]
    exact last_digit (Nat.mod_lt _ (by norm_num)) _
  have hday : 100 * (yd / 10 ^ 2 % 10) + 10 * (yd / 10 ^ 1 % 10) + yd % 10 = yd :=
    three_digits_of_lt hyd
  have hhour : 10 * (h / 10 ^ 1 % 10) + h % 10 = h := by omega
  have hmin : 10 * (m / 10 ^ 1 % 10) + m % 10 = m := by omega
  have hseconds : 10 * (sec / 10 ^ 1 % 10) + sec % 10 = sec := by omega
  have hmilli : 100 * (ms / 10 ^ 2 % 10) + 10 * (ms / 10 ^ 1 % 10) + ms % 10 = ms :=
    three_digits_of_lt hms
  unfold decodeMk4Timestamp mk4Timecode
  simp only [List.getD_cons_zero, List.getD_cons_succ, hpack, hlast, hday, hhour, hmin, hseconds,
    hmilli, pow_zero, Nat.div_one]

theorem year_nonneg {t : Int} (h0 : 0 ≤ t) : 0 ≤ (gmtime t).year := by
  have hepoch : daysBeforeYear 1970 = 0 := rfl
  have hbetween := @yearOf_between (t / 86400) 1970 (yearOf (t / 86400) + 1) (by omega)
    (daysBeforeYear_yearOf _).2
  simp only [gmtime]
  omega

/-- Ten years back the year is right. -/
theorem decodeMk4_timecode {t currentYear : Int} (h0 : 0 ≤ t)
    (hpast : currentYear - 10 < (gmtime t).year + 1900) (hnow : (gmtime t).year + 1900 ≤ currentYear)
    {ms : Nat} (hms : ms < 1000) (hlast : ms % 10 ≠ 4 ∧ ms % 10 ≠ 9) {trackbitrate ss : ℚ≥0}
    (hss : ss = (ms : ℚ≥0) / 1000 + if trackbitrate = 8000000 ∨ trackbitrate = 16000000 then
      ((ms % 10 % 5 : ℕ) : ℚ≥0) * (25 / 100000) else 0) {decoder : DecoderState}
    (hframetime : decoder.frametime ≠ 0) (hmod : isModulo ss decoder.frametime = true)
    (strict : Strict) (crc : BitVec 32) :
    decodeMk4Timestamp currentYear (mk4Timecode (gmtime t) (yday t + 1) ms crc) trackbitrate strict
      decoder = .ok (t, ss) := by
  obtain ⟨hyday0, hyday⟩ := yday_range t
  have hback := mktime_yday t
  obtain ⟨y, hy⟩ := Int.eq_ofNat_of_zero_le (year_nonneg h0)
  obtain ⟨yd, hyd⟩ := Int.eq_ofNat_of_zero_le (show 0 ≤ yday t + 1 by omega)
  obtain ⟨h, hh⟩ := Int.eq_ofNat_of_zero_le (show 0 ≤ (gmtime t).hour by simp only [gmtime]; omega)
  obtain ⟨m, hm⟩ := Int.eq_ofNat_of_zero_le (show 0 ≤ (gmtime t).min by simp only [gmtime]; omega)
  obtain ⟨sec, hsec⟩ := Int.eq_ofNat_of_zero_le (show 0 ≤ (gmtime t).sec by simp only [gmtime]; omega)
  have hbounds : (gmtime t).hour < 24 ∧ (gmtime t).min < 60 ∧ (gmtime t).sec < 60 := by
    simp only [gmtime]
    omega
  rw [hy] at hpast hnow hback
  rw [hh] at hbounds hback
  rw [hm] at hbounds hback
  rw [hsec] at hbounds hback
  rw [hyd] at hback ⊢
  have hcode : mk4Timecode (gmtime t) yd ms crc =
      mk4Timecode ⟨y, (gmtime t).mon, (gmtime t).mday, h, m, sec⟩ yd ms crc := by
    rw [← hy, ← hh, ← hm, ← hsec]
  have htmod : currentYear.tmod 10 = currentYear % 10 := Int.tmod_eq_emod_of_nonneg (by omega)
  have hyears : (if ((y % 10 : ℕ) : Int) + currentYear - currentYear % 10 > currentYear then
      ((y % 10 : ℕ) : Int) + currentYear - currentYear % 10 - 10
      else ((y % 10 : ℕ) : Int) + currentYear - currentYear % 10) - 1900 = y := by
    split <;> omega
  rw [hcode, decodeMk4_digits (by omega) (by omega) (by omega) (by omega) hms]
  dsimp only
  rw [if_neg (fun hillegal => hillegal.2.elim hlast.1 hlast.2), ← hss,
    if_neg (fun hzero => hframetime hzero.2.2), hmod, if_neg (fun hfalse => Bool.noConfusion hfalse.2.2),
    htmod, hyears, hback]

/-! ## There and back -/

/-- `headersearch_type` for so many tracks. -/
def mark4 (ntrack bitrate : Nat) : Headersearch := .make .mark4 ntrack bitrate (2500 * ntrack)

/-- What is encoded, with the sync word in place, passes the checks and decodes to the
same time, on every track. -/
def Mk4RoundTrips (currentYear : Int) (framedata : Framedata) (ts : HighResTime)
    (hdr : Headersearch) (strict : Strict) : Prop :=
  ∃ out, encodeMk4Timestamp framedata ts hdr = .ok out ∧ ∀ track < hdr.ntrack,
    let placed := placeSyncword out (mark4Syncword hdr.ntrack) (8 * hdr.ntrack)
    checkMark4 false (mark4Syncword hdr.ntrack) (8 * hdr.ntrack) placed strict track hdr = .ok true ∧
      mk4FrameTimestamp false currentYear placed track hdr strict = .ok (ts.tvSec, ts.tvSubsecond)

theorem mem_ntracks {ntrack : Nat} (h : validNtrack ntrack = true) : ntrack ∈ [8, 16, 32, 64] := by
  unfold validNtrack at h
  exact List.contains_iff_mem.mp h

section
variable {ntrack bitrate : Nat}

theorem mark4_frametime (hntrack : validNtrack ntrack = true) (hrate : bitrate ∈ standardBitrates) :
    (mark4 ntrack bitrate).state.frametime = (quarters bitrate : ℚ≥0) / 4000 ∧
      0 < quarters bitrate := by
  have hall : ∀ n ∈ [8, 16, 32, 64], ∀ r ∈ standardBitrates,
      (mark4 n r).state.frametime = (quarters r : ℚ≥0) / 4000 ∧ 0 < quarters r := by decide +kernel
  exact hall ntrack (mem_ntracks hntrack) bitrate hrate

theorem mark4_bitrate (hrate : bitrate ∈ standardBitrates) :
    ¬ ((bitrate : ℚ≥0) = 0 ∨ (bitrate : ℚ≥0) = unknownTrackbitrate ∨ (bitrate : ℚ≥0).den ≠ 1) := by
  have hall : ∀ r ∈ standardBitrates,
      ¬ (((r : ℕ) : ℚ≥0) = 0 ∨ ((r : ℕ) : ℚ≥0) = unknownTrackbitrate ∨ ((r : ℕ) : ℚ≥0).den ≠ 1) := by
    decide +kernel
  exact hall bitrate hrate

/-- Frame `j` of a second: its milliseconds, and the time they imply. -/
theorem milliseconds_frame (hrate : bitrate ∈ standardBitrates) {j : Nat} {ss : ℚ≥0} (hlt : ss < 1)
    (hss : ss = j * ((quarters bitrate : ℚ≥0) / 4000)) :
    milliseconds ss = j * quarters bitrate / 4 ∧ milliseconds ss < 1000 ∧
      (milliseconds ss % 10 ≠ 4 ∧ milliseconds ss % 10 ≠ 9) ∧
      ss = (milliseconds ss : ℚ≥0) / 1000 +
        if (bitrate : ℚ≥0) = 8000000 ∨ (bitrate : ℚ≥0) = 16000000 then
          ((milliseconds ss % 10 % 5 : ℕ) : ℚ≥0) * (25 / 100000) else 0 := by
  have hquarters : ss = ((j * quarters bitrate : ℕ) : ℚ≥0) / 4000 := by
    rw [hss]
    push_cast
    ring
  obtain ⟨hlast, himplied⟩ := @quarters_digits bitrate j hrate
  generalize hq : j * quarters bitrate = q at hquarters hlast himplied ⊢
  have hsmall : q < 4000 := by
    rw [hquarters, div_lt_one (by norm_num)] at hlt
    exact_mod_cast hlt
  have hms : milliseconds ss = q / 4 := by
    have hcast : ((ss * 1000 : ℚ≥0) : ℚ) = (q : ℚ) / (4 : ℕ) := by
      rw [hquarters]
      push_cast
      ring
    unfold milliseconds
    rw [hcast, rationalCastUnsigned_div (by norm_num) (by norm_num) (by omega)]
  have hrates : ((bitrate : ℚ≥0) = 8000000 ∨ (bitrate : ℚ≥0) = 16000000) ↔
      (bitrate = 8000000 ∨ bitrate = 16000000) := by
    norm_cast
  refine ⟨hms, by omega, by rwa [hms], ?_⟩
  rw [hms, hquarters]
  by_cases hhigh : bitrate = 8000000 ∨ bitrate = 16000000
  · rw [if_pos hhigh] at himplied
    rw [if_pos (hrates.mpr hhigh)]
    have hcast : ((q / 4 : ℕ) : ℚ≥0) * 4 + ((q / 4 % 10 % 5 : ℕ) : ℚ≥0) = (q : ℚ≥0) := by
      exact_mod_cast himplied
    rw [← hcast]
    ring
  · rw [if_neg hhigh] at himplied
    rw [if_neg fun hboth => hhigh (hrates.mp hboth)]
    have hcast : ((q / 4 : ℕ) : ℚ≥0) * 4 = (q : ℚ≥0) := by exact_mod_cast himplied
    rw [← hcast]
    ring

section
variable (framedata : Framedata) (tm : Tm) (yd : Int) (ms : Nat)

theorem ntrack_eighth (hntrack : validNtrack ntrack = true) :
    ntrack = 8 * (ntrack / 8) ∧ 0 < ntrack / 8 := by
  have hall : ∀ n ∈ [8, 16, 32, 64], n = 8 * (n / 8) ∧ 0 < n / 8 := by simp
  exact hall ntrack (mem_ntracks hntrack)

/-- The sync word is written with the header. -/
theorem putBits_syncword (hntrack : validNtrack ntrack = true) {a : Nat} (hle : 8 * ntrack ≤ a)
    (hlt : a < 12 * ntrack) :
    putBits (ntrack / 8) framedata 0 (headerBits (mk4Header tm yd ms)) a = 0xff := by
  obtain ⟨hwhole, hpos⟩ := ntrack_eighth hntrack
  generalize ntrack / 8 = nb at hwhole hpos ⊢
  have hfrom : 64 ≤ a / nb := (Nat.le_div_iff_mul_le hpos).mpr (by omega)
  have hto : a / nb < 96 := (Nat.div_lt_iff_lt_mul hpos).mpr (by omega)
  have hsplit : 8 * (a / nb / 8) + a / nb % 8 = a / nb := Nat.div_add_mod _ _
  have hlen : 8 * (a / nb / 8) + a / nb % 8 < (headerBits (mk4Header tm yd ms)).length := by
    rw [length_headerBits, length_mk4Header]
    omega
  have hbyte : ∀ m, 8 ≤ m → m < 12 → ∀ h : m < (mk4Header tm yd ms).length,
      (mk4Header tm yd ms)[m] = 0xff := by
    intro m hm8 hm12 h
    interval_cases m <;> rfl
  have hone : ∀ i < 8, (0xff : Crc.Byte).getLsbD i = true := fun i hi => getLsbD_fill true hi
  have hat := @putBits_at nb (headerBits (mk4Header tm yd ms)) framedata 0 _ (a % nb) hlen
    (Nat.mod_lt a hpos)
  have haddr : (0 + (8 * (a / nb / 8) + a / nb % 8)) * nb + a % nb = a := by
    rw [Nat.zero_add, hsplit]
    exact Nat.div_add_mod' a nb
  rw [haddr, getElem_headerBits (by rw [length_mk4Header]; omega) (Nat.mod_lt _ (by norm_num)),
    hbyte _ (by omega) (by omega), hone _ (by omega), if_pos rfl] at hat
  exact hat

theorem placeSyncword_putBits (hntrack : validNtrack ntrack = true) :
    placeSyncword (putBits (ntrack / 8) framedata 0 (headerBits (mk4Header tm yd ms)))
        (mark4Syncword ntrack) (8 * ntrack) =
      putBits (ntrack / 8) framedata 0 (headerBits (mk4Header tm yd ms)) := by
  funext a
  unfold placeSyncword mark4Syncword
  rw [List.length_replicate]
  split
  · rename_i hin
    rw [putBits_syncword framedata tm yd ms hntrack hin.1 (by omega), List.getD_eq_getElem?_getD,
      List.getElem?_replicate_of_lt (by omega)]
    rfl
  · rfl

/-- The hundreds of a day are a decimal digit. -/
theorem mk4Header_first (h : 12 < (mk4Header tm yd ms).length) {y d : Nat} (hy : tm.year = y)
    (hd : yd = d) : (mk4Header tm yd ms)[12] ≠ 0xff := by
  intro hones
  have hfirst : pack (digit tm.year 0) (digit yd 2) = 0xff := hones
  have hdigit := (@pack_digits (y / 10 ^ 0 % 10) (d / 10 ^ 2 % 10) (Nat.mod_lt _ (by norm_num))
    (Nat.mod_lt _ (by norm_num))).2
  rw [← digit_natCast, ← digit_natCast, ← hy, ← hd, hfirst] at hdigit
  have hfull : BitField.get (0xff : Crc.Byte) 0 4 = 15 := rfl
  rw [hfull] at hdigit
  omega

theorem checkMark4_putBits (hntrack : validNtrack ntrack = true) {y d : Nat} (hy : tm.year = y)
    (hd : yd = d) {hdr : Headersearch} (hhdr : hdr.ntrack = ntrack) (strict : Strict) {track : Nat}
    (htrack : track < ntrack) :
    checkMark4 false (mark4Syncword ntrack) (8 * ntrack)
      (putBits (ntrack / 8) framedata 0 (headerBits (mk4Header tm yd ms))) strict track hdr = .ok true := by
  obtain ⟨hwhole, hpos⟩ := ntrack_eighth hntrack
  have hsync : checkSyncword (mark4Syncword ntrack) (8 * ntrack)
      (putBits (ntrack / 8) framedata 0 (headerBits (mk4Header tm yd ms))) = true :=
    checkSyncword_ones fun i hi => putBits_syncword framedata tm yd ms hntrack (by omega) (by omega)
  have hzero : zeroFollows (putBits (ntrack / 8) framedata 0 (headerBits (mk4Header tm yd ms)))
      (8 * ntrack + (mark4Syncword ntrack).length) (ntrack / 8) 8 = true := by
    have hplace : 8 * ntrack + (mark4Syncword ntrack).length = (0 + 8 * 12) * (ntrack / 8) := by
      unfold mark4Syncword
      rw [List.length_replicate]
      omega
    rw [hplace]
    exact zeroFollows_putBits hpos (by rw [length_mk4Header]; norm_num) (mk4Header_first tm yd ms _ hy hd)
  obtain ⟨l, hread, hlen, hbytes⟩ := @extract_putBits (mk4Header tm yd ms) framedata ntrack track 0 0 20
    hntrack htrack
  have hheader : l = mk4Header tm yd ms := by
    refine List.ext_getElem? fun i => ?_
    by_cases hi : i < 20
    · have hbyte := hbytes i hi (Nat.zero_le _) (by rw [length_mk4Header]; omega)
      rwa [Nat.zero_add, Nat.sub_zero] at hbyte
    · rw [List.getElem?_eq_none (by omega), List.getElem?_eq_none (by rw [length_mk4Header]; omega)]
  rw [Nat.mul_zero, Nat.zero_mul] at hread
  simp only [Nat.zero_add] at hread
  unfold checkMark4 checkTape
  rw [hhdr, hsync, hzero, hread]
  simp [hheader, crc_mk4Header]

theorem timecode_putBits (hntrack : validNtrack ntrack = true) {track : Nat} (htrack : track < ntrack) :
    ∃ crc, extractBitstream false track ntrack 8 (fun a =>
      putBits (ntrack / 8) framedata 0 (headerBits (mk4Header tm yd ms)) (12 * ntrack + a)) =
        .ok (mk4Timecode tm yd ms crc) := by
  obtain ⟨hwhole, -⟩ := ntrack_eighth hntrack
  obtain ⟨crc, hcode⟩ := mk4Header_timecode tm yd ms
  obtain ⟨l, hread, hlen, hbytes⟩ := @extract_putBits (mk4Header tm yd ms) framedata ntrack track 0 12 8
    hntrack htrack
  have hdrop : l = (mk4Header tm yd ms).drop 12 := by
    refine List.ext_getElem? fun i => ?_
    rw [List.getElem?_drop]
    by_cases hi : i < 8
    · exact hbytes i hi (Nat.zero_le _) (by rw [length_mk4Header]; omega)
    · rw [List.getElem?_eq_none (by omega), List.getElem?_eq_none (by rw [length_mk4Header]; omega)]
  have hplace : 8 * 12 * (ntrack / 8) = 12 * ntrack := by omega
  rw [hplace, Nat.mul_zero] at hread
  exact ⟨crc, by rw [hread, hdrop, hcode]⟩

end

/-- For the time stamps of the last ten years: those whose part of the second is on a
frame. -/
theorem encodeMk4_roundTrip_iff (hntrack : validNtrack ntrack = true)
    (hrate : bitrate ∈ standardBitrates) (framedata : Framedata) {ts : HighResTime} {currentYear : Int}
    (h0 : 0 ≤ ts.tvSec) (hpast : currentYear - 10 < (gmtime ts.tvSec).year + 1900)
    (hnow : (gmtime ts.tvSec).year + 1900 ≤ currentYear) (strict : Strict) :
    Mk4RoundTrips currentYear framedata ts (mark4 ntrack bitrate) strict ↔
      ∃ j : Nat, ts.tvSubsecond = j * (mark4 ntrack bitrate).state.frametime := by
  obtain ⟨hframetime, hquarters⟩ := mark4_frametime hntrack hrate
  have hne : (mark4 ntrack bitrate).state.frametime ≠ 0 := by
    rw [hframetime]
    exact div_ne_zero (by exact_mod_cast hquarters.ne') (by norm_num)
  have hbitrate : ¬ ((mark4 ntrack bitrate).trackbitrate = 0 ∨
      (mark4 ntrack bitrate).trackbitrate = unknownTrackbitrate ∨
      (mark4 ntrack bitrate).trackbitrate.den ≠ 1) := mark4_bitrate hrate
  constructor
  · rintro ⟨out, hout, -⟩
    unfold encodeMk4Timestamp at hout
    rw [if_neg hbitrate, if_neg hne] at hout
    by_contra hoff
    rw [if_pos fun hden => hoff ((den_eq_one_iff hne).mp hden)] at hout
    cases hout
  · rintro ⟨j, hj⟩
    have hden := (den_eq_one_iff hne).mpr ⟨j, hj⟩
    rw [hframetime] at hj
    obtain ⟨-, hms, hlast, himplied⟩ := milliseconds_frame hrate ts.normal hj
    obtain ⟨y, hy⟩ := Int.eq_ofNat_of_zero_le (year_nonneg h0)
    obtain ⟨d, hd⟩ := Int.eq_ofNat_of_zero_le (show 0 ≤ yday ts.tvSec + 1 by
      have hrange := yday_range ts.tvSec
      omega)
    have hlegal : ¬ (digit (milliseconds ts.tvSubsecond) 0 = 4 ∨
        digit (milliseconds ts.tvSubsecond) 0 = 9) := by
      rw [digit_natCast, pow_zero, Nat.div_one]
      omega
    refine ⟨putBits (ntrack / 8) framedata 0 (headerBits (mk4Header (gmtime ts.tvSec)
      (yday ts.tvSec + 1) (milliseconds ts.tvSubsecond))), ?_, fun track htrack => ?_⟩
    · unfold encodeMk4Timestamp putHeader
      rw [if_neg hbitrate, if_neg hne]
      dsimp only
      rw [if_neg (not_not.mpr hden), if_neg hlegal]
      exact if_pos hntrack
    · obtain ⟨crc, hread⟩ := timecode_putBits framedata (gmtime ts.tvSec) (yday ts.tvSec + 1)
        (milliseconds ts.tvSubsecond) hntrack htrack
      have hdecode := decodeMk4_timecode h0 hpast hnow hms hlast himplied hne
        (beq_iff_eq.mpr hden) strict crc
      show checkMark4 false (mark4Syncword ntrack) (8 * ntrack) (placeSyncword _ (mark4Syncword ntrack)
          (8 * ntrack)) strict track (mark4 ntrack bitrate) = .ok true ∧
        mk4FrameTimestamp false currentYear (placeSyncword _ (mark4Syncword ntrack) (8 * ntrack)) track
          (mark4 ntrack bitrate) strict = .ok (ts.tvSec, ts.tvSubsecond)
      rw [placeSyncword_putBits _ _ _ _ hntrack]
      refine ⟨checkMark4_putBits framedata _ _ _ hntrack hy hd rfl strict htrack, ?_⟩
      exact (@mk4FrameTimestamp_of_read (mark4 ntrack bitrate) _ track _ hread currentYear strict).trans
        hdecode

/-- From half a megabit per second on a second is a whole number of frames. -/
theorem frame_of_multiple (hntrack : validNtrack ntrack = true) (hrate : bitrate ∈ standardBitrates)
    (hfast : 500000 ≤ bitrate) {ts : HighResTime} {k : Nat}
    (hk : ts.value = k * (mark4 ntrack bitrate).state.frametime) :
    ∃ j : Nat, ts.tvSubsecond = j * (mark4 ntrack bitrate).state.frametime := by
  obtain ⟨hframetime, hquarters⟩ := mark4_frametime hntrack hrate
  have hall : ∀ r ∈ standardBitrates, 500000 ≤ r → 4000 / quarters r * quarters r = 4000 := by
    unfold standardBitrates quarters
    simp
  generalize hn : 4000 / quarters bitrate = n
  have hwhole : ((n : ℕ) : ℚ) * quarters bitrate = 4000 := by
    rw [← hn]
    exact_mod_cast hall bitrate hrate hfast
  have hpos : (0 : ℚ) < quarters bitrate := by exact_mod_cast hquarters
  have hsub : (ts.tvSubsecond : ℚ) * 4000 = ((k : Int) - ts.tvSec * n : Int) * quarters bitrate := by
    unfold HighResTime.value at hk
    rw [hframetime] at hk
    push_cast at hk ⊢
    linear_combination 4000 * hk + (ts.tvSec : ℚ) * hwhole
  have hnonneg : 0 ≤ (k : Int) - ts.tvSec * n := by
    by_contra hneg
    have hless : (((k : Int) - ts.tvSec * n : Int) : ℚ) ≤ -1 := by exact_mod_cast (by omega)
    have hzero : (0 : ℚ) ≤ ts.tvSubsecond := NNRat.coe_nonneg _
    nlinarith
  obtain ⟨j, hj⟩ := Int.eq_ofNat_of_zero_le hnonneg
  refine ⟨j, ?_⟩
  rw [hj] at hsub
  rw [hframetime, ← mul_div_assoc, eq_div_iff (by norm_num)]
  refine NNRat.coe_injective ?_
  push_cast
  exact hsub

end

/-- 0.99875 s into a second, at 16 Mbps. -/
def mark4Late : HighResTime := .normalize 1600000000 (799 / 800)

theorem encodeMk4_roundTrip_iff_late :
    Mk4RoundTrips 2026 (fun _ => 0) mark4Late (mark4 32 16000000) .chkDefault :=
  (@encodeMk4_roundTrip_iff 32 16000000 rfl (by simp [standardBitrates]) (fun _ => 0) mark4Late 2026
    (by decide +kernel) (by decide +kernel) (by decide +kernel) .chkDefault).mpr
    ⟨799, by decide +kernel⟩

/-- The eighth frame of a minute at 0.125 Mbps is 1.12 s into it. -/
def mark4Slow : HighResTime := .normalize 1600000021 (3 / 25)

theorem slowMark4_rejected :
    mark4Slow.value = (10000000132 : ℕ) * (mark4 32 125000).state.frametime ∧
      ¬ Mk4RoundTrips 2026 (fun _ => 0) mark4Slow (mark4 32 125000) .chkDefault := by
  refine ⟨by decide +kernel, ?_⟩
  rintro ⟨out, hout, -⟩
  have hthrown : (encodeMk4Timestamp (fun _ => 0) mark4Slow (mark4 32 125000)).isOk = false := by
    decide +kernel
  rw [hout] at hthrown
  exact Bool.noConfusion hthrown

end Jive5ab.Headersearch
