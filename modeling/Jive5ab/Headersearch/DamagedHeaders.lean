import Jive5ab.Headersearch.DataCheck
import Jive5ab.Lib.CrcErrors

/-! # Damaged headers

A frame is taken for one if the CRC over its header, with the CRC that the header brings along, is
zero. Bits of the header that flip leave something else there if they are three at most, or odd in
number, or all in one burst that is no longer than the CRC. -/
namespace Jive5ab.Headersearch
open Lib Lib.Crc

/-! ## What is under the CRC -/

def headerCrc (fmt : FormatType) (data : List Crc.Byte) : BitVec 32 :=
  match fmt with
  | .mark4 | .mark4St => crc12Mark4 data
  | _ => crc16Vlba data

def crcWidth (fmt : FormatType) : Nat :=
  match fmt with
  | .mark4 | .mark4St => 12
  | _ => 16

/-- DBE formatted Mark5B data need not have filled in the CRC. -/
def checksCrc (fmt : FormatType) (strict : Strict) : Bool :=
  match fmt with
  | .mark4 | .mark4St | .vlba | .vlbaSt => strict.chkCrc
  | .mark5b => strict.chkCrc && !strict.chkAllowDbe
  | _ => false

/-- The bytes of a header that the CRC is over, its own two last. -/
def protectedBytes (hdr : Headersearch) (buffer : Framedata) (track : Nat) :
    Except HeaderError (List Crc.Byte) :=
  match hdr.frameformat with
  | .mark4 => extractBitstream false track hdr.ntrack 20 buffer
  | .mark4St => extractBitstream true track hdr.ntrack 20 buffer
  | .vlba => (extractBitstream false track hdr.ntrack 12 buffer).map (List.drop 4)
  | .vlbaSt => (extractBitstream true track hdr.ntrack 12 buffer).map (List.drop 4)
  | .mark5b => .ok (networkBytes (wordAt buffer 2) ++ networkBytes (wordAt buffer 3))
  | _ => .ok []

theorem notices_tape : Notices 12 0x80f 159 ∧ Notices 16 0x8005 159 := by
  constructor <;> exact ⟨by decide, by decide, by decide, by decide, by decide⟩

theorem headerCrc_eq (fmt : FormatType) : ∃ key : BitVec 32,
    headerCrc fmt = Crc.crc (crcWidth fmt) key ∧ Notices (crcWidth fmt) key 159 := by
  cases fmt with
  | mark4 | mark4St => exact ⟨0x80f, rfl, notices_tape.1⟩
  | _ => exact ⟨0x8005, rfl, notices_tape.2⟩

/-! ## The check -/

section
variable {hdr : Headersearch} {buffer buffer' : Framedata} {strict : Strict} {track : Nat}
variable {l l' : List Crc.Byte}

theorem extractBitstream_length {strip : Bool} {ntrack size : Nat}
    (h : extractBitstream strip track ntrack size buffer = .ok l) : l.length = size := by
  unfold extractBitstream at h
  split at h
  · cases h
  · cases h
    simp

theorem ok_of_map_drop {n : Nat} {read : Except HeaderError (List Crc.Byte)}
    (h : read.map (List.drop n) = .ok l) : ∃ data, read = .ok data ∧ data.drop n = l := by
  cases read with
  | error e => cases h
  | ok data => exact ⟨data, rfl, Except.ok.inj h⟩

theorem drop_length {strip : Bool} {ntrack size n : Nat}
    (h : (extractBitstream strip track ntrack size buffer).map (List.drop n) = .ok l) :
    l.length = size - n := by
  obtain ⟨data, hread, rfl⟩ := ok_of_map_drop h
  rw [List.length_drop, extractBitstream_length hread]

/-- It depends on the format. -/
theorem protectedBytes_length (hl : protectedBytes hdr buffer track = .ok l)
    (hl' : protectedBytes hdr buffer' track = .ok l') : l.length = l'.length ∧ l.length ≤ 20 := by
  unfold protectedBytes at hl hl'
  cases hfmt : hdr.frameformat with
  | mark4 | mark4St =>
    rw [hfmt] at hl hl'
    rw [extractBitstream_length hl, extractBitstream_length hl']
    decide
  | vlba | vlbaSt =>
    rw [hfmt] at hl hl'
    rw [drop_length hl, drop_length hl']
    decide
  | mark5b =>
    rw [hfmt] at hl hl'
    cases hl
    cases hl'
    exact ⟨rfl, by simp [networkBytes]⟩
  | _ =>
    rw [hfmt] at hl hl'
    cases hl
    cases hl'
    decide

theorem checkTape_eq {ntrack offset size : Nat} {word : List Crc.Byte} {strip : Bool}
    {crc : List Crc.Byte → BitVec 32} (hcrc : strict.chkCrc = true)
    (h : extractBitstream strip track ntrack size buffer = .ok l) :
    ∃ synced : Bool, checkTape buffer strict track ntrack word offset strip size crc =
      .ok (synced && (crc l == 0)) := by
  unfold checkTape
  split
  · exact ⟨false, rfl⟩
  split
  · exact ⟨false, rfl⟩
  rw [h, hcrc]
  exact ⟨true, rfl⟩

theorem checkTape_drop {ntrack offset size n : Nat} {word : List Crc.Byte} {strip : Bool}
    {crc : List Crc.Byte → BitVec 32} (hcrc : strict.chkCrc = true)
    (h : (extractBitstream strip track ntrack size buffer).map (List.drop n) = .ok l) :
    ∃ synced : Bool,
      checkTape buffer strict track ntrack word offset strip size (fun data => crc (data.drop n)) =
        .ok (synced && (crc l == 0)) := by
  obtain ⟨data, hread, rfl⟩ := ok_of_map_drop h
  exact checkTape_eq hcrc hread

/-- Whatever else is checked, the CRC has to be zero. -/
theorem checkFrame_eq (hcheck : checksCrc hdr.frameformat strict = true)
    (hl : protectedBytes hdr buffer track = .ok l) :
    ∃ synced : Bool, checkFrame hdr buffer strict track =
      .ok (synced && (headerCrc hdr.frameformat l == 0)) := by
  unfold protectedBytes at hl
  unfold checkFrame
  cases hfmt : hdr.frameformat with
  | mark4 | mark4St =>
    rw [hfmt] at hcheck hl
    exact checkTape_eq hcheck hl
  | vlba | vlbaSt =>
    rw [hfmt] at hcheck hl
    exact checkTape_drop hcheck hl
  | mark5b =>
    rw [hfmt] at hcheck hl
    obtain ⟨hcrc, hdbe⟩ := Bool.and_eq_true_iff.mp hcheck
    cases hl
    simp only [checkMark5b]
    split
    · exact ⟨false, rfl⟩
    · rw [Bool.not_eq_eq_eq_not, Bool.not_true] at hdbe
      rw [hcrc, hdbe]
      exact ⟨true, rfl⟩
  | _ =>
    rw [hfmt] at hcheck
    cases hcheck

/-- Headers with one CRC are the same, or differ in more than what it notices. -/
theorem headerCrc_detects {fmt : FormatType} (hlen : l.length = l'.length) (hmax : l.length ≤ 20)
    (h : headerCrc fmt l = headerCrc fmt l') (hslight : Slight (crcWidth fmt) (flips l l')) :
    l = l' := by
  obtain ⟨key, hcrc, hnotices⟩ := headerCrc_eq fmt
  rw [hcrc] at h
  exact hnotices.eq_of_crc_eq hlen (by omega) h hslight

/-- A header that was taken is refused once it is damaged. -/
theorem damaged_refused (hcheck : checksCrc hdr.frameformat strict = true)
    (hl : protectedBytes hdr buffer track = .ok l)
    (hok : checkFrame hdr buffer strict track = .ok true)
    (hl' : protectedBytes hdr buffer' track = .ok l') (hne : l ≠ l')
    (hslight : Slight (crcWidth hdr.frameformat) (flips l l')) :
    checkFrame hdr buffer' strict track = .ok false := by
  obtain ⟨synced, hframe⟩ := checkFrame_eq hcheck hl
  obtain ⟨synced', hframe'⟩ := checkFrame_eq hcheck hl'
  obtain ⟨hlen, hmax⟩ := protectedBytes_length hl hl'
  rw [hok, Except.ok.injEq, eq_comm, Bool.and_eq_true_iff, beq_iff_eq] at hframe
  have hcrc : headerCrc hdr.frameformat l' ≠ 0 := fun h =>
    hne (headerCrc_detects hlen hmax (hframe.2.trans h.symm) hslight)
  rw [hframe', beq_eq_false_iff_ne.mpr hcrc, Bool.and_false]

end

/-- The header of a Mark5B frame of midnight, day 56000. -/
def mark5bFrame (flipped : Crc.Byte) : Framedata := fun a =>
  [0xed, 0xde, 0xad, 0xab, 0, 0, 0, 0, 0, 0, 0, flipped].getD a 0

/-- One bit of the day has flipped. -/
theorem damaged_refused_mark5b :
    checkFrame mark5bFast (mark5bFrame 0) .chkDefault 0 = .ok true ∧
      checkFrame mark5bFast (mark5bFrame 0x40) .chkDefault 0 = .ok false := by
  have hbytes : protectedBytes mark5bFast (mark5bFrame 0) 0 = .ok (List.replicate 8 0) := rfl
  have hflipped : protectedBytes mark5bFast (mark5bFrame 0x40) 0 =
      .ok (0x40 :: List.replicate 7 0) := rfl
  have hzero : crc16Vlba (List.replicate 8 0) = 0 := by
    rw [crc16Vlba, Crc.crc, run_replicate_zero]
    rfl
  have hok : checkFrame mark5bFast (mark5bFrame 0) .chkDefault 0 = .ok true := by
    show Except.ok (!true || false || (crc16Vlba (List.replicate 8 0) == 0)) = _
    rw [hzero]
    rfl
  exact ⟨hok, damaged_refused rfl hbytes hok hflipped (by decide) (.inl (by decide))⟩

end Jive5ab.Headersearch
