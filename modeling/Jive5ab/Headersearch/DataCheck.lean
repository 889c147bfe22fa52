import Jive5ab.Headersearch.Construct
import Jive5ab.Headersearch.Mark4St
import Jive5ab.Headersearch.Mark5B
import Jive5ab.Headersearch.Vlba
import Jive5ab.Lib.BoyerMoore

/-! # The search for a first header

`check_data_format` up to the first header that it takes: every hit of the sync word is checked
and its time stamp decoded, and behind a hit that fails the search is resumed. -/
namespace Jive5ab.Headersearch
open Lib
open Vdif (HighResTime)

/-! ## Sync words -/

def syncwordsize (fmt : FormatType) (n : Nat) : Nat :=
  match fmt with
  | .mark5b => 4
  | .mark4 | .vlba => n * 4
  | .mark4St | .vlbaSt => 32 * 4 * 9 / 8
  | _ => 0

def syncwordoffset (fmt : FormatType) (n : Nat) : Nat :=
  match fmt with
  | .mark4 => 8 * n
  | .mark4St => 8 * 32 * 9 / 8
  | _ => 0

def syncword (fmt : FormatType) : Nat → Crc.Byte :=
  match fmt with
  | .mark5b => fun t => [0xed, 0xde, 0xad, 0xab].getD t 0
  | .mark4St | .vlbaSt => fun t => stSyncword.getD t 0
  | _ => fun _ => 0xff

/-! ## One header -/

/-- What the wall clock says, as far as time stamps need it. -/
structure Clock where
  year : Int
  mjd : Int

/-- Seconds, and the fraction of a second if it is known. -/
abbrev TimeStamp := Int × Option ℚ≥0

def timeStamp (t : HighResTime) : TimeStamp := (t.tvSec, some t.tvSubsecond)

/-- `checker`; a format that is none has no such function. -/
def checkFrame (hdr : Headersearch) (buffer : Framedata) (strict : Strict) (track : Nat) :
    Except HeaderError Bool :=
  match hdr.frameformat with
  | .mark4 =>
    checkMark4 false (mark4Syncword hdr.ntrack) (8 * hdr.ntrack) buffer strict track hdr
  | .mark4St => checkMark4 true stSyncword stSyncwordoffset buffer strict track hdr
  | .vlba => checkVlba buffer strict track hdr
  | .vlbaSt =>
    checkTape buffer strict track hdr.ntrack stSyncword 0 true 12 fun trackheader =>
      crc16Vlba (trackheader.drop 4)
  | .mark5b => .ok (checkMark5b (fun i => wordAt buffer i) strict)
  | .vdif | .vdifLegacy | .vdifComplex | .vdifLegacyComplex => .ok true
  | _ => .ok false

/-- `timedecoder`, with what it leaves in the decoder. -/
def frameTimestamp (hdr : Headersearch) (clock : Clock) (buffer : Framedata) (strict : Strict)
    (track : Nat) (m5b : M5bState) : M5bState × Except HeaderError TimeStamp :=
  let words : Words := fun i => wordAt buffer i
  match hdr.frameformat with
  | .mark4 =>
    (m5b, (mk4FrameTimestamp false clock.year buffer track hdr strict).map fun t => (t.1, some t.2))
  | .mark4St =>
    (m5b, (mk4FrameTimestamp true clock.year buffer track hdr strict).map fun t => (t.1, some t.2))
  | .vlba => (m5b, (vlbaFrameTimestamp clock.mjd buffer track hdr).map timeStamp)
  | .vlbaSt =>
    (m5b, (extractBitstream true track hdr.ntrack 8
      fun a => buffer (4 * hdr.ntrack * 9 / 8 + a)).map fun timecode =>
        timeStamp (decodeVlbaTimestamp clock.mjd (vlbaTapeTs timecode)))
  | .mark5b =>
    let (m5b, t) := mk5bFrameTimestamp clock.mjd words hdr.trackbitrate hdr.state m5b strict
    (m5b, t.map timeStamp)
  | _ =>
    (m5b, (vdifFrameTimestamp words hdr.trackbitrate hdr.state).map fun
      | .time t => timeStamp t
      | .unknownSubsecond sec => (sec, none))

inductive Verdict
  | throws (e : HeaderError)
  | refuses
  | decodes (t : TimeStamp)
  deriving DecidableEq

/-- `check` and then `decode_timestamp`, of which exceptions are caught. -/
def tryFrame (hdr : Headersearch) (clock : Clock) (buffer : Framedata) (strict : Strict)
    (track : Nat) (m5b : M5bState) : M5bState × Verdict :=
  match checkFrame hdr buffer strict track with
  | .error e => (m5b, .throws e)
  | .ok false => (m5b, .refuses)
  | .ok true =>
    match frameTimestamp hdr clock buffer strict track m5b with
    | (m5b, .error _) => (m5b, .refuses)
    | (m5b, .ok t) => (m5b, .decodes t)

/-! ## The loop -/

inductive SearchError
  | haystackLongerThanIntMax
  | header (e : HeaderError)
  deriving DecidableEq

structure Found where
  byteOffset : Nat
  time : TimeStamp
  deriving DecidableEq

/-- The arguments of `check_data_format`, and the clock at each header that it decodes. -/
structure DataCheck where
  data : Framedata
  len : Nat
  track : Nat
  format : Headersearch
  strict : Bool
  now : Nat → Clock

namespace DataCheck

variable (c : DataCheck)

def strictE : Strict :=
  if c.strict then ⟨false, true, true, true, true, false⟩ else ⟨false, false, true, false, true, false⟩

def size : Nat := syncwordsize c.format.frameformat c.format.ntrack

def offset : Nat := syncwordoffset c.format.frameformat c.format.ntrack

def header : Nat := headersize c.format.frameformat c.format.ntrack

/-- `syncwordsearch(data + position, len - position)`, of which the length is an `unsigned int`. -/
def find (position : Nat) : Except SearchError (Option Nat) :=
  let haystackLen := (c.len - position) % 2 ^ 32
  if 2 ^ 31 - 1 ≤ haystackLen then .error .haystackLongerThanIntMax
  else
    .ok ((BoyerMoore.search (syncword c.format.frameformat) c.size (fun a => c.data (position + a))
      haystackLen).map (position + ·))

def tryAt (m5b : M5bState) (start : Nat) : M5bState × Verdict :=
  tryFrame c.format (c.now start) (fun a => c.data (start + a)) c.strictE c.track m5b

def loop : Nat → M5bState → Option Nat → Except SearchError (Option Found)
  | _, _, none => .ok none
  | 0, _, some _ => .ok none
  | fuel + 1, m5b, some syncWord =>
    let resume (m5b : M5bState) (nextPosition : Nat) : Except SearchError (Option Found) :=
      if (nextPosition + c.size) % 2 ^ 32 < c.len then
        match c.find nextPosition with
        | .error e => .error e
        | .ok syncWord => loop fuel m5b syncWord
      else .ok none
    let byteOffset := syncWord % 2 ^ 32
    if byteOffset < c.offset then resume m5b ((byteOffset + c.size) % 2 ^ 32)
    else
      let start := byteOffset - c.offset
      if c.len < (start + c.header) % 2 ^ 32 then .ok none -- no full header
      else
        match c.tryAt m5b start with
        | (_, .throws e) => .error (.header e)
        | (_, .decodes t) => .ok (some ⟨start, t⟩)
        | (m5b, .refuses) => resume m5b ((start + c.offset + c.size) % 2 ^ 32)

/-- The search with a format that has just been made. -/
def search : Except SearchError (Option Found) :=
  match c.find 0 with
  | .error e => .error e
  | .ok syncWord => c.loop (c.len + 1) .cleared syncWord

/-! ## What is looked for -/

/-- The sync word is present, and the header check and the decoding of the time stamp succeed. -/
structure IsHeader (start : Nat) : Prop where
  sync : Occurs (syncword c.format.frameformat) c.size c.data (start + c.offset)
  full : start + c.header ≤ c.len
  decodes : ∃ t, (c.tryAt .cleared start).2 = .decodes t

/-- The first header is reported, and only if there is none the search fails. -/
def Reports : Prop :=
  match c.search with
  | .ok (some found) => c.IsHeader found.byteOffset ∧ ∀ start < found.byteOffset, ¬c.IsHeader start
  | _ => ∀ start, ¬c.IsHeader start

end DataCheck

end Jive5ab.Headersearch
