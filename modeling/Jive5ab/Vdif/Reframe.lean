import Mathlib.Data.NNRat.Floor
import Mathlib.Data.NNRat.Lemmas
import Mathlib.Algebra.Order.Floor.Semifield
import Mathlib.Logic.Function.Basic
import Jive5ab.Lib.Calendar
import Jive5ab.Lib.Slice

/-! # Reframing to VDIF

`reframe_to_vdif` of `threadfns.cc`, the time stamps it reads (`highrestime.cc`)
and the decoder of the headers it writes (`vdif_frame_timestamp`). Subseconds,
bit rates and frame lengths are rationals, as in the source; the process runs
in UTC. The queue behind it is never disabled. -/
namespace Jive5ab.Vdif
open Lib Lib.Calendar

/-! ## Time stamps -/

/-- Whole seconds and a fraction of one, kept apart by `normalize`. -/
structure HighResTime where
  tvSec : Int
  tvSubsecond : ℚ≥0
  normal : tvSubsecond < 1

theorem zero_lt_second : (0 : ℚ≥0) < 1 := by norm_num

def HighResTime.normalize (sec : Int) (ss : ℚ≥0) : HighResTime where
  tvSec := sec + ((ss.num / ss.den : ℕ) : Int)
  tvSubsecond := ss - ((ss.num / ss.den : ℕ) : ℚ≥0)
  normal := by
    rw [← NNRat.floor_def, tsub_lt_iff_left (Nat.floor_le zero_le)]
    exact Nat.lt_floor_add_one ss

def HighResTime.value (t : HighResTime) : ℚ := t.tvSec + t.tvSubsecond

/-- `denominator()==1` -/
theorem den_eq_one_iff {x f : ℚ≥0} (hf : f ≠ 0) : (x / f).den = 1 ↔ ∃ j : Nat, x = j * f := by
  constructor
  · intro hden
    have hnum := NNRat.num_div_den (x / f)
    rw [hden, Nat.cast_one, div_one] at hnum
    exact ⟨(x / f).num, by rw [hnum, div_mul_cancel₀ _ hf]⟩
  · rintro ⟨j, rfl⟩
    rw [mul_div_cancel_right₀ _ hf, NNRat.den_natCast]

/-! ## Headers -/

/-- The fields of a non-legacy VDIF header that are ever set. -/
structure VdifHeader where
  epochSeconds : Nat
  dataFrameNum : Nat
  refEpoch : Nat
  dataFrameLen8 : Nat
  log2nchans : Nat
  stationId : Nat
  threadId : Nat
  bitsPerSample : Nat
  complex : Bool
  deriving DecidableEq

def VdifHeader.nonLegacy : VdifHeader := ⟨0, 0, 0, 0, 0, 0, 0, 0, false⟩

/-- Half a year of VDIF time starts at its reference epoch. -/
def epochStart (year : Int) (mon : Nat) (sec : Int) : Int := mktime ⟨year, mon, 1, 0, 0, sec⟩

/-- `vdif_frame_timestamp`, for a known bit rate. -/
def vdifFrameTimestamp (frametime : ℚ≥0) (hdr : VdifHeader) : HighResTime :=
  .normalize (epochStart (100 + (hdr.refEpoch / 2 : ℕ)) (6 * (hdr.refEpoch % 2)) hdr.epochSeconds)
    (hdr.dataFrameNum * frametime)

/-- The frame time of a decoder; `payloadsz * 8` is an `unsigned int`. -/
def decoderFrametime (ntrack : Nat) (trackbitrate : ℚ≥0) (payloadsz : Nat) : ℚ≥0 :=
  ((payloadsz * 8 % 2 ^ 32 : ℕ) : ℚ≥0) / (ntrack * trackbitrate)

/-! ## The step -/

structure ReframeArgs where
  stationId : Nat
  tagremapper : List (Nat × Nat)
  bitrate : ℚ≥0
  inputSize : Nat
  outputSize : Nat
  bitsPerChannel : Nat
  bitsPerSample : Nat
  complexVdif : Bool

structure Frame where
  tag : Nat
  ntrack : Nat
  frametime : HighResTime
  framedata : List UInt8

/-- What goes down the queue: header and data as a block list, tagged. -/
structure VdifFrame where
  tag : Nat
  header : VdifHeader
  payload : List UInt8
  deriving DecidableEq

inductive ReframeError
  | noBitsPerChannel
  | notRepresentable
  | badRational
  deriving DecidableEq

def memcpy (_dst src : VdifHeader) : VdifHeader := src

namespace ReframeArgs
variable (args : ReframeArgs)

/-- `none` discards the data: there are tags to remap, and not this one. -/
def datathreadid (tag : Nat) : Option Nat :=
  if args.tagremapper.length > 0 then args.tagremapper.lookup tag else some tag

def vdifFramelen (ntrack : Nat) : ℚ≥0 :=
  ((8 * args.outputSize % 2 ^ 32 : ℕ) : ℚ≥0) / (ntrack * args.bitrate)

/-- A data thread's header, the first time the thread is seen. -/
def newHeader (epoch : Int) (thread : Nat) : VdifHeader :=
  { VdifHeader.nonLegacy with
    stationId := args.stationId % 2 ^ 16
    threadId := thread % 2 ^ 10
    dataFrameLen8 := (args.outputSize + 32) / 8 % 2 ^ 24
    bitsPerSample := (args.bitsPerSample + 31) % 2 ^ 5
    refEpoch := (epoch % 2 ^ 6).toNat
    complex := args.complexVdif }

/-- The breaking-up loop. `vdifh` is the block the pool hands out, with what is
left in it from before. -/
def breakUp (tag : Nat) (hdr : VdifHeader) (rate : ℚ≥0) (data : List UInt8) :
    Nat → Nat → Nat → List VdifFrame
  | 0, _, _ => []
  | fuel + 1, dfn, pos =>
    if pos + args.outputSize ≤ data.length then
      let vdifh := VdifHeader.nonLegacy
      let (vdifh, dfn) :=
        if rate.num ≤ dfn then
          ({ vdifh with epochSeconds := (vdifh.epochSeconds + rate.den) % 2 ^ 30 }, dfn - rate.num)
        else (vdifh, dfn)
      let vdifh := memcpy vdifh hdr
      let vdifh := { vdifh with dataFrameNum := dfn % 2 ^ 24 }
      ⟨tag, vdifh, slice data pos args.outputSize⟩ ::
        breakUp tag hdr rate data fuel (dfn + 1) (pos + args.outputSize)
    else []

abbrev Headers := Nat → Option VdifHeader

/-- One turn: the frames cut from `tf`, none when it is skipped. -/
def reframeOne (epoch tmEpoch : Int) (tagheader : Headers) (tf : Frame) :
    Except ReframeError (Headers × List VdifFrame) :=
  if tf.framedata.length ≠ args.inputSize then .ok (tagheader, [])
  else
    match args.datathreadid tf.tag with
    | none => .ok (tagheader, [])
    | some thread =>
      if tf.ntrack = 0 then .ok (tagheader, [])
      else
        let hdr := (tagheader thread).getD (args.newHeader epoch thread)
        let hdr := { hdr with
          epochSeconds := ((tf.frametime.tvSec - tmEpoch) % 2 ^ 30).toNat
          log2nchans := Nat.log2 (tf.ntrack / args.bitsPerChannel) % 2 ^ 5 }
        let tagheader := Function.update tagheader thread (some hdr)
        if tf.ntrack * args.bitrate = 0 ∨ args.vdifFramelen tf.ntrack = 0 then .error .badRational
        else
          let firstFn := tf.frametime.tvSubsecond / args.vdifFramelen tf.ntrack
          if firstFn.den ≠ 1 then .error .notRepresentable
          else
            .ok (tagheader, args.breakUp thread hdr (1 / args.vdifFramelen tf.ntrack) tf.framedata
              (tf.framedata.length + 1) firstFn.num 0)

/-- Frame after frame; an exception ends the thread. -/
def reframeLoop (epoch tmEpoch : Int) :
    Headers → List Frame → List (List VdifFrame) × Option ReframeError
  | _, [] => ([], none)
  | tagheader, tf :: tfs =>
    match args.reframeOne epoch tmEpoch tagheader tf with
    | .error e => ([], some e)
    | .ok (tagheader, cuts) =>
      let (rest, e) := reframeLoop epoch tmEpoch tagheader tfs
      (cuts :: rest, e)

end ReframeArgs

/-- The reference epoch of a time, in half years from 2000, and its zero point. -/
def vdifEpoch (t : HighResTime) : Int × Int :=
  let klad := gmtime t.tvSec
  ((klad.year + 1900 - 2000) * 2 + (if 6 ≤ klad.mon then 1 else 0),
    epochStart klad.year (klad.mon / 6 * 6) 0)

/-- The first frame sets the epoch for all. Cut frames are listed per input frame. -/
def reframeToVdif (args : ReframeArgs) (frames : List Frame) :
    List (List VdifFrame) × Option ReframeError :=
  if args.bitsPerChannel = 0 then ([], some .noBitsPerChannel)
  else
    match frames with
    | [] => ([], none)
    | tf :: tfs =>
      let (epoch, tmEpoch) := vdifEpoch tf.frametime
      args.reframeLoop epoch tmEpoch (fun _ => none) (tf :: tfs)

end Jive5ab.Vdif
