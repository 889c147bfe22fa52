import Jive5ab.Headersearch.DataCheck
import Jive5ab.Lib.Checked
import Jive5ab.Lib.LittleEndian
import Jive5ab.Lib.Slice
import Std.Data.TreeMap.Lemmas

/-! # Probing for VDIF

`seems_like_vdif` and `find_next_vdif_thread_header`, which go through a buffer by the lengths
that the headers in it state. A header that is used but does not lie in the buffer, and a loop
that has not come to its end, stop the probe. -/
namespace Jive5ab.Headersearch
open Lib Lib.Checked

/-! ## Words -/

/-- What is done with a number that goes into an unsigned word, and with a divisor. -/
structure Arithmetic (ε : Type) where
  word : Nat → Int → Watched ε Nat
  divisor : Nat → Watched ε Unit

variable {ε : Type}

/-- The machine's words wrap, and nobody looks at a divisor. -/
def Arithmetic.machine : Arithmetic ε where
  word w x := .ok (x % 2 ^ w).toNat
  divisor _ := .ok ()

def Arithmetic.watched : Arithmetic ε where
  word w x := if 0 ≤ x ∧ x < 2 ^ w then .ok x.toNat else .error .wraps
  divisor d := if d = 0 then .error .dividesByZero else .ok ()

/-! ## Headers in a buffer -/

inductive ProbeError
  | outside (pos : Nat)
  | fuel
  | format (e : FormatError)
  | header (e : HeaderError)

abbrev Probing (α : Type) := Watched ProbeError α

def sizeofVdifHeader : Nat := 16

def vdifHeaderAt (buf : List UInt8) (pos : Nat) : Words :=
  fun i => .ofNat 32 (ofBytes (slice buf (pos + 4 * i) 4))

/-- `*(const vdif_header*)(data + pos)` -/
def derefVdif (buf : List UInt8) (pos : Nat) : Probing Words :=
  if pos + sizeofVdifHeader ≤ buf.length then .ok (vdifHeaderAt buf pos) else throws (.outside pos)

/-- `threadmap_type` -/
abbrev ThreadMap := Std.TreeMap Nat Words

def sameVdifThreadSanityCheck (frame1 frame2 : Words) : Bool :=
  [Field.legacy, .refEpoch, .version, .log2nchans, .dataFrameLen8, .complex, .bitsPerSample,
    .stationId].all fun f => frame1.get f = frame2.get f

def simpleVdifCheck (thread1 threadN : Words) : Bool :=
  [Field.legacy, .version, .log2nchans, .dataFrameLen8, .complex, .bitsPerSample].all fun f =>
    thread1.get f = threadN.get f

def Decoded.timeStamp : Decoded → TimeStamp
  | .time t => Headersearch.timeStamp t
  | .unknownSubsecond sec => (sec, none)

/-- The time of a header, or what the decoder throws. -/
def decodeVdif (w : Words) (trackbitrate : ℚ≥0) (decoder : DecoderState) : Probing TimeStamp :=
  match vdifFrameTimestamp w trackbitrate decoder with
  | .ok t => .ok t.timeStamp
  | .error e => throws (.header e)

/-- Only the second: the rate is not known yet. -/
def unknownVDIFRateDecoder (w : Words) : Probing Int :=
  return (← decodeVdif w unknownTrackbitrate (.make 0 unknownTrackbitrate 0)).1

/-! ## The next frame of the thread -/

/-- The loop of `find_next_vdif_thread_header`; `next_frame` is the header at `pos`. -/
def findNextLoop (buf : List UInt8) (base : Words) (baseTime : Int) :
    Nat → Nat → ThreadMap → Probing (Option Nat × ThreadMap)
  | 0, _, _ => throws .fuel
  | fuel + 1, pos, threads => do
    let frame ← derefVdif buf pos
    if frame.get .dataFrameLen8 = 0 then .ok (none, threads)
    else
      let pos := pos + frame.get .dataFrameLen8 * 8
      if buf.length < pos + sizeofVdifHeader then .ok (none, threads)
      else do
        let next ← derefVdif buf pos
        if next.get .legacy ≠ base.get .legacy then .ok (none, threads)
        else do
          let dataTime ← unknownVDIFRateDecoder next
          if 86400 < (baseTime - dataTime).natAbs then .ok (none, threads)
          else
            let first := (threads[next.get .threadId]?).getD next
            let threads := threads.insertIfNew (next.get .threadId) next
            if ¬sameVdifThreadSanityCheck first next then .ok (none, ∅)
            else if next.get .threadId = base.get .threadId then .ok (some pos, threads)
            else findNextLoop buf base baseTime fuel pos threads

/-- More turns than the buffer has bytes are never needed. -/
def findNextVdifThreadHeader (buf : List UInt8) (base : Words) (baseTime : Int) (pos : Nat)
    (threads : ThreadMap) : Probing (Option Nat × ThreadMap) :=
  findNextLoop buf base baseTime (buf.length + 1) pos threads

/-! ## The probe -/

inductive WhichFrame
  | captureFirst
  | captureLast
  deriving DecidableEq

/-- `data_check_type`, as far as VDIF fills it in. -/
structure DataCheckType where
  format : FormatType
  ntrack : Nat
  trackbitrate : Samplerate
  time : TimeStamp
  byteOffset : Nat
  vdifFrameSize : Nat
  vdifDataSize : Nat
  vdifThreads : ThreadMap
  frameNumber : Nat

/-- What the loop through the frames of one second leaves. -/
structure SecondEnd where
  frmPtr : Nat
  nextFrame : Option Nat
  maxDataFrameNum : Nat
  threads : ThreadMap

/-- As long as the second is that of the base. -/
def sameSecondLoop (buf : List UInt8) (base : Words) (baseTime : Int) :
    Nat → Nat → Nat → Nat → ThreadMap → Probing SecondEnd
  | 0, _, _, _, _ => throws .fuel
  | fuel + 1, frmPtr, nextFrame, maxNum, threads => do
    let next ← derefVdif buf nextFrame
    if next.get .epochSeconds ≠ base.get .epochSeconds then
      .ok ⟨frmPtr, some nextFrame, maxNum, threads⟩
    else
      match ← findNextVdifThreadHeader buf base baseTime nextFrame threads with
      | (none, threads) => .ok ⟨nextFrame, none, maxNum, threads⟩
      | (some pos, threads) => do
        let found ← derefVdif buf pos
        sameSecondLoop buf base baseTime fuel nextFrame pos (max maxNum (found.get .dataFrameNum))
          threads

/-- All threads have the shape of the first. -/
def isSimpleVdif (threads : ThreadMap) : Bool :=
  match threads.minEntry? with
  | none => true
  | some first => threads.toList.all fun thread => simpleVdifCheck first.2 thread.2

def vdifFormat (base : Words) : FormatType :=
  if base.get .legacy = 1 then
    if base.get .complex = 1 then .vdifLegacyComplex else .vdifLegacy
  else if base.get .complex = 1 then .vdifComplex else .vdif

section
variable (A : Arithmetic ProbeError) (roundUp : Nat → Nat → Option Nat) (base : Words)

/-- What is known from the header of the first frame. A product of `int`s goes into `ntrack`. -/
def describe (baseTime : Int) (result : DataCheckType) : Probing DataCheckType := do
  let format := vdifFormat base
  let ntrack ← A.word 32
    (2 ^ base.get .log2nchans * (base.get .bitsPerSample + 1) * (base.get .complex + 1) : ℕ)
  let vdifFrameSize ← A.word 32 (base.get .dataFrameLen8 * 8 : ℕ)
  let vdifDataSize ← A.word 32 (vdifFrameSize - headersize format ntrack)
  return { result with
    format, ntrack, vdifFrameSize, vdifDataSize
    trackbitrate := unknownRate
    time := (baseTime, none)
    byteOffset := 0
    frameNumber := base.get .dataFrameNum }

/-- `hst.decode_timestamp`, where `hst` is built from the rate. -/
def recomputeTime (frame : Words) (payload : Nat) (result : DataCheckType) :
    Probing DataCheckType :=
  match HeadersearchType.make .vdif result.ntrack result.trackbitrate payload with
  | .error e => throws (.format e)
  | .ok hst => do
    let time ← decodeVdif frame hst.trackbitrate.value
      ⟨hst.state.framerate.value, hst.state.frametime.value, []⟩
    return { result with time }

/-- The standard case: `2^n` million bits per second. `roundUp` is its floating point, from a
number of bytes in a second and a number of tracks to the bit rate, or to nothing if `n` is
below -6. -/
def standardBitrate (frame : Words) (payload maxNum : Nat) (result : DataCheckType) :
    Probing DataCheckType := do
  let frames ← A.word 32 (maxNum + 1 : ℕ)
  let bytes ← A.word 32 (frames * payload : ℕ)
  A.divisor result.ntrack
  match roundUp bytes result.ntrack with
  | none => return result
  | some rate => recomputeTime frame payload { result with trackbitrate := .ofNat rate }

/-- A whole number of frames in a whole number of seconds. -/
def periodBitrate (frame : Words) (payload dutsec maxNum : Nat) (result : DataCheckType) :
    Probing DataCheckType := do
  let frames ← A.word 32 (maxNum + 1 : ℕ)
  let bytes ← A.word 32 (frames * payload : ℕ)
  let bits ← A.word 32 (bytes * 8 : ℕ)
  let tracks ← A.word 64 (dutsec * result.ntrack : ℕ)
  A.divisor tracks
  match Fraction.normalize bits tracks with
  | none => throws (.format .badRational)
  | some rate => recomputeTime frame payload { result with trackbitrate := rate }

/-- The rate, if a frame of another second was found. -/
def deriveBitrate (frame : Words) (next : Option Words) (maxNum : Nat) (result : DataCheckType) :
    Probing DataCheckType := do
  let dutsec ← A.word 64
    (match next with
    | none => 0
    | some next => (next.get .epochSeconds : ℤ) - base.get .epochSeconds)
  let payload ← A.word 32
    ((base.get .dataFrameLen8 * 8 : ℕ) - if base.get .legacy = 1 then (16 : ℤ) else 32)
  match dutsec with
  | 0 => return result
  | 1 => standardBitrate A roundUp frame payload maxNum result
  | dutsec => periodBitrate A frame payload dutsec maxNum result

/-- From the end of the second on: what is returned of the frame that is asked for. -/
def finishProbe (buf : List UInt8) (which : WhichFrame) (second : SecondEnd)
    (result : DataCheckType) : Probing (Bool × DataCheckType) := do
  let frmPtr := if which = .captureFirst then 0 else second.frmPtr
  let frame ← derefVdif buf frmPtr
  let time ← unknownVDIFRateDecoder frame
  let result := { result with
    vdifThreads := second.threads
    byteOffset := frmPtr
    time := (time, result.time.2)
    frameNumber := frame.get .dataFrameNum }
  if ¬isSimpleVdif second.threads then .ok (true, { result with ntrack := 0 })
  else
    match second.nextFrame with
    | none => return (true, ← deriveBitrate A roundUp base frame none second.maxDataFrameNum result)
    | some pos => do
      let next ← derefVdif buf pos
      return (true,
        ← deriveBitrate A roundUp base frame (some next) second.maxDataFrameNum result)

def seemsLikeVdif (buf : List UInt8) (result : DataCheckType) (which : WhichFrame) :
    Probing (Bool × DataCheckType) :=
  if buf.length < sizeofVdifHeader then .ok (false, result)
  else do
    let base ← derefVdif buf 0
    let baseTime ← unknownVDIFRateDecoder base
    let threads := result.vdifThreads.insertIfNew (base.get .threadId) base
    match ← findNextVdifThreadHeader buf base baseTime 0 threads with
    | (none, threads) => .ok (false, { result with vdifThreads := threads })
    | (some nextFrame, threads) => do
      let result ← describe A base baseTime result
      let next ← derefVdif buf nextFrame
      let second ← sameSecondLoop buf base baseTime (buf.length + 1) nextFrame nextFrame
        (max (base.get .dataFrameNum) (next.get .dataFrameNum)) threads
      finishProbe A roundUp base buf which second result

end

/-! ## It stays inside, and comes to an end -/

/-- What may leave a probe. -/
def ProbeError.Contained : ProbeError → Prop
  | .outside _ | .fuel => False
  | .format _ | .header _ => True

/-- The second a header states. -/
def vdifSecond (w : Words) : Int :=
  Vdif.epochStart (100 + (w.get .refEpoch / 2 : ℕ)) (6 * (w.get .refEpoch % 2)) (w.get .epochSeconds)

section
variable {buf : List UInt8} {base : Words} {baseTime : Int} {pos fuel : Nat} {threads : ThreadMap}

theorem derefVdif_inside (h : pos + sizeofVdifHeader ≤ buf.length) :
    derefVdif buf pos = .ok (vdifHeaderAt buf pos) := if_pos h

theorem unknownVDIFRateDecoder_ok (w : Words) :
    unknownVDIFRateDecoder w = .ok (vdifSecond w) := by
  have hpos : (0 : ℚ≥0) < unknownTrackbitrate := by
    rw [unknownTrackbitrate]
    norm_num
  unfold unknownVDIFRateDecoder decodeVdif vdifFrameTimestamp
  rw [if_pos hpos, if_pos rfl]
  rfl

/-- The frame that is found lies behind the one that it was looked for from. -/
theorem findNextLoop_spec (hpos : pos + sizeofVdifHeader ≤ buf.length)
    (hfuel : buf.length < fuel + pos) :
    ∃ found, findNextLoop buf base baseTime fuel pos threads = .ok found ∧
      ∀ next, found.1 = some next → pos < next ∧ next + sizeofVdifHeader ≤ buf.length := by
  induction fuel generalizing pos threads with
  | zero =>
    unfold sizeofVdifHeader at hpos
    omega
  | succ fuel ih =>
    have hnone (threads : ThreadMap) : ∃ found,
        (.ok (none, threads) : Probing (Option Nat × ThreadMap)) = .ok found ∧
          ∀ next, found.1 = some next → pos < next ∧ next + sizeofVdifHeader ≤ buf.length :=
      ⟨_, rfl, fun _ h => nomatch h⟩
    rw [findNextLoop, derefVdif_inside hpos, ok_bind]
    by_cases hlen : (vdifHeaderAt buf pos).get .dataFrameLen8 = 0
    · rw [if_pos hlen]
      exact hnone threads
    rw [if_neg hlen]
    have hon : pos < pos + (vdifHeaderAt buf pos).get .dataFrameLen8 * 8 := by omega
    generalize pos + (vdifHeaderAt buf pos).get .dataFrameLen8 * 8 = pos' at hon ⊢
    dsimp only
    by_cases hend : buf.length < pos' + sizeofVdifHeader
    · rw [if_pos hend]
      exact hnone threads
    rw [if_neg hend, derefVdif_inside (Nat.not_lt.mp hend), ok_bind]
    by_cases hlegacy : (vdifHeaderAt buf pos').get .legacy ≠ base.get .legacy
    · rw [if_pos hlegacy]
      exact hnone threads
    rw [if_neg hlegacy, unknownVDIFRateDecoder_ok, ok_bind]
    split_ifs
    · exact hnone threads
    · refine ⟨_, rfl, fun next hnext => ?_⟩
      obtain rfl := Option.some.inj hnext
      exact ⟨hon, Nat.not_lt.mp hend⟩
    · obtain ⟨found, hfound, hbehind⟩ := ih (Nat.not_lt.mp hend) (by omega)
      exact ⟨found, hfound, fun next hnext =>
        ⟨hon.trans (hbehind next hnext).1, (hbehind next hnext).2⟩⟩
    · exact hnone ∅

theorem findNext_spec (hpos : pos + sizeofVdifHeader ≤ buf.length) :
    ∃ found, findNextVdifThreadHeader buf base baseTime pos threads = .ok found ∧
      ∀ next, found.1 = some next → pos < next ∧ next + sizeofVdifHeader ≤ buf.length :=
  findNextLoop_spec hpos (by omega)

theorem sameSecondLoop_spec {frmPtr maxNum : Nat} (hfrm : frmPtr + sizeofVdifHeader ≤ buf.length)
    (hpos : pos + sizeofVdifHeader ≤ buf.length) (hfuel : buf.length < fuel + pos) :
    ∃ second, sameSecondLoop buf base baseTime fuel frmPtr pos maxNum threads = .ok second ∧
      second.frmPtr + sizeofVdifHeader ≤ buf.length ∧
      ∀ next, second.nextFrame = some next → next + sizeofVdifHeader ≤ buf.length := by
  induction fuel generalizing frmPtr pos maxNum threads with
  | zero =>
    unfold sizeofVdifHeader at hpos
    omega
  | succ fuel ih =>
    rw [sameSecondLoop, derefVdif_inside hpos, ok_bind]
    split_ifs with hsecond
    · refine ⟨_, rfl, hfrm, fun next hnext => ?_⟩
      obtain rfl := Option.some.inj hnext
      exact hpos
    · obtain ⟨⟨found, threads'⟩, hfound, hbehind⟩ :=
        @findNext_spec buf base baseTime pos threads hpos
      rw [hfound, ok_bind]
      cases found with
      | none => exact ⟨_, rfl, hpos, fun _ h => nomatch h⟩
      | some next =>
        obtain ⟨hon, hinside⟩ := hbehind next rfl
        dsimp only
        rw [derefVdif_inside hinside, ok_bind]
        exact ih hpos hinside (by omega)

end

section
variable {roundUp : Nat → Nat → Option Nat} {base frame : Words} {result : DataCheckType}

theorem decodeVdif_contained (trackbitrate : ℚ≥0) (decoder : DecoderState) :
    Throws ProbeError.Contained (decodeVdif frame trackbitrate decoder) := by
  unfold decodeVdif
  split
  · exact throws_of_ok _
  · exact throws_of_error trivial

theorem recomputeTime_contained (payload : Nat) :
    Throws ProbeError.Contained (recomputeTime frame payload result) := by
  unfold recomputeTime
  split
  · exact throws_of_error trivial
  · exact throws_bind (decodeVdif_contained _ _) fun _ _ => throws_of_ok _

theorem deriveBitrate_contained (next : Option Words) (maxNum : Nat) :
    Throws ProbeError.Contained (deriveBitrate .machine roundUp base frame next maxNum result) := by
  unfold deriveBitrate
  refine throws_bind (throws_of_ok _) fun dutsec _ => throws_bind (throws_of_ok _) fun payload _ => ?_
  split
  · exact throws_of_ok _
  · refine throws_bind (throws_of_ok _) fun _ _ => throws_bind (throws_of_ok _) fun _ _ =>
      throws_bind (throws_of_ok _) fun _ _ => ?_
    split
    · exact throws_of_ok _
    · exact recomputeTime_contained payload
  · refine throws_bind (throws_of_ok _) fun _ _ => throws_bind (throws_of_ok _) fun _ _ =>
      throws_bind (throws_of_ok _) fun _ _ => throws_bind (throws_of_ok _) fun _ _ =>
      throws_bind (throws_of_ok _) fun _ _ => ?_
    split
    · exact throws_of_error trivial
    · exact recomputeTime_contained payload

theorem finishProbe_contained {buf : List UInt8} (which : WhichFrame) {second : SecondEnd}
    (hbase : 0 + sizeofVdifHeader ≤ buf.length)
    (hfrm : second.frmPtr + sizeofVdifHeader ≤ buf.length)
    (hlast : ∀ next, second.nextFrame = some next → next + sizeofVdifHeader ≤ buf.length) :
    Throws ProbeError.Contained (finishProbe .machine roundUp base buf which second result) := by
  have hptr : (if which = .captureFirst then 0 else second.frmPtr) + sizeofVdifHeader ≤
      buf.length := by
    split
    · exact hbase
    · exact hfrm
  unfold finishProbe
  dsimp only
  rw [derefVdif_inside hptr, ok_bind, unknownVDIFRateDecoder_ok, ok_bind]
  split
  · exact throws_of_ok _
  · cases hend : second.nextFrame with
    | none => exact throws_bind (deriveBitrate_contained none _) fun _ _ => throws_of_ok _
    | some last =>
      dsimp only
      rw [derefVdif_inside (hlast last hend), ok_bind]
      exact throws_bind (deriveBitrate_contained (some _) _) fun _ _ => throws_of_ok _

theorem seemsLikeVdif_contained (buf : List UInt8) (which : WhichFrame) :
    Throws ProbeError.Contained (seemsLikeVdif .machine roundUp buf result which) := by
  unfold seemsLikeVdif
  split
  · exact throws_of_ok _
  rename_i hlen
  have hbase : 0 + sizeofVdifHeader ≤ buf.length := by omega
  rw [derefVdif_inside hbase, ok_bind, unknownVDIFRateDecoder_ok, ok_bind]
  dsimp only
  obtain ⟨⟨found, threads⟩, hfound, hbehind⟩ := @findNext_spec buf (vdifHeaderAt buf 0)
    (vdifSecond (vdifHeaderAt buf 0)) 0 (result.vdifThreads.insertIfNew
      ((vdifHeaderAt buf 0).get .threadId) (vdifHeaderAt buf 0)) hbase
  rw [hfound, ok_bind]
  cases found with
  | none => exact throws_of_ok _
  | some next =>
    obtain ⟨-, hnext⟩ := hbehind next rfl
    refine throws_bind (throws_of_ok _) fun result' _ => ?_
    rw [derefVdif_inside hnext, ok_bind]
    obtain ⟨second, hsecond, hfrm, hlast⟩ := @sameSecondLoop_spec buf (vdifHeaderAt buf 0)
      (vdifSecond (vdifHeaderAt buf 0)) next (buf.length + 1) threads next
      (max ((vdifHeaderAt buf 0).get .dataFrameNum) ((vdifHeaderAt buf next).get .dataFrameNum))
      hnext hnext (by omega)
    rw [hsecond, ok_bind]
    exact finishProbe_contained which hbase hfrm hlast

end

/-- Whatever the buffer holds, no header outside it is used and no loop goes on for ever. -/
theorem probing_inside (roundUp : Nat → Nat → Option Nat) (buf : List UInt8) :
    (∀ base baseTime pos threads, pos + sizeofVdifHeader ≤ buf.length →
      ∃ found, findNextVdifThreadHeader buf base baseTime pos threads = .ok found ∧
        ∀ next, found.1 = some next → next + sizeofVdifHeader ≤ buf.length) ∧
      ∀ result which, Throws ProbeError.Contained
        (seemsLikeVdif .machine roundUp buf result which) := by
  refine ⟨fun base baseTime pos threads hpos => ?_, fun result which =>
    seemsLikeVdif_contained buf which⟩
  obtain ⟨found, hfound, hbehind⟩ := findNext_spec hpos
  exact ⟨found, hfound, fun next hnext => (hbehind next hnext).2⟩

end Jive5ab.Headersearch
