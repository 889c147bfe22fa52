import Jive5ab.Headersearch.FramerScan

/-! # Frames in a row

What is emitted of a stream that is made of frames: all of them, as long as their times can be
decoded. -/
namespace Jive5ab.Headersearch
open Lib

namespace Framer

variable {f : Framer} {stream : List Crc.Byte}

/-! ## Times -/

variable (f) in
/-- The times of frames, decoded one after the other. -/
def decoded : M5bState → List (List Crc.Byte) → List (List Crc.Byte × Except HeaderError TimeStamp)
  | _, [] => []
  | m5b, frame :: frames =>
    let (m5b, t) := frameTimestamp f.hdr f.clock (bytesAt frame) f.tmDecodeFlg 0 m5b
    (frame, t) :: decoded m5b frames

/-- A frame that has a time. -/
def timed : List Crc.Byte × Except HeaderError TimeStamp → Option Frame
  | (frame, .ok t) => if t.1 ≠ 0 then some ⟨frame, t⟩ else none
  | (_, .error _) => none

variable (stream) in
/-- The frames that begin at these positions. -/
def framesAt (f : Framer) (qs : List Nat) : List (List Crc.Byte) :=
  qs.map fun q => slice stream q f.framesize

theorem deliver_ok {s : State} {frame : List Crc.Byte} {m5b : M5bState} {t : TimeStamp}
    (h : frameTimestamp f.hdr f.clock (bytesAt frame) f.tmDecodeFlg 0 s.m5b = (m5b, .ok t)) :
    f.deliver s frame =
      { s with m5b, frames := s.frames ++ (timed (frame, .ok t)).toList } := by
  unfold deliver timed
  rw [h]
  dsimp only
  split
  · rfl
  · rw [Option.toList_none, List.append_nil]

/-- Without an exception what has a time is emitted. -/
theorem deliverAll_spec {s : State} (hrunning : s.halted = none) (qs : List Nat) :
    ((f.deliverAll stream qs s).halted = none ↔
      ∀ d ∈ f.decoded s.m5b (framesAt stream f qs), ∃ t, d.2 = .ok t) ∧
    ((f.deliverAll stream qs s).halted = none →
      (f.deliverAll stream qs s).frames =
        s.frames ++ (f.decoded s.m5b (framesAt stream f qs)).filterMap timed) := by
  induction qs generalizing s with
  | nil => exact ⟨⟨fun _ => nofun, fun _ => hrunning⟩, fun _ => (List.append_nil _).symm⟩
  | cons q qs ih =>
    rw [deliverAll_cons hrunning, framesAt, List.map_cons, ← framesAt, decoded]
    cases hdecode : frameTimestamp f.hdr f.clock (bytesAt (slice stream q f.framesize))
      f.tmDecodeFlg 0 s.m5b with
    | mk m5b t =>
      dsimp only
      rw [List.forall_mem_cons]
      cases t with
      | error e =>
        have hthrown : (f.deliver s (slice stream q f.framesize)).halted = some (.header e) := by
          unfold deliver
          rw [hdecode]
        rw [deliverAll_halted (hthrown ▸ nofun), hthrown]
        exact ⟨⟨nofun, fun h => nomatch h.1⟩, nofun⟩
      | ok t =>
        obtain ⟨hiff, hframes⟩ := @ih (f.deliver s (slice stream q f.framesize)) (by
          rw [deliver_ok hdecode]
          exact hrunning)
        rw [deliver_ok hdecode] at hiff hframes ⊢
        refine ⟨⟨fun h => ⟨⟨t, rfl⟩, hiff.mp h⟩, fun h => hiff.mpr h.2⟩, fun h => ?_⟩
        rw [hframes h, List.filterMap_cons]
        cases timed (slice stream q f.framesize, Except.ok t) with
        | none => simp
        | some frame => simp

/-! ## Frames back to back -/

variable (f) in
/-- The first sync word of a frame is its own. -/
def Own (frame : List Crc.Byte) : Prop :=
  FirstFrom f.word f.size (bytesAt frame) frame.length 0 f.offset

variable (f) in
/-- A frame of which the header is fine. -/
structure Whole (frame : List Crc.Byte) : Prop where
  length_eq : frame.length = f.framesize
  accepted : f.refuses frame = .ok false

theorem Own.next {frame : List Crc.Byte} (h : f.Own frame) (hlength : frame.length = f.framesize)
    {p : Nat} (hslice : slice stream p f.framesize = frame) (hfit : p + f.framesize ≤ stream.length) :
    f.Next stream p (p + f.offset) := by
  have hle := h.le
  refine ⟨Nat.le_add_right _ _, by omega, ?_, fun o hge hlt hsyncs => ?_⟩
  · rw [← hslice] at h
    exact (syncs_slice (by omega)).mp h.occurs
  · refine h.first (o - p) (Nat.zero_le _) (by omega) ?_
    rw [← hslice, syncs_slice (by omega), Nat.add_sub_cancel' hge]
    exact hsyncs

theorem slice_front {pre frame post : List Crc.Byte} (hlength : frame.length = f.framesize) :
    slice (pre ++ (frame ++ post)) pre.length f.framesize = frame := by
  rw [slice, List.drop_left, ← hlength, List.take_left]

/-- Frames back to back are scanned from one to the next. -/
theorem scan_frames (hs : Sized f) {frames : List (List Crc.Byte)} (hwhole : ∀ l ∈ frames, f.Whole l)
    (hown : ∀ l ∈ frames, f.Own l) (pre : List Crc.Byte) :
    ∃ qs, f.Scan (pre ++ frames.flatten) pre.length qs ∧
      framesAt (pre ++ frames.flatten) f qs = frames := by
  have hpos := hs.pos
  induction frames generalizing pre with
  | nil =>
    refine ⟨[], .stop fun q hq hcandidate => ?_, rfl⟩
    have hle := hcandidate.complete
    rw [List.flatten_nil, List.append_nil] at hle
    omega
  | cons frame frames ih =>
    obtain ⟨hlength, haccepted⟩ := hwhole frame List.mem_cons_self
    obtain ⟨qs, hscan, hframes⟩ := ih (fun l hl => hwhole l (List.mem_cons_of_mem _ hl))
      (fun l hl => hown l (List.mem_cons_of_mem _ hl)) (pre ++ frame)
    rw [List.append_assoc, ← List.flatten_cons] at hscan hframes
    rw [List.length_append, hlength] at hscan
    have hslice : slice (pre ++ (frame :: frames).flatten) pre.length f.framesize = frame :=
      slice_front hlength
    have hfit : pre.length + f.framesize ≤ (pre ++ (frame :: frames).flatten).length := by
      rw [List.length_append, List.flatten_cons, List.length_append]
      omega
    rw [← hslice, refuses_slice hs hs.header_le] at haccepted
    refine ⟨pre.length :: qs, .frame ((hown frame List.mem_cons_self).next hlength hslice hfit)
      (Nat.le_refl _) hfit haccepted (.inr rfl) hscan, ?_⟩
    rw [framesAt, List.map_cons, ← framesAt, hslice, hframes]

/-! ## The same frames in other blocks -/

/-- Mark5B, of 800 frames a second. -/
def mark5b800 : Framer := ⟨.make .mark5b 32 2000000 10000, true, ⟨2025, 61000⟩⟩

theorem sized_mark5b800 : Sized mark5b800 :=
  sized ⟨.ofNat 2000000, 10000, rfl⟩ (by decide) (by decide)

/-- A frame that is zero behind these bytes. -/
def zeroBehind (l : List Crc.Byte) : List Crc.Byte := l ++ List.replicate (10016 - l.length) 0

def syncBytes : List Crc.Byte := [0xed, 0xde, 0xad, 0xab]

theorem bytesAt_zeroBehind (l : List Crc.Byte) : bytesAt (zeroBehind l) = bytesAt l := by
  funext a
  unfold bytesAt zeroBehind
  rw [List.getD_eq_getElem?_getD, List.getD_eq_getElem?_getD]
  rcases Nat.lt_or_ge a l.length with hin | hout
  · rw [List.getElem?_append_left hin]
  · rw [List.getElem?_append_right hout, List.getElem?_eq_none hout, List.getElem?_replicate]
    split <;> rfl

theorem length_zeroBehind {l : List Crc.Byte} (h : l.length ≤ 10016) :
    (zeroBehind l).length = mark5b800.framesize := by
  rw [zeroBehind, List.length_append, List.length_replicate]
  exact Nat.add_sub_cancel' h

theorem refuses_zeroBehind (l : List Crc.Byte) :
    mark5b800.refuses (zeroBehind l) = mark5b800.refuses l := by
  unfold refuses
  rw [bytesAt_zeroBehind]

theorem own_zeroBehind {l : List Crc.Byte} (hlength : l.length ≤ 10016)
    (hsyncs : Occurs mark5b800.word 4 (bytesAt l) 0) : mark5b800.Own (zeroBehind l) := by
  refine firstFrom_self ?_ ?_
  · rw [length_zeroBehind hlength]
    decide
  · rw [bytesAt_zeroBehind]
    exact hsyncs

theorem syncBytes_decoded : mark5b800.refuses syncBytes = .ok false ∧
    (frameTimestamp mark5b800.hdr mark5b800.clock (bytesAt syncBytes) mark5b800.tmDecodeFlg 0
      .cleared).2 = .ok (1763683200, some 0) := by
  decide +kernel

theorem whole_syncBytes : mark5b800.Whole (zeroBehind syncBytes) :=
  ⟨length_zeroBehind (by decide), (refuses_zeroBehind _).trans syncBytes_decoded.1⟩

theorem own_syncBytes : mark5b800.Own (zeroBehind syncBytes) := own_zeroBehind (by decide) (by decide)

theorem time_syncBytes : ∃ m5b, frameTimestamp mark5b800.hdr mark5b800.clock
    (bytesAt (zeroBehind syncBytes)) mark5b800.tmDecodeFlg 0 .cleared =
      (m5b, .ok (1763683200, some 0)) := by
  rw [bytesAt_zeroBehind]
  exact ⟨_, Prod.ext rfl syncBytes_decoded.2⟩

theorem length_syncBytes : (zeroBehind syncBytes).length = 10016 := length_zeroBehind (by decide)

theorem scan_syncBytes : ∃ qs, mark5b800.Scan [zeroBehind syncBytes].flatten 0 qs := by
  obtain ⟨qs, hscan, -⟩ := scan_frames sized_mark5b800 (List.forall_mem_singleton.mpr whole_syncBytes)
    (List.forall_mem_singleton.mpr own_syncBytes) []
  exact ⟨qs, hscan⟩

/-- A sync word with a checksum that is wrong, and a frame right behind it. -/
def falseSync : List Crc.Byte := syncBytes ++ List.replicate 12 1

theorem falseSync_refused : mark5b800.refuses falseSync = .ok true := by decide +kernel

theorem bytesAt_syncBytes_ne {a : Nat} (h : 0 < a) : bytesAt syncBytes a ≠ 0xed := by
  rcases Nat.lt_or_ge a 4 with hin | hout
  · have hall : ∀ a : Fin 4, 0 < a.val → bytesAt syncBytes a ≠ 0xed := by decide
    exact hall ⟨a, hin⟩ h
  · unfold bytesAt
    rw [List.getD_eq_default _ _ hout]
    decide

/-- There are the two sync words, and no more. -/
theorem syncs_falseSync {o : Nat}
    (h : mark5b800.Syncs (falseSync ++ zeroBehind syncBytes) o) : o = 0 ∨ o = 16 := by
  have hbyte : bytesAt (falseSync ++ zeroBehind syncBytes) o = 0xed := h 0 (by decide)
  rw [bytesAt_append, bytesAt_zeroBehind] at hbyte
  split at hbyte
  · rename_i hin
    have hall : ∀ o : Fin 16, bytesAt falseSync o = 0xed → o.val = 0 := by decide
    exact .inl (hall ⟨o, hin⟩ hbyte)
  · rename_i hout
    have hlength : falseSync.length = 16 := rfl
    rw [hlength] at hbyte hout
    by_contra hne
    exact bytesAt_syncBytes_ne (by omega) hbyte

def falseThenTrue : List Crc.Byte := falseSync ++ zeroBehind syncBytes

theorem length_falseThenTrue : falseThenTrue.length = 10032 := by
  rw [falseThenTrue, List.length_append, length_syncBytes]
  rfl

theorem sizes_mark5b800 : mark5b800.offset = 0 ∧ mark5b800.size = 4 ∧ mark5b800.syncwordArea = 4 ∧
    mark5b800.header = 16 ∧ mark5b800.framesize = 10016 := by decide

theorem next_falseThenTrue {p o : Nat} (ho : o = 0 ∨ o = 16) (hp : p ≤ o)
    (hfirst : p ≤ 0 → o = 0) : mark5b800.Next falseThenTrue p o := by
  obtain ⟨-, hsize, -⟩ := sizes_mark5b800
  refine ⟨hp, ?_, ?_, fun r hr hlt hsyncs => ?_⟩
  · rw [length_falseThenTrue, hsize]
    omega
  · rcases ho with rfl | rfl
    · intro t ht
      have ht : t < 4 := ht
      rw [falseThenTrue, bytesAt_append, if_pos (by change 0 + t < 16; omega)]
      have hall : ∀ t : Fin 4, bytesAt falseSync (0 + t.val) = mark5b800.word t.val := by decide
      exact hall ⟨t, ht⟩
    · have hfit : mark5b800.size ≤ (zeroBehind syncBytes).length := by
        rw [length_syncBytes, hsize]
        decide
      intro t ht
      have hlength : falseSync.length = 16 := rfl
      rw [falseThenTrue, bytesAt_append, hlength, if_neg (by omega), Nat.add_sub_cancel_left]
      have hocc := own_syncBytes.occurs t ht
      rwa [sizes_mark5b800.1, Nat.zero_add] at hocc
  · rcases syncs_falseSync hsyncs with rfl | rfl
    · have := hfirst hr
      omega
    · omega

theorem falseThenTrue_refused : mark5b800.refuses (falseThenTrue.drop 0) = .ok true := by
  have hslice : slice falseThenTrue 0 16 = falseSync := by
    rw [falseThenTrue, slice, List.drop_zero]
    exact List.take_left' rfl
  rw [← refuses_slice sized_mark5b800 (Nat.le_of_eq sizes_mark5b800.2.2.2.1), hslice]
  exact falseSync_refused

/-- In one block the frame is found. -/
theorem frames_oneBlock : (mark5b800.framer [falseThenTrue]).frames ≠ [] := by
  obtain ⟨hoffset, hsize, harea, hheader, hframesize⟩ := sizes_mark5b800
  have hlength := length_falseThenTrue
  have hb : BlockAt falseThenTrue 0 falseThenTrue :=
    ⟨slice_all _, Nat.le_of_eq (Nat.zero_add _), by omega⟩
  have hfirst : mark5b800.mainStep falseThenTrue ⟨[], .cleared, [], none⟩ 0 =
      (⟨[], .cleared, [], none⟩, 4) := by
    have hnext : mark5b800.Next falseThenTrue (0 + 0) (0 + mark5b800.offset) := by
      rw [hoffset]
      exact next_falseThenTrue (.inl rfl) (Nat.le_refl _) fun _ => rfl
    rw [mainStep_found sized_mark5b800 hb (by omega) hnext (by omega) (Nat.le_refl _),
      if_neg (by omega), if_pos falseThenTrue_refused, harea]
  have hsecond : mark5b800.mainStep falseThenTrue ⟨[], .cleared, [], none⟩ 4 =
      (mark5b800.deliver ⟨[], .cleared, [], none⟩ (zeroBehind syncBytes), 10032) := by
    have hnext : mark5b800.Next falseThenTrue (0 + 4) (16 + mark5b800.offset) := by
      rw [hoffset]
      exact next_falseThenTrue (.inr rfl) (by omega) fun h => by omega
    have hdrop : falseThenTrue.drop 16 = zeroBehind syncBytes := List.drop_left' rfl
    have hslice : slice falseThenTrue 16 mark5b800.framesize = zeroBehind syncBytes := by
      rw [slice, hdrop, hframesize, ← length_syncBytes, List.take_length]
    rw [mainStep_found sized_mark5b800 hb (by omega) hnext (by omega) (by omega),
      if_neg (by omega), hdrop, whole_syncBytes.accepted,
      if_neg fun h => Bool.false_ne_true (Except.ok.inj h), hslice, hframesize]
  have htaken : (mark5b800.framer [falseThenTrue]) =
      mark5b800.deliver ⟨[], .cleared, [], none⟩ (zeroBehind syncBytes) := by
    unfold framer
    rw [if_neg (by decide), List.foldl_cons, List.foldl_nil, takeBlock_cleared rfl, hlength,
      mainLoop_step (by omega) rfl (by omega) hfirst,
      mainLoop_step (by omega) rfl (by omega) hsecond, mainLoop_end (by omega) (by omega)]
  obtain ⟨m5b, htime⟩ := time_syncBytes
  rw [htaken, deliver_ok htime]
  exact List.cons_ne_nil _ _

/-- The header that is refused takes the frame with it, if a block ends behind it. -/
theorem frames_refused {f : Framer} (hs : Sized f)
    (harea : f.syncwordArea = 4) (hheader : f.header = 16) (hframesize : f.framesize = 10016)
    {stream head frame : List Crc.Byte} (hlength : stream.length = 10032)
    (hhead : head.length = 16) (hframe : frame.length = 10016) (hslice : slice stream 0 16 = head)
    (hdrop : stream.drop 16 = frame) (hnext : f.Next stream (0 + 0) (0 + f.offset))
    (hrefused : f.refuses (stream.drop 0) = .ok true)
    (hsyncs : ∀ o, f.Syncs stream o → o = 0 ∨ o = 16) : (f.framer [head, frame]).frames = [] := by
  have hne : head ≠ [] := by
    rintro rfl
    cases hhead
  have hb : BlockAt stream 0 head := ⟨by rwa [hhead], by omega, by omega⟩
  have hb' : BlockAt stream 16 frame := by
    refine ⟨?_, by omega, by omega⟩
    rw [slice, hdrop, List.take_length]
  have hfirst : f.mainStep head ⟨[], .cleared, [], none⟩ 0 =
      (⟨head, .cleared, [], none⟩, 16) := by
    rw [mainStep_found hs hb (by omega) hnext (by omega) (Nat.le_refl _),
      if_pos (by omega), hhead, Nat.zero_add, Nat.sub_zero, hslice]
    rfl
  have hsecond : f.cachedStep frame ⟨head, .cleared, [], none⟩ 0 =
      (⟨[], .cleared, [], none⟩, 9996) := by
    have hheld : head = slice stream 0 (16 + 0 - 0) := hslice.symm
    have hncpy : 10000 = if 16 + 0 - 0 < f.syncwordArea then
        min (2 * f.syncwordArea - 1 - (16 + 0 - 0)) (frame.length - 0)
        else min (f.framesize - (16 + 0 - 0)) (frame.length - 0) := by
      rw [if_neg (by omega)]
      omega
    rw [cachedStep_eq hs hb' (by omega) (Nat.zero_le _) hheld hncpy rfl,
      if_pos ⟨by omega, hrefused⟩, if_pos (by omega), harea]
    rfl
  have hthird : f.mainStep frame ⟨[], .cleared, [], none⟩ 9996 =
      (⟨slice stream (16 + 10016 - 3) 3, .cleared, [], none⟩, 10016) := by
    have hkeep : 3 = min (f.syncwordArea - 1) (frame.length - 9996) := by
      omega
    rw [mainStep_none hs hb' (by omega) (fun o hge _ ho => ?_) hkeep, hframe]
    · rfl
    · have := hsyncs o ho
      omega
  have htake : f.takeBlock ⟨[], .cleared, [], none⟩ head =
      ⟨head, .cleared, [], none⟩ := by
    rw [takeBlock_cleared rfl, hhead, mainLoop_step (by omega) rfl (by omega) hfirst,
      mainLoop_end (by omega) (by omega)]
  have htake' : f.takeBlock ⟨head, .cleared, [], none⟩ frame =
      ⟨slice stream (16 + 10016 - 3) 3, .cleared, [], none⟩ := by
    unfold takeBlock
    rw [hframe, cachedLoop_step (by omega) rfl hne (by omega) hsecond,
      cachedLoop_end (by omega) (.inl rfl)]
    dsimp only
    rw [mainLoop_step (by omega) rfl (by omega) hthird, mainLoop_end (by omega) (by omega)]
  unfold framer
  rw [if_neg (by omega), List.foldl_cons, List.foldl_cons, List.foldl_nil, htake, htake']

theorem frames_twoBlocks : (mark5b800.framer [falseSync, zeroBehind syncBytes]).frames = [] := by
  obtain ⟨hoffset, hsize, harea, hheader, hframesize⟩ := sizes_mark5b800
  have hslice : slice falseThenTrue 0 16 = falseSync := by
    rw [falseThenTrue, slice, List.drop_zero]
    exact List.take_left' rfl
  have hnext : mark5b800.Next falseThenTrue (0 + 0) (0 + mark5b800.offset) := by
    rw [hoffset]
    exact next_falseThenTrue (.inl rfl) (Nat.le_refl _) fun _ => rfl
  exact frames_refused sized_mark5b800 harea hheader hframesize length_falseThenTrue rfl
    length_syncBytes hslice (List.drop_left' rfl) hnext falseThenTrue_refused
    fun _ => syncs_falseSync

variable (f) in
/-- The whole stream is taken, and what has a valid header and a time is emitted. -/
def Robust (qs : List Nat) (blocks : List (List Crc.Byte)) : Prop :=
  (f.framer blocks).halted = none ∧
    (f.framer blocks).frames =
      (f.decoded .cleared (framesAt blocks.flatten f qs)).filterMap timed

/-- A header that is fine, of a frame number that no second has. -/
def lateFrame : List Crc.Byte := syncBytes ++ [0xff, 0x7f]

theorem lateFrame_decoded : mark5b800.refuses lateFrame = .ok false ∧
    (frameTimestamp mark5b800.hdr mark5b800.clock (bytesAt lateFrame) mark5b800.tmDecodeFlg 0
      .cleared).2 = .error .framenoOutOfRange := by
  decide +kernel

theorem whole_lateFrame : mark5b800.Whole (zeroBehind lateFrame) :=
  ⟨length_zeroBehind (by decide), (refuses_zeroBehind _).trans lateFrame_decoded.1⟩

theorem own_lateFrame : mark5b800.Own (zeroBehind lateFrame) := own_zeroBehind (by decide) (by decide)

theorem time_lateFrame : ∃ m5b, frameTimestamp mark5b800.hdr mark5b800.clock
    (bytesAt (zeroBehind lateFrame)) mark5b800.tmDecodeFlg 0 .cleared =
      (m5b, .error .framenoOutOfRange) := by
  rw [bytesAt_zeroBehind]
  exact ⟨_, Prod.ext rfl lateFrame_decoded.2⟩

theorem deliverAll_eq (qs : List Nat) (s : State) :
    f.deliverAll stream qs s =
      (framesAt stream f qs).foldl (fun s l => if s.halted = none then f.deliver s l else s) s := by
  rw [framesAt, List.foldl_map]
  rfl

end Framer
end Jive5ab.Headersearch
