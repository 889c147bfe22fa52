import Jive5ab.Headersearch.FramerFrames

/-! # Complete streams

Frames back to back, behind bytes that belong to none. The first may be lost in what is before it;
the others are emitted, if the sync word does not occur where no frame begins. -/
namespace Jive5ab.Headersearch
open Lib

namespace Framer

variable (f : Framer)

/-! ## What is expected -/

/-- Each frame is decoded and has a time. -/
def Follows (m5b : M5bState) (frames : List (List Crc.Byte)) : Prop :=
  ∀ d ∈ f.decoded m5b frames, ∃ t, d.2 = .ok t ∧ t.1 ≠ 0

/-- The first frame is decoded, and all that follow it have a time. -/
def Starts (first : List Crc.Byte) (later : List (List Crc.Byte)) : Prop :=
  ∃ m5b t, frameTimestamp f.hdr f.clock (bytesAt first) f.tmDecodeFlg 0 .cleared = (m5b, .ok t) ∧
    f.Follows m5b later

/-- These are emitted, once each and in order, behind one more at most. -/
def Complete (later : List (List Crc.Byte)) (s : State) : Prop :=
  s.halted = none ∧ ∃ early, early.length ≤ 1 ∧ s.frames.map (·.framedata) = early ++ later

/-! ## When that is so -/

/-- The first frame is the first that is found. -/
structure Aligned (pre first : List Crc.Byte) (later : List (List Crc.Byte)) : Prop where
  next : f.Next (pre ++ (first :: later).flatten) 0 (pre.length + f.offset)
  behind : f.Behind ∨ pre = []
  starts : f.Starts first later

/-- In the first frame no other sync word begins than its own, and what may be found before it can
be decoded. -/
structure Loose (pre first : List Crc.Byte) (later : List (List Crc.Byte)) : Prop where
  syncs : f.Syncs (pre ++ (first :: later).flatten) (pre.length + f.offset)
  alone : f.Alone (pre ++ (first :: later).flatten) (pre.length + f.offset)
  behind : f.Behind
  follows : f.Follows .cleared later
  starts : ∀ q ≤ pre.length, f.Candidate (pre ++ (first :: later).flatten) q →
    f.refuses ((pre ++ (first :: later).flatten).drop q) = .ok false →
    f.Starts (slice (pre ++ (first :: later).flatten) q f.framesize) later

/-- The sync word does not occur where it is taken for that of another frame. -/
def Distinct (pre : List Crc.Byte) : List (List Crc.Byte) → Prop
  | [] => True
  | first :: later =>
    (∀ l ∈ later, f.Own l) ∧ (f.Aligned pre first later ∨ f.Loose pre first later)

variable {f} {stream : List Crc.Byte}

/-! ## Frames that have times -/

theorem timed_follows {m5b : M5bState} {frames : List (List Crc.Byte)} (h : f.Follows m5b frames) :
    ((f.decoded m5b frames).filterMap timed).map (·.framedata) = frames := by
  induction frames generalizing m5b with
  | nil => rfl
  | cons frame frames ih =>
    unfold Follows at h
    rw [decoded] at h ⊢
    cases hdecode : frameTimestamp f.hdr f.clock (bytesAt frame) f.tmDecodeFlg 0 m5b with
    | mk m5b' t =>
      rw [hdecode] at h
      dsimp only at h ⊢
      obtain ⟨⟨t, rfl, htime⟩, hrest⟩ := List.forall_mem_cons.mp h
      have htimed : timed (frame, Except.ok t) = some ⟨frame, t⟩ := if_pos htime
      rw [List.filterMap_cons, htimed, List.map_cons, ih hrest]

/-- Frames that have times are emitted behind what is there. -/
theorem complete_deliverAll {s : State} (hrunning : s.halted = none) (hfew : s.frames.length ≤ 1)
    {qs : List Nat} {later : List (List Crc.Byte)} (hframes : framesAt stream f qs = later)
    (h : f.Follows s.m5b later) : Complete later (f.deliverAll stream qs s) := by
  obtain ⟨hiff, hemitted⟩ := @deliverAll_spec f stream s hrunning qs
  rw [hframes] at hiff hemitted
  have hhalted := hiff.mpr fun d hd => (h d hd).imp fun t ht => ht.1
  refine ⟨hhalted, s.frames.map (·.framedata), by rwa [List.length_map], ?_⟩
  rw [hemitted hhalted, List.map_append, timed_follows h]

theorem deliver_starts {first : List Crc.Byte} {later : List (List Crc.Byte)}
    (h : f.Starts first later) :
    (f.deliver ⟨[], .cleared, [], none⟩ first).halted = none ∧
      (f.deliver ⟨[], .cleared, [], none⟩ first).frames.length ≤ 1 ∧
      f.Follows (f.deliver ⟨[], .cleared, [], none⟩ first).m5b later := by
  obtain ⟨m5b, t, hdecode, hfollows⟩ := h
  rw [deliver_ok hdecode]
  exact ⟨rfl, Option.length_toList_le, hfollows⟩

/-! ## From the frames on -/

/-- Where the header is that long, a frame begins with its sync word. -/
theorem offset_of_behind (hs : Sized f) (hstrict : f.strict = true) (hbehind : f.Behind) :
    f.offset = 0 := by
  have htwice := hbehind hstrict
  obtain ⟨trackbitrate, payloadsz, hcheck⟩ := hs.constructed
  revert htwice
  unfold syncwordArea header size offset syncwordsize syncwordoffset
  cases hfmt : f.hdr.frameformat with
  | mark4 =>
    rw [hfmt] at hcheck
    obtain ⟨hmin, hdvd⟩ := checkFormat_tape rfl hcheck
    have hle := Nat.le_of_dvd (by decide) hdvd
    have hread : headersize .mark4 f.hdr.ntrack = f.hdr.ntrack * 20 :=
      Nat.mod_eq_of_lt (show f.hdr.ntrack * 20 < 2 ^ 32 by omega)
    rw [hread]
    dsimp only
    omega
  | mark4St =>
    rw [hfmt] at hcheck
    rw [checkFormat_st rfl hcheck]
    exact fun h => absurd h (by decide)
  | _ => exact fun _ => rfl

/-- From where no other sync word is before the later frames they are emitted. -/
theorem later_complete (hs : Sized f) {pre first : List Crc.Byte} {later : List (List Crc.Byte)}
    (hwhole : ∀ l ∈ first :: later, f.Whole l) (hown : ∀ l ∈ later, f.Own l) :
    ∃ qs, f.Scan (pre ++ (first :: later).flatten) (pre.length + f.framesize) qs ∧
      ∀ s : State, s.halted = none → s.frames.length ≤ 1 → f.Follows s.m5b later →
        Complete later (f.deliverAll (pre ++ (first :: later).flatten) qs s) := by
  obtain ⟨qs, hscan, hframes⟩ := scan_frames hs
    (fun l hl => hwhole l (List.mem_cons_of_mem first hl)) hown (pre ++ first)
  rw [List.append_assoc, ← List.flatten_cons] at hscan hframes
  rw [List.length_append, (hwhole first List.mem_cons_self).length_eq] at hscan
  exact ⟨qs, hscan, fun s hrunning hfew hfollows =>
    complete_deliverAll hrunning hfew hframes hfollows⟩

/-- Where the first frame stands alone, the framer may be anywhere before the second. -/
theorem resumes_loose (hs : Sized f) (hstrict : f.strict = true) {pre first : List Crc.Byte}
    {later : List (List Crc.Byte)} (hpre : pre.length < f.framesize)
    (hwhole : ∀ l ∈ first :: later, f.Whole l) (hown : ∀ l ∈ later, f.Own l)
    (hloose : f.Loose pre first later) :
    f.Resumes (pre ++ (first :: later).flatten)
      (fun p s => (p ≤ pre.length ∧ s = ⟨[], .cleared, [], none⟩) ∨
        ∃ qs, f.Scan (pre ++ (first :: later).flatten) p qs ∧
          Complete later (f.deliverAll (pre ++ (first :: later).flatten) qs s))
      (Complete later) := by
  generalize hstream : pre ++ (first :: later).flatten = stream
  obtain ⟨qs, hscan, hcomplete⟩ := @later_complete _ hs pre _ _ hwhole hown
  obtain ⟨hsyncs, halone, hbehind, hfollows, hstarts⟩ := hloose
  rw [hstream] at hscan hcomplete hsyncs halone hstarts
  have hoffset := offset_of_behind hs hstrict hbehind
  rw [hoffset, Nat.add_zero] at hsyncs halone
  have hlength : pre.length + f.framesize ≤ stream.length := by
    rw [← hstream, List.length_append, List.flatten_cons, List.length_append,
      (hwhole first List.mem_cons_self).length_eq]
    omega
  -- behind the sync word of the first frame the next is that of the second
  have hlater {x : Nat} (hlt : pre.length < x) (hle : x ≤ pre.length + f.framesize) :
      f.Scan stream x qs := by
    refine hscan.extend hbehind hle fun o hge hlt' => halone o (by omega) ?_
    rwa [hoffset] at hlt'
  have hscanned := @resumes_scan f stream hs (Complete later)
  have hbegin {x : Nat} (hle : x ≤ pre.length + f.framesize) :
      (x ≤ pre.length ∧ (⟨[], .cleared, [], none⟩ : State) = ⟨[], .cleared, [], none⟩) ∨
        ∃ qs, f.Scan stream x qs ∧
          Complete later (f.deliverAll stream qs ⟨[], .cleared, [], none⟩) := by
    rcases Nat.lt_or_ge pre.length x with hafter | hbefore
    · exact .inr ⟨qs, hlater hafter hle, hcomplete _ rfl (Nat.zero_le _) hfollows⟩
    · exact .inl ⟨hbefore, rfl⟩
  constructor
  case advance =>
    rintro p a s (⟨hle, rfl⟩ | hfound) hpa hnone
    · rw [hoffset, Nat.add_zero] at hnone
      have ha : a ≤ pre.length := by
        by_contra hlt
        exact hnone pre.length hle (by omega) hsyncs
      exact .inl ⟨ha, rfl⟩
    · exact .inr (hscanned.advance hfound hpa hnone)
  case tooClose =>
    rintro p o s (⟨hle, rfl⟩ | hfound) hnext hlt
    · have hge := hnext.ge
      omega
    · obtain ⟨hskip, hrestart⟩ := hscanned.tooClose hfound hnext hlt
      exact ⟨.inr hskip, fun B hge hle => .inr (hrestart B hge hle)⟩
  case refused =>
    rintro q x s (⟨hle, rfl⟩ | hfound) hqsyncs hrefused hge harea hlt
    · exact hbegin (by omega)
    · exact .inr (hscanned.refused hfound hqsyncs hrefused hge harea hlt)
  case unsynced =>
    rintro p x s (⟨hle, rfl⟩ | hfound) hnot hrefused hge hlt
    · exact absurd hbehind hnot
    · exact .inr (hscanned.unsynced hfound hnot hrefused hge hlt)
  case accepted =>
    rintro q s (⟨hle, rfl⟩ | hfound) hrunning hqsyncs hfit haccepted
    · obtain ⟨hhalted, hfew, hrest⟩ :=
        deliver_starts (hstarts q hle ⟨hqsyncs, hfit⟩ haccepted)
      refine ⟨fun _ => .inr ⟨qs, hlater (by omega) (by omega), ?_⟩, fun hne => absurd hhalted hne⟩
      exact hcomplete _ hhalted hfew hrest
    · obtain ⟨hgo, hstop⟩ := hscanned.accepted hfound hrunning hqsyncs hfit haccepted
      exact ⟨fun hhalted => .inr (hgo hhalted), hstop⟩
  case stop =>
    rintro p s (⟨hle, rfl⟩ | hfound) hshort
    · omega
    · exact hscanned.stop hfound hshort

/-! ## All frames -/

/-- Where the first frame is the first that is found, they are scanned one after the other. -/
theorem complete_aligned (hs : Sized f) {pre first : List Crc.Byte} {later : List (List Crc.Byte)}
    (hwhole : ∀ l ∈ first :: later, f.Whole l) (hown : ∀ l ∈ later, f.Own l)
    (haligned : f.Aligned pre first later) :
    ∃ qs, f.Scan (pre ++ (first :: later).flatten) 0 qs ∧
      Complete later
        (f.deliverAll (pre ++ (first :: later).flatten) qs ⟨[], .cleared, [], none⟩) := by
  obtain ⟨qs, hscan, hcomplete⟩ := @later_complete _ hs pre _ _ hwhole hown
  obtain ⟨hnext, hbehind, hstarts⟩ := haligned
  obtain ⟨hlength, haccepted⟩ := hwhole first List.mem_cons_self
  obtain ⟨hhalted, hfew, hrest⟩ := deliver_starts hstarts
  have hslice : slice (pre ++ (first :: later).flatten) pre.length f.framesize = first :=
    slice_front hlength
  have hfit : pre.length + f.framesize ≤ (pre ++ (first :: later).flatten).length := by
    rw [List.length_append, List.flatten_cons, List.length_append]
    omega
  have haligned : f.Behind ∨ pre.length = 0 := hbehind.imp_right List.length_eq_zero_iff.mpr
  rw [← hslice, refuses_slice hs hs.header_le] at haccepted
  refine ⟨pre.length :: qs,
    .frame hnext (Nat.zero_le _) hfit haccepted haligned hscan, ?_⟩
  rw [deliverAll_cons rfl, hslice]
  exact hcomplete _ hhalted hfew hrest

section
attribute [local instance] atLeastTwo_8000000

/-- VLBA, of eight tracks. -/
def vlba8 : Framer := ⟨.make .vlba 8 8000000 20000, true, ⟨2025, 61000⟩⟩

end

theorem sized_vlba8 : Sized vlba8 := sized ⟨.ofNat 8000000, 20000, rfl⟩ (by decide) (by decide)

theorem sizes_vlba8 : vlba8.offset = 0 ∧ vlba8.size = 32 ∧ vlba8.syncwordArea = 32 ∧
    vlba8.header = 96 ∧ vlba8.framesize = 20160 := by decide

/-- A frame of which the last byte is ones, as those of the sync word are. -/
def onesByte (a : Nat) : Crc.Byte := if a < 32 ∨ a = 20159 then 0xff else 0

def onesFrame : List Crc.Byte := (List.range 20160).map onesByte

theorem bytesAt_onesFrame : bytesAt onesFrame = onesByte :=
  bytesAt_map_range fun a ha => if_neg (by omega)

theorem length_onesFrame : onesFrame.length = 20160 := by
  rw [onesFrame, List.length_map, List.length_range]

theorem ones_refused : vlba8.refuses (List.replicate 32 0xff) = .ok false ∧
    vlba8.refuses (List.replicate 33 0xff) = .ok true := by
  decide +kernel

theorem whole_onesFrame : vlba8.Whole onesFrame := by
  refine ⟨length_onesFrame, ?_⟩
  have hread : vlba8.refuses onesFrame = vlba8.refuses (List.replicate 32 0xff) := by
    refine refuses_congr sized_vlba8 fun a ha => ?_
    have hall : ∀ a : Fin 96, onesByte a = bytesAt (List.replicate 32 0xff) a := by decide
    rw [bytesAt_onesFrame]
    exact hall ⟨a, ha⟩
  rw [hread]
  exact ones_refused.1

/-- Each decodes on its own. -/
theorem follows_onesFrame : vlba8.Follows .cleared [onesFrame, onesFrame] := by
  unfold Follows decoded decoded decoded
  rw [bytesAt_onesFrame]
  exact List.forall_mem_cons.mpr ⟨⟨(1763683200, some 0), by decide +kernel, by decide⟩,
    List.forall_mem_singleton.mpr ⟨(1763683200, some 0), by decide +kernel, by decide⟩⟩

/-- A byte of ones, and two frames. -/
def onesStream : List Crc.Byte := [0xff] ++ [onesFrame, onesFrame].flatten

theorem length_onesStream : onesStream.length = 40321 := by
  rw [onesStream, List.length_append, List.flatten_cons, List.flatten_cons, List.flatten_nil,
    List.append_nil, List.length_append, length_onesFrame]
  rfl

theorem bytesAt_onesStream (a : Nat) :
    bytesAt onesStream a =
      if a ≤ 32 ∨ (20160 ≤ a ∧ a ≤ 20192) ∨ a = 40320 then 0xff else 0 := by
  rw [onesStream, bytesAt_append, List.flatten_cons, List.flatten_cons, List.flatten_nil,
    List.append_nil, bytesAt_append, bytesAt_onesFrame, length_onesFrame]
  unfold onesByte
  rcases Nat.eq_zero_or_pos a with rfl | hpos
  · rfl
  · rw [if_neg (show ¬a < [(0xff : Crc.Byte)].length from Nat.not_lt.mpr hpos)]
    change (if a - 1 < 20160 then _ else _) = _
    split
    · refine if_congr ?_ rfl rfl
      change a - 1 < 32 ∨ a - 1 = 20159 ↔ _
      omega
    · refine if_congr ?_ rfl rfl
      change a - 1 - 20160 < 32 ∨ a - 1 - 20160 = 20159 ↔ _
      omega

theorem ones_of_syncs {o t : Nat} (h : vlba8.Syncs onesStream o) (ht : t < 32) :
    o + t ≤ 32 ∨ (20160 ≤ o + t ∧ o + t ≤ 20192) ∨ o + t = 40320 := by
  have hbyte : bytesAt onesStream (o + t) = 0xff := h t ht
  rw [bytesAt_onesStream] at hbyte
  by_contra hnone
  rw [if_neg hnone] at hbyte
  revert hbyte
  decide

theorem syncs_onesStream {o : Nat} (h : o = 0 ∨ o = 20160) : vlba8.Syncs onesStream o := by
  intro t ht
  have ht : t < 32 := ht
  rw [bytesAt_onesStream, if_pos (by omega)]
  rfl

/-- A bit more than the sync word, and the checksum is wrong. -/
theorem onesStream_refused {q : Nat} (h : q = 0 ∨ q = 20160) :
    vlba8.refuses (onesStream.drop q) = .ok true := by
  have hread : vlba8.refuses (onesStream.drop q) = vlba8.refuses (List.replicate 33 0xff) := by
    refine refuses_congr sized_vlba8 fun a ha => ?_
    have ha : a < 96 := ha
    have hall : ∀ a : Fin 96, (if a.val ≤ 32 then 0xff else 0) =
      bytesAt (List.replicate 33 0xff) a := by decide
    rw [bytesAt_drop, bytesAt_onesStream, ← hall ⟨a, ha⟩]
    refine if_congr ?_ rfl rfl
    change _ ↔ a ≤ 32
    omega
  rw [hread]
  exact ones_refused.2

end Framer
end Jive5ab.Headersearch
