import Jive5ab.Headersearch.CheckReads
import Jive5ab.Headersearch.Framer

/-! # What the framer reads

The framer searches and checks parts of the stream. What it finds there is told of the stream as a
whole. -/
namespace Jive5ab.Headersearch
open Lib

theorem bytesAt_slice (l : List Crc.Byte) (pos : Nat) {n i : Nat} (hi : i < n) :
    bytesAt (slice l pos n) i = bytesAt l (pos + i) := by
  unfold bytesAt slice
  rw [List.getD_eq_getElem?_getD, List.getD_eq_getElem?_getD, List.getElem?_take_of_lt hi,
    List.getElem?_drop]

theorem bytesAt_drop (l : List Crc.Byte) (pos i : Nat) :
    bytesAt (l.drop pos) i = bytesAt l (pos + i) := by
  unfold bytesAt
  rw [List.getD_eq_getElem?_getD, List.getD_eq_getElem?_getD, List.getElem?_drop]

theorem bytesAt_append (l r : List Crc.Byte) (a : Nat) :
    bytesAt (l ++ r) a = if a < l.length then bytesAt l a else bytesAt r (a - l.length) := by
  unfold bytesAt
  rw [List.getD_eq_getElem?_getD, List.getD_eq_getElem?_getD, List.getD_eq_getElem?_getD]
  split
  · rename_i hin
    rw [List.getElem?_append_left hin]
  · rename_i hout
    rw [List.getElem?_append_right (Nat.not_lt.mp hout)]

theorem bytesAt_map_range {n : Nat} {g : Nat → Crc.Byte} (h : ∀ a, n ≤ a → g a = 0) :
    bytesAt ((List.range n).map g) = g := by
  funext a
  unfold bytesAt
  rcases Nat.lt_or_ge a n with hin | hout
  · rw [List.getD_eq_getElem?_getD, List.getElem?_map, List.getElem?_range hin]
    rfl
  · rw [List.getD_eq_default, h a hout]
    rwa [List.length_map, List.length_range]

namespace Framer

/-! ## Sizes -/

/-- The sizes of a format that has frames. -/
structure Sized (f : Framer) : Prop where
  constructed : Constructed f.hdr
  area_le : f.syncwordArea ≤ f.header
  header_le : f.header ≤ f.framesize
  twice_le : 2 * f.syncwordArea ≤ f.framesize
  area_lt : f.syncwordArea < 2 ^ 16
  pos : 0 < f.framesize
  plain : f.size = 0 → f.offset = 0

theorem plain_offset {f : Framer} (h : f.size = 0) (hformat : Constructed f.hdr) :
    f.offset = 0 := by
  revert h
  obtain ⟨trackbitrate, payloadsz, hcheck⟩ := hformat
  unfold size offset syncwordsize syncwordoffset
  cases hfmt : f.hdr.frameformat with
  | mark4 =>
    rw [hfmt] at hcheck
    obtain ⟨hmin, -⟩ := checkFormat_tape rfl hcheck
    dsimp only
    omega
  | mark4St => exact fun h => absurd h (show ¬32 * 4 * 9 / 8 = 0 by decide)
  | _ => exact fun _ => rfl

/-- A format with a sync word has frames. -/
theorem twice_le_framesize {f : Framer} (hformat : Constructed f.hdr) (hsize : 0 < f.size) :
    2 * f.syncwordArea ≤ f.framesize ∧ f.header ≤ f.framesize := by
  obtain ⟨trackbitrate, payloadsz, hcheck⟩ := hformat
  revert hsize
  unfold syncwordArea header framesize size offset syncwordsize syncwordoffset
  generalize f.hdr.ntrack = n at *
  generalize f.hdr.payloadsize = payload at *
  cases hfmt : f.hdr.frameformat with
  | mark4 =>
    rw [hfmt] at hcheck
    obtain ⟨hmin, hdvd⟩ := checkFormat_tape rfl hcheck
    have hle := Nat.le_of_dvd (by decide) hdvd
    have hread : headersize .mark4 n = n * 20 := Nat.mod_eq_of_lt (show n * 20 < 2 ^ 32 by omega)
    intro _
    dsimp only [Headersearch.framesize]
    rw [hread, Nat.mod_eq_of_lt (by omega)]
    omega
  | vlba =>
    rw [hfmt] at hcheck
    obtain ⟨hmin, hdvd⟩ := checkFormat_tape rfl hcheck
    have hle := Nat.le_of_dvd (by decide) hdvd
    have hread : headersize .vlba n = n * 12 := Nat.mod_eq_of_lt (show n * 12 < 2 ^ 32 by omega)
    intro _
    dsimp only [Headersearch.framesize]
    rw [hread, Nat.mod_eq_of_lt (by omega)]
    omega
  | mark4St | vlbaSt =>
    rw [hfmt] at hcheck
    obtain rfl := checkFormat_st rfl hcheck
    simp [Headersearch.framesize, headersize, isSt]
  | mark5b => simp [Headersearch.framesize, headersize, isSt]
  | _ => exact fun hsize => absurd hsize (Nat.lt_irrefl 0)

theorem sized {f : Framer} (hformat : Constructed f.hdr) (hheader : f.header ≤ f.framesize)
    (hpos : 0 < f.framesize) : Sized f := by
  rcases Nat.eq_zero_or_pos f.size with hsize | hsize
  · have hoffset := plain_offset hsize hformat
    have harea : f.syncwordArea = 0 := by
      unfold syncwordArea
      rw [hsize, hoffset]
    refine ⟨hformat, ?_, hheader, ?_, ?_, hpos, fun _ => hoffset⟩
    · rw [harea]
      exact Nat.zero_le _
    · rw [harea]
      exact Nat.zero_le _
    · rw [harea]
      decide
  · have hsizes : f.syncwordArea < f.header ∧ f.header ≤ 1280 := hformat.sizes hsize
    refine ⟨hformat, by omega, hheader, (twice_le_framesize hformat hsize).1, by omega, hpos,
      fun h => ?_⟩
    omega

/-! ## What is searched and checked -/

variable (f : Framer) (stream : List Crc.Byte)

/-- A sync word of the stream. -/
def Syncs (o : Nat) : Prop := Occurs f.word f.size (bytesAt stream) o

/-- The first sync word from a position on. -/
def Next (p o : Nat) : Prop :=
  FirstFrom f.word f.size (bytesAt stream) stream.length p o

/-- The header is longer than what is looked at for a sync word between two blocks. -/
def Behind : Prop := f.strict = true → 2 * f.syncwordArea ≤ f.header

variable {f stream}

theorem syncs_slice {pos n p : Nat} (hp : p + f.size ≤ n) :
    Occurs f.word f.size (bytesAt (slice stream pos n)) p ↔ f.Syncs stream (pos + p) := by
  refine forall₂_congr fun t ht => ?_
  rw [bytesAt_slice stream pos (by omega), Nat.add_assoc]

/-- A search in a part of the stream. -/
theorem search_slice (hsize : 0 < f.size) {pos n : Nat} (hfit : pos + n ≤ stream.length)
    (hn : n < 2 ^ 31 - 1) :
    (f.syncwordsearch (slice stream pos n) = .ok none ∧
      ∀ o, pos ≤ o → o + f.size ≤ pos + n → ¬f.Syncs stream o) ∨
    ∃ o, f.syncwordsearch (slice stream pos n) = .ok (some (o - pos)) ∧ o + f.size ≤ pos + n ∧
      f.Next stream pos o := by
  have hlen : (slice stream pos n).length % 2 ^ 32 = n := by
    rw [length_slice, Nat.min_eq_left (by omega), Nat.mod_eq_of_lt (by omega)]
  have hspec := @BoyerMoore.search_spec _ _ f.word (bytesAt (slice stream pos n)) _ n hsize
  unfold syncwordsearch
  dsimp only
  rw [hlen, if_neg (by omega)]
  cases hfound : BoyerMoore.search f.word f.size (bytesAt (slice stream pos n)) n with
  | none =>
    rw [hfound] at hspec
    refine .inl ⟨rfl, fun o hge hle hsyncs => hspec (o - pos) (by omega) ?_⟩
    rw [syncs_slice (by omega), Nat.add_sub_cancel' hge]
    exact hsyncs
  | some p =>
    rw [hfound] at hspec
    have hle := hspec.le
    refine .inr ⟨pos + p, by rw [Nat.add_sub_cancel_left], by omega, by omega, by omega, ?_, ?_⟩
    · exact (syncs_slice hle).mp hspec.occurs
    · intro o hge hlt hsyncs
      refine hspec.first (o - pos) (Nat.zero_le _) (by omega) ?_
      rw [syncs_slice (by omega), Nat.add_sub_cancel' hge]
      exact hsyncs

/-- A check reads a header. -/
theorem refuses_congr (hs : Sized f) {l l' : List Crc.Byte}
    (h : ∀ a < f.header, bytesAt l a = bytesAt l' a) : f.refuses l = f.refuses l' := by
  unfold refuses
  rw [checkFrame_congr hs.constructed h]

theorem refuses_slice (hs : Sized f) {q n : Nat} (hn : f.header ≤ n) :
    f.refuses (slice stream q n) = f.refuses (stream.drop q) := by
  refine refuses_congr hs fun a ha => ?_
  rw [bytesAt_slice stream q (Nat.lt_of_lt_of_le ha hn), bytesAt_drop]

theorem checkTape_ok {buffer : Framedata} {strict : Strict} {track ntrack offset : Nat}
    {word : List Crc.Byte} {strip : Bool} {size : Nat} {crc : List Crc.Byte → BitVec 32}
    (h : track < ntrack) :
    ∃ b, checkTape buffer strict track ntrack word offset strip size crc = .ok b := by
  unfold checkTape
  split
  · exact ⟨_, rfl⟩
  split
  · exact ⟨_, rfl⟩
  split
  · rename_i hread
    exact absurd (extractBitstream_error hread) (Nat.not_le.mpr h)
  · exact ⟨_, rfl⟩

/-- It does not throw. -/
theorem refuses_ok (hs : Sized f) (l : List Crc.Byte) :
    f.refuses l = .ok true ∨ f.refuses l = .ok false := by
  have hcheck : ∃ b, checkFrame f.hdr (bytesAt l) .chkDefault 5 = .ok b := by
    obtain ⟨trackbitrate, payloadsz, hformat⟩ := hs.constructed
    unfold checkFrame
    cases hfmt : f.hdr.frameformat with
    | mark4 | vlba =>
      rw [hfmt] at hformat
      obtain ⟨hmin, -⟩ := checkFormat_tape rfl hformat
      exact checkTape_ok (by omega)
    | mark4St | vlbaSt =>
      rw [hfmt] at hformat
      have htrack := checkFormat_st rfl hformat
      exact checkTape_ok (by omega)
    | _ => exact ⟨_, rfl⟩
  obtain ⟨b, hb⟩ := hcheck
  unfold refuses
  split
  · rw [hb]
    cases b with
    | false => exact .inl rfl
    | true => exact .inr rfl
  · exact .inr rfl

theorem strict_of_refuses {l : List Crc.Byte} (h : f.refuses l = .ok true) : f.strict = true := by
  unfold refuses at h
  split at h
  · assumption
  · cases h

/-- Without a sync word there is nothing to check. -/
theorem pos_of_refused (hs : Sized f) {l : List Crc.Byte} (h : f.refuses l = .ok true) :
    0 < f.size := by
  obtain ⟨trackbitrate, payloadsz, hformat⟩ := hs.constructed
  have hpos := hs.pos
  have hstrict := strict_of_refuses h
  unfold refuses at h
  rw [if_pos hstrict] at h
  unfold checkFrame at h
  unfold framesize at hpos
  unfold size
  cases hfmt : f.hdr.frameformat with
  | mark4 | vlba =>
    rw [hfmt] at hformat
    obtain ⟨hmin, -⟩ := checkFormat_tape rfl hformat
    change 0 < f.hdr.ntrack * 4
    omega
  | mark5b => exact Nat.succ_pos 3
  | mark4St | vlbaSt => exact show 0 < 32 * 4 * 9 / 8 by decide
  | vdif | vdifLegacy | vdifComplex | vdifLegacyComplex =>
    rw [hfmt] at h
    cases h
  | _ =>
    rw [hfmt] at hpos
    exact absurd hpos (Nat.lt_irrefl 0)

end Framer
end Jive5ab.Headersearch
