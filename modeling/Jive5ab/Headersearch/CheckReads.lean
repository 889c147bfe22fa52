import Jive5ab.Headersearch.FirstHeader

/-! # What a check reads

The check of a header depends on the bytes of the header alone. -/
namespace Jive5ab.Headersearch
open Lib

/-! ## A check reads the header -/

theorem extractBitstream_congr {stripParity : Bool} {track ntrack nbytes : Nat}
    {buffer buffer' : Framedata} (hdvd : 8 ∣ ntrack)
    (h : ∀ a < ntrack * nbytes * (if stripParity then 9 else 8) / 8, buffer a = buffer' a) :
    extractBitstream stripParity track ntrack nbytes buffer =
      extractBitstream stripParity track ntrack nbytes buffer' := by
  unfold extractBitstream
  split
  · rfl
  · rename_i htrack
    refine congrArg Except.ok (List.map_congr_left fun m hm => byteOf_congr fun j hj => ?_)
    have hm : m < nbytes := List.mem_range.mp hm
    obtain ⟨k, rfl⟩ := hdvd
    have hk : track / 8 < k := by omega
    have hdiv : 8 * k / 8 = k := by omega
    have hin (w step : Nat) (hstep : step < w * nbytes) :
        track / 8 + k * step < 8 * k * nbytes * w / 8 := by
      have hmul : k * (step + 1) ≤ k * (w * nbytes) := Nat.mul_le_mul_left k hstep
      have hsize : 8 * k * nbytes * w = 8 * (k * (w * nbytes)) := by ring
      rw [hsize, Nat.mul_div_cancel_left _ (by decide)]
      rw [Nat.mul_succ] at hmul
      omega
    dsimp only
    rw [hdiv]
    cases stripParity with
    | false =>
      rw [if_neg Bool.false_ne_true] at h ⊢
      rw [h _ (hin 8 _ (by omega))]
    | true =>
      rw [if_pos rfl] at h ⊢
      rw [h _ (hin 9 _ (by omega))]

theorem zeroFollows_congr {buffer buffer' : Framedata} {byte step n : Nat}
    (h : ∀ i < n, buffer (byte + i * step) = buffer' (byte + i * step)) :
    zeroFollows buffer byte step n = zeroFollows buffer' byte step n := by
  induction n generalizing byte with
  | zero => rfl
  | succ n ih =>
    have hfirst := h 0 (Nat.succ_pos n)
    rw [Nat.zero_mul, Nat.add_zero] at hfirst
    unfold zeroFollows
    rw [hfirst, @ih (byte + step) fun i hi => ?_]
    have hnext := h (i + 1) (by omega)
    rwa [Nat.succ_mul, Nat.add_comm (i * step), ← Nat.add_assoc] at hnext

theorem checkTape_congr {buffer buffer' : Framedata} {strict : Strict} {track ntrack offset : Nat}
    {word : List Crc.Byte} {strip : Bool} {size : Nat} {crc : List Crc.Byte → BitVec 32}
    (hdvd : 8 ∣ ntrack) (hpos : 0 < ntrack)
    (hsize : offset + word.length + ntrack ≤ ntrack * size)
    (h : ∀ a < ntrack * size * (if strip then 9 else 8) / 8, buffer a = buffer' a) :
    checkTape buffer strict track ntrack word offset strip size crc =
      checkTape buffer' strict track ntrack word offset strip size crc := by
  have hbits : ntrack * size ≤ ntrack * size * (if strip then 9 else 8) / 8 := by
    split <;> omega
  have hsync : checkSyncword word offset buffer = checkSyncword word offset buffer' := by
    unfold checkSyncword
    rw [Bool.eq_iff_iff, List.all_eq_true, List.all_eq_true]
    refine forall₂_congr fun i hi => ?_
    have hi := List.mem_range.mp hi
    rw [h _ (by omega)]
  have hzero : zeroFollows buffer (offset + word.length) (ntrack / 8) 8 =
      zeroFollows buffer' (offset + word.length) (ntrack / 8) 8 := by
    refine zeroFollows_congr fun i hi => h _ ?_
    have hmul : i * (ntrack / 8) ≤ 7 * (ntrack / 8) := Nat.mul_le_mul_right _ (by omega)
    omega
  unfold checkTape
  rw [hsync, hzero, extractBitstream_congr hdvd h]

theorem wordAt_congr {buffer buffer' : Framedata} {i n : Nat} (hi : 4 * i + 3 < n)
    (h : ∀ a < n, buffer a = buffer' a) : wordAt buffer i = wordAt buffer' i := by
  unfold wordAt
  rw [h _ hi, h (4 * i + 2) (by omega), h (4 * i + 1) (by omega), h (4 * i) (by omega)]

theorem eight_dvd {n : Nat} (hmin : 8 ≤ n) (h : n ∣ 64) : 8 ∣ n := by
  have hall : ∀ n : Fin 65, 8 ≤ n.val → n.val ∣ 64 → 8 ∣ n.val := by decide
  exact hall ⟨n, Nat.lt_succ_of_le (Nat.le_of_dvd (by decide) h)⟩ hmin h

/-- What a check reads is in the header. -/
theorem checkFrame_congr {hdr : Headersearch} {buffer buffer' : Framedata} {strict : Strict}
    {track : Nat} (hformat : Constructed hdr)
    (h : ∀ a < headersize hdr.frameformat hdr.ntrack, buffer a = buffer' a) :
    checkFrame hdr buffer strict track = checkFrame hdr buffer' strict track := by
  obtain ⟨trackbitrate, payloadsz, hcheck⟩ := hformat
  obtain ⟨fmt, ntrack, bitrate, payloadsize, state⟩ := hdr
  dsimp only at hcheck h
  cases fmt with
  | mark4 =>
    obtain ⟨hmin, hdvd⟩ := checkFormat_tape rfl hcheck
    have hle := Nat.le_of_dvd (by decide) hdvd
    have hread : headersize .mark4 ntrack = ntrack * 20 :=
      Nat.mod_eq_of_lt (show ntrack * 20 < 2 ^ 32 by omega)
    have hsize : 8 * ntrack + (mark4Syncword ntrack).length + ntrack ≤ ntrack * 20 := by
      rw [mark4Syncword, List.length_replicate]
      omega
    rw [hread] at h
    refine @checkTape_congr buffer buffer' strict track ntrack (8 * ntrack) (mark4Syncword ntrack)
      false 20 crc12Mark4 (eight_dvd hmin hdvd) (by omega) hsize fun a ha => h a ?_
    rw [if_neg Bool.false_ne_true] at ha
    omega
  | vlba =>
    obtain ⟨hmin, hdvd⟩ := checkFormat_tape rfl hcheck
    have hle := Nat.le_of_dvd (by decide) hdvd
    have hread : headersize .vlba ntrack = ntrack * 12 :=
      Nat.mod_eq_of_lt (show ntrack * 12 < 2 ^ 32 by omega)
    have hsize : 0 + (mark4Syncword ntrack).length + ntrack ≤ ntrack * 12 := by
      rw [mark4Syncword, List.length_replicate]
      omega
    rw [hread] at h
    refine @checkTape_congr buffer buffer' strict track ntrack 0 (mark4Syncword ntrack) false 12 _
      (eight_dvd hmin hdvd) (by omega) hsize fun a ha => h a ?_
    rw [if_neg Bool.false_ne_true] at ha
    omega
  | mark4St =>
    obtain rfl := checkFormat_st rfl hcheck
    have hread : headersize .mark4St 32 = 32 * 20 * (if true = true then 9 else 8) / 8 := by decide
    have hsize : stSyncwordoffset + stSyncword.length + 32 ≤ 32 * 20 := by decide +kernel
    rw [hread] at h
    exact @checkTape_congr buffer buffer' strict track 32 stSyncwordoffset stSyncword true 20
      crc12Mark4 (Nat.dvd_mul_right 8 4) (Nat.succ_pos 31) hsize h
  | vlbaSt =>
    obtain rfl := checkFormat_st rfl hcheck
    have hread : headersize .vlbaSt 32 = 32 * 12 * (if true = true then 9 else 8) / 8 := by decide
    have hsize : 0 + stSyncword.length + 32 ≤ 32 * 12 := by decide +kernel
    rw [hread] at h
    exact @checkTape_congr buffer buffer' strict track 32 0 stSyncword true 12 _
      (Nat.dvd_mul_right 8 4) (Nat.succ_pos 31) hsize h
  | mark5b =>
    have h : ∀ a < 16, buffer a = buffer' a := h
    have hword (i : Fin 4) : wordAt buffer i = wordAt buffer' i := wordAt_congr (by omega) h
    have hwords : (fun i : Fin 4 => wordAt buffer i) = fun i : Fin 4 => wordAt buffer' i :=
      funext hword
    exact congrArg (fun w => Except.ok (checkMark5b w strict)) hwords
  | _ => rfl

end Jive5ab.Headersearch
