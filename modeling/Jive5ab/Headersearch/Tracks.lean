import Jive5ab.Headersearch.State
import Jive5ab.Lib.Crc

/-! # Headers across tracks

All tracks of a tape carry the same header, one bit of it after the other, and are
recorded in parallel: a bit fills as many bits of the frame as there are tracks. A
reader takes one track. -/
namespace Jive5ab.Headersearch
open Lib Lib.Crc

/-- Memory, from the first byte of a frame. -/
abbrev Framedata := Nat → Byte

/-! ## Writing -/

/-- `frameN[p] = ~0` or `0`, an integer of `nb` bytes. -/
def putBit (nb : Nat) (frame : Framedata) (p : Nat) (bit : Bool) : Framedata := fun a =>
  if p * nb ≤ a ∧ a < (p + 1) * nb then if bit then 0xff else 0 else frame a

def putBits (nb : Nat) : Framedata → Nat → List Bool → Framedata
  | frame, _, [] => frame
  | frame, p, bit :: bits => putBits nb (putBit nb frame p bit) (p + 1) bits

/-- `header[k / 8] & (1 << (7 - k % 8))`, for all bits. -/
def headerBits (header : List Byte) : List Bool :=
  (List.range (8 * header.length)).map fun k => (header.getD (k / 8) 0).getLsbD (7 - k % 8)

/-- The integers that frames of so many tracks are written with. -/
def validNtrack (ntrack : Nat) : Bool := [8, 16, 32, 64].contains ntrack

def putHeader (ntrack : Nat) (frame : Framedata) (offset : Nat) (header : List Byte) :
    Except HeaderError Framedata :=
  if validNtrack ntrack then .ok (putBits (ntrack / 8) frame offset (headerBits header))
  else .error .invalidNumberOfTracks

/-! ## Reading -/

/-- `(dst & unmask[dstbit]) | (-f & mask[dstbit])` -/
def setBit (dst : Byte) (dstbit : Nat) (f : Bool) : Byte :=
  let mask : Byte := 1 <<< dstbit
  (dst &&& ~~~ mask) ||| if f then mask else 0

/-- Eight bits, the most significant first. -/
def byteOf (bit : Nat → Bool) : Byte :=
  (List.range 8).foldl (fun dst j => setBit dst (7 - j) (bit j)) 0

/-- The bytes of a track. With parity every ninth step is skipped. -/
def extractBitstream (stripParity : Bool) (track ntrack nbytes : Nat) (frame : Framedata) :
    Except HeaderError (List Byte) :=
  if ntrack ≤ track then .error .invalidTrackRequested
  else .ok ((List.range nbytes).map fun m => byteOf fun j =>
    let step := if stripParity then 8 * m + j + (8 * m + j) / 8 else 8 * m + j
    (frame (track / 8 + ntrack / 8 * step)).getLsbD (track % 8))

/-! ## Checking -/

/-- Of Mark4 and VLBA, for so many tracks. -/
def mark4Syncword (ntrack : Nat) : List Byte := List.replicate (4 * ntrack) 0xff

def checkSyncword (syncword : List Byte) (offset : Nat) (buffer : Framedata) : Bool :=
  (List.range syncword.length).all fun i => buffer (offset + i) == syncword.getD i 0

/-- The bits that follow the sync word are whole bytes, and one of the first eight is
zero. -/
def zeroFollows (buffer : Framedata) (byte step : Nat) : Nat → Bool
  | 0 => false
  | n + 1 => if buffer byte = 0xff then zeroFollows buffer (byte + step) step n else buffer byte == 0

/-- What Mark4 and VLBA headers have in common. -/
def checkTape (buffer : Framedata) (strict : Strict) (track ntrack : Nat) (syncword : List Byte)
    (syncwordoffset : Nat) (stripParity : Bool) (size : Nat) (crc : List Byte → BitVec 32) :
    Except HeaderError Bool :=
  if strict.chkSyncword && !checkSyncword syncword syncwordoffset buffer then .ok false
  else if strict.chkStrict &&
      !zeroFollows buffer (syncwordoffset + syncword.length) (ntrack / 8) 8 then .ok false
  else
    match extractBitstream stripParity track ntrack size buffer with
    | .error e => .error e
    | .ok trackheader => .ok (!strict.chkCrc || crc trackheader == 0)

/-! ## What is read of what was written -/

section
variable {nb : Nat}

theorem putBits_outside {bits : List Bool} {frame : Framedata} {p a : Nat}
    (h : a < p * nb ∨ (p + bits.length) * nb ≤ a) : putBits nb frame p bits a = frame a := by
  induction bits generalizing frame p with
  | nil => rfl
  | cons bit bits ih =>
    have hlen : (p + (bits.length + 1)) * nb = (p + 1 + bits.length) * nb := by
      rw [Nat.add_comm bits.length, Nat.add_assoc]
    rw [List.length_cons, hlen] at h
    have hnext : (p + 1) * nb ≤ (p + 1 + bits.length) * nb :=
      Nat.mul_le_mul_right nb (Nat.le_add_right ..)
    have hstep : p * nb ≤ (p + 1) * nb := Nat.mul_le_mul_right nb (Nat.le_succ p)
    unfold putBits
    rw [ih (by omega)]
    unfold putBit
    rw [if_neg (by omega)]

/-- A byte of the integer for bit `k`. -/
theorem putBits_at {bits : List Bool} {frame : Framedata} {p k t : Nat} (hk : k < bits.length)
    (ht : t < nb) : putBits nb frame p bits ((p + k) * nb + t) = if bits[k] then 0xff else 0 := by
  induction bits generalizing frame p k with
  | nil => exact absurd hk (Nat.not_lt_zero k)
  | cons bit bits ih =>
    unfold putBits
    cases k with
    | zero =>
      have hnext : (p + 1) * nb = p * nb + nb := Nat.succ_mul p nb
      rw [putBits_outside (.inl (by rw [Nat.add_zero]; omega))]
      unfold putBit
      rw [if_pos (by rw [Nat.add_zero]; omega)]
      rfl
    | succ k =>
      have hshift : p + (k + 1) = p + 1 + k := by omega
      rw [hshift, ih (Nat.lt_of_succ_lt_succ hk)]
      rfl

end

@[simp] theorem length_headerBits (header : List Byte) :
    (headerBits header).length = 8 * header.length := by
  unfold headerBits
  rw [List.length_map, List.length_range]

theorem getElem_headerBits {header : List Byte} {m j : Nat} (hm : m < header.length) (hj : j < 8)
    (h : 8 * m + j < (headerBits header).length) :
    (headerBits header)[8 * m + j] = header[m].getLsbD (7 - j) := by
  have hbyte : (8 * m + j) / 8 = m := by omega
  have hbit : (8 * m + j) % 8 = j := by omega
  have hread : (headerBits header)[8 * m + j] =
      (header.getD ((8 * m + j) / 8) 0).getLsbD (7 - (8 * m + j) % 8) := by
    simp [headerBits]
  rw [hread, hbyte, hbit, List.getD_eq_getElem?_getD, List.getElem?_eq_getElem hm, Option.getD_some]

theorem byteOf_bits (b : Byte) : byteOf (fun j => b.getLsbD (7 - j)) = b := by
  revert b
  decide

theorem byteOf_congr {f g : Nat → Bool} (h : ∀ j < 8, f j = g j) : byteOf f = byteOf g := by
  unfold byteOf
  refine List.foldl_ext _ _ _ fun dst j hj => ?_
  rw [h j (List.mem_range.mp hj)]

theorem getLsbD_fill (bit : Bool) {i : Nat} (hi : i < 8) :
    (if bit then (0xff : Byte) else 0).getLsbD i = bit := by
  cases bit with
  | false => exact BitVec.getLsbD_zero
  | true =>
    show Nat.testBit (2 ^ 8 - 1) i = true
    rw [Nat.testBit_two_pow_sub_one]
    exact decide_eq_true hi

/-- A byte of a track, at a place where the header was written to. -/
theorem byteOf_putBits {header : List Byte} {frame : Framedata} {nb p q m track : Nat}
    (htrack : track < 8 * nb) (hm : m < header.length) (hq : q = p + 8 * m) :
    (byteOf fun j => (putBits nb frame p (headerBits header)
      (track / 8 + nb * (q + j))).getLsbD (track % 8)) = header[m] := by
  refine (byteOf_congr fun j hj => ?_).trans (byteOf_bits header[m])
  have hbit : 8 * m + j < (headerBits header).length := by
    rw [length_headerBits]
    omega
  have haddr : track / 8 + nb * (q + j) = (p + (8 * m + j)) * nb + track / 8 := by
    rw [hq, Nat.mul_comm nb, Nat.add_assoc p]
    exact Nat.add_comm ..
  rw [haddr, putBits_at hbit (by omega), getLsbD_fill _ (Nat.mod_lt _ (by omega)),
    getElem_headerBits hm hj hbit]

/-- A track that is read from byte `s` on, where a header was put at byte `p`. -/
theorem extract_putBits {header : List Byte} {frame : Framedata} {ntrack track : Nat} {p s n : Nat}
    (hntrack : validNtrack ntrack = true) (htrack : track < ntrack) :
    ∃ l, extractBitstream false track ntrack n
        (fun a => putBits (ntrack / 8) frame (8 * p) (headerBits header) (8 * s * (ntrack / 8) + a)) =
          .ok l ∧ l.length = n ∧
      ∀ m < n, p ≤ s + m → s + m < p + header.length → l[m]? = header[s + m - p]? := by
  have hwhole : ntrack = 8 * (ntrack / 8) := by
    simp only [validNtrack, List.contains_cons, List.contains_nil, Bool.or_eq_true, beq_iff_eq,
      Bool.or_false] at hntrack
    omega
  unfold extractBitstream
  rw [if_neg (Nat.not_le.mpr htrack)]
  refine ⟨_, rfl, by rw [List.length_map, List.length_range], fun m hm hle hlt => ?_⟩
  have hin : s + m - p < header.length := by omega
  have hbyte := @byteOf_putBits header frame (ntrack / 8) (8 * p) (8 * s + 8 * m) (s + m - p) track
    (by omega) hin (by omega)
  rw [List.getElem?_map, List.getElem?_range hm, Option.map_some, List.getElem?_eq_getElem hin, ← hbyte]
  refine congrArg some (byteOf_congr fun j _ => ?_)
  have haddr : 8 * s * (ntrack / 8) + (track / 8 + ntrack / 8 * (8 * m + j)) =
      track / 8 + ntrack / 8 * (8 * s + 8 * m + j) := by
    rw [Nat.mul_comm (8 * s), Nat.add_left_comm, ← Nat.mul_add, ← Nat.add_assoc]
  rw [if_neg Bool.false_ne_true]
  dsimp only
  rw [haddr]

theorem checkSyncword_ones {n offset : Nat} {buffer : Framedata}
    (h : ∀ i < n, buffer (offset + i) = 0xff) :
    checkSyncword (List.replicate n 0xff) offset buffer = true := by
  unfold checkSyncword
  rw [List.all_eq_true]
  intro i hi
  rw [List.length_replicate, List.mem_range] at hi
  rw [h i hi, List.getD_eq_getElem?_getD, List.getElem?_replicate_of_lt hi]
  rfl

theorem zeroFollows_of_bits {buffer : Framedata} {step : Nat} {f : Nat → Bool} {n byte : Nat}
    (h : ∀ j < n, buffer (byte + j * step) = if f j then 0xff else 0) (hzero : ∃ j < n, f j = false) :
    zeroFollows buffer byte step n = true := by
  induction n generalizing f byte with
  | zero =>
    obtain ⟨j, hj, -⟩ := hzero
    exact absurd hj (Nat.not_lt_zero j)
  | succ n ih =>
    have hfirst := h 0 (Nat.zero_lt_succ n)
    rw [Nat.zero_mul, Nat.add_zero] at hfirst
    unfold zeroFollows
    rw [hfirst]
    cases hbit : f 0 with
    | false => rfl
    | true =>
      rw [if_pos rfl, if_pos rfl]
      refine @ih (fun j => f (j + 1)) _ (fun j hj => ?_) ?_
      · have hnext := h (j + 1) (Nat.succ_lt_succ hj)
        rwa [Nat.succ_mul, Nat.add_comm (j * step), ← Nat.add_assoc] at hnext
      · obtain ⟨j, hj, hfalse⟩ := hzero
        cases j with
        | zero => rw [hbit] at hfalse; exact Bool.noConfusion hfalse
        | succ j => exact ⟨j, Nat.lt_of_succ_lt_succ hj, hfalse⟩

/-- The first byte of a header at byte `p` is not all ones. -/
theorem zeroFollows_putBits {header : List Byte} {frame : Framedata} {nb p m : Nat} (hnb : 0 < nb)
    (hm : m < header.length) (hne : header[m] ≠ 0xff) :
    zeroFollows (putBits nb frame p (headerBits header)) ((p + 8 * m) * nb) nb 8 = true := by
  refine @zeroFollows_of_bits _ nb (fun j => header[m].getLsbD (7 - j)) 8 _ (fun j hj => ?_) ?_
  · have hbit : 8 * m + j < (headerBits header).length := by
      rw [length_headerBits]
      omega
    have hat := @putBits_at nb (headerBits header) frame p (8 * m + j) 0 hbit hnb
    rw [getElem_headerBits hm hj hbit, Nat.add_zero, ← Nat.add_assoc, Nat.add_mul (p + 8 * m)] at hat
    exact hat
  · by_contra hall
    refine hne (BitVec.eq_of_getLsbD_eq fun i hi => ?_)
    have hone : header[m].getLsbD (7 - (7 - i)) = true := by
      by_contra hfalse
      exact hall ⟨7 - i, by omega, Bool.eq_false_iff.mpr hfalse⟩
    have hback : 7 - (7 - i) = i := by omega
    rw [hback] at hone
    rw [hone]
    exact (getLsbD_fill true hi).symm

end Jive5ab.Headersearch
