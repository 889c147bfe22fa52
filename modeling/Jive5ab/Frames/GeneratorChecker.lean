import Jive5ab.Frames.FrameChecker
import Jive5ab.Headersearch.Mark5B

/-! # The generator's stream before the checker

With the same parameters, cut into other blocks and with some datagrams lost. The generator writes
a time stamp into each frame, of which the checker knows nothing; and while the checker passes over
a lost datagram it stays where it was in the frame. -/
namespace Jive5ab.Frames
open Lib Headersearch
open Net.Udps.Reader (fillpat)

/-- Lost datagrams are replaced by fill pattern. -/
def withLost (readSize : Nat) (lost : Nat → Bool) (stream : List UInt8) : List UInt8 :=
  stream.mapIdx fun n byte => if lost (n / readSize) then fillpat (n % readSize) else byte

@[simp] theorem length_withLost (readSize : Nat) (lost : Nat → Bool) (stream : List UInt8) :
    (withLost readSize lost stream).length = stream.length := List.length_mapIdx

/-- Byte `n` as it comes in. -/
def FillPattern.arriving (p : FillPattern) (lost : Nat → Bool) (n : Nat) : UInt8 :=
  if lost (n / p.readSize) then fillpat (n % p.readSize) else p.streamByte n

variable {p : FillPattern} {accepts lost : Nat → Bool} {heap : List UInt8}

theorem withLost_getElem? {n : Nat}
    (hn : n < (p.framepatterngenerator accepts heap).flatten.length) :
    (withLost p.readSize lost (p.framepatterngenerator accepts heap).flatten)[n]? =
      some (p.arriving lost n) := by
  obtain ⟨-, hbyte⟩ := (framepatterngenerator_stream accepts heap).2 n hn
  rw [withLost, List.getElem?_mapIdx, hbyte]
  rfl

/-- What the checker looks at is what arrives. -/
theorem view_arriving {blocks : List CheckBlock}
    (hcut : blocks.flatMap CheckBlock.bytes =
      withLost p.readSize lost (p.framepatterngenerator accepts heap).flatten)
    {n : Nat} {v : UInt8 × List UInt8} (hv : (blocks.flatMap CheckBlock.views)[n]? = some v) :
    n < (p.framepatterngenerator accepts heap).flatten.length ∧ v.1 = p.arriving lost n := by
  have hbyte : (blocks.flatMap CheckBlock.bytes)[n]? = some v.1 := by
    rw [← flatMap_views_fst, List.getElem?_map, hv, Option.map_some]
  rw [hcut] at hbyte
  obtain ⟨hlt, -⟩ := List.getElem?_eq_some_iff.mp hbyte
  rw [length_withLost] at hlt
  rw [withLost_getElem? hlt] at hbyte
  exact ⟨hlt, (Option.some.inj hbyte).symm⟩

theorem length_views {blocks : List CheckBlock}
    (hcut : blocks.flatMap CheckBlock.bytes =
      withLost p.readSize lost (p.framepatterngenerator accepts heap).flatten) :
    (blocks.flatMap CheckBlock.views).length =
      (p.framepatterngenerator accepts heap).flatten.length := by
  rw [← List.length_map Prod.fst, flatMap_views_fst, hcut, length_withLost]

def leWord (f : List UInt8) (i : Nat) : BitVec 32 := .ofNat 32 (ofBytes (slice f (4 * i) 4))

theorem mark5bSync_framesize : 0 < 10016 := by decide

/-- Sixteen bytes of a frame are overwritten. -/
theorem mark5bSync_length (f : List UInt8) (ts : Vdif.HighResTime) (f' : List UInt8)
    (hf : f.length = 10016)
    (h : ((encodeMk5bTimestamp (fun i => leWord f i) ts mark5bFast).toOption.map fun w =>
      overwrite f 0 ((List.finRange 4).flatMap fun i => toBytes 4 (w i).toNat)) = some f') :
    f'.length = 10016 := by
  obtain ⟨w, -, rfl⟩ := Option.map_eq_some_iff.mp h
  have hwords : ((List.finRange 4).flatMap fun i => toBytes 4 (w i).toNat).length = 16 := by
    simp [toBytes]
  rw [length_overwrite (by rw [hwords]; omega), hf]

def mark5bSync : SyncHeader where
  framesize := 10016
  syncword := [0xed, 0xde, 0xad, 0xab]
  syncwordoffset := 0
  frametime := mark5bFast.state.frametime
  encodeTimestamp f ts :=
    (encodeMk5bTimestamp (fun i => leWord f i) ts mark5bFast).toOption.map fun w =>
      overwrite f 0 ((List.finRange 4).flatMap fun i => toBytes 4 (w i).toNat)
  framesize_pos := mark5bSync_framesize
  framesize_mod := by decide
  syncword_ne := by decide
  syncword_fits := by decide
  encode_length := mark5bSync_length

theorem mark5bFill_blocksize : 0 < 64 := by decide
theorem mark5bFill_readSize : 0 < 32 := by decide

/-- One block of two datagrams, from the start of a second. -/
def mark5bFill : FillPattern where
  header := mark5bSync
  fill := 0x5566778855667788
  inc := 0
  nword := 9
  now := frameTime mark5bFast 1600000000 0
  blocksize := 64
  readSize := 32
  compressOffset := 0
  blocksize_pos := mark5bFill_blocksize
  blocksize_mod := by decide
  readSize_pos := mark5bFill_readSize

def oneBlock (lost : Nat → Bool) : List CheckBlock :=
  [⟨withLost 32 lost (mark5bFill.framepatterngenerator (fun _ => true) []).flatten, fun _ => 0⟩]

end Jive5ab.Frames
