import Jive5ab.Trackmask.Solver

/-! # Solving the constraints

`constraintset_type` with its `validate`, and `constrain`, of `constraints.cc`: from the
sizes that are given to a block size, a read size and a write size. The code computes
in `unsigned int`. -/
namespace Jive5ab.Constraints
open Trackmask (Solution)

def unconstrained : UInt32 := 0xFFFFFFFF

/-- A constraint that is not in the map reads as unconstrained. -/
structure ConstraintSet where
  framesize : UInt32 := unconstrained
  blocksize : UInt32 := unconstrained
  mtu : UInt32 := unconstrained
  compressOffset : UInt32 := unconstrained
  applicationOverhead : UInt32 := unconstrained
  protocolOverhead : UInt32 := unconstrained
  readSize : UInt32 := unconstrained
  writeSize : UInt32 := unconstrained
  nMtu : UInt32 := unconstrained
  deriving DecidableEq

/-- `forever` is a loop that does not end. -/
inductive Failure
  | constraintError (what : String)
  | assertion
  | divisionByZero
  | forever
  deriving DecidableEq

def constraintError (msg : String) : Failure := .constraintError ("constraint error: " ++ msg)

def throwIf (p : Prop) [Decidable p] (msg : String) : Except Failure Unit :=
  if p then .error (constraintError msg) else .ok ()

/-! ## Validation -/

def isset (c : UInt32) : Bool := c != unconstrained

/-- The assertions of `validate`, in its order, each with its text. -/
def ConstraintSet.assertions (cs : ConstraintSet) : List (String × Bool) :=
  [("ISSET(blocksize)", isset cs.blocksize),
    ("ISSET(read_size)", isset cs.readSize),
    ("ISSET(write_size)", isset cs.writeSize),
    ("ISSET(MTU)", isset cs.mtu),
    ("ISSET(protocol_overhead)", isset cs.protocolOverhead),
    ("ISSET(application_overhead)", isset cs.applicationOverhead),
    ("ISSET(compress_offset)", isset cs.compressOffset),
    ("GETCONSTRAINT(blocksize)>0", decide (cs.blocksize > 0)),
    ("GETCONSTRAINT(read_size)>0", decide (cs.readSize > 0)),
    ("GETCONSTRAINT(write_size)>0", decide (cs.writeSize > 0)),
    ("GETCONSTRAINT(MTU)>0", decide (cs.mtu > 0)),
    ("(GETCONSTRAINT(blocksize)%8)==0", cs.blocksize % 8 == 0),
    ("(GETCONSTRAINT(compress_offset)%8)==0", cs.compressOffset % 8 == 0),
    ("GETCONSTRAINT(n_mtu)==1 || ISUNCONSTRAINED(n_mtu)", cs.nMtu == 1 || !isset cs.nMtu),
    ("GETCONSTRAINT(blocksize)>=GETCONSTRAINT(read_size)", decide (cs.blocksize ≥ cs.readSize)),
    ("(GETCONSTRAINT(blocksize)%GETCONSTRAINT(read_size))==0", cs.blocksize % cs.readSize == 0),
    ("GETCONSTRAINT(compress_offset)<GETCONSTRAINT(read_size)",
      decide (cs.compressOffset < cs.readSize))] ++
  (if cs.nMtu = 1 then
    [("(GETCONSTRAINT(protocol_overhead)+GETCONSTRAINT(application_overhead)+" ++
        "GETCONSTRAINT(write_size))<=GETCONSTRAINT(MTU)",
      decide (cs.protocolOverhead + cs.applicationOverhead + cs.writeSize ≤ cs.mtu))]
  else []) ++
  [("GETCONSTRAINT(write_size)<=GETCONSTRAINT(read_size)", decide (cs.writeSize ≤ cs.readSize))] ++
  (if isset cs.framesize then
    [("GETCONSTRAINT(framesize)>0", decide (cs.framesize > 0)),
      ("(GETCONSTRAINT(framesize)%8)==0", cs.framesize % 8 == 0),
      ("(GETCONSTRAINT(framesize)%GETCONSTRAINT(read_size))==0",
        cs.framesize % cs.readSize == 0)]
  else [])

/-- The first assertion that fails is thrown. -/
def ConstraintSet.validate (cs : ConstraintSet) : Except Failure Unit :=
  match cs.assertions.find? fun a => !a.2 with
  | some (text, _) => .error (constraintError ("assertion '" ++ text ++ "' fails!"))
  | none => .ok ()

/-! ## Sizes under compression -/

/-- `operator bool`. -/
def compressing (s : Solution) : Bool := !s.steps.isEmpty

/-- In bytes; the solution counts words of 64 bits. -/
def compressedSize (uncompressedbytes : UInt32) (s : Solution) : Except Failure UInt32 :=
  if compressing s then
    if uncompressedbytes % 8 = 0 then
      match s.outputsize (uncompressedbytes / 8).toNat with
      | some n => .ok (.ofNat n * 8)
      | none => .error .assertion
    else .error .assertion
  else .ok uncompressedbytes

def uncompressedSize (compressedbytes : UInt32) (s : Solution) : Except Failure UInt32 :=
  if compressing s then
    if compressedbytes % 8 = 0 then
      match s.inputsize (compressedbytes / 8).toNat with
      | some n => .ok (.ofNat n * 8)
      | none => .error .assertion
    else .error .assertion
  else .ok compressedbytes

/-- `& ~0x7`. -/
def truncate8 (n : UInt32) : UInt32 := n / 8 * 8

def noSolution : Failure := constraintError "failed to find a suitable solution for "

/-! ## By block size -/

def minReadBytes (s : Solution) : UInt32 := if compressing s then .ofNat s.cycle * 8 else 8

/-- Does a write size lead to a read size that fits in the block? Then the read size and the
block size that goes with it. -/
def tryWriteSize (cs : ConstraintSet) (s : Solution) (wrSize : UInt32) :
    Except Failure (Option (UInt32 × UInt32)) := do
  let uncompressed ← uncompressedSize (wrSize - cs.compressOffset) s
  let rdSize := uncompressed + cs.compressOffset
  if rdSize ≤ cs.blocksize then
    if rdSize = 0 then .error .divisionByZero
    else
      let blocksize := cs.blocksize - cs.blocksize % rdSize
      if 0 < blocksize ∧ blocksize % 8 = 0 ∧ rdSize % 8 = 0 then .ok (some (rdSize, blocksize))
      else .ok none
  else .ok none

/-- From `wrSize` downwards. After `2 ^ 29` sizes it is back where it began. -/
def searchWriteSize (cs : ConstraintSet) (s : Solution) (absMinWrSize : UInt32) :
    Nat → UInt32 → Except Failure ConstraintSet
  | 0, _ => .error .forever
  | left + 1, wrSize =>
    if wrSize ≥ absMinWrSize then do
      match ← tryWriteSize cs s wrSize with
      | some (rdSize, blocksize) =>
        .ok { cs with blocksize := blocksize, readSize := rdSize, writeSize := wrSize }
      | none => searchWriteSize cs s absMinWrSize left (wrSize - 8)
    else .error noSolution

def constrainByBlocksize (cs : ConstraintSet) (s : Solution) : Except Failure ConstraintSet := do
  throwIf (cs.blocksize = unconstrained) "constraining by blocksize but it's unconstrained?! WTF?!"
  throwIf (cs.compressOffset % 8 ≠ 0) "compress_offset must be a multiple of 8"
  throwIf (cs.blocksize < cs.compressOffset + minReadBytes s)
    "blocksize is smaller than 'compress_offset+min_read_bytes'"
  throwIf (cs.nMtu ≠ 1 ∧ cs.nMtu ≠ unconstrained) "n_mtu can only be 1 or unconstrained"
  throwIf (cs.nMtu = 1 ∧ cs.mtu < cs.protocolOverhead + cs.applicationOverhead + cs.compressOffset)
    "mtu too small - it is < (proto_overhead+app_overhead+compress_offset"
  if cs.nMtu = unconstrained then
    let blocksize := truncate8 cs.blocksize
    let compressed ← compressedSize (blocksize - cs.compressOffset) s
    .ok { cs with
      blocksize := blocksize
      readSize := blocksize
      writeSize := compressed + cs.compressOffset }
  else
    let wrSize := truncate8 (cs.mtu - cs.protocolOverhead - cs.applicationOverhead)
    let compressed ← compressedSize (minReadBytes s / 8) s
    searchWriteSize cs s (cs.compressOffset + compressed * 8) (2 ^ 29) wrSize

/-! ## By frame size -/

/-- The loop that looks for a divider of the frame size, `left` values of `i` before it. -/
def divideFramesize (cs : ConstraintSet) : Nat → UInt32 → Except Failure UInt32
  | 0, _ => .error (constraintError "failed to find a suitable blocksize")
  | left + 1, bs =>
    if cs.framesize % bs = 0 ∧ bs % 8 = 0 ∧ bs > cs.compressOffset then .ok bs
    else divideFramesize cs left (.ofNat (cs.framesize.toNat / (cs.framesize.toNat - (left + 1))))

/-- The block size for a stream. -/
def streamBlocksize (cs : ConstraintSet) : Except Failure UInt32 :=
  let bs := if cs.blocksize = unconstrained then cs.framesize else truncate8 cs.blocksize
  if bs > cs.framesize then .ok (bs - bs % cs.framesize)
  else if bs = 0 then .error .divisionByZero
  else divideFramesize cs (cs.framesize.toNat - (cs.framesize / bs).toNat) bs

/-- The loop over the divisors of the frame size, `left` values of `i` before it. The
result is a read size with its write size. -/
def searchReadSize (cs : ConstraintSet) (s : Solution) : Nat → Except Failure (UInt32 × UInt32)
  | 0 => .error noSolution
  | left + 1 =>
    let i := cs.framesize.toNat - (left + 1)
    let rdSize : UInt32 := .ofNat (cs.framesize.toNat / i)
    if cs.framesize.toNat % i = 0 ∧ (compressing s → rdSize % 8 = 0) then
      if rdSize < cs.compressOffset then .error noSolution
      else do
        let compressed ← compressedSize (rdSize - cs.compressOffset) s
        let wrSize := compressed + cs.compressOffset
        if cs.protocolOverhead + cs.applicationOverhead + wrSize < cs.mtu ∧
            (compressing s → wrSize < rdSize) then .ok (rdSize, wrSize)
        else searchReadSize cs s left
    else searchReadSize cs s left

/-- The loop after the truncation, `while( blocksize/rd_size>1 && .. )`, never runs: the
second condition of it is that `rd_size` does not divide the block size. -/
def datagramBlocksize (cs : ConstraintSet) (rdSize : UInt32) : Except Failure UInt32 :=
  if cs.blocksize = unconstrained then .ok cs.framesize
  else if cs.blocksize > cs.framesize then .ok (cs.blocksize - cs.blocksize % cs.framesize)
  else if cs.blocksize > rdSize then .ok (cs.blocksize - cs.blocksize % rdSize)
  else .error (constraintError "blocksize too small")

def constrainByFramesize (cs : ConstraintSet) (s : Solution) : Except Failure ConstraintSet := do
  throwIf (cs.compressOffset % 8 ≠ 0) "compress_offset must be a multiple of 8"
  throwIf (cs.nMtu ≠ 1 ∧ cs.nMtu ≠ unconstrained) "n_mtu must be 1 or unconstrained"
  throwIf (cs.framesize = unconstrained ∨ cs.framesize = 0)
    "constraining by framesize but it is invalid! (0 or unconstrained)"
  if cs.nMtu = unconstrained then
    let blocksize ← streamBlocksize cs
    let compressed ← compressedSize (cs.framesize - cs.compressOffset) s
    .ok { cs with
      blocksize := blocksize
      readSize := cs.framesize
      writeSize := compressed + cs.compressOffset }
  else
    let (rdSize, wrSize) ← searchReadSize cs s (cs.framesize.toNat - 1)
    let blocksize ← datagramBlocksize cs rdSize
    .ok { cs with blocksize := blocksize, readSize := rdSize, writeSize := wrSize }

/-- Without compression there is nothing to skip. -/
def withOffset (cs : ConstraintSet) (s : Solution) : ConstraintSet :=
  if cs.compressOffset = unconstrained ∨ !compressing s then { cs with compressOffset := 0 } else cs

def constrain (cs : ConstraintSet) (s : Solution) : Except Failure ConstraintSet :=
  let lcl := withOffset cs s
  if lcl.framesize = unconstrained then constrainByBlocksize lcl s else constrainByFramesize lcl s

end Jive5ab.Constraints
