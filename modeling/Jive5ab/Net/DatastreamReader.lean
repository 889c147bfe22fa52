import Jive5ab.Lib.OrdMap

/-! # VDIF packets by data stream

`udpsnorreader_stream` and `udpreader_stream` of `threadfns.cc`. Each turn of the
loop peeks at the next datagram, looks up the data stream of its VDIF header,
and then receives it behind the packets that stream already has in its block.
The statistics per sender are left out. The queue behind is never disabled. -/
namespace Jive5ab.Net
open Std

/-- The runtime's sizes, read from the network's side: `rdSize` is its write
size, `wrSize` its read size. The fields are what `validate` asserts of them. -/
structure Sizes where
  rdSize : Nat
  wrSize : Nat
  blocksize : Nat
  rd_le : rdSize ≤ wrSize
  wr_pos : 0 < wrSize
  block_pos : 0 < blocksize
  block_dvd : wrSize ∣ blocksize

structure Datagram where
  sender : Nat
  bytes : List UInt8

structure VdifKey where
  stationId : Nat
  threadId : Nat
  sender : Nat
  deriving DecidableEq

/-- What the reader is started with. Datagrams begin with `seqnrSize` bytes that
are no data; `vdif2streamId` finds a data stream, and remembers: `none` if none
is defined for the key. -/
structure StreamReader (σ : Type) where
  sizes : Sizes
  seqnrSize : Nat
  allowVariableBlockSize : Bool
  vdif2streamId : σ → VdifKey → Option (Nat × σ)

/-- What the two `recvmsg` of a turn meet. A datagram that was peeked at is the
one that is received. -/
inductive Turn
  | peekFails
  | readFails (d : Datagram)
  | receives (d : Datagram)

/-- `dsm` has the filled part of each stream's block. -/
structure State (σ : Type) where
  streams : σ
  dsm : TreeMap Nat (List UInt8)
  outq : List (Nat × List UInt8)

inductive TurnResult (σ : Type)
  | next (s : State σ)
  | fell (n : Int) (s : State σ)
  | thrown (s : State σ)

inductive Ending
  | done
  | syscallException
  | datastreamException
  deriving DecidableEq

def EINTR : Nat := 4
def EBADF : Nat := 9

namespace StreamReader
variable {σ : Type} (cfg : StreamReader σ)

def waitpeek : Nat := cfg.seqnrSize + 16

def waitallread : Nat := cfg.seqnrSize + cfg.sizes.rdSize

/-- Station and thread are in the fourth word of the header. -/
def vdifKey (d : Datagram) : VdifKey :=
  let vhdr := d.bytes.drop cfg.seqnrSize
  let byte (i : Nat) : Nat := (vhdr.getD i 0).toNat
  { stationId := byte 12 + 256 * byte 13
    threadId := (byte 14 + 256 * byte 15) % 2 ^ 10
    sender := d.sender }

/-- The packet as it is put in the block: cut to what is read, zeroes behind. -/
def slot (d : Datagram) : List UInt8 :=
  (d.bytes.drop cfg.seqnrSize).take cfg.sizes.rdSize ++
    List.replicate (cfg.sizes.wrSize - cfg.sizes.rdSize) 0

def filled (s : State σ) (dsid : Nat) : List UInt8 := (s.dsm[dsid]?).getD []

/-- The packet is complete: on to the next place, or the block is passed on. -/
def advance (s : State σ) (dsid : Nat) (d : Datagram) : State σ :=
  let location := filled s dsid ++ cfg.slot d
  if cfg.sizes.blocksize ≤ location.length then
    { s with outq := s.outq ++ [(dsid, location)], dsm := s.dsm.erase dsid }
  else { s with dsm := s.dsm.insert dsid location }

def received (s : State σ) (d : Datagram) (readOk : Bool) : TurnResult σ :=
  let n := min d.bytes.length cfg.waitpeek
  if n ≠ cfg.waitpeek then .fell n s
  else
    match cfg.vdif2streamId s.streams (cfg.vdifKey d) with
    | none => .thrown s
    | some (dsid, streams) =>
      let s := { s with streams, dsm := s.dsm.insert dsid (filled s dsid) }
      let n : Int := if readOk then ((min d.bytes.length cfg.waitallread : Nat) : Int) else -1
      if n ≠ cfg.waitallread then .fell n s else .next (cfg.advance s dsid d)

def turn (s : State σ) : Turn → TurnResult σ
  | .peekFails => .fell (-1) s
  | .readFails d => cfg.received s d false
  | .receives d => cfg.received s d true

/-- Partial blocks that go down the queue when the loop is left by a read error. -/
def partialBlocks (s : State σ) : List (Nat × List UInt8) :=
  s.dsm.toList.filter fun b => b.2.length ≠ 0 && cfg.allowVariableBlockSize

def epilogue (errno : Nat) (n : Int) (s : State σ) : Ending × State σ :=
  if n ≠ cfg.waitallread ∧ n ≠ cfg.waitpeek then
    let s := { s with outq := s.outq ++ cfg.partialBlocks s }
    (if errno ≠ EINTR ∧ errno ≠ EBADF then .syscallException else .done, s)
  else (.done, s)

/-- `errno` is what it holds when the loop is left. No ending: the loop waits for
the next datagram. -/
def readLoop (errno : Nat) (s : State σ) : List Turn → Option Ending × State σ
  | [] => (none, s)
  | t :: ts =>
    match cfg.turn s t with
    | .next s => readLoop errno s ts
    | .fell n s => let (e, s) := cfg.epilogue errno n s; (some e, s)
    | .thrown s => (some .datastreamException, s)

end StreamReader

/-- With the 64-bit sequence number in front. -/
def udpsnorreaderStream {σ : Type} (sizes : Sizes) (avbs : Bool)
    (vdif2streamId : σ → VdifKey → Option (Nat × σ)) : StreamReader σ :=
  ⟨sizes, 8, avbs, vdif2streamId⟩

def udpreaderStream {σ : Type} (sizes : Sizes) (avbs : Bool)
    (vdif2streamId : σ → VdifKey → Option (Nat × σ)) : StreamReader σ :=
  ⟨sizes, 0, avbs, vdif2streamId⟩

def StreamReader.run {σ : Type} (cfg : StreamReader σ) (errno : Nat) (streams : σ)
    (turns : List Turn) : Option Ending × State σ :=
  cfg.readLoop errno ⟨streams, ∅, []⟩ turns

end Jive5ab.Net
