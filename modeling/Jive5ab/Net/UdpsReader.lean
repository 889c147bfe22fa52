import Jive5ab.Lib.Machine
import Jive5ab.Net.DatastreamReader

/-! # UDP with sequence numbers

`udpsreader_bh` and the two `udpsreader_th` of `udpsreader.cc`. The bottom half
keeps `readahead` blocks in its work buffer and puts each datagram where its
sequence number says; one flag per datagram says which places were filled. The
top half puts fill pattern in the others. Acknowledgements and the reordering
statistics are left out. -/
namespace Jive5ab.Net.Udps
open Lib

/-- One message on the socket: sequence number and data. -/
structure Datagram where
  seqnr : Nat
  payload : List UInt8
  seqnr_lt : seqnr < 2 ^ 64

/-- Place for one datagram with its flag. `arrival` is not in the source: which
of the datagrams received was last written here. -/
structure Slot where
  data : List UInt8
  flag : Bool
  arrival : Nat

abbrev Block := List Slot

/-- A block in the queue between the halves. `seqnstart` and `epoch` are not in
the source: the sequence number of its first place, and how many resyncs there
had been when it was pushed. -/
structure Pushed where
  slots : Block
  iovLen : Nat
  seqnstart : Nat
  epoch : Nat

/-- What the reader is started with. The `k`-th block of the pool comes with
`memory k` in it, other memory with `heap`; `accepts k` is whether the queue takes
the `k`-th block. -/
structure Reader where
  sizes : Sizes
  nblock : Nat
  allowVariableBlockSize : Bool
  isVdif : Bool
  memory : Nat → Nat → List UInt8
  accepts : Nat → Bool
  heap : Nat → UInt8
  blocksize_lt : sizes.blocksize < 2 ^ 32
  nblock_pos : 0 < nblock
  nblock_lt : nblock < 2 ^ 32
  memory_length : ∀ k p, (memory k p).length = sizes.wrSize

inductive Ending
  | done
  | syscallException
  | blockError
  deriving DecidableEq

/-- Where the loop is: before the first datagram, before the next peek, between
peek and receive (`none`: into `dummybuf`), or left. -/
inductive Phase
  | first
  | peek
  | read (d : Datagram) (location : Option (Nat × Nat))
  | ended (e : Ending)

/-- `arrivals`, `epoch`, `since` and `cutShort` are not in the source: the
datagrams received, the number of resyncs, how many datagrams had been received
at the last of them, and the sequence number of a last one that was too short. -/
structure State where
  phase : Phase
  workbuf : List (Option Block)
  firstseqnr : Nat
  maxseq : Nat
  minseq : Nat
  pktcnt : UInt64
  loscnt : UInt64
  disccnt : UInt64
  npool : Nat
  outq : List Pushed
  arrivals : List Datagram
  epoch : Nat
  since : Nat
  cutShort : Option Nat

/-- A peek finds a datagram or fails, and so does the receive after it; `errno`
is what it holds if the loop is then left. -/
inductive Event
  | peeks (d : Datagram)
  | peekFails (errno : Nat)
  | reads (errno : Nat)
  | readFails (errno : Nat)

namespace Reader
variable (r : Reader)

def sensibleBlocksize : Nat := 32 * 1024 * 1024

def readahead : Nat := if sensibleBlocksize ≤ r.sizes.blocksize then 2 else r.nblock

def nDgPBlock : Nat := r.sizes.blocksize / r.sizes.wrSize

/-! ## Where a datagram goes -/

def clearFlags (b : Block) : Block := b.map fun s => { s with flag := false }

def flagged (w : List (Option Block)) : Nat :=
  (w.map fun b => (b.getD []).countP Slot.flag).sum

/-- All data received so far is thrown away, and the memory kept. -/
def resync (s : State) (seqnr : Nat) : State :=
  { s with
    maxseq := seqnr, minseq := seqnr, firstseqnr := seqnr, pktcnt := 1
    disccnt := s.disccnt + UInt64.ofNat (flagged s.workbuf)
    workbuf := s.workbuf.map (Option.map clearFlags)
    epoch := s.epoch + 1, since := s.arrivals.length }

/-- The counters, once it is known if the datagram is discarded. -/
def account (s : State) (seqnr : Nat) (discard : Bool) : State :=
  let maxseq := if s.maxseq < seqnr then seqnr else s.maxseq
  let minseq := if s.maxseq < seqnr then s.minseq else min seqnr s.minseq
  { s with
    maxseq, minseq
    disccnt := if discard then s.disccnt + 1 else s.disccnt
    loscnt := UInt64.ofNat maxseq - UInt64.ofNat minseq + 1 - s.pktcnt }

/-- The block comes from the pool if there is none, all flags zero. -/
def freshBlock (s : State) : Block :=
  (List.range r.nDgPBlock).map fun p => ⟨r.memory s.npool p, false, 0⟩

def reserve (s : State) (blockidx : Nat) : State :=
  match s.workbuf[blockidx]? with
  | some none =>
    { s with workbuf := s.workbuf.set blockidx (some (r.freshBlock s)), npool := s.npool + 1 }
  | _ => s

/-- The first block goes down the queue, the others move down one. -/
def shift (s : State) : State :=
  { s with
    outq := match s.workbuf.head? with
      | some (some b) =>
        s.outq ++ [⟨b, r.sizes.blocksize + r.nDgPBlock, s.firstseqnr, s.epoch⟩]
      | _ => s.outq
    workbuf := s.workbuf.tail ++ [none]
    firstseqnr := (s.firstseqnr + r.nDgPBlock) % 2 ^ 64 }

def pushRefused (s : State) : Bool := s.workbuf.head?.join.isSome && !r.accepts s.outq.length

/-- Shift until the datagram falls in the work buffer. `left` is how many shifts
are left until the reader jumps to its sequence number; that is the last one
(`locate_zero`). No location: the queue is disabled. -/
def locate (seqnr : Nat) : Nat → State → Option (Nat × Nat) × State
  | left, s =>
    let seqoff := seqnr - s.firstseqnr
    if seqoff / r.nDgPBlock < r.readahead then
      (some (seqoff / r.nDgPBlock, seqoff % r.nDgPBlock),
        r.reserve s (seqoff / r.nDgPBlock))
    else if r.pushRefused s then (none, s)
    else
      match left with
      | 0 => (none, s)
      | left + 1 =>
        let s := r.shift s
        locate seqnr left (if left = 0 then { s with firstseqnr := seqnr } else s)

/-- Just behind the work buffer: came in too late. -/
def discards (s : State) (seqnr : Nat) : Bool :=
  seqnr < s.firstseqnr && s.firstseqnr - seqnr ≤ r.nDgPBlock

/-- Way before that: the sender has started a new sequence of numbers. -/
def resyncs (s : State) (seqnr : Nat) : Bool := seqnr < s.firstseqnr && !r.discards s seqnr

def heard (s : State) (seqnr : Nat) : State :=
  let s' := { s with pktcnt := s.pktcnt + 1 }
  account (if r.resyncs s seqnr then resync s' seqnr else s') seqnr (r.discards s seqnr)

/-- From the peek to the receive. -/
def peeked (s : State) (d : Datagram) : State :=
  if r.discards s d.seqnr then { r.heard s d.seqnr with phase := .read d none }
  else
    match r.locate d.seqnr r.readahead (r.heard s d.seqnr) with
    | (some loc, s) => { s with phase := .read d (some loc) }
    | (none, s) => { s with phase := .ended .done, workbuf := [] }

/-! ## Receiving, and the end -/

/-- `recvmsg` into a place: what did not come is left as it was. -/
def receive (data payload : List UInt8) : List UInt8 :=
  payload.take r.sizes.rdSize ++ data.drop (min payload.length r.sizes.rdSize)

def modifySlot (w : List (Option Block)) (loc : Nat × Nat) (f : Slot → Slot) : List (Option Block) :=
  w.modify loc.1 (Option.map fun b => b.modify loc.2 f)

/-- The flush at the end: `none` when bytes are asked of a block that is empty. -/
def flush (maxseq epoch : Nat) : Nat → List (Option Block) → List Pushed → Option Unit × List Pushed
  | _, [], q => (some (), q)
  | start, b :: w, q =>
    if start ≤ maxseq then
      let next := (start + r.nDgPBlock) % 2 ^ 64
      let sz := r.sizes.wrSize * min ((maxseq + 1 + 2 ^ 64 - start) % 2 ^ 64) r.nDgPBlock
      if sz = r.sizes.blocksize ∨ r.allowVariableBlockSize then
        match b with
        | none =>
          -- an empty slice can be had of an empty block; there is nothing in it to be queued
          if sz ≠ 0 then (none, q)
          else if r.accepts q.length then flush maxseq epoch next w q
          else (some (), q)
        | some b =>
          if r.accepts q.length then flush maxseq epoch next w (q ++ [⟨b, sz, start, epoch⟩])
          else (some (), q)
      else flush maxseq epoch next w q
    else (some (), q)

def leave (s : State) (errno : Nat) : State :=
  let (ok, outq) := r.flush s.maxseq s.epoch s.firstseqnr s.workbuf s.outq
  let e : Ending :=
    if ok.isNone then .blockError
    else if errno = EINTR ∨ errno = EBADF then .done
    else .syscallException
  { s with outq, workbuf := [], phase := .ended e }

/-- The whole datagram is there: raise the flag. -/
def received (s : State) (d : Datagram) (location : Option (Nat × Nat)) : State :=
  let s :=
    match location with
    | none => s
    | some loc =>
      { s with workbuf := modifySlot s.workbuf loc fun t =>
          ⟨r.receive t.data d.payload, true, s.arrivals.length⟩ }
  { s with arrivals := s.arrivals ++ [d], phase := .peek }

/-- A datagram with too few data bytes: they are written all the same. -/
def receivedShort (s : State) (d : Datagram) (location : Option (Nat × Nat)) (errno : Nat) : State :=
  let s :=
    match location with
    | none => s
    | some loc =>
      { s with
        workbuf := modifySlot s.workbuf loc fun t => { t with data := r.receive t.data d.payload }
        cutShort := some d.seqnr }
  r.leave s errno

def step (s : State) (e : Event) : Option State :=
  match s.phase, e with
  | .first, .peeks d =>
    some (r.peeked { s with firstseqnr := d.seqnr, maxseq := d.seqnr, minseq := d.seqnr } d)
  | .first, .peekFails _ => some { s with workbuf := [], phase := .ended .done }
  | .peek, .peeks d => some (r.peeked s d)
  | .peek, .peekFails errno => some (r.leave s errno)
  | .read d loc, .reads errno =>
    if r.sizes.rdSize ≤ d.payload.length then some (r.received s d loc)
    else some (r.receivedShort s d loc errno)
  | .read _ _, .readFails errno => some (r.leave s errno)
  | _, _ => none

def start : State where
  phase := .first
  workbuf := List.replicate r.readahead none
  firstseqnr := 0
  maxseq := 0
  minseq := 0
  pktcnt := 0
  loscnt := 0
  disccnt := 0
  npool := 0
  outq := []
  arrivals := []
  epoch := 0
  since := 0
  cutShort := none

def machine : Machine State Event := ofFn (· = r.start) r.step

/-! ## The top half -/

/-- `0x1122334411223344`, in memory: byte `i` of a row of them. -/
def fillpat (i : Nat) : UInt8 := [0x44, 0x33, 0x22, 0x11].getD (i % 4) 0

/-- A VDIF header with nothing but the frame length and `invalid`. -/
def invalidVdif : List UInt8 :=
  [0, 0, 0, 0x80, 0, 0, 0, 0] ++
    (List.range 3).map (fun i => UInt8.ofNat (r.sizes.wrSize / 8 / 256 ^ i)) ++ [0, 0, 0, 0, 0]

/-- What replaces a datagram that did not come. Only whole words are written. -/
def fpblock (size : Nat) : List UInt8 :=
  let fp := (List.range size).map fun i => if i < size / 8 * 8 then fillpat i else r.heap i
  if r.isVdif then (r.invalidVdif ++ fp.drop 16).take size else fp

/-- Fill pattern or data up to `size`, and `zeroes` behind. -/
def finish (size nzeroes : Nat) (s : Slot) : List UInt8 :=
  (if s.flag then s.data.take size else r.fpblock size) ++ List.replicate nzeroes 0

def udpsreaderTh (size nzeroes : Nat) (b : Pushed) : List UInt8 :=
  (b.slots.flatMap (r.finish size nzeroes)).take (min r.sizes.blocksize b.iovLen)

def udpsreaderThNonzeroeing : Pushed → List UInt8 := r.udpsreaderTh r.sizes.wrSize 0

def udpsreaderThZeroeing : Pushed → List UInt8 :=
  r.udpsreaderTh r.sizes.rdSize (r.sizes.wrSize - r.sizes.rdSize)

/-- The top half that is started. -/
def topHalf : Pushed → List UInt8 :=
  if r.sizes.rdSize = r.sizes.wrSize then r.udpsreaderThNonzeroeing else r.udpsreaderThZeroeing

end Reader
end Jive5ab.Net.Udps
