import Mathlib.Logic.Function.Basic
import Mathlib.Data.Int.Basic
import Jive5ab.Lib.Slice

/-! # VBS recordings

`libvbs.cc`: the chunks of a scanned recording, the open file over them, and
`vbs_read`/`vbs_lseek`. Offsets are `off_t` in the source; those that are stored
are never negative and are naturals here. The operating system is a parameter:
it may refuse an open, fail a read, or hand out less than was asked for. -/
namespace Jive5ab.Vbs
open Lib

/-! ## The operating system -/

structure Descr where
  file : String
  pos : Nat

inductive SysCall
  | opened (path : String) (fd : Option Nat)
  | read (fd : Nat) (n : Option Nat)

/-- Files do not change while a recording is open. `log` keeps the answers given. -/
structure Kernel where
  content : String → List UInt8
  table : Nat → Option Descr
  log : List SysCall

/-- A handle for "no descriptor" that is not -1: negative ones are Mark6's. -/
def invalidFileDescriptor : Int := 2 ^ 31 - 1

/-- What open(2) and read(2) promise: an unused descriptor, and something to read
as long as there is something. -/
structure Os where
  opens : Kernel → String → Option Nat
  reads : Kernel → Nat → Option Nat
  opens_fresh : ∀ k path fd, opens k path = some fd →
    k.table fd = none ∧ (fd : Int) < invalidFileDescriptor
  reads_some : ∀ k n m, reads k n = some m → m ≤ n ∧ (0 < n → 0 < m)

namespace Kernel

def openRead (os : Os) (k : Kernel) (path : String) : Option Nat × Kernel :=
  match os.opens k path with
  | some fd => (some fd, { k with table := Function.update k.table fd (some ⟨path, 0⟩),
                                  log := k.log ++ [.opened path (some fd)] })
  | none => (none, { k with log := k.log ++ [.opened path none] })

def close (k : Kernel) (fd : Nat) : Kernel := { k with table := Function.update k.table fd none }

def lseek (k : Kernel) (fd : Nat) (pos : Int) : Kernel :=
  match k.table fd with
  | some d =>
    if 0 ≤ pos then { k with table := Function.update k.table fd (some { d with pos := pos.toNat }) }
    else k
  | none => k

/-- `none` is the error return. -/
def read (os : Os) (k : Kernel) (fd n : Nat) : Option (List UInt8) × Kernel :=
  match k.table fd with
  | none => (none, { k with log := k.log ++ [.read fd none] })
  | some d =>
    match os.reads k (min n ((k.content d.file).length - d.pos)) with
    | none => (none, { k with log := k.log ++ [.read fd none] })
    | some m => (some (slice (k.content d.file) d.pos m),
        { k with table := Function.update k.table fd (some { d with pos := d.pos + m }),
                 log := k.log ++ [.read fd (some m)] })

end Kernel

/-! ## Chunks -/

structure FileChunk where
  pathToChunk : String
  chunkSize : Nat
  chunkPos : Nat
  chunkFd : Int
  chunkOffset : Nat
  chunkNumber : Nat
  chunkSuffixNr : Nat
  deriving DecidableEq

namespace FileChunk

/-- A FlexBuff chunk: a file of its own, opened when it is needed. -/
def flexbuff (path : String) (size number suffixNr : Nat) : FileChunk :=
  ⟨path, size, 0, invalidFileDescriptor, 0, number, suffixNr⟩

/-- A Mark6 chunk: part of a file that was left open by the scan. -/
def mark6 (chunk fpos sz fd streamId : Nat) : FileChunk := ⟨"", sz, fpos, -fd, 0, chunk, streamId⟩

def copy (c : FileChunk) : FileChunk :=
  { c with chunkFd := if c.chunkFd < 0 then c.chunkFd else invalidFileDescriptor }

def openChunk (os : Os) (k : Kernel) (c : FileChunk) : Int × FileChunk × Kernel :=
  let (c, k) :=
    if c.chunkFd = invalidFileDescriptor then
      match k.openRead os c.pathToChunk with
      | (some fd, k) => ({ c with chunkFd := fd }, k)
      | (none, k) => ({ c with chunkFd := invalidFileDescriptor }, k)
    else (c, k)
  (if c.chunkFd < 0 then -c.chunkFd else c.chunkFd, c, k)

def closeChunk (k : Kernel) (c : FileChunk) : FileChunk × Kernel :=
  if 0 ≤ c.chunkFd ∧ c.chunkFd ≠ invalidFileDescriptor then
    ({ c with chunkFd := invalidFileDescriptor }, k.close c.chunkFd.toNat)
  else (c, k)

/-- `operator<` -/
def lt (l r : FileChunk) : Bool :=
  if l.chunkNumber = r.chunkNumber then decide (l.chunkSuffixNr < r.chunkSuffixNr)
  else decide (l.chunkNumber < r.chunkNumber)

end FileChunk

/-- `filechunks_type` is a `std::set`: in order, an equivalent chunk stays out. -/
def insertChunk (c : FileChunk) : List FileChunk → List FileChunk
  | [] => [c]
  | d :: ds => if c.lt d then c :: d :: ds else if d.lt c then d :: insertChunk c ds else d :: ds

def scan (found : List FileChunk) : List FileChunk := found.foldl (fun fcs c => insertChunk c fcs) []

/-! ## Open files -/

/-- `chunkPtr` is the place of the iterator; `end()` is the number of chunks. -/
structure OpenFile where
  filePointer : Nat
  fileSize : Nat
  fileChunks : List FileChunk
  chunkPtr : Nat

/-- Each chunk's offset is the size counted so far. -/
def setOffsets : Nat → List FileChunk → List FileChunk × Nat
  | size, [] => ([], size)
  | size, c :: cs =>
    let (rest, total) := setOffsets (size + c.chunkSize) cs
    ({ c with chunkOffset := size } :: rest, total)

def OpenFile.ofChunks (fcs : List FileChunk) : OpenFile :=
  let (chunks, size) := setOffsets 0 (fcs.map FileChunk.copy)
  ⟨0, size, chunks, 0⟩

def OpenFile.null (maxsize : Nat) : OpenFile := ⟨0, maxsize, [], 0⟩

structure State where
  of : OpenFile
  k : Kernel

/-- The 64-bit cast from `size_t`, and what fits an `off_t`. -/
def offT (n : Int) : Int := Int.bmod n (2 ^ 64)

inductive Reply
  | read (bytes : List UInt8)
  | vbsExcept
  | seek (offset : Int)
  | einval
  deriving DecidableEq

inductive ReadStep
  | more (nr : Nat) (buf : List UInt8) (s : State)
  | stop (r : Reply) (s : State)

/-- One turn of the loop of `vbs_read`, with `nr` bytes to go. -/
def readStep (os : Os) (nr : Nat) (buf : List UInt8) (s : State) : ReadStep :=
  let of := s.of
  match of.fileChunks[of.chunkPtr]? with
  | none => .stop (.read buf) s
  | some chunk =>
    let n2r := min (offT nr) ((chunk.chunkOffset : Int) + chunk.chunkSize - of.filePointer)
    if n2r ≤ 0 then
      -- none at all, apparently: on to the next chunk
      let (chunk, k) := chunk.closeChunk s.k
      .more nr buf ⟨{ of with fileChunks := of.fileChunks.set of.chunkPtr chunk,
                              chunkPtr := of.chunkPtr + 1 }, k⟩
    else
      let (realfd, chunk, k) := chunk.openChunk os s.k
      let of := { of with fileChunks := of.fileChunks.set of.chunkPtr chunk }
      if realfd = invalidFileDescriptor then .stop (.read buf) ⟨of, k⟩
      else
        let k := k.lseek realfd.toNat ((of.filePointer : Int) - chunk.chunkOffset + chunk.chunkPos)
        match k.read os realfd.toNat n2r.toNat with
        | (none, k) => .stop .vbsExcept ⟨of, k⟩
        | (some bytes, k) =>
          .more (nr - bytes.length) (buf ++ bytes)
            ⟨{ of with filePointer := of.filePointer + bytes.length }, k⟩

/-- `none` when the turns run out: a loop that reads nothing goes round for ever. -/
def readLoop (os : Os) : Nat → Nat → List UInt8 → State → Option (Reply × State)
  | 0, _, _, _ => none
  | fuel + 1, nr, buf, s =>
    if nr = 0 then some (.read buf, s)
    else
      match readStep os nr buf s with
      | .stop r s => some (r, s)
      | .more nr buf s => readLoop os fuel nr buf s

def vbsRead (os : Os) (fuel : Nat) (s : State) (count : Nat) : Option (Reply × State) :=
  if count = 0 then some (.read [], s)
  else if s.of.fileChunks.length = 0 then
    let nread := min count (s.of.fileSize - s.of.filePointer)
    some (.read (List.replicate nread 0),
      { s with of := { s.of with filePointer := s.of.filePointer + nread } })
  else if s.of.chunkPtr = s.of.fileChunks.length then some (.read [], s)
  else readLoop os fuel count [] s

inductive Whence
  | seekSet
  | seekCur
  | seekEnd
  | other
  deriving DecidableEq

/-- `vbs_lseek` once the new pointer is known. -/
def seekTo (s : State) (newfp : Int) : Reply × State :=
  let of := s.of
  if newfp < 0 then (.einval, s)
  else if newfp = of.filePointer then (.seek of.filePointer, s)
  else
    let newchunk := of.fileChunks.findIdx fun c => decide (newfp ≤ c.chunkOffset + c.chunkSize)
    let (chunks, k) :=
      match of.fileChunks[of.chunkPtr]? with
      | some chunk =>
        if of.chunkPtr ≠ newchunk then
          let (chunk, k) := chunk.closeChunk s.k
          (of.fileChunks.set of.chunkPtr chunk, k)
        else (of.fileChunks, s.k)
      | none => (of.fileChunks, s.k)
    (.seek newfp, ⟨{ of with filePointer := newfp.toNat, fileChunks := chunks,
                             chunkPtr := newchunk }, k⟩)

def vbsLseek (s : State) (offset : Int) : Whence → Reply × State
  | .seekSet => seekTo s (offT offset)
  | .seekEnd => seekTo s (offT (s.of.fileSize + offset))
  | .seekCur => seekTo s (offT (s.of.filePointer + offset))
  | .other => (.einval, s)

inductive Call
  | read (count : Nat)
  | lseek (offset : Int) (whence : Whence)
  deriving DecidableEq

def vbsCall (os : Os) (fuel : Nat) (s : State) : Call → Option (Reply × State)
  | .read count => vbsRead os fuel s count
  | .lseek offset whence => some (vbsLseek s offset whence)

end Jive5ab.Vbs
