import Mathlib.Logic.Function.Basic
import Jive5ab.Lib.LittleEndian
import Jive5ab.Lib.Machine

/-! # Writing chunks in parallel

`parallelwriter` of `multisend.cc`, any number of threads over one list of
mountpoints. A step is a system call, or a critical section under the lock; what
the operating system, the queue and the scheduler answer comes with the step.
The headers are those of `mk6info.cc`. A descriptor is the number of the file it
was opened on, and a file is opened once. -/
namespace Jive5ab.Recorder
open Lib

/-! ## Mark6 headers -/

def mark6SgSyncWord : Nat := 0xfeed6666

def sizeofFileHeader : Nat := 20

def sizeofWbHeader : Nat := 8

/-- All fields are 32 bits wide. -/
structure Mk6FileHeader where
  syncWord : BitVec 32
  version : BitVec 32
  blockSize : BitVec 32
  packetFormat : BitVec 32
  packetSize : BitVec 32
  deriving DecidableEq

/-- If the packet size is not set it is the block size. -/
def Mk6FileHeader.make (bs pf ps : BitVec 32) : Mk6FileHeader :=
  ⟨.ofNat 32 mark6SgSyncWord, 2, bs + .ofNat 32 sizeofWbHeader, pf, if ps = 0 then bs else ps⟩

structure Mk6WbHeader where
  blocknum : BitVec 32
  wbSize : BitVec 32
  deriving DecidableEq

def Mk6WbHeader.make (bn ws : BitVec 32) : Mk6WbHeader := ⟨bn, ws + .ofNat 32 sizeofWbHeader⟩

def Mk6FileHeader.bytes (h : Mk6FileHeader) : List UInt8 :=
  toBytes 4 h.syncWord.toNat ++ toBytes 4 h.version.toNat ++ toBytes 4 h.blockSize.toNat ++
    toBytes 4 h.packetFormat.toNat ++ toBytes 4 h.packetSize.toNat

def Mk6WbHeader.bytes (h : Mk6WbHeader) : List UInt8 :=
  toBytes 4 h.blocknum.toNat ++ toBytes 4 h.wbSize.toNat

/-! ## Shared data -/

structure Chunk where
  fileName : String
  chunkSequenceNr : BitVec 32
  data : List UInt8
  deriving DecidableEq

structure Mark6Vars where
  mk6 : Bool
  packetSize : BitVec 32
  packetFormat : BitVec 32

/-- `(int32_t)chunk.item.iov_len` -/
def Chunk.len32 (c : Chunk) : BitVec 32 := .ofNat 32 c.data.length

def Chunk.fileHeader (vars : Mark6Vars) (c : Chunk) : Mk6FileHeader :=
  .make c.len32 vars.packetFormat vars.packetSize

def Chunk.wbHeader (c : Chunk) : Mk6WbHeader := .make c.chunkSequenceNr c.len32

/-- `linked` until it is unlinked. -/
structure File where
  mountpoint : String
  path : String
  contents : List UInt8
  linked : Bool
  deriving DecidableEq

/-- `fdmap` has -1 for a file that was closed. -/
structure MultiFileArgs where
  listlength : Nat
  filelist : List String
  fdmap : String → Option Int

/-! ## Writers -/

/-- Where a writer is that has a mountpoint, in the order of the code. -/
inductive Stage
  | lookup
  | mkpath
  | opening
  | chown (fd : Nat)
  | fileHeader (fd : Nat)
  | blockHeader (fd : Nat)
  | data (fd bytesWritten : Nat)
  | close (fd bytesWritten : Nat)
  | inspect (fd bytesWritten : Nat)
  | markBad
  | markBadUnlink (fd : Nat)
  | putBack (fd : Nat)
  | seenBefore (listlength : Nat)
  deriving DecidableEq

/-- `seen` is `mp_seen`. A writer that `quit` fell out of its loop; `threw` is
one that an exception took out. -/
inductive Writer
  | idle
  | select (c : Chunk) (seen : List String)
  | asleep (c : Chunk) (seen : List String)
  | holding (c : Chunk) (seen : List String) (mountpoint : String) (stage : Stage)
  | quit
  | threw
  deriving DecidableEq

def Writer.holds : Writer → Bool
  | .holding .. => true
  | _ => false

def Writer.sleeps : Writer → Bool
  | .asleep .. => true
  | _ => false

/-- Awake, and about to look at the list. -/
def Writer.looks : Writer → Bool
  | .select .. => true
  | _ => false

/-- Back in the loop condition. -/
def Writer.wake : Writer → Writer
  | .asleep c seen => .select c seen
  | w => w

/-- `recorded`: the chunks that count as written, and the file they went to. -/
structure State where
  args : MultiFileArgs
  files : List File
  writers : List Writer
  recorded : List (Chunk × Nat)

/-- What a step needs to know from outside. `woken` is the sleeper that a signal
wakes up, `retire` the critical section that gives up a mountpoint. Negative
results of `write` are failures. -/
inductive Answer
  | popped (c : Option Chunk)
  | spurious
  | proceed
  | retire
  | made (ok : Bool)
  | opened (ok : Bool)
  | chowned (ok : Bool)
  | wroteFileHeader (rv : Int)
  | wroteBlockHeader (rv : Int)
  | wroteData (rv : Int)
  | woken (sleeper : Option Nat)
  deriving DecidableEq

namespace State

def setWriter (s : State) (i : Nat) (w : Writer) : State := { s with writers := s.writers.set i w }

/-- `pthread_cond_signal`: a sleeper, if there is any. -/
def signal (s : State) : Option Nat → Option State
  | some j =>
    match s.writers[j]? with
    | some w => if w.sleeps then some (s.setWriter j w.wake) else none
    | none => none
  | none => if s.writers.any Writer.sleeps then none else some s

def broadcast (s : State) : State := { s with writers := s.writers.map Writer.wake }

def giveBack (s : State) (mountpoint : String) : State :=
  { s with args := { s.args with filelist := s.args.filelist ++ [mountpoint] } }

/-- `insert` of a `std::map`: what is there stays. -/
def insertFd (fdmap : String → Option Int) (mountpoint : String) (fd : Int) : String → Option Int :=
  match fdmap mountpoint with
  | some _ => fdmap
  | none => Function.update fdmap mountpoint (some fd)

def record (s : State) (mountpoint : String) (mapped : Int) (c : Chunk) (fd : Nat) : State :=
  { s with
    args := { s.args with fdmap := insertFd s.args.fdmap mountpoint mapped }
    recorded := s.recorded ++ [(c, fd)] }

/-- What `write` of `bytes` appends when it returns `rv`. -/
def append (s : State) (fd : Nat) (bytes : List UInt8) (rv : Int) : State :=
  { s with files := s.files.modify fd fun f => { f with contents := f.contents ++ bytes.take rv.toNat } }

end State

/-- `rv` is something that `write` of `n` bytes may return. -/
def writeReturns (rv : Int) (n : Nat) : Prop := rv ≤ n

instance (rv : Int) (n : Nat) : Decidable (writeReturns rv n) := inferInstanceAs (Decidable (rv ≤ n))

/-- From the loop over the wait on: to sleep, out of the loop, or a mountpoint. -/
def selectMountpoint (vars : Mark6Vars) (s : State) (i : Nat) (c : Chunk) (seen : List String) :
    State :=
  let listlength := s.args.listlength
  if 0 < listlength ∧ s.args.filelist = [] then s.setWriter i (.asleep c seen)
  else
    match s.args.filelist with
    | [] => s.setWriter i .quit
    | mountpoint :: rest =>
      let s := { s with args := { s.args with filelist := rest } }
      if mountpoint = "" then s.setWriter i .quit
      else if mountpoint ∈ seen then s.setWriter i (.holding c seen mountpoint (.seenBefore listlength))
      else s.setWriter i (.holding c (mountpoint :: seen) mountpoint (if vars.mk6 then .lookup else .mkpath))

/-- A mountpoint is given up: everybody has to look again. -/
def markMountpointBad (s : State) (i : Nat) (c : Chunk) (seen : List String) : State :=
  ({ s with args := { s.args with listlength := s.args.listlength - 1 } }.broadcast).setWriter i
    (.select c seen)

/-- The stages between taking a mountpoint and what becomes of it. -/
def stageStep (vars : Mark6Vars) (s : State) (i : Nat) (c : Chunk) (seen : List String)
    (mountpoint : String) (stage : Stage) (a : Answer) : Option State :=
  let go (s : State) (stage : Stage) := some (s.setWriter i (.holding c seen mountpoint stage))
  match stage, a with
  | .lookup, .proceed =>
    match s.args.fdmap mountpoint with
    | some (.ofNat fd) => go s (.blockHeader fd)
    | _ => go s .mkpath
  | .mkpath, .made ok => go s (if ok then .opening else .markBad)
  | .opening, .opened ok =>
    let fn := mountpoint ++ "/" ++ c.fileName
    if ok then
      -- O_CREAT|O_EXCL
      if s.files.any fun f => f.linked && f.path = fn then none
      else go { s with files := s.files ++ [⟨mountpoint, fn, [], true⟩] } (.chown s.files.length)
    else go s .markBad
  | .chown fd, .chowned ok =>
    if ok then go s (if vars.mk6 then .fileHeader fd else .data fd 0)
    else some (s.setWriter i .threw)
  | .fileHeader fd, .wroteFileHeader rv =>
    if writeReturns rv sizeofFileHeader then
      go (s.append fd (c.fileHeader vars).bytes rv)
        (if rv = sizeofFileHeader then .blockHeader fd else .markBad)
    else none
  | .blockHeader fd, .wroteBlockHeader rv =>
    if writeReturns rv sizeofWbHeader then
      -- after a failure the chunk data must not be written
      go (s.append fd c.wbHeader.bytes rv)
        (.data fd (if rv = sizeofWbHeader then 0 else c.data.length))
    else none
  | .data fd bytesWritten, .wroteData rv =>
    if bytesWritten < c.data.length ∧ writeReturns rv (c.data.length - bytesWritten) then
      go (s.append fd (c.data.drop bytesWritten) rv)
        (if rv ≤ 0 then .close fd bytesWritten else .data fd (bytesWritten + rv.toNat))
    else none
  | .data fd bytesWritten, .proceed =>
    if bytesWritten < c.data.length then none else go s (.close fd bytesWritten)
  -- close(2) unless there is more to come in this file; its result is not looked at
  | .close fd bytesWritten, .proceed => go s (.inspect fd bytesWritten)
  | .inspect fd bytesWritten, .proceed =>
    if bytesWritten = c.data.length then go s (.putBack fd)
    else go s (if vars.mk6 then .markBad else .markBadUnlink fd)
  | .markBad, .retire => some (markMountpointBad s i c seen)
  | .markBadUnlink fd, .retire =>
    some (markMountpointBad { s with files := s.files.modify fd fun f => { f with linked := false } }
      i c seen)
  | .putBack fd, .woken sleeper =>
    (((s.giveBack mountpoint).record mountpoint (if vars.mk6 then fd else -1) c fd).setWriter i
      .idle).signal sleeper
  | .seenBefore listlength, .woken sleeper =>
    ((s.giveBack mountpoint).setWriter i
      (if listlength ≤ seen.length then .quit else .select c seen)).signal sleeper
  | _, _ => none

/-- One step of writer `i`. -/
def step (vars : Mark6Vars) (s : State) (la : Nat × Answer) : Option State :=
  let (i, a) := la
  match s.writers[i]?, a with
  | some .idle, .popped (some c) => some (s.setWriter i (.select c []))
  | some .idle, .popped none => some (s.setWriter i .quit)
  | some (.select c seen), .proceed => some (selectMountpoint vars s i c seen)
  | some (.asleep c seen), .spurious => some (s.setWriter i (.select c seen))
  | some (.holding c seen mountpoint stage), a => stageStep vars s i c seen mountpoint stage a
  | _, _ => none

def initial (mountpoints : List String) (nwriter : Nat) : State where
  args := ⟨mountpoints.length, mountpoints, fun _ => none⟩
  files := []
  writers := List.replicate nwriter .idle
  recorded := []

def parallelwriter (vars : Mark6Vars) (mountpoints : List String) (nwriter : Nat) :
    Machine State (Nat × Answer) :=
  ofFn (· = initial mountpoints nwriter) (step vars)

end Jive5ab.Recorder
