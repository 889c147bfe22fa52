import Jive5ab.Headersearch.DataCheck
import Jive5ab.Lib.Slice

/-! # The framer

`framer` takes the frames of a format out of a stream that comes in blocks. What is left of a
block, if it may be the begin of a frame, is cached until the next. -/
namespace Jive5ab.Headersearch
open Lib

def bytesAt (l : List Crc.Byte) : Framedata := fun a => l.getD a 0

structure Frame where
  framedata : List Crc.Byte
  frametime : TimeStamp
  deriving DecidableEq

/-- Why no more blocks are taken: an exception, or a loop that does not get on. -/
inductive Halt
  | assertion
  | haystackLongerThanIntMax
  | header (e : HeaderError)
  | hangs
  deriving DecidableEq

/-- `framerargs`, and the day on which the frames are decoded. -/
structure Framer where
  hdr : Headersearch
  strict : Bool
  clock : Clock

namespace Framer

variable (f : Framer)

def size : Nat := syncwordsize f.hdr.frameformat f.hdr.ntrack

def offset : Nat := syncwordoffset f.hdr.frameformat f.hdr.ntrack

def header : Nat := headersize f.hdr.frameformat f.hdr.ntrack

def framesize : Nat :=
  Jive5ab.Headersearch.framesize f.hdr.frameformat f.hdr.ntrack f.hdr.payloadsize

def syncwordArea : Nat := f.offset + f.size

def noSyncword : Bool := f.size == 0

def word : Nat → Crc.Byte := syncword f.hdr.frameformat

def tmDecodeFlg : Strict :=
  if f.strict then .chkDefault else ⟨false, false, true, false, true, true⟩

/-- What is in `accublock`, what the decoder remembers, and what has been pushed. -/
structure State where
  cached : List Crc.Byte
  m5b : M5bState
  frames : List Frame
  halted : Option Halt

def State.cache (s : State) (cached : List Crc.Byte) : State := { s with cached }

def State.halt (s : State) (why : Halt) : State := { s with halted := some why }

/-- `strict && header.check(..)==false` -/
def refuses (l : List Crc.Byte) : Except HeaderError Bool :=
  if f.strict then (checkFrame f.hdr (bytesAt l) .chkDefault 5).map (!·) else .ok false

/-- A frame is decoded, and pushed if it has a time. -/
def deliver (s : State) (frame : List Crc.Byte) : State :=
  match frameTimestamp f.hdr f.clock (bytesAt frame) f.tmDecodeFlg 0 s.m5b with
  | (m5b, .error e) => { s with m5b, halted := some (.header e) }
  | (m5b, .ok t) => { s with m5b, frames := if t.1 ≠ 0 then s.frames ++ [⟨frame, t⟩] else s.frames }

def syncwordsearch (l : List Crc.Byte) : Except Halt (Option Nat) :=
  let n := l.length % 2 ^ 32
  if 2 ^ 31 - 1 ≤ n then .error .haystackLongerThanIntMax
  else .ok (BoyerMoore.search f.word f.size (bytesAt l) n)

/-! ## Cached bytes -/

/-- Behind the header check, with `ncpy` bytes more in the cache. -/
def cachedRest (s : State) (ptr ncpy : Nat) (search : Bool) : State × Nat :=
  if s.cached.length = f.framesize then ((f.deliver s s.cached).cache [], ptr)
  else if !search then (s, ptr)
  else
    match f.syncwordsearch s.cached with
    | .error e => (s.halt e, ptr)
    | .ok none =>
      if f.syncwordArea - 1 ≤ ncpy then (s.cache [], 0)
      else
        let nkeep := min (f.syncwordArea - 1) s.cached.length
        (s.cache (s.cached.drop (s.cached.length - nkeep)), ptr)
    | .ok (some swpos) =>
      if swpos < f.offset then (s.cache [], 0)
      else (s.cache (s.cached.drop (swpos - f.offset)), ptr)

def cachedStep (b : List Crc.Byte) (s : State) (ptr : Nat) : State × Nat :=
  let ncached := s.cached.length
  let search := decide (ncached < f.syncwordArea) && !f.noSyncword
  let navail := (b.length - ptr) % 2 ^ 32
  let ncpy := if search then min (2 * f.syncwordArea - 1 - ncached) navail
    else min (f.framesize - ncached) navail
  let s := s.cache (s.cached ++ slice b ptr ncpy)
  let ptr := ptr + ncpy
  if f.header ≤ s.cached.length then
    match f.refuses s.cached with
    | .error e => (s.halt (.header e), ptr)
    | .ok true => (s.cache [], if f.syncwordArea < ptr then ptr - f.syncwordArea else ptr)
    | .ok false => f.cachedRest s ptr ncpy search
  else f.cachedRest s ptr ncpy search

/-- `while( ncached && ptr<e_ptr )` -/
def cachedLoop (b : List Crc.Byte) : Nat → State → Nat → State × Nat
  | 0, s, ptr => (s.halt .hangs, ptr)
  | fuel + 1, s, ptr =>
    if s.halted = none ∧ s.cached ≠ [] ∧ ptr < b.length then
      let (s, ptr) := f.cachedStep b s ptr
      cachedLoop b fuel s ptr
    else (s, ptr)

/-! ## The remainder of the block -/

/-- Where the next sync word is; without sync words that is where the search starts. -/
def nextSyncword (b : List Crc.Byte) (ptr : Nat) : Except Halt (Option Nat) :=
  if f.noSyncword then .ok (some ptr)
  else (f.syncwordsearch (b.drop ptr)).map (·.map (ptr + ·))

def mainStep (b : List Crc.Byte) (s : State) (ptr : Nat) : State × Nat :=
  match f.nextSyncword b ptr with
  | .error e => (s.halt e, ptr)
  | .ok none =>
    let nkeep := min (f.syncwordArea - 1) ((b.length - ptr) % 2 ^ 32)
    (s.cache (slice b (b.length - nkeep) nkeep), b.length)
  | .ok (some sw) =>
    if sw - ptr < f.offset then (s, sw + f.size)
    else
      let sof := sw - f.offset
      let num := (b.length - sof) % 2 ^ 32
      if num < f.framesize then (s.cache (slice b sof num), b.length)
      else
        match f.refuses (b.drop sof) with
        | .error e => (s.halt (.header e), ptr)
        | .ok true => (s, sof + f.syncwordArea)
        | .ok false => (f.deliver s (slice b sof f.framesize), sof + f.framesize)

/-- `while( ptr<e_ptr )` -/
def mainLoop (b : List Crc.Byte) : Nat → State → Nat → State
  | 0, s, _ => s.halt .hangs
  | fuel + 1, s, ptr =>
    if s.halted = none ∧ ptr < b.length then
      let (s, ptr) := f.mainStep b s ptr
      mainLoop b fuel s ptr
    else s

/-! ## Blocks -/

def takeBlock (s : State) (b : List Crc.Byte) : State :=
  let (s, ptr) := f.cachedLoop b (b.length + 4) s 0
  f.mainLoop b (b.length + 1) s ptr

def framer (blocks : List (List Crc.Byte)) : State :=
  let s : State := ⟨[], .cleared, [], none⟩
  if f.framesize < f.header then s.halt .assertion else blocks.foldl f.takeBlock s

end Framer

end Jive5ab.Headersearch
