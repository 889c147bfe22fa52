import Mathlib.Logic.Function.Basic
import Jive5ab.Lib.Machine

/-! # Scan directories

`ScanDir` of `userdir_layout.h` and `EnhancedLayout` of `userdir.cc`: the scans recorded
on a disk pack, how they are added, removed and recovered, and what `insanityFactor`
makes of them. The arrays are functions of the index; names are the bytes before the
terminating NUL. -/
namespace Jive5ab.Userdir

def maxlength : Nat := 64

/-- What `strncpy` of at most `n` bytes leaves before the NUL. -/
def strncpy (s : List UInt8) (n : Nat) : List UInt8 := (s.takeWhile (· != 0)).take n

/-- A recording, complete: the name and the length its entry is set to. -/
inductive Op
  | record (name : List UInt8) (length : UInt64)
  | removeLastScan
  | clearScans
  | recover (recoveredRecordPointer : UInt64)

def recoveredScan : List UInt8 := "recovered scan".toUTF8.toList

/-! ## The original directory -/

structure ScanEntry where
  name : List UInt8
  start : UInt64
  length : UInt64

def ScanEntry.stop (e : ScanEntry) : UInt64 := e.start + e.length

structure ScanDir (maxscans : Nat) where
  nRecordedScans : Int
  nextScan : Int
  scans : Nat → ScanEntry
  recordPointer : UInt64

namespace ScanDir
variable {maxscans : Nat}

/-- All bytes zero. -/
def clear : ScanDir maxscans := ⟨0, 0, fun _ => ⟨[], 0, 0⟩, 0⟩

def setScanAt (d : ScanDir maxscans) (i : Nat) (e : ScanEntry) : ScanDir maxscans :=
  { d with scans := Function.update d.scans i e }

def getNextScan (d : ScanDir maxscans) : Except String (ScanDir maxscans × Nat) :=
  if d.nRecordedScans < 0 then .error "nRecordedScans<0 makes no sense!"
  else if maxscans ≤ d.nRecordedScans.toNat then .error "scanDirectory is full!"
  else .ok ({ d with nRecordedScans := d.nRecordedScans + 1 }, d.nRecordedScans.toNat)

def setScan (d : ScanDir maxscans) (index : Nat) (name : List UInt8) (start length : UInt64) :
    Except String (ScanDir maxscans) :=
  if d.nRecordedScans ≤ index then .error "scan index larger than number of recorded scans!"
  else if maxlength ≤ name.length then .error "scan name too long!"
  else .ok { d.setScanAt index ⟨strncpy name (maxlength - 1), start, length⟩ with
    recordPointer := start + length }

def clearScans (d : ScanDir maxscans) : ScanDir maxscans := { d with nRecordedScans := 0 }

def removeLastScan (d : ScanDir maxscans) : Except String (ScanDir maxscans) :=
  if d.nRecordedScans ≤ 0 then .error "no scan to remove in scanDir"
  else .ok { d with nRecordedScans := d.nRecordedScans - 1 }

/-- One round of the loop over the scans: the factor and the expected record pointer. -/
def checkScan (d : ScanDir maxscans) (acc : Nat × UInt64) (i : Nat) : Nat × UInt64 :=
  (acc.1 + (if (d.scans i).start ≠ acc.2 then 1 else 0) + (if (d.scans i).name = [] then 1 else 0),
    (d.scans i).stop)

/-- `(int)Maxscans`. -/
def intMaxscans (maxscans : Nat) : Int := (BitVec.ofNat 32 maxscans).toInt

def insanityFactor (d : ScanDir maxscans) : Nat :=
  let res := (if d.nRecordedScans < 0 ∨ maxscans < d.nRecordedScans.toNat then 1 else 0) +
    (if d.nextScan < 0 ∨ maxscans ≤ d.nextScan.toNat then 1 else 0)
  let scans := min d.nRecordedScans (intMaxscans maxscans)
  let (res, expectedRecordPointer) :=
    (List.range (max scans 0).toNat).foldl d.checkScan (res, 0)
  res + if d.recordPointer ≠ expectedRecordPointer then 1 else 0

/-- How many of the first scans are left when those at the end that start at or after the
pointer are dropped. -/
def scansBefore (start : Nat → UInt64) (p : UInt64) : Nat → Nat
  | 0 => 0
  | n + 1 => if p ≤ start n then scansBefore start p n else n + 1

def recover (d : ScanDir maxscans) (p : UInt64) : ScanDir maxscans :=
  if p = 0 then { d with nRecordedScans := 0 }
  else if 0 < d.nRecordedScans then
    let left := scansBefore (fun i => (d.scans i).start) p d.nRecordedScans.toNat
    let d := { d with nRecordedScans := left, recordPointer := p }
    match left with
    | 0 => d
    | last + 1 => d.setScanAt last { d.scans last with length := p - (d.scans last).start }
  else
    { d.setScanAt 0 ⟨strncpy recoveredScan (maxlength - 1), 0, p⟩ with
      nRecordedScans := d.nRecordedScans + 1
      recordPointer := p }

/-- Where the first `n` scans end. -/
def stopOf (d : ScanDir maxscans) : Nat → UInt64
  | 0 => 0
  | n + 1 => (d.scans n).stop

/-- `getNextScan` and `setScan` of that entry, from the end of the previous recording on. -/
def record (d : ScanDir maxscans) (name : List UInt8) (length : UInt64) :
    Except String (ScanDir maxscans) := do
  let start := d.stopOf d.nRecordedScans.toNat
  let (d, index) ← d.getNextScan
  d.setScan index name start length

def apply (d : ScanDir maxscans) : Op → Except String (ScanDir maxscans)
  | .record name length => d.record name length
  | .removeLastScan => d.removeLastScan
  | .clearScans => .ok d.clearScans
  | .recover p => .ok (d.recover p)

end ScanDir

/-! ## The enhanced directory -/

structure EnhancedEntry where
  dataType : UInt8
  scanNumber : BitVec 24
  stationCode : List UInt8
  scanName : List UInt8
  experiment : List UInt8
  startByte : UInt64
  stopByte : UInt64

def EnhancedEntry.clear : EnhancedEntry := ⟨0, 0, [], [], [], 0, 0⟩

/-- The parts of a scan label: experiment, station and scan name. -/
structure SplitResult where
  experiment : List UInt8
  station : List UInt8
  scan : List UInt8

structure EnhancedLayout where
  numberOfScans : Nat
  scans : Nat → EnhancedEntry

namespace EnhancedLayout

/-- `XLR_MAX_UDIR_LENGTH`, less a header, in entries of 128 bytes. -/
def maxScans : Nat := (10485760 - 128) / 128

def clear : EnhancedLayout := ⟨0, fun _ => .clear⟩

def setScanAt (d : EnhancedLayout) (i : Nat) (e : EnhancedEntry) : EnhancedLayout :=
  { d with scans := Function.update d.scans i e }

def getNextScan (d : EnhancedLayout) : Except String (EnhancedLayout × Nat) :=
  if d.numberOfScans < maxScans then
    .ok ({ d with numberOfScans := d.numberOfScans + 1 }, d.numberOfScans)
  else .error "user directory is full"

/-- `split` is that of `scan_label`, a regular expression. -/
def setScan (split : List UInt8 → Option SplitResult) (d : EnhancedLayout) (index : Nat)
    (name : List UInt8) (start length : UInt64) : Except String EnhancedLayout :=
  if index + 1 ≠ d.numberOfScans then .error "scan to be saved not the last scan"
  else match split name with
    | none => .error "failed to split label"
    | some s =>
      if 8 < s.experiment.length then .error "experiment name too long"
      else if 2 < s.station.length then .error "station name too long"
      else if 32 < s.scan.length then .error "scan name too long"
      else .ok (d.setScanAt index {
        dataType := 1
        scanNumber := .ofNat 24 (index + 1)
        experiment := strncpy s.experiment 7
        stationCode := strncpy s.station 1
        scanName := strncpy s.scan 31
        startByte := start
        stopByte := start + length })

def clearScans (d : EnhancedLayout) : EnhancedLayout := { d with numberOfScans := 0 }

def removeLastScan (d : EnhancedLayout) : Except String EnhancedLayout :=
  if 0 < d.numberOfScans then .ok { d with numberOfScans := d.numberOfScans - 1 }
  else .error "no scan to remove"

def checkScan (d : EnhancedLayout) (res i : Nat) : Nat :=
  let e := d.scans i
  res + (if e.scanNumber.toNat ≠ i + 1 then 1 else 0) +
    (if e.dataType < 1 ∨ 10 < e.dataType then 1 else 0) + (if e.stopByte < e.startByte then 1 else 0)

def insanityFactor (d : EnhancedLayout) : Nat := (List.range d.numberOfScans).foldl d.checkScan 0

/-- The scan number of a recovered scan stays zero. -/
def recover (d : EnhancedLayout) (p : UInt64) : EnhancedLayout :=
  if p = 0 then { d with numberOfScans := 0 }
  else if 0 < d.numberOfScans then
    let left := ScanDir.scansBefore (fun i => (d.scans i).startByte) p d.numberOfScans
    let d := { d with numberOfScans := left }
    match left with
    | 0 => d
    | last + 1 => d.setScanAt last { d.scans last with stopByte := p }
  else
    { d.setScanAt 0 { EnhancedEntry.clear with
        dataType := 1
        stopByte := p
        scanName := strncpy recoveredScan 32 } with numberOfScans := 1 }

def stopOf (d : EnhancedLayout) : Nat → UInt64
  | 0 => 0
  | n + 1 => (d.scans n).stopByte

def record (split : List UInt8 → Option SplitResult) (d : EnhancedLayout) (name : List UInt8)
    (length : UInt64) : Except String EnhancedLayout := do
  let start := d.stopOf d.numberOfScans
  let (d, index) ← d.getNextScan
  d.setScan split index name start length

def apply (split : List UInt8 → Option SplitResult) (d : EnhancedLayout) :
    Op → Except String EnhancedLayout
  | .record name length => d.record split name length
  | .removeLastScan => d.removeLastScan
  | .clearScans => .ok d.clearScans
  | .recover p => .ok (d.recover p)

end EnhancedLayout
end Jive5ab.Userdir
