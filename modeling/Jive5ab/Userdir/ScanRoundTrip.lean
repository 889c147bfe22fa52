import Jive5ab.Lib.Split
import Jive5ab.Userdir.Labels
import Jive5ab.Userdir.Layout

/-! # A scan, written and read

`EnhancedLayout::setScan` of the last scan and `getScan` of it. The fields of a label are copied
with room for a terminating NUL, though a label that fills them is accepted. -/
namespace Jive5ab.Userdir
open Lib.Split

deriving instance DecidableEq for SplitResult

/-! ## Scan labels -/

def underscore : UInt8 := 95

def isAlnum (b : UInt8) : Bool :=
  (48 ≤ b && b ≤ 57) || (65 ≤ b && b ≤ 90) || (97 ≤ b && b ≤ 122)

/-- `* \ -` on Mark5A, and `+ .` elsewhere; in a bracket expression the backslash is a character. -/
def isScanChar (mk5a : Bool) (b : UInt8) : Bool :=
  isAlnum b || b == 42 || b == 92 || b == 45 || (!mk5a && (b == 43 || b == 46))

/-- The extended scan label: experiment, station and scan name, each of characters that are no
underscore, with underscores between them. -/
def splitExtended (mk5a : Bool) (label : List UInt8) : Option SplitResult :=
  let partLength := if mk5a then 16 else 8
  let scanLength := if mk5a then 16 else 32
  match split underscore false (label.takeWhile (· != 0)) with
  | [experiment, station, scan] =>
    if experiment.all isAlnum ∧ experiment.length ≤ partLength ∧ station.all isAlnum ∧
        station.length ≤ partLength ∧ scan.all (isScanChar mk5a) ∧ scan.length ≤ scanLength then
      some ⟨experiment, station, scan⟩
    else none
  | _ => none

/-! ## Reading a scan -/

structure ROScanPointer where
  name : List UInt8
  start : UInt64
  length : UInt64
  index : Nat
  deriving DecidableEq

def SplitResult.joined (s : SplitResult) : List UInt8 :=
  s.experiment ++ underscore :: (s.station ++ underscore :: s.scan)

def EnhancedEntry.name (e : EnhancedEntry) : List UInt8 :=
  SplitResult.joined ⟨e.experiment, e.stationCode, e.scanName⟩

def EnhancedLayout.getScan (d : EnhancedLayout) (index : Nat) : Except String ROScanPointer :=
  if ¬index < d.numberOfScans then .error "requested scan out-of-range"
  else
    let scan := d.scans index
    if ¬scan.startByte ≤ scan.stopByte then .error "stop byte < start byte"
    else .ok ⟨scan.name, scan.startByte, scan.stopByte - scan.startByte, index⟩

/-- The scans, below the header with the labels. -/
abbrev EnhancedDirectory := Labels.Directory EnhancedLayout

def EnhancedDirectory.setScan (mk5a : Bool) (d : EnhancedDirectory) (index : Nat)
    (name : List UInt8) (start length : UInt64) : Except String EnhancedDirectory :=
  (d.rest.setScan (splitExtended mk5a) index name start length).map fun rest => { d with rest }

/-- What is set is read, and nothing else has changed. -/
def ScanComesBack (mk5a : Bool) (d : EnhancedDirectory) (index : Nat) (name : List UInt8)
    (start length : UInt64) : Prop :=
  ∀ d' : EnhancedDirectory, EnhancedDirectory.setScan mk5a d index name start length = .ok d' →
    d'.rest.getScan index = .ok ⟨name, start, length, index⟩ ∧
      (∀ i, i ≠ index → d'.rest.scans i = d.rest.scans i) ∧
      d'.rest.numberOfScans = d.rest.numberOfScans ∧
      d'.vsn = d.vsn ∧ d'.companionVsn = d.companionVsn

/-- The checks of `setScan`. -/
def Accepted (d : EnhancedDirectory) (index : Nat) (s : SplitResult) : Prop :=
  index + 1 = d.rest.numberOfScans ∧ s.experiment.length ≤ 8 ∧ s.station.length ≤ 2 ∧
    s.scan.length ≤ 32

/-- The parts leave room for a NUL, the label has none, and the scan does not end beyond the
last byte position. -/
def FitsEntry (name : List UInt8) (s : SplitResult) (start length : UInt64) : Prop :=
  s.experiment.length < 8 ∧ s.station.length < 2 ∧ s.scan.length < 32 ∧ 0 ∉ name ∧
    start.toNat + length.toNat < 2 ^ 64

/-! ## Labels and their parts -/

theorem split_joined {s p q r : List UInt8} (h : split underscore false s = [p, q, r]) :
    s = SplitResult.joined ⟨p, q, r⟩ := by
  have hjoin := intercalate_split underscore s
  rw [h] at hjoin
  rw [← hjoin]
  simp [SplitResult.joined, List.intercalate]

/-- The label, up to a NUL. -/
theorem splitExtended_joined {mk5a : Bool} {label : List UInt8} {s : SplitResult}
    (h : splitExtended mk5a label = some s) : label.takeWhile (· != 0) = s.joined := by
  rcases hsplit : split underscore false (label.takeWhile (· != 0)) with
    _ | ⟨p, _ | ⟨q, _ | ⟨r, _ | ⟨t, pieces⟩⟩⟩⟩
  · simp [splitExtended, hsplit] at h
  · simp [splitExtended, hsplit] at h
  · simp [splitExtended, hsplit] at h
  · simp only [splitExtended, hsplit, Option.ite_none_right_eq_some, Option.some.injEq] at h
    rw [← h.2]
    exact split_joined hsplit
  · simp [splitExtended, hsplit] at h

theorem SplitResult.length_joined (s : SplitResult) :
    s.joined.length = s.experiment.length + s.station.length + s.scan.length + 2 := by
  simp only [joined, List.length_append, List.length_cons]
  omega

/-- What the fields hold of a label. -/
def SplitResult.stored (s : SplitResult) : SplitResult :=
  ⟨strncpy s.experiment 7, strncpy s.station 1, strncpy s.scan 31⟩

theorem length_strncpy_le (s : List UInt8) (n : Nat) :
    (strncpy s n).length ≤ s.length ∧ (strncpy s n).length ≤ n := by
  have hpre := (List.takeWhile_prefix (· != 0) (l := s)).length_le
  simp only [strncpy, List.length_take]
  omega

theorem strncpy_eq_self {s : List UInt8} {n : Nat} (hzero : 0 ∉ s) (hlen : s.length ≤ n) :
    strncpy s n = s := by
  rw [strncpy, Labels.takeWhile_eq_self_iff.mpr hzero, List.take_of_length_le hlen]

/-- A label is read as it was if none of its parts is cut. -/
theorem joined_stored_iff {name : List UInt8} {s : SplitResult}
    (h : name.takeWhile (· != 0) = s.joined) : s.stored.joined = name ↔
      s.experiment.length < 8 ∧ s.station.length < 2 ∧ s.scan.length < 32 ∧ 0 ∉ name := by
  have hexperiment := length_strncpy_le s.experiment 7
  have hstation := length_strncpy_le s.station 1
  have hscan := length_strncpy_le s.scan 31
  have hpre := (List.takeWhile_prefix (· != 0) (l := name)).length_le
  constructor
  · intro heq
    have hlen := congrArg List.length heq
    rw [h, SplitResult.length_joined] at hpre
    rw [SplitResult.length_joined] at hlen
    simp only [SplitResult.stored] at hlen
    refine ⟨by omega, by omega, by omega, Labels.takeWhile_eq_self_iff.mp ?_⟩
    refine (List.takeWhile_prefix _).eq_of_length ?_
    rw [h, SplitResult.length_joined]
    omega
  · rintro ⟨hexperiment', hstation', hscan', hzero⟩
    rw [Labels.takeWhile_eq_self_iff.mpr hzero] at h
    have hmem : ∀ b ∈ name, b ≠ 0 := fun b hb hbzero => hzero (hbzero ▸ hb)
    rw [h] at hmem ⊢
    simp only [SplitResult.joined, List.mem_append, List.mem_cons] at hmem
    rw [SplitResult.stored,
      strncpy_eq_self (fun hz => hmem 0 (by simp [hz]) rfl) (by omega),
      strncpy_eq_self (fun hz => hmem 0 (by simp [hz]) rfl) (by omega),
      strncpy_eq_self (fun hz => hmem 0 (by simp [hz]) rfl) (by omega)]

/-! ## Setting a scan -/

/-- What `setScan` makes of the entry. -/
def entryOf (index : Nat) (s : SplitResult) (start length : UInt64) : EnhancedEntry where
  dataType := 1
  scanNumber := .ofNat 24 (index + 1)
  experiment := strncpy s.experiment 7
  stationCode := strncpy s.station 1
  scanName := strncpy s.scan 31
  startByte := start
  stopByte := start + length

theorem setScan_eq_ok {mk5a : Bool} {d d' : EnhancedDirectory} {index : Nat} {name : List UInt8}
    {start length : UInt64} :
    EnhancedDirectory.setScan mk5a d index name start length = .ok d' ↔
      ∃ s, splitExtended mk5a name = some s ∧ Accepted d index s ∧
        d' = { d with rest := d.rest.setScanAt index (entryOf index s start length) } := by
  unfold EnhancedDirectory.setScan EnhancedLayout.setScan Accepted
  by_cases hindex : index + 1 = d.rest.numberOfScans
  · rw [if_neg (not_not.mpr hindex)]
    cases splitExtended mk5a name with
    | none => simp [Except.map]
    | some s =>
      simp only [Option.some.injEq, exists_eq_left']
      by_cases hexperiment : 8 < s.experiment.length
      · rw [if_pos hexperiment]
        simp [Except.map, Nat.not_le.mpr hexperiment]
      by_cases hstation : 2 < s.station.length
      · rw [if_neg hexperiment, if_pos hstation]
        simp [Except.map, Nat.not_le.mpr hstation]
      by_cases hscan : 32 < s.scan.length
      · rw [if_neg hexperiment, if_neg hstation, if_pos hscan]
        simp [Except.map, Nat.not_le.mpr hscan]
      · rw [if_neg hexperiment, if_neg hstation, if_neg hscan]
        rw [and_iff_right ⟨hindex, by omega, by omega, by omega⟩]
        simp only [Except.map, Except.ok.injEq]
        exact eq_comm
  · rw [if_pos hindex]
    simp [Except.map, hindex]

theorem getScan_setScanAt {d : EnhancedLayout} {index : Nat} {s : SplitResult}
    {start length : UInt64} (hindex : index + 1 = d.numberOfScans) (name : List UInt8) :
    (d.setScanAt index (entryOf index s start length)).getScan index =
        .ok ⟨name, start, length, index⟩ ↔
      s.stored.joined = name ∧ start.toNat + length.toNat < 2 ^ 64 := by
  have hentry : (d.setScanAt index (entryOf index s start length)).scans index =
      entryOf index s start length := Function.update_self index _ d.scans
  have hlt : index < (d.setScanAt index (entryOf index s start length)).numberOfScans := by
    change index < d.numberOfScans
    omega
  have hbyte : start ≤ start + length ↔ start.toNat + length.toNat < 2 ^ 64 := by
    have hstart := start.toNat_lt
    have hlength := length.toNat_lt
    rw [UInt64.le_iff_toNat_le, UInt64.toNat_add]
    omega
  have hdiff : start + length - start = length := by
    rw [UInt64.add_comm, UInt64.add_sub_cancel]
  unfold EnhancedLayout.getScan
  rw [if_neg (not_not.mpr hlt), hentry]
  simp only [entryOf, hbyte, hdiff]
  by_cases hfits : start.toNat + length.toNat < 2 ^ 64
  · rw [if_neg (not_not.mpr hfits)]
    simp only [Except.ok.injEq, ROScanPointer.mk.injEq, and_true, hfits]
    exact Iff.rfl
  · rw [if_pos hfits]
    exact iff_of_false nofun fun h => hfits h.2

/-- A scan comes back, whatever else is recorded, if and only if its label leaves room in the
fields and its end is a byte position. -/
theorem scanComesBack_iff (mk5a : Bool) (d : EnhancedDirectory) (index : Nat) (name : List UInt8)
    (start length : UInt64) :
    ScanComesBack mk5a d index name start length ↔
      ∀ s, splitExtended mk5a name = some s → Accepted d index s →
        FitsEntry name s start length := by
  constructor
  · intro h s hsplit haccepted
    obtain ⟨hscan, -⟩ := h _ (setScan_eq_ok.mpr ⟨s, hsplit, haccepted, rfl⟩)
    obtain ⟨hname, hend⟩ := (getScan_setScanAt haccepted.1 name).mp hscan
    obtain ⟨hexperiment, hstation, hscan, hzero⟩ :=
      (joined_stored_iff (splitExtended_joined hsplit)).mp hname
    exact ⟨hexperiment, hstation, hscan, hzero, hend⟩
  · intro h d' hset
    obtain ⟨s, hsplit, haccepted, rfl⟩ := setScan_eq_ok.mp hset
    obtain ⟨hexperiment, hstation, hscan, hzero, hend⟩ := h s hsplit haccepted
    have hname := (joined_stored_iff (splitExtended_joined hsplit)).mpr
      ⟨hexperiment, hstation, hscan, hzero⟩
    exact ⟨(getScan_setScanAt haccepted.1 name).mpr ⟨hname, hend⟩,
      fun i hi => Function.update_of_ne hi _ _, rfl, rfl, rfl⟩

/-- The label `EXP_ST_scan`, with the station code of two characters that the code itself
supplies. -/
theorem station_cut :
    ¬ScanComesBack false ⟨[], [], { EnhancedLayout.clear with numberOfScans := 1 }⟩ 0
      "EXP_ST_scan".toUTF8.toList 0 100 := by
  intro h
  have hsplit : splitExtended false "EXP_ST_scan".toUTF8.toList =
      some ⟨"EXP".toUTF8.toList, "ST".toUTF8.toList, "scan".toUTF8.toList⟩ := by decide +kernel
  obtain ⟨hscan, -⟩ := h _ (setScan_eq_ok.mpr ⟨_, hsplit, by unfold Accepted; decide +kernel, rfl⟩)
  have hname := ((getScan_setScanAt rfl _).mp hscan).1
  revert hname
  decide +kernel

end Jive5ab.Userdir
