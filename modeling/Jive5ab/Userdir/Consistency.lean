import Mathlib.Data.List.Basic
import Jive5ab.Userdir.Layout

/-! # Consistent scan directories

A directory is sane if `insanityFactor` finds nothing. For both layouts: what that means
for the scans, exactly which operations keep it, and the runs of those. -/
namespace Jive5ab.Userdir
open Lib

theorem scansBefore_le (start : Nat → UInt64) (p : UInt64) (n : Nat) :
    ScanDir.scansBefore start p n ≤ n := by
  induction n with
  | zero => exact Nat.le_refl 0
  | succ n ih =>
    rw [ScanDir.scansBefore]
    split
    · exact Nat.le_succ_of_le ih
    · exact Nat.le_refl _

/-- The last scan that is left starts before the pointer. -/
theorem scansBefore_last {start : Nat → UInt64} {p : UInt64} {n k : Nat}
    (h : ScanDir.scansBefore start p n = k + 1) : start k < p := by
  induction n with
  | zero => cases h
  | succ n ih =>
    rw [ScanDir.scansBefore] at h
    split at h
    · exact ih h
    · rename_i hlt
      obtain rfl : n = k := Nat.succ.inj h
      exact UInt64.not_le.mp hlt

/-- A scan that starts before the pointer is left. -/
theorem scansBefore_pos {start : Nat → UInt64} {p : UInt64} {n : Nat} (hn : 0 < n)
    (h : start 0 < p) : 0 < ScanDir.scansBefore start p n := by
  induction n with
  | zero => exact absurd hn (Nat.lt_irrefl 0)
  | succ n ih =>
    rw [ScanDir.scansBefore]
    split
    · rename_i hle
      cases n with
      | zero => exact absurd h (UInt64.not_lt.mpr hle)
      | succ n => exact ih (Nat.succ_pos n)
    · exact Nat.succ_pos n

theorem strncpy_recovered : strncpy recoveredScan (maxlength - 1) ≠ [] := by
  decide +kernel

namespace ScanDir
variable {maxscans : Nat}

/-- What `insanityFactor` checks. -/
structure Sane (d : ScanDir maxscans) : Prop where
  scans_nonneg : 0 ≤ d.nRecordedScans
  scans_le : d.nRecordedScans ≤ maxscans
  next : 0 ≤ d.nextScan ∧ d.nextScan < maxscans
  contiguous : ∀ i, i < d.nRecordedScans.toNat → (d.scans i).start = d.stopOf i
  named : ∀ i, i < d.nRecordedScans.toNat → (d.scans i).name ≠ []
  pointer : d.recordPointer = d.stopOf d.nRecordedScans.toNat

theorem foldl_checkScan (d : ScanDir maxscans) (res n : Nat) :
    ((List.range n).foldl d.checkScan (res, 0)).2 = d.stopOf n ∧
      (((List.range n).foldl d.checkScan (res, 0)).1 = 0 ↔ res = 0 ∧
        ∀ i, i < n → (d.scans i).start = d.stopOf i ∧ (d.scans i).name ≠ []) := by
  induction n with
  | zero => simp [stopOf]
  | succ n ih =>
    obtain ⟨hstop, hres⟩ := ih
    rw [List.range_succ, List.foldl_append, List.foldl_cons, List.foldl_nil, checkScan, hstop]
    refine ⟨rfl, ?_⟩
    dsimp only
    rw [Nat.add_eq_zero_iff, Nat.add_eq_zero_iff, hres]
    constructor
    · rintro ⟨⟨⟨hzero, hall⟩, hstart⟩, hname⟩
      refine ⟨hzero, fun i hi => ?_⟩
      rcases Nat.lt_succ_iff_lt_or_eq.mp hi with hlt | rfl
      · exact hall i hlt
      · exact ⟨by simpa using hstart, by simpa using hname⟩
    · rintro ⟨hzero, hall⟩
      obtain ⟨hstart, hname⟩ := hall n (Nat.lt_succ_self n)
      exact ⟨⟨⟨hzero, fun i hi => hall i (Nat.lt_succ_of_lt hi)⟩, by simp [hstart]⟩, by simp [hname]⟩

theorem intMaxscans_eq (h : maxscans < 2 ^ 31) : intMaxscans maxscans = maxscans := by
  have hnat : (BitVec.ofNat 32 maxscans).toNat = maxscans := by
    rw [BitVec.toNat_ofNat, Nat.mod_eq_of_lt (by omega)]
  rw [intMaxscans, BitVec.toInt_eq_toNat_of_lt (by omega), hnat]

theorem insanityFactor_eq_zero (hmax : maxscans < 2 ^ 31) {d : ScanDir maxscans} :
    d.insanityFactor = 0 ↔ d.Sane := by
  unfold insanityFactor
  dsimp only
  obtain ⟨hstop, hres⟩ := d.foldl_checkScan
    ((if d.nRecordedScans < 0 ∨ maxscans < d.nRecordedScans.toNat then 1 else 0) +
      if d.nextScan < 0 ∨ maxscans ≤ d.nextScan.toNat then 1 else 0)
    (max (min d.nRecordedScans (intMaxscans maxscans)) 0).toNat
  rw [intMaxscans_eq hmax] at hstop hres ⊢
  rw [Nat.add_eq_zero_iff, hres, hstop, Nat.add_eq_zero_iff]
  constructor
  · rintro ⟨⟨⟨hscans, hnext⟩, hall⟩, hpointer⟩
    have hn : ¬(d.nRecordedScans < 0 ∨ maxscans < d.nRecordedScans.toNat) := by simpa using hscans
    have hx : ¬(d.nextScan < 0 ∨ maxscans ≤ d.nextScan.toNat) := by simpa using hnext
    have hcount : (max (min d.nRecordedScans maxscans) 0).toNat = d.nRecordedScans.toNat := by omega
    rw [hcount] at hall hpointer
    exact ⟨by omega, by omega, by omega, fun i hi => (hall i hi).1, fun i hi => (hall i hi).2,
      by simpa using hpointer⟩
  · intro h
    have hlo := h.scans_nonneg
    have hhi := h.scans_le
    have hnext := h.next
    have hcount : (max (min d.nRecordedScans maxscans) 0).toNat = d.nRecordedScans.toNat := by omega
    rw [hcount]
    refine ⟨⟨⟨?_, ?_⟩, fun i hi => ⟨h.contiguous i hi, h.named i hi⟩⟩, by simp [h.pointer]⟩
    · rw [if_neg (by omega)]
    · rw [if_neg (by omega)]

theorem stopOf_setScanAt_of_le (d : ScanDir maxscans) {n i : Nat} (e : ScanEntry) (h : i ≤ n) :
    (d.setScanAt n e).stopOf i = d.stopOf i := by
  cases i with
  | zero => rfl
  | succ i =>
    have hne : i ≠ n := by omega
    simp [stopOf, setScanAt, Function.update_of_ne hne]

/-- The first `n` scans are kept, and another one is put behind them. -/
theorem sane_setScanAt {d : ScanDir maxscans} {n : Nat} {e : ScanEntry} {p : UInt64}
    (hroom : n < maxscans) (hnext : 0 ≤ d.nextScan ∧ d.nextScan < maxscans)
    (hcont : ∀ i, i < n → (d.scans i).start = d.stopOf i)
    (hnamed : ∀ i, i < n → (d.scans i).name ≠ []) (hstart : e.start = d.stopOf n) :
    @Sane maxscans { d.setScanAt n e with nRecordedScans := (n + 1 : Nat), recordPointer := p } ↔
      e.name ≠ [] ∧ p = e.stop := by
  have hself : (d.setScanAt n e).scans n = e := by simp [setScanAt]
  have hother : ∀ i, i < n → (d.setScanAt n e).scans i = d.scans i := fun i hi => by
    simp [setScanAt, Function.update_of_ne (Nat.ne_of_lt hi)]
  have hcount : ((n + 1 : Nat) : Int).toNat = n + 1 := Int.toNat_natCast _
  constructor
  · intro h
    have hname := h.named n (by dsimp only; omega)
    have hpointer := h.pointer
    dsimp only at hname hpointer
    rw [hcount] at hpointer
    rw [hself] at hname
    refine ⟨hname, ?_⟩
    rw [hpointer]
    simp [stopOf, hself]
  · rintro ⟨hname, hp⟩
    refine ⟨by dsimp only; omega, by dsimp only; omega, hnext, fun i hi => ?_, fun i hi => ?_, ?_⟩ <;>
      dsimp only at * <;> rw [hcount] at *
    · have hstop := d.stopOf_setScanAt_of_le e (Nat.le_of_lt_succ hi)
      rcases Nat.lt_succ_iff_lt_or_eq.mp hi with hlt | rfl
      · rw [hother i hlt, hcont i hlt]
        exact hstop.symm
      · rw [hself, hstart]
        exact hstop.symm
    · rcases Nat.lt_succ_iff_lt_or_eq.mp hi with hlt | rfl
      · rw [hother i hlt]
        exact hnamed i hlt
      · rwa [hself]
    · rw [hp]
      simp [stopOf, hself]

/-- The operations that leave the record pointer at the end of the last scan. -/
def Keeps (d : ScanDir maxscans) : Op → Prop
  | .record name _ => strncpy name (maxlength - 1) ≠ []
  | .removeLastScan => d.recordPointer = d.stopOf (d.nRecordedScans.toNat - 1)
  | .clearScans => d.recordPointer = 0
  | .recover p => p = 0 → d.recordPointer = 0

theorem record_eq_ok {d d' : ScanDir maxscans} {name : List UInt8} {length : UInt64}
    (hlo : 0 ≤ d.nRecordedScans) (h : d.record name length = .ok d') :
    d.nRecordedScans < maxscans ∧
      d' = { d.setScanAt d.nRecordedScans.toNat ⟨strncpy name (maxlength - 1),
          d.stopOf d.nRecordedScans.toNat, length⟩ with
        nRecordedScans := d.nRecordedScans + 1
        recordPointer := d.stopOf d.nRecordedScans.toNat + length } := by
  simp only [record, getNextScan, if_neg (Int.not_lt.mpr hlo)] at h
  split at h
  · cases h
  · rename_i hroom
    refine ⟨by omega, ?_⟩
    simp only [bind, Except.bind, setScan] at h
    rw [if_neg (by omega)] at h
    split at h
    · cases h
    · exact (Except.ok.inj h).symm

/-- An operation on a sane directory, exactly when it leaves a sane one. -/
theorem apply_sane {d d' : ScanDir maxscans} {op : Op} (hpos : 0 < maxscans) (h : d.Sane)
    (happ : d.apply op = .ok d') : d'.Sane ↔ d.Keeps op := by
  obtain ⟨n, hn⟩ : ∃ n : Nat, d.nRecordedScans = n := ⟨d.nRecordedScans.toNat, by
    have hlo := h.scans_nonneg
    omega⟩
  obtain ⟨-, hhi, hnext, hcont, hnamed, hptr⟩ := h
  rw [hn] at hhi hcont hnamed hptr
  rw [Int.toNat_natCast] at hcont hnamed hptr
  have hempty (m : Nat) (hm : m ≤ n) (p : UInt64) :
      @Sane maxscans { d with nRecordedScans := m, recordPointer := p } ↔ p = d.stopOf m := by
    constructor
    · intro hsane
      exact hsane.pointer
    · intro hp
      exact ⟨by dsimp only; omega, by dsimp only; omega, hnext, fun i hi => hcont i (by dsimp only at hi; omega),
        fun i hi => hnamed i (by dsimp only at hi; omega), hp⟩
  cases op with
  | record name length =>
    obtain ⟨hroom, rfl⟩ := record_eq_ok (by omega) happ
    rw [hn, Int.toNat_natCast] at *
    refine (sane_setScanAt (by omega) hnext hcont hnamed rfl).trans ?_
    simp [Keeps, ScanEntry.stop]
  | removeLastScan =>
    simp only [apply, removeLastScan] at happ
    split at happ
    · cases happ
    · obtain rfl := Except.ok.inj happ
      have hpred : d.nRecordedScans - 1 = ((n - 1 : Nat) : Int) := by omega
      rw [hpred]
      refine (hempty (n - 1) (Nat.sub_le n 1) _).trans ?_
      simp [Keeps, hn]
  | clearScans =>
    obtain rfl := Except.ok.inj happ
    exact hempty 0 (Nat.zero_le n) d.recordPointer
  | recover p =>
    obtain rfl := Except.ok.inj happ
    unfold recover
    by_cases hp : p = 0
    · rw [if_pos hp]
      refine (hempty 0 (Nat.zero_le n) d.recordPointer).trans ?_
      simp [Keeps, hp, stopOf]
    · rw [if_neg hp]
      have hkeeps : d.Keeps (.recover p) ↔ True := by simp [Keeps, hp]
      rw [hkeeps, iff_true]
      split
      · rename_i hsome
        have hnpos : 0 < n := by omega
        have hfirst : (d.scans 0).start < p := by
          rw [hcont 0 hnpos, stopOf, UInt64.lt_iff_toNat_lt]
          exact Nat.pos_of_ne_zero fun hzero => hp (UInt64.toNat_inj.mp hzero)
        have hleft : 0 < scansBefore (fun i => (d.scans i).start) p n := scansBefore_pos hnpos hfirst
        have hle := scansBefore_le (fun i => (d.scans i).start) p n
        simp only [hn, Int.toNat_natCast]
        obtain ⟨k, hk⟩ : ∃ k, scansBefore (fun i => (d.scans i).start) p n = k + 1 :=
          ⟨_, (Nat.sub_add_cancel hleft).symm⟩
        rw [hk] at hle ⊢
        dsimp only
        have hlast := @sane_setScanAt maxscans d k
          { d.scans k with length := p - (d.scans k).start } p (by omega) hnext
          (fun i hi => hcont i (by omega)) (fun i hi => hnamed i (by omega)) (hcont k (by omega))
        refine hlast.mpr ⟨hnamed k (by omega), ?_⟩
        simp only [ScanEntry.stop]
        grind
      · rename_i hnone
        have hzero : d.nRecordedScans = 0 := by omega
        rw [hzero]
        refine (sane_setScanAt hpos hnext (fun i hi => absurd hi (Nat.not_lt_zero i))
          (fun i hi => absurd hi (Nat.not_lt_zero i)) rfl).mpr ⟨strncpy_recovered, ?_⟩
        simp [ScanEntry.stop]

/-- The directory as long as only such operations are applied. -/
def keeping (maxscans : Nat) : Machine (ScanDir maxscans) Op where
  init d := d = clear
  step d op d' := d.apply op = .ok d' ∧ d.Keeps op

theorem keeping_sane (hpos : 0 < maxscans) {d : ScanDir maxscans}
    (h : (keeping maxscans).Reachable d) : d.Sane := by
  refine h.invariant Sane ?_ fun d op d' hd hstep => ?_
  · rintro d rfl
    exact ⟨Int.le_refl 0, by simp [clear], ⟨Int.le_refl 0, by simpa [clear] using hpos⟩,
      fun i hi => absurd hi (by simp [clear]), fun i hi => absurd hi (by simp [clear]), rfl⟩
  · obtain ⟨happ, hkeeps⟩ := hstep
    exact (apply_sane hpos hd happ).mpr hkeeps

end ScanDir

namespace EnhancedLayout
variable {split : List UInt8 → Option SplitResult}

def EntrySane (e : EnhancedEntry) (i : Nat) : Prop :=
  e.scanNumber.toNat = i + 1 ∧ 1 ≤ e.dataType ∧ e.dataType ≤ 10 ∧ e.startByte ≤ e.stopByte

structure Sane (d : EnhancedLayout) : Prop where
  scans_le : d.numberOfScans ≤ maxScans
  entries : ∀ i, i < d.numberOfScans → EntrySane (d.scans i) i

theorem foldl_checkScan (d : EnhancedLayout) (n : Nat) :
    (List.range n).foldl d.checkScan 0 = 0 ↔ ∀ i, i < n → EntrySane (d.scans i) i := by
  induction n with
  | zero => simp
  | succ n ih =>
    have hentry : EntrySane (d.scans n) n ↔
        (if (d.scans n).scanNumber.toNat ≠ n + 1 then 1 else 0) = 0 ∧
          (if (d.scans n).dataType < 1 ∨ 10 < (d.scans n).dataType then 1 else 0) = 0 ∧
          (if (d.scans n).stopByte < (d.scans n).startByte then 1 else 0) = 0 := by
      simp only [EntrySane, ite_eq_right_iff, Nat.one_ne_zero, imp_false, not_not, not_or,
        UInt8.not_lt, UInt64.not_lt, and_assoc]
    rw [List.range_succ, List.foldl_append, List.foldl_cons, List.foldl_nil, checkScan,
      Nat.add_eq_zero_iff, Nat.add_eq_zero_iff, Nat.add_eq_zero_iff, ih, and_assoc, and_assoc,
      ← hentry]
    constructor
    · rintro ⟨hall, hlast⟩ i hi
      rcases Nat.lt_succ_iff_lt_or_eq.mp hi with hlt | rfl
      · exact hall i hlt
      · exact hlast
    · intro hall
      exact ⟨fun i hi => hall i (Nat.lt_succ_of_lt hi), hall n (Nat.lt_succ_self n)⟩

/-- The operations that leave no scan without a number, and none that ends before it starts. -/
def Keeps (d : EnhancedLayout) : Op → Prop
  | .record _ length => (d.stopOf d.numberOfScans).toNat + length.toNat < 2 ^ 64
  | .recover p => p ≠ 0 → 0 < d.numberOfScans
  | _ => True

theorem record_eq_ok {d d' : EnhancedLayout} {name : List UInt8} {length : UInt64}
    (h : d.record split name length = .ok d') : d.numberOfScans < maxScans ∧
      ∃ e, d' = { d.setScanAt d.numberOfScans e with numberOfScans := d.numberOfScans + 1 } ∧
        e.dataType = 1 ∧ e.scanNumber = .ofNat 24 (d.numberOfScans + 1) ∧
        e.startByte = d.stopOf d.numberOfScans ∧
        e.stopByte = d.stopOf d.numberOfScans + length := by
  simp only [record, getNextScan] at h
  split at h
  · rename_i hroom
    refine ⟨hroom, ?_⟩
    simp only [bind, Except.bind, setScan] at h
    rw [if_neg (fun hne => hne rfl)] at h
    split at h
    · cases h
    · split at h
      · cases h
      · split at h
        · cases h
        · split at h
          · cases h
          · exact ⟨_, (Except.ok.inj h).symm, rfl, rfl, rfl, rfl⟩
  · cases h

/-- The first `n` entries are kept, and another one is put behind them. -/
theorem sane_setScanAt {d : EnhancedLayout} {n : Nat} {e : EnhancedEntry} (hroom : n < maxScans)
    (hall : ∀ i, i < n → EntrySane (d.scans i) i) :
    Sane { d.setScanAt n e with numberOfScans := n + 1 } ↔ EntrySane e n := by
  constructor
  · intro h
    have hlast := h.entries n (Nat.lt_succ_self n)
    simpa [setScanAt] using hlast
  · intro he
    refine ⟨hroom, fun i hi => ?_⟩
    rcases Nat.lt_succ_iff_lt_or_eq.mp hi with hlt | rfl
    · simpa [setScanAt, Function.update_of_ne (Nat.ne_of_lt hlt)] using hall i hlt
    · simpa [setScanAt] using he

theorem scanNumber_toNat {n : Nat} (h : n < maxScans) : (BitVec.ofNat 24 (n + 1)).toNat = n + 1 := by
  have hmax : maxScans = 81919 := by decide
  rw [BitVec.toNat_ofNat, Nat.mod_eq_of_lt (by omega)]

theorem le_add_iff {a b : UInt64} : a ≤ a + b ↔ a.toNat + b.toNat < 2 ^ 64 := by
  have ha := a.toNat_lt
  have hb := b.toNat_lt
  rw [UInt64.le_iff_toNat_le, UInt64.toNat_add]
  omega

theorem apply_sane {d d' : EnhancedLayout} {op : Op} (h : d.Sane) (happ : d.apply split op = .ok d') :
    d'.Sane ↔ d.Keeps op := by
  have hfewer (m : Nat) (hm : m ≤ d.numberOfScans) : Sane { d with numberOfScans := m } :=
    ⟨Nat.le_trans hm h.scans_le, fun i hi => h.entries i (Nat.lt_of_lt_of_le hi hm)⟩
  cases op with
  | record name length =>
    obtain ⟨hroom, e, rfl, htype, hnumber, hstart, hstop⟩ := record_eq_ok happ
    rw [sane_setScanAt hroom h.entries, EntrySane, hnumber, scanNumber_toNat hroom, htype, hstart, hstop,
      le_add_iff]
    simp [Keeps]
  | removeLastScan =>
    simp only [apply, removeLastScan] at happ
    split at happ
    · obtain rfl := Except.ok.inj happ
      simpa [Keeps] using hfewer _ (Nat.sub_le _ _)
    · cases happ
  | clearScans =>
    obtain rfl := Except.ok.inj happ
    exact (iff_true_right trivial).mpr (hfewer 0 (Nat.zero_le _))
  | recover p =>
    obtain rfl := Except.ok.inj happ
    unfold recover
    by_cases hp : p = 0
    · rw [if_pos hp]
      simpa [Keeps, hp] using hfewer 0 (Nat.zero_le _)
    · rw [if_neg hp]
      by_cases hsome : 0 < d.numberOfScans
      · have hkeeps : d.Keeps (.recover p) := fun _ => hsome
        rw [if_pos hsome, iff_true_right hkeeps]
        have hle := scansBefore_le (fun i => (d.scans i).startByte) p d.numberOfScans
        cases hk : ScanDir.scansBefore (fun i => (d.scans i).startByte) p d.numberOfScans with
        | zero => exact hfewer 0 (Nat.zero_le _)
        | succ k =>
          rw [hk] at hle
          have hroom := h.scans_le
          obtain ⟨hnumber, hlo, hhi, -⟩ := h.entries k (by omega)
          refine (sane_setScanAt (d := d) (by omega) fun i hi => h.entries i (by omega)).mpr ?_
          exact ⟨hnumber, hlo, hhi, Std.le_of_lt (scansBefore_last hk)⟩
      · rw [if_neg hsome]
        have hzero : d.numberOfScans = 0 := Nat.eq_zero_of_not_pos hsome
        have hnot : ¬d.Keeps (.recover p) := fun hkeeps => hsome (hkeeps hp)
        rw [iff_false_right hnot]
        intro hsane
        have hentry := (hsane.entries 0 Nat.one_pos).1
        simp [setScanAt, EnhancedEntry.clear] at hentry

/-- The directory as long as only such operations are applied. -/
def keeping (split : List UInt8 → Option SplitResult) : Machine EnhancedLayout Op where
  init d := d = clear
  step d op d' := d.apply split op = .ok d' ∧ d.Keeps op

theorem keeping_sane {d : EnhancedLayout} (h : (keeping split).Reachable d) : d.Sane := by
  refine h.invariant Sane ?_ fun d op d' hd hstep => ?_
  · rintro d rfl
    exact ⟨Nat.zero_le _, fun i hi => absurd hi (Nat.not_lt_zero i)⟩
  · obtain ⟨happ, hkeeps⟩ := hstep
    exact (apply_sane hd happ).mpr hkeeps

end EnhancedLayout

/-! ## Both layouts -/

/-- In the runs of operations that keep them, both directories are always sane. -/
theorem directories_sane {maxscans : Nat} (hpos : 0 < maxscans) (hmax : maxscans < 2 ^ 31)
    (split : List UInt8 → Option SplitResult) :
    (∀ d, (ScanDir.keeping maxscans).Reachable d → d.insanityFactor = 0 ∧ d.Sane) ∧
      ∀ d, (EnhancedLayout.keeping split).Reachable d → d.insanityFactor = 0 ∧ d.Sane := by
  constructor
  · intro d hd
    have hsane := ScanDir.keeping_sane hpos hd
    exact ⟨(ScanDir.insanityFactor_eq_zero hmax).mpr hsane, hsane⟩
  · intro d hd
    have hsane := EnhancedLayout.keeping_sane hd
    exact ⟨(EnhancedLayout.foldl_checkScan d _).mpr hsane.entries, hsane⟩

/-- The directory of Mark5A. -/
theorem directories_sane_1024 :
    (∀ d, (ScanDir.keeping 1024).Reachable d → d.insanityFactor = 0 ∧ d.Sane) ∧
      ∀ d, (EnhancedLayout.keeping fun _ => none).Reachable d → d.insanityFactor = 0 ∧ d.Sane :=
  directories_sane (by decide) (by decide) _

/-- A recording of 100 bytes is removed: the record pointer stays at 100, where no scan
ends. A recording is recovered in an empty enhanced directory: its number is zero. -/
theorem directories_insane :
    (∃ d d' : ScanDir 1024, ScanDir.clear.apply (.record [65] 100) = .ok d ∧
      d.apply .removeLastScan = .ok d' ∧ d.insanityFactor = 0 ∧ d'.insanityFactor = 1) ∧
    ∃ d : EnhancedLayout, EnhancedLayout.clear.apply (fun _ => none) (.recover 100) = .ok d ∧
      d.insanityFactor = 1 :=
  ⟨⟨_, _, rfl, rfl, by decide +kernel, by decide +kernel⟩, _, rfl, by decide +kernel⟩

end Jive5ab.Userdir
