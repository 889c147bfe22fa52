import Jive5ab.Userdir.Consistency
import Jive5ab.Userdir.ScanRoundTrip

/-! # The scans of the two layouts

Both layouts, under the same operations: what they report of the scans. One has the length of a
scan, the other where it stops. -/
namespace Jive5ab.Userdir
open Lib

/-! ## What is reported -/

def ScanDir.nScans {maxscans : Nat} (d : ScanDir maxscans) : Except String Nat :=
  if d.nRecordedScans < 0 then .error "Negative number of recorded scans?!"
  else .ok d.nRecordedScans.toNat

def ScanDir.getScan {maxscans : Nat} (d : ScanDir maxscans) (scan : Nat) :
    Except String ROScanPointer :=
  if 0 < d.nRecordedScans ∧ scan < d.nRecordedScans.toNat then
    .ok ⟨(d.scans scan).name, (d.scans scan).start, (d.scans scan).length, scan⟩
  else .error "requested scan out-of-range"

/-- As many scans, each with the same start and length. -/
structure SameScans {maxscans : Nat} (d : ScanDir maxscans) (e : EnhancedLayout) : Prop where
  nScans : d.nScans = .ok e.numberOfScans
  scans : ∀ i, i < e.numberOfScans → ∃ x y, d.getScan i = .ok x ∧ e.getScan i = .ok y ∧
    x.start = y.start ∧ x.length = y.length

/-- The last scan of each ends at `p`. -/
def LastEndsAt {maxscans : Nat} (d : ScanDir maxscans) (e : EnhancedLayout) (p : UInt64) : Prop :=
  ∃ n x y, d.nScans = .ok (n + 1) ∧ e.numberOfScans = n + 1 ∧ d.getScan n = .ok x ∧
    e.getScan n = .ok y ∧ x.start.toNat + x.length.toNat = p.toNat ∧
    y.start.toNat + y.length.toNat = p.toNat

/-! ## The operations on both -/

/-- A removal from an empty directory throws before it changes anything. -/
def ScanDir.Becomes {maxscans : Nat} (d : ScanDir maxscans) (op : Op) (d' : ScanDir maxscans) : Prop :=
  d.apply op = .ok d' ∨ op = .removeLastScan ∧ (∃ what, d.apply op = .error what) ∧ d' = d

def EnhancedLayout.Becomes (split : List UInt8 → Option SplitResult) (e : EnhancedLayout) (op : Op)
    (e' : EnhancedLayout) : Prop :=
  e.apply split op = .ok e' ∨
    op = .removeLastScan ∧ (∃ what, e.apply split op = .error what) ∧ e' = e

/-- A recording ends below 2 ^ 64. -/
def Below {maxscans : Nat} (d : ScanDir maxscans) : Op → Prop
  | .record _ length => (d.stopOf d.nRecordedScans.toNat).toNat + length.toNat < 2 ^ 64
  | _ => True

/-- A recording is one that both accept. -/
def bothLayouts (maxscans : Nat) (split : List UInt8 → Option SplitResult) :
    Machine (ScanDir maxscans × EnhancedLayout) Op where
  init s := s = (.clear, .clear)
  step s op s' := s.1.Becomes op s'.1 ∧ s.2.Becomes split op s'.2 ∧ Below s.1 op

/-! ## The invariant -/

variable {maxscans : Nat} {split : List UInt8 → Option SplitResult}

structure SameEntry (x : ScanEntry) (y : EnhancedEntry) : Prop where
  start : x.start = y.startByte
  stop : x.start.toNat + x.length.toNat = y.stopByte.toNat

structure SameEntries (d : ScanDir maxscans) (e : EnhancedLayout) : Prop where
  count : d.nRecordedScans = e.numberOfScans
  entries : ∀ i, i < e.numberOfScans → SameEntry (d.scans i) (e.scans i)
  first : 0 < e.numberOfScans → (d.scans 0).start = 0

theorem SameEntry.length {x : ScanEntry} {y : EnhancedEntry} (h : SameEntry x y) :
    y.startByte ≤ y.stopByte ∧ x.length = y.stopByte - y.startByte := by
  have hle : y.startByte ≤ y.stopByte := by
    rw [UInt64.le_iff_toNat_le, ← h.stop, ← h.start]
    exact Nat.le_add_right _ _
  refine ⟨hle, UInt64.toNat_inj.mp ?_⟩
  rw [UInt64.toNat_sub_of_le _ _ hle, ← h.stop, ← h.start, Nat.add_sub_cancel_left]

theorem SameEntry.toStop {x : ScanEntry} {y : EnhancedEntry} (h : SameEntry x y) :
    x.stop = y.stopByte := by
  have hlt := y.stopByte.toNat_lt
  refine UInt64.toNat_inj.mp ?_
  rw [ScanEntry.stop, UInt64.toNat_add, h.stop, Nat.mod_eq_of_lt hlt]

theorem SameEntries.getScan {d : ScanDir maxscans} {e : EnhancedLayout} (h : SameEntries d e)
    {i : Nat} (hi : i < e.numberOfScans) : ∃ x y, d.getScan i = .ok x ∧ e.getScan i = .ok y ∧
      x.start = y.start ∧ x.length = y.length ∧
      x.start.toNat + x.length.toNat = (e.scans i).stopByte.toNat := by
  have hentry := h.entries i hi
  obtain ⟨hle, hlength⟩ := hentry.length
  have hcount := h.count
  unfold ScanDir.getScan EnhancedLayout.getScan
  rw [if_pos (by omega), if_neg (not_not.mpr hi)]
  dsimp only
  rw [if_neg (not_not.mpr hle)]
  exact ⟨_, _, rfl, rfl, hentry.start, hlength, hentry.stop⟩

theorem SameEntries.nScans {d : ScanDir maxscans} {e : EnhancedLayout} (h : SameEntries d e) :
    d.nScans = .ok e.numberOfScans := by
  rw [ScanDir.nScans, h.count, if_neg (by omega), Int.toNat_natCast]

theorem SameEntries.sameScans {d : ScanDir maxscans} {e : EnhancedLayout} (h : SameEntries d e) :
    SameScans d e := by
  refine ⟨h.nScans, fun i hi => ?_⟩
  obtain ⟨x, y, hx, hy, hstart, hlength, -⟩ := h.getScan hi
  exact ⟨x, y, hx, hy, hstart, hlength⟩

theorem SameEntries.stopOf {d : ScanDir maxscans} {e : EnhancedLayout} (h : SameEntries d e) :
    d.stopOf d.nRecordedScans.toNat = e.stopOf e.numberOfScans := by
  rw [h.count, Int.toNat_natCast]
  cases hn : e.numberOfScans with
  | zero => rfl
  | succ n => exact (h.entries n (by omega)).toStop

/-- The first `n` scans are kept, and another one is put behind them. -/
theorem SameEntries.setScanAt {d d' : ScanDir maxscans} {e : EnhancedLayout} (h : SameEntries d e)
    {n : Nat} (hn : n ≤ e.numberOfScans) {x : ScanEntry} {y : EnhancedEntry} (hxy : SameEntry x y)
    (hfirst : n = 0 → x.start = 0) (hcount : d'.nRecordedScans = (n + 1 : Nat))
    (hscans : d'.scans = Function.update d.scans n x) :
    SameEntries d' { e.setScanAt n y with numberOfScans := n + 1 } := by
  refine ⟨hcount, fun i hi => ?_, fun _ => ?_⟩
  · rw [hscans]
    rcases Nat.lt_succ_iff_lt_or_eq.mp hi with hlt | rfl
    · have hne := Nat.ne_of_lt hlt
      simpa [EnhancedLayout.setScanAt, Function.update_of_ne hne] using h.entries i (by omega)
    · simpa [EnhancedLayout.setScanAt] using hxy
  · rw [hscans]
    cases n with
    | zero => simpa using hfirst rfl
    | succ n => simpa using h.first (by omega)

theorem SameEntries.fewer {d d' : ScanDir maxscans} {e : EnhancedLayout} (h : SameEntries d e)
    {n : Nat} (hn : n ≤ e.numberOfScans) (hcount : d'.nRecordedScans = n)
    (hscans : d'.scans = d.scans) : SameEntries d' { e with numberOfScans := n } := by
  refine ⟨hcount, fun i hi => ?_, fun hpos => ?_⟩
  · rw [hscans]
    exact h.entries i (Nat.lt_of_lt_of_le hi hn)
  · rw [hscans]
    exact h.first (Nat.lt_of_lt_of_le hpos hn)

theorem scansBefore_congr {f g : Nat → UInt64} {n : Nat} (h : ∀ i, i < n → f i = g i) (p : UInt64) :
    ScanDir.scansBefore f p n = ScanDir.scansBefore g p n := by
  induction n with
  | zero => rfl
  | succ n ih =>
    rw [ScanDir.scansBefore, ScanDir.scansBefore, h n (Nat.lt_succ_self n),
      ih fun i hi => h i (Nat.lt_succ_of_lt hi)]

/-! ## The steps -/

theorem SameEntries.record {d d' : ScanDir maxscans} {e e' : EnhancedLayout} (h : SameEntries d e)
    {name : List UInt8} {length : UInt64} (hd : d.record name length = .ok d')
    (he : e.record split name length = .ok e')
    (hbelow : (d.stopOf d.nRecordedScans.toNat).toNat + length.toNat < 2 ^ 64) :
    SameEntries d' e' := by
  have hstop := h.stopOf
  have hcount := h.count
  obtain ⟨-, rfl⟩ := ScanDir.record_eq_ok (by omega) hd
  obtain ⟨-, y, rfl, -, -, hstart, hend⟩ := EnhancedLayout.record_eq_ok he
  have hn : d.nRecordedScans.toNat = e.numberOfScans := by omega
  rw [hn] at hstop hbelow ⊢
  refine h.setScanAt (Nat.le_refl _) ⟨by rw [hstart, hstop], ?_⟩ (fun hzero => ?_) ?_ rfl
  · rw [hend, UInt64.toNat_add, ← hstop, Nat.mod_eq_of_lt hbelow]
  · rw [hzero]
    rfl
  · dsimp only
    omega

/-- The scans that are left, and where the last of them ends. -/
theorem SameEntries.recover {d : ScanDir maxscans} {e : EnhancedLayout} (h : SameEntries d e)
    (p : UInt64) : SameEntries (d.recover p) (e.recover p) ∧ (p ≠ 0 → ∃ n,
      (e.recover p).numberOfScans = n + 1 ∧ ((e.recover p).scans n).stopByte = p) := by
  have hcount := h.count
  unfold ScanDir.recover EnhancedLayout.recover
  by_cases hp : p = 0
  · rw [if_pos hp, if_pos hp]
    exact ⟨h.fewer (Nat.zero_le _) rfl rfl, fun hne => absurd hp hne⟩
  · rw [if_neg hp, if_neg hp]
    by_cases hsome : 0 < e.numberOfScans
    · have hn : d.nRecordedScans.toNat = e.numberOfScans := by omega
      have hleft := scansBefore_congr (fun i hi => (h.entries i hi).start) p
      have hfirst : (d.scans 0).start < p := by
        rw [h.first hsome, UInt64.lt_iff_toNat_lt]
        exact Nat.pos_of_ne_zero fun hzero => hp (UInt64.toNat_inj.mp hzero)
      have hpos := @scansBefore_pos (fun i => (d.scans i).start) p _ hsome hfirst
      have hle := scansBefore_le (fun i => (d.scans i).start) p e.numberOfScans
      rw [if_pos (by omega), if_pos hsome, hn, ← hleft]
      obtain ⟨k, hk⟩ : ∃ k, ScanDir.scansBefore (fun i => (d.scans i).start) p e.numberOfScans =
          k + 1 := ⟨_, (Nat.sub_add_cancel hpos).symm⟩
      have hlast := scansBefore_last hk
      rw [hk] at hle
      simp only [hk]
      have hentry := h.entries k (by omega)
      have hsame : SameEntry { d.scans k with length := p - (d.scans k).start }
          { e.scans k with stopByte := p } := by
        refine ⟨hentry.start, ?_⟩
        have hbefore := UInt64.le_iff_toNat_le.mp (Std.le_of_lt hlast)
        dsimp only
        rw [UInt64.toNat_sub_of_le _ _ (Std.le_of_lt hlast), Nat.add_sub_cancel' hbefore]
      exact ⟨h.setScanAt (by omega) hsame (fun hzero => hzero ▸ h.first hsome) rfl rfl,
        fun _ => ⟨k, rfl, by simp [EnhancedLayout.setScanAt]⟩⟩
    · rw [if_neg (by omega), if_neg hsome]
      have hsame : SameEntry ⟨strncpy recoveredScan (maxlength - 1), 0, p⟩
          { EnhancedEntry.clear with
            dataType := 1
            stopByte := p
            scanName := strncpy recoveredScan 32 } := ⟨rfl, Nat.zero_add _⟩
      refine ⟨h.setScanAt (Nat.zero_le _) hsame (fun _ => rfl) ?_ rfl,
        fun _ => ⟨0, rfl, by simp [EnhancedLayout.setScanAt]⟩⟩
      dsimp only
      omega

theorem ScanDir.becomes_iff {d d' : ScanDir maxscans} {op : Op} (hop : op ≠ .removeLastScan) :
    d.Becomes op d' ↔ d.apply op = .ok d' := by
  simp [Becomes, hop]

theorem EnhancedLayout.becomes_iff {e e' : EnhancedLayout} {op : Op} (hop : op ≠ .removeLastScan) :
    e.Becomes split op e' ↔ e.apply split op = .ok e' := by
  simp [Becomes, hop]

theorem ScanDir.becomes_removeLastScan {d d' : ScanDir maxscans} :
    d.Becomes .removeLastScan d' ↔
      d' = if d.nRecordedScans ≤ 0 then d else { d with nRecordedScans := d.nRecordedScans - 1 } := by
  by_cases hnone : d.nRecordedScans ≤ 0
  · simp [Becomes, apply, removeLastScan, hnone]
  · simp [Becomes, apply, removeLastScan, hnone, eq_comm]

theorem EnhancedLayout.becomes_removeLastScan {e e' : EnhancedLayout} :
    e.Becomes split .removeLastScan e' ↔
      e' = if 0 < e.numberOfScans then { e with numberOfScans := e.numberOfScans - 1 } else e := by
  by_cases hsome : 0 < e.numberOfScans
  · simp [Becomes, apply, removeLastScan, hsome, eq_comm]
  · simp [Becomes, apply, removeLastScan, hsome]

theorem SameEntries.step {s s' : ScanDir maxscans × EnhancedLayout} (h : SameEntries s.1 s.2) {op : Op}
    (hstep : (bothLayouts maxscans split).step s op s') : SameEntries s'.1 s'.2 := by
  obtain ⟨d, e⟩ := s
  obtain ⟨d', e'⟩ := s'
  obtain ⟨hd, he, hbelow⟩ := hstep
  dsimp only at h hd he hbelow ⊢
  have hcount := h.count
  cases op with
  | record name length =>
    have hd := (ScanDir.becomes_iff (by simp)).mp hd
    have he := (EnhancedLayout.becomes_iff (by simp)).mp he
    exact h.record hd he hbelow
  | removeLastScan =>
    rw [ScanDir.becomes_removeLastScan] at hd
    rw [EnhancedLayout.becomes_removeLastScan] at he
    by_cases hsome : 0 < e.numberOfScans
    · rw [if_neg (by omega)] at hd
      rw [if_pos hsome] at he
      rw [hd, he]
      exact h.fewer (Nat.sub_le _ _) (by dsimp only; omega) rfl
    · rw [if_pos (by omega)] at hd
      rw [if_neg hsome] at he
      rwa [hd, he]
  | clearScans =>
    have hd := (ScanDir.becomes_iff (by simp)).mp hd
    have he := (EnhancedLayout.becomes_iff (by simp)).mp he
    obtain rfl := Except.ok.inj hd
    obtain rfl := Except.ok.inj he
    exact h.fewer (Nat.zero_le _) rfl rfl
  | recover p =>
    have hd := (ScanDir.becomes_iff (by simp)).mp hd
    have he := (EnhancedLayout.becomes_iff (by simp)).mp he
    obtain rfl := Except.ok.inj hd
    obtain rfl := Except.ok.inj he
    exact (h.recover p).1

theorem sameEntries_of_reachable {d : ScanDir maxscans} {e : EnhancedLayout}
    (h : (bothLayouts maxscans split).Reachable (d, e)) : SameEntries d e := by
  refine h.invariant (fun s => SameEntries s.1 s.2) ?_ fun s op s' hs hstep => hs.step hstep
  rintro s rfl
  exact ⟨rfl, fun i hi => absurd hi (Nat.not_lt_zero i), fun hi => absurd hi (Nat.not_lt_zero 0)⟩

/-- In every run both layouts report the same scans, and after a recovery to `p` the last one ends
there. -/
theorem layouts_agree {d : ScanDir maxscans} {e : EnhancedLayout}
    (h : (bothLayouts maxscans split).Reachable (d, e)) :
    SameScans d e ∧ ∀ p, p ≠ 0 → LastEndsAt (d.recover p) (e.recover p) p := by
  have hsame := sameEntries_of_reachable h
  refine ⟨hsame.sameScans, fun p hp => ?_⟩
  obtain ⟨hrecover, hlast⟩ := hsame.recover p
  obtain ⟨n, hn, hstop⟩ := hlast hp
  obtain ⟨x, y, hx, hy, hstart, hlength, hend⟩ := hrecover.getScan (show n < _ by omega)
  rw [hstop] at hend
  refine ⟨n, x, y, ?_, hn, hx, hy, hend, ?_⟩
  · rw [hrecover.nScans, hn]
  · rw [← hstart, ← hlength, hend]

/-- A directory that is recovered to 16, and then to 8. -/
theorem layouts_agree_recovered :
    let d : ScanDir 1024 := (ScanDir.clear.recover 16).recover 8
    let e := (EnhancedLayout.clear.recover 16).recover 8
    SameScans d e ∧ ∀ p, p ≠ 0 → LastEndsAt (d.recover p) (e.recover p) p := by
  have hstart : (bothLayouts 1024 (splitExtended false)).Reachable (.clear, .clear) := .init rfl
  have hlong := hstart.step (a := .recover 16)
    (t := (ScanDir.clear.recover 16, EnhancedLayout.clear.recover 16))
    ⟨.inl rfl, .inl rfl, by unfold Below; trivial⟩
  exact layouts_agree (hlong.step (a := .recover 8) (t := (_, _))
    ⟨.inl rfl, .inl rfl, by unfold Below; trivial⟩)

end Jive5ab.Userdir
