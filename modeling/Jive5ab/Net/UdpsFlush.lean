import Jive5ab.Net.PacketLoss

/-! # The flush at the end of the stream

When the peek or the receive fails, `udpsreader_bh` pushes what is in its work buffer, up to the
block of the highest sequence number. -/
namespace Jive5ab.Net.Udps
open Lib Reader

namespace Reader
variable (r : Reader)

/-! ## What there is to push -/

/-- The sequence number the `i`-th block of the work buffer begins with. -/
def blockSeqnr (s : State) (i : Nat) : Nat := s.firstseqnr + i * r.nDgPBlock

/-- How many bytes of it are used, up to the highest number. -/
def usedSize (s : State) (i : Nat) : Nat :=
  r.sizes.wrSize * min (s.maxseq + 1 - r.blockSeqnr s i) r.nDgPBlock

/-- Full blocks are pushed always, partial ones if the size may vary. -/
def Allowed (s : State) (i : Nat) : Prop :=
  r.usedSize s i = r.sizes.blocksize ∨ r.allowVariableBlockSize = true

instance (s : State) (i : Nat) : Decidable (r.Allowed s i) := by
  unfold Allowed
  infer_instance

def pushedOf (s : State) (i : Nat) (b : Block) : Pushed :=
  ⟨b, r.usedSize s i, r.blockSeqnr s i, s.epoch⟩

def dueAt (s : State) : Option Block × Nat → Option Pushed
  | (some b, i) =>
    if r.blockSeqnr s i ≤ s.maxseq ∧ r.Allowed s i then some (r.pushedOf s i b) else none
  | (none, _) => none

def due (s : State) : List Pushed := s.workbuf.zipIdx.filterMap (r.dueAt s)

/-- A queue takes blocks until it refuses one. -/
def pushUntilRefused (q : List Pushed) : List Pushed → List Pushed
  | [] => q
  | b :: bs => if r.accepts q.length then pushUntilRefused (q ++ [b]) bs else q

/-- A datagram with too few data bytes is in its place. -/
def wroteShort (s : State) (d : Datagram) : Option (Nat × Nat) → State
  | none => s
  | some loc =>
    { s with
      workbuf := modifySlot s.workbuf loc fun t => { t with data := r.receive t.data d.payload }
      cutShort := some d.seqnr }

/-- The state in which the flush is started, and `errno`. -/
def flushing (s : State) (e : Event) : Option (State × Nat) :=
  match s.phase, e with
  | .peek, .peekFails errno => some (s, errno)
  | .read d loc, .reads errno =>
    if r.sizes.rdSize ≤ d.payload.length then none else some (r.wroteShort s d loc, errno)
  | .read _ _, .readFails errno => some (s, errno)
  | _, _ => none

end Reader

variable {r : Reader}

theorem step_flushing {s u : State} {e : Event} {errno : Nat}
    (h : r.flushing s e = some (u, errno)) : r.step s e = some (r.leave u errno) := by
  unfold flushing at h
  split at h
  · rename_i hphase
    cases h
    simp [step, hphase]
  · rename_i d loc errno' hphase
    split at h
    · cases h
    · rename_i hshort
      cases h
      cases loc <;> simp [step, hphase, hshort, receivedShort, wroteShort]
  · rename_i hphase
    cases h
    simp [step, hphase]
  · cases h

/-! ## The push loop -/

theorem pushUntilRefused_eq (bs q : List Pushed) :
    ∃ k, k ≤ bs.length ∧ r.pushUntilRefused q bs = q ++ bs.take k ∧
      (k = bs.length ∨ r.accepts (q.length + k) = false) := by
  induction bs generalizing q with
  | nil => exact ⟨0, Nat.le_refl _, by simp [pushUntilRefused], .inl rfl⟩
  | cons b bs ih =>
    by_cases hacc : r.accepts q.length = true
    · obtain ⟨k, hk, heq, hend⟩ := ih (q ++ [b])
      refine ⟨k + 1, by simpa using hk, by simp [pushUntilRefused, hacc, heq], ?_⟩
      rcases hend with rfl | hend
      · exact .inl (by simp)
      · refine .inr ?_
        rwa [List.length_append, List.length_singleton, Nat.add_assoc, Nat.add_comm 1] at hend
    · exact ⟨0, Nat.zero_le _, by simp [pushUntilRefused, hacc], .inr (by simpa using hacc)⟩

theorem mem_due {s : State} {q : Pushed} :
    q ∈ r.due s ↔ ∃ i b, s.workbuf[i]? = some (some b) ∧ r.blockSeqnr s i ≤ s.maxseq ∧
      r.Allowed s i ∧ q = r.pushedOf s i b := by
  unfold due
  rw [List.mem_filterMap]
  constructor
  · rintro ⟨⟨b, i⟩, hmem, hdue⟩
    have hi := List.mem_zipIdx_iff_getElem?.mp hmem
    cases b with
    | none => cases hdue
    | some b =>
      simp only [dueAt, Option.ite_none_right_eq_some, Option.some.injEq] at hdue
      exact ⟨i, b, hi, hdue.1.1, hdue.1.2, hdue.2.symm⟩
  · rintro ⟨i, b, hi, hle, hall, rfl⟩
    exact ⟨(some b, i), List.mem_zipIdx_iff_getElem?.mpr hi, by simp [dueAt, hle, hall]⟩

theorem blockSeqnr_lt {s : State} {i j : Nat} (h : i < j) : r.blockSeqnr s i < r.blockSeqnr s j :=
  Nat.add_lt_add_left (Nat.mul_lt_mul_of_pos_right h nDgPBlock_pos) _

theorem blockSeqnr_le {s : State} {i j : Nat} (h : i ≤ j) : r.blockSeqnr s i ≤ r.blockSeqnr s j :=
  Nat.add_le_add_left (Nat.mul_le_mul_right _ h) _

theorem blockSeqnr_succ (s : State) (i : Nat) :
    r.blockSeqnr s (i + 1) = r.blockSeqnr s i + r.nDgPBlock := by
  rw [blockSeqnr, Nat.succ_mul, ← Nat.add_assoc]
  rfl

theorem dueAt_seqnstart {s : State} {x : Option Block × Nat} {q : Pushed}
    (h : r.dueAt s x = some q) : q.seqnstart = r.blockSeqnr s x.2 := by
  obtain ⟨b, i⟩ := x
  cases b with
  | none => cases h
  | some b =>
    simp only [dueAt, Option.ite_none_right_eq_some, Option.some.injEq] at h
    rw [← h.2]
    rfl

/-- In sequence order, so each at most once. -/
theorem due_ordered (s : State) : (r.due s).Pairwise fun a b => a.seqnstart < b.seqnstart := by
  have hidx : s.workbuf.zipIdx.Pairwise fun x y => x.2 < y.2 := by
    have hrange : (s.workbuf.zipIdx.map Prod.snd).Pairwise (· < ·) := by
      rw [List.zipIdx_map_snd]
      exact List.pairwise_lt_range'
    exact List.pairwise_map.mp hrange
  refine hidx.filterMap _ fun x y hxy a ha b hb => ?_
  rw [dueAt_seqnstart ha, dueAt_seqnstart hb]
  exact blockSeqnr_lt hxy

/-! ## The flush over a window without holes -/

/-- Up to the block of the highest number there is one in every place, and its numbers do not
wrap. -/
structure Unbroken (r : Reader) (s : State) : Prop where
  noHole : ∀ i, r.blockSeqnr s (i + 1) ≤ s.maxseq → ∃ b, s.workbuf[i]? = some (some b)
  noWrap : ∀ i, r.blockSeqnr s i ≤ s.maxseq → r.blockSeqnr s (i + 1) < 2 ^ 64

theorem filterMap_dueAt_past {s : State} {k : Nat} (w : List (Option Block))
    (h : s.maxseq < r.blockSeqnr s k) : (w.zipIdx k).filterMap (r.dueAt s) = [] := by
  rw [List.filterMap_eq_nil_iff]
  rintro ⟨b, i⟩ hmem
  have hki := List.le_snd_of_mem_zipIdx hmem
  have hpast : ¬r.blockSeqnr s i ≤ s.maxseq :=
    Nat.not_le.mpr (Nat.lt_of_lt_of_le h (blockSeqnr_le hki))
  cases b with
  | none => rfl
  | some b => simp [dueAt, hpast]

/-- The loop from the `k`-th block on, with `w` the blocks from there. -/
theorem flush_eq {s : State}
    (hwrap : ∀ i, r.blockSeqnr s i ≤ s.maxseq → r.blockSeqnr s (i + 1) < 2 ^ 64)
    (hmax : s.maxseq + 1 < 2 ^ 64) (w : List (Option Block)) (k : Nat)
    (hw : ∀ i, r.blockSeqnr s (k + i) ≤ s.maxseq → i < w.length → ∃ b, w[i]? = some (some b))
    (q : List Pushed) :
    r.flush s.maxseq s.epoch (r.blockSeqnr s k) w q =
      (some (), r.pushUntilRefused q ((w.zipIdx k).filterMap (r.dueAt s))) := by
  induction w generalizing k q with
  | nil => rfl
  | cons b w ih =>
    unfold flush
    by_cases hle : r.blockSeqnr s k ≤ s.maxseq
    · obtain ⟨b, hb⟩ := hw 0 hle (Nat.zero_lt_succ _)
      obtain rfl := Option.some.inj hb
      have hrest := ih (k + 1) fun i hi hlt => by
        rw [Nat.add_assoc, Nat.add_comm 1] at hi
        exact hw (i + 1) hi (Nat.succ_lt_succ hlt)
      have hnext : (r.blockSeqnr s k + r.nDgPBlock) % 2 ^ 64 = r.blockSeqnr s (k + 1) := by
        rw [← blockSeqnr_succ, Nat.mod_eq_of_lt (hwrap k hle)]
      have hleft : (s.maxseq + 1 + 2 ^ 64 - r.blockSeqnr s k) % 2 ^ 64 =
          s.maxseq + 1 - r.blockSeqnr s k := by omega
      rw [if_pos hle]
      dsimp only
      rw [hnext, hleft, List.zipIdx_cons]
      change (if r.Allowed s k then _ else _) = _
      by_cases hall : r.Allowed s k
      · have hdue : r.dueAt s (some b, k) = some (r.pushedOf s k b) := by simp [dueAt, hle, hall]
        rw [if_pos hall, List.filterMap_cons_some hdue]
        by_cases hacc : r.accepts q.length = true
        · rw [if_pos hacc, pushUntilRefused, if_pos hacc]
          exact hrest _
        · rw [if_neg hacc, pushUntilRefused, if_neg hacc]
      · have hdue : r.dueAt s (some b, k) = none := by simp [dueAt, hall]
        rw [if_neg hall, List.filterMap_cons_none hdue]
        exact hrest q
    · rw [if_neg hle, filterMap_dueAt_past _ (Nat.not_le.mp hle)]
      rfl

/-! ## The block of the highest number -/

/-- The highest number is in the work buffer, in a block that is there. -/
structure Top (r : Reader) (s : State) : Prop where
  first_le : s.firstseqnr ≤ s.maxseq
  top : ∃ b, s.workbuf[(s.maxseq - s.firstseqnr) / r.nDgPBlock]? = some (some b)

theorem Located.top {s : State} {loc : Nat × Nat} (h : Located r s s.maxseq loc) : Top r s := by
  obtain ⟨hb, hlt, hseq⟩ := h
  have hidx : (s.maxseq - s.firstseqnr) / r.nDgPBlock = loc.1 := by
    rw [hseq, Nat.add_assoc, Nat.add_sub_cancel_left, Nat.mul_comm,
      Nat.mul_add_div nDgPBlock_pos, Nat.div_eq_of_lt hlt, Nat.add_zero]
  exact ⟨by omega, by rwa [hidx]⟩

theorem reserve_some {s : State} {i idx : Nat} {b : Block} (h : s.workbuf[i]? = some (some b)) :
    (r.reserve s idx).workbuf[i]? = some (some b) := by
  unfold reserve
  split
  · rename_i hnone
    have hne : idx ≠ i := by
      rintro rfl
      rw [h] at hnone
      cases hnone
    rw [List.getElem?_set_ne hne]
    exact h
  · exact h

theorem Top.reserve {s : State} (h : Top r s) (idx : Nat) : Top r (r.reserve s idx) := by
  have hmax : (r.reserve s idx).maxseq = s.maxseq := by
    unfold Reader.reserve
    split <;> rfl
  obtain ⟨b, hb⟩ := h.top
  refine ⟨?_, b, ?_⟩
  · rw [hmax, reserve_firstseqnr]
    exact h.first_le
  · rw [hmax, reserve_firstseqnr]
    exact reserve_some hb

/-- A number in the work buffer is found without a shift. -/
theorem locate_in {s : State} {seqnr : Nat} (left : Nat)
    (hin : (seqnr - s.firstseqnr) / r.nDgPBlock < r.readahead) :
    (r.locate seqnr left s).2 = r.reserve s ((seqnr - s.firstseqnr) / r.nDgPBlock) := by
  unfold locate
  rw [if_pos hin]

theorem Top.congr {s t : State} (h : Top r s) (hfirst : t.firstseqnr = s.firstseqnr)
    (hmax : t.maxseq = s.maxseq) (hw : t.workbuf = s.workbuf) : Top r t := by
  refine ⟨?_, ?_⟩
  · rw [hfirst, hmax]
    exact h.first_le
  · rw [hfirst, hmax, hw]
    exact h.top

/-- A number that is not above the highest, and for which there is no resync. -/
theorem heard_low {s : State} {seqnr : Nat} (h : Top r s) (hle : seqnr ≤ s.maxseq)
    (hre : r.resyncs s seqnr = false) :
    Top r (r.heard s seqnr) ∧ (r.heard s seqnr).maxseq = s.maxseq := by
  have hmax : (r.heard s seqnr).maxseq = s.maxseq := by
    simp [heard, hre, account, Nat.not_lt.mpr hle]
  refine ⟨h.congr ?_ hmax ?_, hmax⟩
  · simp [heard, hre, account]
  · simp [heard, hre, account]

/-- Else it is the highest number now. -/
theorem heard_high {s : State} {seqnr : Nat}
    (h : s.maxseq ≤ seqnr ∨ r.resyncs s seqnr = true) : (r.heard s seqnr).maxseq = seqnr := by
  by_cases hre : r.resyncs s seqnr = true
  · simp [heard, hre, account, resync]
  · have hle := h.resolve_right hre
    simp only [heard, if_neg hre, account]
    split
    · rfl
    · exact Nat.le_antisymm hle (Nat.le_of_not_lt ‹_›)

/-- While the loop runs. -/
def TopInv (r : Reader) (s : State) : Prop := Running s → Top r s

theorem located_topInv {s t : State} {d : Datagram} {loc : Nat × Nat} (hlive : Live r s)
    (h : s.maxseq = d.seqnr ∨ Top r s ∧ d.seqnr ≤ s.maxseq) (hle : s.firstseqnr ≤ d.seqnr)
    (heq : r.locate d.seqnr r.readahead s = (some loc, t)) : Top r t := by
  have hleft : ∀ i b, s.workbuf[i]? = some (some b) → i < r.readahead := fun i b hb =>
    hlive.length ▸ (List.getElem?_eq_some_iff.mp hb).1
  rcases h with hmax | ⟨htop, hlow⟩
  · obtain ⟨-, hloc⟩ := locate_live d.seqnr_lt r.readahead hlive hle hleft
    have hcounts := counts_locate (r := r) d.seqnr r.readahead s
    rw [heq] at hloc hcounts
    have htmax : t.maxseq = d.seqnr := (congrArg Prod.fst hcounts).trans hmax
    exact Located.top (htmax ▸ hloc loc rfl)
  · obtain ⟨b, hb⟩ := htop.top
    have hin : (d.seqnr - s.firstseqnr) / r.nDgPBlock < r.readahead :=
      Nat.lt_of_le_of_lt (Nat.div_le_div_right (Nat.sub_le_sub_right hlow _)) (hleft _ b hb)
    have ht := locate_in (r := r) r.readahead hin
    rw [heq] at ht
    change t = _ at ht
    rw [ht]
    exact htop.reserve _

theorem peeked_topInv {s : State} {d : Datagram} (hlive : Live r s)
    (h : s.firstseqnr ≤ d.seqnr ∧ s.maxseq ≤ d.seqnr ∨ Top r s) : TopInv r (r.peeked s d) := by
  obtain ⟨hl, hfirst⟩ := heard_live hlive d.seqnr
  unfold peeked
  split
  · rename_i hdisc
    intro _
    have hlt : d.seqnr < s.firstseqnr := by
      simp only [discards, Bool.and_eq_true, decide_eq_true_eq] at hdisc
      exact hdisc.1
    have htop := h.resolve_left fun hlow => Nat.not_le.mpr hlt hlow.1
    have hre : r.resyncs s d.seqnr = false := by simp [resyncs, hdisc]
    exact (heard_low htop (Nat.le_trans (Nat.le_of_lt hlt) htop.first_le) hre).1.congr rfl rfl rfl
  · rename_i hdisc
    have hheard : (r.heard s d.seqnr).maxseq = d.seqnr ∨
        Top r (r.heard s d.seqnr) ∧ d.seqnr ≤ (r.heard s d.seqnr).maxseq := by
      by_cases hhigh : s.maxseq ≤ d.seqnr ∨ r.resyncs s d.seqnr = true
      · exact .inl (heard_high hhigh)
      · obtain ⟨hlow, hre⟩ := not_or.mp hhigh
        have htop := h.resolve_left fun hge => hlow hge.2
        have hle := Nat.le_of_not_le hlow
        obtain ⟨ht, hmax⟩ := heard_low htop hle (Bool.eq_false_iff.mpr hre)
        exact .inr ⟨ht, hmax.symm ▸ hle⟩
    split
    · rename_i loc t heq
      intro _
      exact (located_topInv hl hheard (hfirst (Bool.eq_false_iff.mpr hdisc)) heq).congr rfl rfl rfl
    · exact fun hrun => hrun.elim

/-- Writing a place takes no block away. -/
theorem modifySlot_some {w : List (Option Block)} {loc : Nat × Nat} {f : Slot → Slot} {i : Nat} :
    (∃ b, (modifySlot w loc f)[i]? = some (some b)) ↔ ∃ b, w[i]? = some (some b) := by
  unfold modifySlot
  rw [List.getElem?_modify]
  cases w[i]? with
  | none => simp
  | some b => cases b <;> split <;> simp

theorem Top.modify {s t : State} {loc : Nat × Nat} {f : Slot → Slot} (h : Top r s)
    (hfirst : t.firstseqnr = s.firstseqnr) (hmax : t.maxseq = s.maxseq)
    (hw : t.workbuf = modifySlot s.workbuf loc f) : Top r t := by
  refine ⟨?_, ?_⟩
  · rw [hfirst, hmax]
    exact h.first_le
  · rw [hfirst, hmax, hw]
    exact modifySlot_some.mpr h.top

theorem step_topInv {s t : State} {e : Event} (hinv : Inv r s) (h : TopInv r s)
    (hs : r.step s e = some t) : TopInv r t := by
  unfold step at hs
  split at hs
  case h_1 d hphase =>
    obtain rfl := Option.some.inj hs
    exact peeked_topInv (first_live hinv hphase) (.inl ⟨Nat.le_refl _, Nat.le_refl _⟩)
  case h_2 =>
    obtain rfl := Option.some.inj hs
    exact fun hrun => hrun.elim
  case h_3 d hphase =>
    obtain rfl := Option.some.inj hs
    unfold Inv at hinv
    unfold TopInv Running at h
    rw [hphase] at hinv h
    exact peeked_topInv hinv (.inr (h trivial))
  case h_4 =>
    obtain rfl := Option.some.inj hs
    exact fun hrun => hrun.elim
  case h_5 d loc errno hphase =>
    unfold TopInv Running at h
    rw [hphase] at h
    split at hs
    · obtain rfl := Option.some.inj hs
      intro _
      cases loc with
      | none => exact (h trivial).congr rfl rfl rfl
      | some loc => exact (h trivial).modify rfl rfl rfl
    · obtain rfl := Option.some.inj hs
      cases loc <;> exact fun hrun => hrun.elim
  case h_6 =>
    obtain rfl := Option.some.inj hs
    exact fun hrun => hrun.elim
  case h_7 => cases hs

theorem reachable_top {s : State} (h : r.machine.Reachable s) (hrun : Running s) : Top r s := by
  have hboth : Inv r s ∧ TopInv r s := by
    refine h.invariant (fun s => Inv r s ∧ TopInv r s) ?_ ?_
    · intro s hs
      change s = r.start at hs
      rw [hs]
      exact ⟨start_inv, fun hrun => hrun.elim⟩
    · intro s t e hinv hs
      exact ⟨step_inv hinv.1 hs, step_topInv hinv.1 hinv.2 hs⟩
  exact hboth.2 hrun

/-! ## What the flush does -/

/-- What is known when the flush is started. -/
structure Ready (r : Reader) (s : State) : Prop where
  core : Core r s
  top : Top r s
  max_lt : s.maxseq < 2 ^ 64
  le_max : ∀ d ∈ s.arrivals.drop s.since, d.seqnr ≤ s.maxseq

theorem running_ready {s : State} (h : r.machine.Reachable s) (hrun : Running s) : Ready r s := by
  have htallied := reachable_tallied h hrun
  refine ⟨(reachable_inv h).core, reachable_top h hrun, htallied.max_lt, fun d hd => ?_⟩
  exact htallied.range.le_hi _ (List.mem_append_left _ (List.mem_map_of_mem hd))

theorem flushing_ready {s u : State} {e : Event} {errno : Nat} (h : r.machine.Reachable s)
    (hf : r.flushing s e = some (u, errno)) : Ready r u := by
  unfold flushing at hf
  split at hf
  · rename_i hphase
    cases hf
    exact running_ready h (by simp [Running, hphase])
  · rename_i d loc errno' hphase
    have hready := running_ready h (by simp [Running, hphase])
    obtain ⟨hlive, hloc⟩ := (reachable_inv h).read hphase
    split at hf
    · cases hf
    · cases hf
      cases loc with
      | none => exact hready
      | some loc =>
        exact ⟨cutShort_core hlive (hloc loc rfl), hready.top.modify rfl rfl rfl, hready.max_lt,
          hready.le_max⟩
  · rename_i hphase
    cases hf
    exact running_ready h (by simp [Running, hphase])
  · cases hf

/-- A block in which something was received begins before the highest number. -/
theorem Ready.blockSeqnr_le {s : State} (h : Ready r s) {i : Nat} {b : Block}
    (hb : s.workbuf[i]? = some (some b)) (hflag : ∃ t ∈ b, t.flag = true) :
    r.blockSeqnr s i ≤ s.maxseq := by
  obtain ⟨t, ht, hf⟩ := hflag
  obtain ⟨p, hp⟩ := List.mem_iff_getElem?.mp ht
  obtain ⟨⟨d, hd, hseq, -⟩, hsince⟩ := (h.core.window i b hb).2.holds p t hp hf
  have hmem : d ∈ s.arrivals.drop s.since := by
    refine List.mem_of_getElem? (i := t.arrival - s.since) ?_
    rw [List.getElem?_drop, Nat.add_sub_cancel' hsince]
    exact hd
  calc r.blockSeqnr s i ≤ r.blockSeqnr s i + p := Nat.le_add_right _ _
    _ = d.seqnr := hseq.symm
    _ ≤ s.maxseq := h.le_max d hmem

theorem Unbroken.max_lt {s : State} (h : Unbroken r s) (htop : Top r s) :
    s.maxseq + 1 < 2 ^ 64 := by
  have hdiv := Nat.div_add_mod' (s.maxseq - s.firstseqnr) r.nDgPBlock
  have hmod := Nat.mod_lt (s.maxseq - s.firstseqnr) (@nDgPBlock_pos r)
  have hfirst := htop.first_le
  have hwrap := h.noWrap ((s.maxseq - s.firstseqnr) / r.nDgPBlock) (by unfold blockSeqnr; omega)
  rw [blockSeqnr_succ] at hwrap
  unfold blockSeqnr at hwrap
  omega

theorem Unbroken.allocated {s : State} (h : Unbroken r s) (htop : Top r s) {i : Nat}
    (hi : r.blockSeqnr s i ≤ s.maxseq) : ∃ b, s.workbuf[i]? = some (some b) := by
  by_cases hnext : r.blockSeqnr s (i + 1) ≤ s.maxseq
  · exact h.noHole i hnext
  · have hidx : (s.maxseq - s.firstseqnr) / r.nDgPBlock = i := by
      rw [blockSeqnr_succ] at hnext
      unfold blockSeqnr at hi hnext
      refine Nat.div_eq_of_lt_le (by omega) ?_
      rw [Nat.succ_mul]
      omega
    exact hidx ▸ htop.top

/-- The flush keeps to the order of the numbers, and pushes what it should until the queue refuses
a block. -/
structure Flushes (r : Reader) (s t : State) : Prop where
  noError : t.phase ≠ .ended .blockError
  pushes : ∃ pushed, t.outq = s.outq ++ pushed ∧
    pushed.Pairwise (fun a b => a.seqnstart < b.seqnstart) ∧
    (∀ q ∈ pushed, ∃ i b, s.workbuf[i]? = some (some b) ∧ q = r.pushedOf s i b) ∧
    ∀ i b, s.workbuf[i]? = some (some b) → (∃ t ∈ b, t.flag = true) → r.Allowed s i →
      r.pushedOf s i b ∈ pushed ∨
        r.accepts t.outq.length = false ∧ ∀ q ∈ pushed, q.seqnstart < r.blockSeqnr s i

theorem Ready.flushes {s : State} (h : Ready r s) (hunbroken : Unbroken r s) (errno : Nat) :
    Flushes r s (r.leave s errno) := by
  have hflush := flush_eq hunbroken.noWrap (hunbroken.max_lt h.top) s.workbuf 0
    (fun i hi _ => hunbroken.allocated h.top (by rwa [Nat.zero_add] at hi)) s.outq
  rw [blockSeqnr, Nat.zero_mul, Nat.add_zero] at hflush
  obtain ⟨k, hk, heq, hend⟩ := pushUntilRefused_eq (r := r) (r.due s) s.outq
  have hout : (r.leave s errno).outq = s.outq ++ (r.due s).take k := by
    rw [← heq]
    exact congrArg Prod.snd hflush
  refine ⟨?_, (r.due s).take k, hout, (due_ordered s).sublist (List.take_sublist k _), ?_, ?_⟩
  · unfold leave
    rw [hflush]
    dsimp only
    rw [if_neg (by simp)]
    split <;> simp
  · intro q hq
    obtain ⟨i, b, hb, -, -, rfl⟩ := mem_due.mp (List.mem_of_mem_take hq)
    exact ⟨i, b, hb, rfl⟩
  · intro i b hb hflag hall
    have hdue : r.pushedOf s i b ∈ r.due s :=
      mem_due.mpr ⟨i, b, hb, h.blockSeqnr_le hb hflag, hall, rfl⟩
    rcases hend with rfl | hend
    · rw [List.take_length]
      exact .inl hdue
    · have hordered := due_ordered (r := r) s
      rw [← List.take_append_drop k (r.due s)] at hdue hordered
      rcases List.mem_append.mp hdue with htake | hdrop
      · exact .inl htake
      · refine .inr ⟨?_, fun q hq => (List.pairwise_append.mp hordered).2.2 q hq _ hdrop⟩
        rwa [hout, List.length_append, List.length_take, Nat.min_eq_left hk]

def runOf (r : Reader) (events : List Event) : Option State := events.foldlM r.step r.start

/-- Whether the next peek is due, and if it fails whether the flush raises an error. -/
def peeking (s : State) : Bool := match s.phase with | .peek => true | _ => false

def raises (r : Reader) (s : State) : Bool :=
  match (r.leave s EINTR).phase with | .ended .blockError => true | _ => false

/-- After some datagrams the peek fails. -/
theorem flushing_of_run {r : Reader} {events : List Event} {α : Type} {f : State → α} {x : α}
    (h : (runOf r events).map (fun s => (peeking s, f s)) = some (true, x)) :
    ∃ s, r.machine.Reachable s ∧ r.flushing s (.peekFails EINTR) = some (s, EINTR) ∧ f s = x := by
  obtain ⟨s, hs, hout⟩ := Option.map_eq_some_iff.mp h
  obtain ⟨hpeek, hx⟩ := Prod.mk.inj hout
  have hphase : s.phase = .peek := by
    unfold peeking at hpeek
    split at hpeek
    · assumption
    · cases hpeek
  exact ⟨s, ⟨r.start, events, rfl, ofFn_run hs⟩, by simp [flushing, hphase], hx⟩

theorem raises_blockError {r : Reader} {s : State} (h : raises r s = true) :
    (r.leave s EINTR).phase = .ended .blockError := by
  unfold raises at h
  split at h
  · assumption
  · cases h

/-- Three blocks of one datagram. -/
def threeBlocks : Reader := { twoBlocks with
  nblock := 3
  nblock_pos := by decide
  nblock_lt := by decide }

/-- Two blocks of two datagrams, full ones only. -/
def fullBlocks : Reader := { twoBlocks with
  sizes := ⟨8, 8, 16, eight_le, eight_pos, by decide, by decide⟩
  allowVariableBlockSize := false
  blocksize_lt := by decide
  memory_length _ _ := rfl }

/-- The one with the highest sequence number there is. -/
def last : Datagram := ⟨2 ^ 64 - 1, List.replicate 8 0, by decide⟩

end Jive5ab.Net.Udps
