import Jive5ab.Lib.NumberRange
import Jive5ab.Net.UdpsPlacement

/-! # Lost packets

`handle_seqnr` of `per_sender.cc` and the loss counter of `udpsreader_bh`: both have the highest
and the lowest sequence number, and how many packets came in. The reordering statistics and the
acknowledgements are left out. -/
namespace Jive5ab.Net
open Lib

/-- The counter is how many numbers between the lowest and the highest never came. -/
def LossCounted (seqnrs : List Nat) (loscnt : UInt64) : Prop :=
  ∃ lo hi, IsRange seqnrs lo hi ∧ loscnt.toNat = missing seqnrs lo hi

/-- The lowest and highest number, how many there were, and the difference. -/
structure Tallied (seqnrs : List Nat) (maxseq minseq : Nat) (pktcnt loscnt : UInt64) : Prop where
  range : IsRange seqnrs minseq maxseq
  max_lt : maxseq < 2 ^ 64
  counted : pktcnt = UInt64.ofNat seqnrs.length
  lost : loscnt = UInt64.ofNat maxseq - UInt64.ofNat minseq + 1 - pktcnt

variable {seqnrs : List Nat} {maxseq minseq : Nat} {pktcnt loscnt : UInt64}

theorem Tallied.loss_iff (h : Tallied seqnrs maxseq minseq pktcnt loscnt) :
    LossCounted seqnrs loscnt ↔ 2 ^ 64 ∣ duplicates seqnrs := by
  have hiff := h.range.counter_iff h.max_lt
  rw [← h.counted, ← h.lost] at hiff
  rw [← hiff]
  constructor
  · rintro ⟨lo, hi, hrange, hlost⟩
    obtain ⟨rfl, rfl⟩ := hrange.unique h.range
    exact hlost
  · exact fun hlost => ⟨minseq, maxseq, h.range, hlost⟩

/-- The comparisons of the code: a number is not compared to the lowest if it is a new highest. -/
theorem range_next (h : IsRange seqnrs minseq maxseq) (seqnr : Nat) :
    IsRange (seqnrs ++ [seqnr]) (if maxseq < seqnr then minseq else min seqnr minseq)
      (if maxseq < seqnr then seqnr else maxseq) := by
  have hle := h.lo_le_hi
  have hnext := h.append seqnr
  split
  · rename_i hlt
    rwa [Nat.min_eq_left (by omega), Nat.max_eq_right (Nat.le_of_lt hlt)] at hnext
  · rename_i hge
    rwa [Nat.min_comm, Nat.max_eq_left (Nat.le_of_not_lt hge)] at hnext

/-! ## Per sender -/

/-- The counters of `per_sender_type`. -/
structure PerSender where
  maxseq : UInt64
  minseq : UInt64
  loscnt : UInt64
  pktcnt : UInt64

/-- Made when the first packet of a sender is in. -/
def PerSender.make (seqnr : UInt64) : PerSender := ⟨seqnr, seqnr, 0, 0⟩

def PerSender.handleSeqnr (ps : PerSender) (seqnr : UInt64) : PerSender :=
  let pktcnt := ps.pktcnt + 1
  let maxseq := if ps.maxseq < seqnr then seqnr else ps.maxseq
  let minseq :=
    if ps.maxseq < seqnr then ps.minseq else if seqnr < ps.minseq then seqnr else ps.minseq
  { maxseq, minseq, pktcnt, loscnt := maxseq - minseq + 1 - pktcnt }

/-- All packets of a sender; the first one is handled too. -/
def PerSender.run (first : UInt64) (rest : List UInt64) : PerSender :=
  (first :: rest).foldl PerSender.handleSeqnr (.make first)

def PerSender.Tallied (ps : PerSender) (seqnrs : List UInt64) : Prop :=
  Net.Tallied (seqnrs.map UInt64.toNat) ps.maxseq.toNat ps.minseq.toNat ps.pktcnt ps.loscnt

theorem PerSender.handleSeqnr_tallied {ps : PerSender} {seqnrs : List UInt64}
    (h : ps.Tallied seqnrs) (seqnr : UInt64) :
    (ps.handleSeqnr seqnr).Tallied (seqnrs ++ [seqnr]) := by
  have hmax : (ps.handleSeqnr seqnr).maxseq.toNat =
      if ps.maxseq.toNat < seqnr.toNat then seqnr.toNat else ps.maxseq.toNat :=
    apply_ite UInt64.toNat (ps.maxseq < seqnr) seqnr ps.maxseq
  have hmin : (ps.handleSeqnr seqnr).minseq.toNat =
      if ps.maxseq.toNat < seqnr.toNat then ps.minseq.toNat
      else min seqnr.toNat ps.minseq.toNat := by
    have hlow : (if seqnr < ps.minseq then seqnr else ps.minseq).toNat =
        min seqnr.toNat ps.minseq.toNat := by
      rw [apply_ite UInt64.toNat, Nat.min_def]
      simp only [UInt64.lt_iff_toNat_lt]
      split <;> split <;> omega
    rw [← hlow]
    exact apply_ite UInt64.toNat (ps.maxseq < seqnr) ps.minseq _
  refine ⟨?_, ?_, ?_, ?_⟩
  · rw [hmax, hmin, List.map_append]
    exact range_next h.range seqnr.toNat
  · exact UInt64.toNat_lt _
  · show ps.pktcnt + 1 = _
    rw [h.counted, List.map_append, List.length_append, UInt64.ofNat_add]
    rfl
  · rw [UInt64.ofNat_toNat, UInt64.ofNat_toNat]
    rfl

theorem PerSender.make_tallied (seqnr : UInt64) :
    ((PerSender.make seqnr).handleSeqnr seqnr).Tallied [seqnr] := by
  have hself : ((PerSender.make seqnr).handleSeqnr seqnr).maxseq = seqnr ∧
      ((PerSender.make seqnr).handleSeqnr seqnr).minseq = seqnr := by
    simp [make, handleSeqnr]
  refine ⟨?_, UInt64.toNat_lt _, rfl, ?_⟩
  · rw [hself.1, hself.2]
    exact isRange_singleton _
  · rw [UInt64.ofNat_toNat, UInt64.ofNat_toNat]
    rfl

theorem PerSender.run_tallied (first : UInt64) (rest : List UInt64) :
    (PerSender.run first rest).Tallied (first :: rest) := by
  have hrest (seen : List UInt64) (ps : PerSender) (h : ps.Tallied seen) :
      (rest.foldl PerSender.handleSeqnr ps).Tallied (seen ++ rest) := by
    induction rest generalizing seen ps with
    | nil => rwa [List.append_nil]
    | cons n rest ih =>
      have hstep := ih (seen ++ [n]) _ (handleSeqnr_tallied h n)
      rwa [List.append_assoc] at hstep
  exact hrest [first] _ (make_tallied first)

end Jive5ab.Net

namespace Jive5ab.Net.Udps
open Lib Reader

variable {r : Reader}

/-! ## The reader -/

/-- The sequence numbers since the last resync, with that of a datagram that is yet to be received
after the peek. -/
def epochSeqnrs (s : State) : List Nat :=
  (s.arrivals.drop s.since).map Datagram.seqnr ++
    match s.phase with
    | .read d _ => [d.seqnr]
    | _ => []

/-- What the loss is counted with, and the datagrams. -/
def counts (s : State) : Nat × Nat × UInt64 × UInt64 × List Datagram × Nat :=
  (s.maxseq, s.minseq, s.pktcnt, s.loscnt, s.arrivals, s.since)

theorem counts_reserve (s : State) (blockidx : Nat) :
    counts (r.reserve s blockidx) = counts s := by
  unfold reserve
  split <;> rfl

/-- Finding a place moves the work buffer only. -/
theorem counts_locate (seqnr left : Nat) (s : State) :
    counts (r.locate seqnr left s).2 = counts s := by
  induction left generalizing s with
  | zero =>
    unfold locate
    by_cases hin : (seqnr - s.firstseqnr) / r.nDgPBlock < r.readahead
    · rw [if_pos hin]
      exact counts_reserve s _
    · rw [if_neg hin, ite_self]
  | succ left ih =>
    unfold locate
    by_cases hin : (seqnr - s.firstseqnr) / r.nDgPBlock < r.readahead
    · rw [if_pos hin]
      exact counts_reserve s _
    · rw [if_neg hin]
      split
      · rfl
      · rw [ih]
        split <;> rfl

/-- What is counted, while the loop runs. -/
def LossInv (s : State) : Prop :=
  match s.phase with
  | .first => s.pktcnt = 0 ∧ s.arrivals = []
  | .peek | .read _ _ => Tallied (epochSeqnrs s) s.maxseq s.minseq s.pktcnt s.loscnt
  | .ended _ => True

theorem account_tallied {s : State} {seqnr : Nat} (hseq : seqnr < 2 ^ 64) (discard : Bool)
    {seqnrs : List Nat} (hrange : IsRange seqnrs s.minseq s.maxseq) (hmax : s.maxseq < 2 ^ 64)
    (hpkt : s.pktcnt = UInt64.ofNat seqnrs.length + 1) :
    let t := account s seqnr discard
    Tallied (seqnrs ++ [seqnr]) t.maxseq t.minseq t.pktcnt t.loscnt where
  range := range_next hrange seqnr
  max_lt := by
    show (if s.maxseq < seqnr then seqnr else s.maxseq) < 2 ^ 64
    split
    · exact hseq
    · exact hmax
  counted := by
    show s.pktcnt = _
    rw [hpkt, List.length_append, UInt64.ofNat_add]
    rfl
  lost := rfl

/-- The first number of all, or after a resync. -/
theorem single_tallied {s : State} {seqnr : Nat} (hseq : seqnr < 2 ^ 64) (discard : Bool)
    (hmax : s.maxseq = seqnr) (hmin : s.minseq = seqnr) (hpkt : s.pktcnt = 1) :
    let t := account s seqnr discard
    Tallied [seqnr] t.maxseq t.minseq t.pktcnt t.loscnt where
  range := by
    show IsRange [seqnr] (if s.maxseq < seqnr then s.minseq else min seqnr s.minseq)
      (if s.maxseq < seqnr then seqnr else s.maxseq)
    rw [hmax, hmin, if_neg (Nat.lt_irrefl _), ite_self, Nat.min_self]
    exact isRange_singleton seqnr
  max_lt := by
    show (if s.maxseq < seqnr then seqnr else s.maxseq) < 2 ^ 64
    rwa [hmax, ite_self]
  counted := hpkt
  lost := rfl

/-- The numbers before, or none after a resync, and the one that is heard now. -/
theorem heard_tallied {s : State} {seqnr : Nat} (hseq : seqnr < 2 ^ 64)
    (h : IsRange ((s.arrivals.drop s.since).map Datagram.seqnr) s.minseq s.maxseq ∧
        s.maxseq < 2 ^ 64 ∧
        s.pktcnt = UInt64.ofNat ((s.arrivals.drop s.since).map Datagram.seqnr).length) :
    let t := r.heard s seqnr
    Tallied ((t.arrivals.drop t.since).map Datagram.seqnr ++ [seqnr]) t.maxseq t.minseq t.pktcnt
      t.loscnt := by
  dsimp only
  unfold heard
  dsimp only
  split
  · have hnone : (account (resync { s with pktcnt := s.pktcnt + 1 } seqnr) seqnr
        (r.discards s seqnr)).since = s.arrivals.length := rfl
    have harr : (account (resync { s with pktcnt := s.pktcnt + 1 } seqnr) seqnr
        (r.discards s seqnr)).arrivals = s.arrivals := rfl
    rw [hnone, harr, List.drop_length, List.map_nil, List.nil_append]
    exact single_tallied hseq _ rfl rfl rfl
  · exact account_tallied hseq _ h.1 h.2.1 (congrArg (· + 1) h.2.2)

theorem peeked_lossInv {s : State} {d : Datagram}
    (h : Tallied ((((r.heard s d.seqnr).arrivals.drop (r.heard s d.seqnr).since).map
        Datagram.seqnr) ++ [d.seqnr]) (r.heard s d.seqnr).maxseq (r.heard s d.seqnr).minseq
        (r.heard s d.seqnr).pktcnt (r.heard s d.seqnr).loscnt) :
    LossInv (r.peeked s d) := by
  unfold peeked
  split
  · exact h
  · have hcounts := counts_locate (r := r) d.seqnr r.readahead (r.heard s d.seqnr)
    split
    · rename_i loc t heq
      rw [heq] at hcounts
      simp only [counts, Prod.mk.injEq] at hcounts
      obtain ⟨hmax, hmin, hpkt, hlos, harr, hsince⟩ := hcounts
      unfold LossInv epochSeqnrs
      dsimp only
      rw [hmax, hmin, hpkt, hlos, harr, hsince]
      exact h
    · trivial

theorem first_lossInv {s : State} {d : Datagram} (hpkt : s.pktcnt = 0) (harr : s.arrivals = []) :
    LossInv (r.peeked { s with firstseqnr := d.seqnr, maxseq := d.seqnr, minseq := d.seqnr } d) := by
  refine peeked_lossInv ?_
  unfold heard resyncs
  dsimp only
  rw [decide_eq_false (Nat.lt_irrefl _), Bool.false_and, if_neg Bool.false_ne_true]
  have hsingle := single_tallied (s := { s with
    firstseqnr := d.seqnr, maxseq := d.seqnr, minseq := d.seqnr, pktcnt := s.pktcnt + 1 }) d.seqnr_lt
    (r.discards { s with firstseqnr := d.seqnr, maxseq := d.seqnr, minseq := d.seqnr } d.seqnr)
    rfl rfl (by rw [hpkt]; rfl)
  have hnil : (account { s with
      firstseqnr := d.seqnr, maxseq := d.seqnr, minseq := d.seqnr, pktcnt := s.pktcnt + 1 } d.seqnr
      (r.discards { s with firstseqnr := d.seqnr, maxseq := d.seqnr, minseq := d.seqnr }
        d.seqnr)).arrivals = [] := harr
  rw [hnil, List.drop_nil, List.map_nil, List.nil_append]
  exact hsingle

theorem received_lossInv {s : State} {d : Datagram} {location : Option (Nat × Nat)}
    (h : Tallied (epochSeqnrs s) s.maxseq s.minseq s.pktcnt s.loscnt)
    (hphase : s.phase = .read d location) (hsince : s.since ≤ s.arrivals.length) :
    LossInv (r.received s d location) := by
  have hseqnrs : epochSeqnrs (r.received s d location) = epochSeqnrs s := by
    have hdrop : (s.arrivals ++ [d]).drop s.since = s.arrivals.drop s.since ++ [d] :=
      List.drop_append_of_le_length hsince
    unfold epochSeqnrs
    rw [hphase]
    cases location with
    | none =>
      show ((s.arrivals ++ [d]).drop s.since).map Datagram.seqnr ++ [] = _
      rw [hdrop, List.map_append, List.append_nil]
      rfl
    | some loc =>
      show ((s.arrivals ++ [d]).drop s.since).map Datagram.seqnr ++ [] = _
      rw [hdrop, List.map_append, List.append_nil]
      rfl
  cases location with
  | none =>
    show Tallied (epochSeqnrs (r.received s d none)) _ _ _ _
    rwa [hseqnrs]
  | some loc =>
    show Tallied (epochSeqnrs (r.received s d (some loc))) _ _ _ _
    rwa [hseqnrs]

theorem step_lossInv {s t : State} {e : Event} (hinv : Inv r s) (h : LossInv s)
    (hs : r.step s e = some t) : LossInv t := by
  unfold step at hs
  split at hs
  case h_1 d hphase =>
    obtain rfl := Option.some.inj hs
    unfold LossInv at h
    rw [hphase] at h
    exact first_lossInv h.1 h.2
  case h_2 =>
    obtain rfl := Option.some.inj hs
    trivial
  case h_3 d hphase =>
    obtain rfl := Option.some.inj hs
    unfold LossInv epochSeqnrs at h
    rw [hphase] at h
    simp only [List.append_nil] at h
    exact peeked_lossInv (heard_tallied d.seqnr_lt ⟨h.range, h.max_lt, h.counted⟩)
  case h_4 =>
    obtain rfl := Option.some.inj hs
    trivial
  case h_5 d loc errno hphase =>
    split at hs
    · obtain rfl := Option.some.inj hs
      unfold LossInv at h
      rw [hphase] at h
      exact received_lossInv h hphase (hinv.read hphase).1.since_le
    · obtain rfl := Option.some.inj hs
      trivial
  case h_6 =>
    obtain rfl := Option.some.inj hs
    trivial
  case h_7 => cases hs

theorem reachable_lossInv {s : State} (h : r.machine.Reachable s) : LossInv s := by
  have hboth : Inv r s ∧ LossInv s := by
    refine h.invariant (fun s => Inv r s ∧ LossInv s) ?_ ?_
    · intro s hs
      change s = r.start at hs
      rw [hs]
      exact ⟨start_inv, rfl, rfl⟩
    · intro s t e hinv hs
      exact ⟨step_inv hinv.1 hs, step_lossInv hinv.1 hinv.2 hs⟩
  exact hboth.2

/-- A datagram has come in, and the loop is not left. -/
def Running (s : State) : Prop :=
  match s.phase with
  | .peek | .read _ _ => True
  | _ => False

theorem reachable_tallied {s : State} (h : r.machine.Reachable s) (hrun : Running s) :
    Tallied (epochSeqnrs s) s.maxseq s.minseq s.pktcnt s.loscnt := by
  have hinv := reachable_lossInv h
  unfold LossInv at hinv
  unfold Running at hrun
  split at hinv
  · rename_i hphase
    rw [hphase] at hrun
    exact hrun.elim
  · exact hinv
  · exact hinv
  · rename_i hphase
    rw [hphase] at hrun
    exact hrun.elim

/-- Both counters are right if nothing came twice. -/
theorem loss_counted_iff (r : Reader) (s : State) (first : UInt64) (rest : List UInt64) :
    (r.machine.Reachable s → Running s →
      (LossCounted (epochSeqnrs s) s.loscnt ↔ 2 ^ 64 ∣ duplicates (epochSeqnrs s))) ∧
    (LossCounted ((first :: rest).map UInt64.toNat) (PerSender.run first rest).loscnt ↔
      2 ^ 64 ∣ duplicates ((first :: rest).map UInt64.toNat)) :=
  ⟨fun h hrun => (reachable_tallied h hrun).loss_iff, (PerSender.run_tallied first rest).loss_iff⟩

/-- A number that comes twice, at the reader and at a sender's counter. -/
theorem duplicate_wraps :
    (∃ s, twoBlocks.machine.Reachable s ∧ Running s ∧ epochSeqnrs s = [101, 101] ∧
      s.loscnt = 18446744073709551615 ∧ ¬LossCounted (epochSeqnrs s) s.loscnt) ∧
    (PerSender.run 101 [101]).loscnt = 18446744073709551615 ∧
      ¬LossCounted [101, 101] (PerSender.run 101 [101]).loscnt := by
  have hrange : IsRange [101, 101] 101 101 := ⟨by simp, by simp, by simp, by simp⟩
  have hnot : ¬LossCounted [101, 101] 18446744073709551615 := by
    rintro ⟨lo, hi, h, hlost⟩
    obtain ⟨rfl, rfl⟩ := h.unique hrange
    revert hlost
    decide
  have hrun : (twoBlocksRun (arrive [101, 101])).map
      (fun s => (epochSeqnrs s, s.loscnt, match s.phase with | .peek => true | _ => false)) =
      some ([101, 101], 18446744073709551615, true) := by
    decide +kernel
  obtain ⟨s, hs, hout⟩ := Option.map_eq_some_iff.mp hrun
  simp only [Prod.mk.injEq] at hout
  obtain ⟨hseqnrs, hlos, hphase⟩ := hout
  refine ⟨⟨s, twoBlocksRun_reachable hs, ?_, hseqnrs, hlos, by rw [hseqnrs, hlos]; exact hnot⟩,
    by decide, hnot⟩
  unfold Running
  split at hphase
  · rename_i heq
    rw [heq]
    trivial
  · cases hphase

end Jive5ab.Net.Udps
