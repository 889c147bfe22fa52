import Mathlib.Data.List.Basic
import Jive5ab.Net.DatastreamReader

/-! # Each data stream gets its packets

Per stream: what was pushed and what waits in its block is what arrived. Whether
what waits is pushed in the end is decided by how the loop is left, from the
last return value alone. -/
namespace Jive5ab.Net
open Lib StreamReader

variable {σ : Type} {cfg : StreamReader σ}

/-! ## What arrives -/

namespace StreamReader

/-- The packets received up to the turn that leaves the loop, by data stream. -/
def arrivals (cfg : StreamReader σ) : σ → List Turn → List (Nat × List UInt8)
  | streams, .receives d :: ts =>
    if cfg.waitpeek ≤ d.bytes.length ∧ cfg.waitallread ≤ d.bytes.length then
      match cfg.vdif2streamId streams (cfg.vdifKey d) with
      | some (dsid, streams) => (dsid, cfg.slot d) :: arrivals cfg streams ts
      | none => []
    else []
  | _, _ => []

/-- The turn that leaves the loop, and the data streams known by then. -/
def lastTurn (cfg : StreamReader σ) : σ → List Turn → Option (σ × Turn)
  | _, [] => none
  | streams, .receives d :: ts =>
    if cfg.waitpeek ≤ d.bytes.length ∧ cfg.waitallread ≤ d.bytes.length then
      match cfg.vdif2streamId streams (cfg.vdifKey d) with
      | some (_, streams) => lastTurn cfg streams ts
      | none => some (streams, .receives d)
    else some (streams, .receives d)
  | streams, t :: _ => some (streams, t)

/-- The read errors that are taken for such: not a datagram that happens to be as
long as what is peeked at or as what is read, and not one of no data stream. -/
def IsReadError (cfg : StreamReader σ) (streams : σ) : Turn → Prop
  | .peekFails => True
  | .readFails d =>
    if cfg.waitpeek ≤ d.bytes.length then
      (cfg.vdif2streamId streams (cfg.vdifKey d)).isSome = true
    else d.bytes.length ≠ cfg.waitallread
  | .receives d =>
    d.bytes.length ≠ cfg.waitpeek ∧ d.bytes.length ≠ cfg.waitallread ∧
      (cfg.waitpeek ≤ d.bytes.length → (cfg.vdif2streamId streams (cfg.vdifKey d)).isSome)

end StreamReader

/-- The bytes of one stream, in order. -/
def ofStream (dsid : Nat) (bs : List (Nat × List UInt8)) : List UInt8 :=
  (bs.filter fun b => b.1 = dsid).flatMap Prod.snd

@[simp] theorem ofStream_nil (dsid : Nat) : ofStream dsid [] = [] := rfl

@[simp] theorem ofStream_append (dsid : Nat) (as bs : List (Nat × List UInt8)) :
    ofStream dsid (as ++ bs) = ofStream dsid as ++ ofStream dsid bs := by
  simp [ofStream]

theorem ofStream_cons (dsid : Nat) (b : Nat × List UInt8) (bs : List (Nat × List UInt8)) :
    ofStream dsid (b :: bs) = (if b.1 = dsid then b.2 else []) ++ ofStream dsid bs := by
  by_cases h : b.1 = dsid
  · simp [ofStream, h]
  · simp [ofStream, h]

/-! ## One turn -/

structure Inv (cfg : StreamReader σ) (s : State σ) : Prop where
  room : ∀ dsid, (filled s dsid).length < cfg.sizes.blocksize
  whole : ∀ dsid, cfg.sizes.wrSize ∣ (filled s dsid).length
  full : ∀ b ∈ s.outq, b.2.length = cfg.sizes.blocksize

/-- What a stream has seen so far. -/
def seen (s : State σ) (dsid : Nat) : List UInt8 := ofStream dsid s.outq ++ filled s dsid

theorem filled_insert (s : State σ) (streams : σ) (dsid a : Nat) (b : List UInt8) :
    filled { s with streams, dsm := s.dsm.insert dsid b } a =
      if dsid = a then b else filled s a := by
  rw [filled, OrdMap.lookup_insert]
  by_cases h : dsid = a
  · simp [h]
  · simp [h, filled]

/-- An empty entry for a stream that has none changes nothing. -/
theorem filled_enter (s : State σ) (streams : σ) (dsid a : Nat) :
    filled { s with streams, dsm := s.dsm.insert dsid (filled s dsid) } a = filled s a := by
  rw [filled_insert]
  split
  · rename_i h
    rw [h]
  · rfl

theorem Inv.enter {s : State σ} (h : Inv cfg s) (streams : σ) (dsid : Nat) :
    Inv cfg { s with streams, dsm := s.dsm.insert dsid (filled s dsid) } where
  room a := by
    rw [filled_enter]
    exact h.room a
  whole a := by
    rw [filled_enter]
    exact h.whole a
  full := h.full

theorem slot_length {d : Datagram} (h : cfg.waitallread ≤ d.bytes.length) :
    (cfg.slot d).length = cfg.sizes.wrSize := by
  have hle := cfg.sizes.rd_le
  simp only [waitallread] at h
  simp only [slot, List.length_append, List.length_take, List.length_drop, List.length_replicate]
  omega

theorem filled_advance (s : State σ) (dsid a : Nat) (d : Datagram) :
    filled (cfg.advance s dsid d) a =
      if dsid = a then
        if cfg.sizes.blocksize ≤ (filled s dsid ++ cfg.slot d).length then []
        else filled s dsid ++ cfg.slot d
      else filled s a := by
  rw [advance]
  split
  · rw [filled, OrdMap.lookup_erase]
    by_cases h : dsid = a
    · simp [h]
    · simp [h, filled]
  · exact filled_insert s s.streams dsid a _

theorem advance_outq (s : State σ) (dsid : Nat) (d : Datagram) :
    (cfg.advance s dsid d).outq = s.outq ++
      if cfg.sizes.blocksize ≤ (filled s dsid ++ cfg.slot d).length then
        [(dsid, filled s dsid ++ cfg.slot d)]
      else [] := by
  rw [advance]
  split <;> simp

theorem advance_streams (s : State σ) (dsid : Nat) (d : Datagram) :
    (cfg.advance s dsid d).streams = s.streams := by
  rw [advance]
  split <;> rfl

theorem advance_seen (s : State σ) (dsid a : Nat) (d : Datagram) :
    seen (cfg.advance s dsid d) a = seen s a ++ if dsid = a then cfg.slot d else [] := by
  rw [seen, seen, filled_advance, advance_outq]
  by_cases ha : dsid = a
  · subst ha
    split <;> simp [ofStream_cons]
  · split <;> simp [ofStream_cons, ha]

theorem Inv.advance {s : State σ} (h : Inv cfg s) (dsid : Nat) {d : Datagram}
    (hd : cfg.waitallread ≤ d.bytes.length) : Inv cfg (cfg.advance s dsid d) := by
  have hlen : (filled s dsid ++ cfg.slot d).length = (filled s dsid).length + cfg.sizes.wrSize := by
    rw [List.length_append, slot_length hd]
  have hdvd : cfg.sizes.wrSize ∣ (filled s dsid ++ cfg.slot d).length := by
    rw [hlen]
    exact Nat.dvd_add (h.whole dsid) (Nat.dvd_refl _)
  -- a block takes a whole number of packets, so the last one ends where it ends
  have hfit : (filled s dsid).length + cfg.sizes.wrSize ≤ cfg.sizes.blocksize := by
    obtain ⟨m, hm⟩ := h.whole dsid
    obtain ⟨n, hn⟩ := cfg.sizes.block_dvd
    have hroom := h.room dsid
    rw [hm, hn] at hroom ⊢
    have hlt : m < n := Nat.lt_of_mul_lt_mul_left hroom
    calc cfg.sizes.wrSize * m + cfg.sizes.wrSize = cfg.sizes.wrSize * (m + 1) := (Nat.mul_succ _ _).symm
      _ ≤ cfg.sizes.wrSize * n := Nat.mul_le_mul_left _ hlt
  refine ⟨fun a => ?_, fun a => ?_, fun b hb => ?_⟩
  · rw [filled_advance]
    split
    · split
      · exact cfg.sizes.block_pos
      · omega
    · exact h.room a
  · rw [filled_advance]
    split
    · split
      · exact Nat.dvd_zero _
      · exact hdvd
    · exact h.whole a
  · rw [advance_outq] at hb
    rcases List.mem_append.mp hb with hb | hb
    · exact h.full b hb
    · split at hb
      · obtain rfl := List.mem_singleton.mp hb
        show (filled s dsid ++ cfg.slot d).length = _
        omega
      · cases hb

/-- A turn either receives a packet, or leaves the loop with everything as it
was: by a return value, or by an exception. -/
theorem turn_cases {s : State σ} (h : Inv cfg s) (t : Turn) (ts : List Turn) :
    (∃ s' dsid packet, cfg.turn s t = .next s' ∧ Inv cfg s' ∧
        (∀ a, seen s' a = seen s a ++ if dsid = a then packet else []) ∧
        cfg.arrivals s.streams (t :: ts) = (dsid, packet) :: cfg.arrivals s'.streams ts ∧
        cfg.lastTurn s.streams (t :: ts) = cfg.lastTurn s'.streams ts) ∨
      (cfg.arrivals s.streams (t :: ts) = [] ∧
        cfg.lastTurn s.streams (t :: ts) = some (s.streams, t) ∧
        ((∃ n s', cfg.turn s t = .fell n s' ∧ Inv cfg s' ∧ (∀ a, filled s' a = filled s a) ∧
            s'.outq = s.outq ∧
            (cfg.IsReadError s.streams t ↔ n ≠ cfg.waitallread ∧ n ≠ cfg.waitpeek)) ∨
          (cfg.turn s t = .thrown s ∧ ¬ cfg.IsReadError s.streams t))) := by
  cases t with
  | peekFails =>
    refine .inr ⟨rfl, rfl, .inl ⟨-1, s, rfl, h, fun _ => rfl, rfl, ?_⟩⟩
    simp only [IsReadError, true_iff]
    omega
  | readFails d =>
    refine .inr ⟨rfl, rfl, ?_⟩
    simp only [turn, received, IsReadError]
    by_cases hpeek : cfg.waitpeek ≤ d.bytes.length
    · rw [Nat.min_eq_right hpeek]
      simp only [hpeek, ne_eq, not_true_eq_false, if_false, if_true]
      cases hkey : cfg.vdif2streamId s.streams (cfg.vdifKey d) with
      | none => exact .inr ⟨rfl, by simp⟩
      | some found =>
        obtain ⟨dsid, streams⟩ := found
        have hne : ¬ (-1 : Int) = cfg.waitallread := by omega
        refine .inl ⟨-1, _, by simp only [Bool.false_eq_true, if_false, hne, not_false_eq_true, if_true],
          h.enter streams dsid, filled_enter s streams dsid, rfl, ?_⟩
        simp only [Option.isSome_some, true_iff]
        omega
    · have hshort : min d.bytes.length cfg.waitpeek = d.bytes.length := by omega
      have hne : d.bytes.length ≠ cfg.waitpeek := by omega
      refine .inl ⟨d.bytes.length, s, by rw [hshort, if_pos hne], h, fun _ => rfl, rfl, ?_⟩
      rw [if_neg hpeek]
      have hnepeek : ((d.bytes.length : Nat) : Int) ≠ cfg.waitpeek := by omega
      simp only [ne_eq, hnepeek, not_false_eq_true, and_true, Int.natCast_inj]
  | receives d =>
    simp only [turn, received, IsReadError, arrivals, lastTurn]
    by_cases hpeek : cfg.waitpeek ≤ d.bytes.length
    · rw [Nat.min_eq_right hpeek]
      simp only [hpeek, ne_eq, not_true_eq_false, if_false, if_true, true_and]
      cases hkey : cfg.vdif2streamId s.streams (cfg.vdifKey d) with
      | none =>
        refine .inr ⟨by split <;> rfl, by split <;> rfl, .inr ⟨rfl, by simp⟩⟩
      | some found =>
        obtain ⟨dsid, streams⟩ := found
        by_cases hread : cfg.waitallread ≤ d.bytes.length
        · have hfull : min d.bytes.length cfg.waitallread = cfg.waitallread := Nat.min_eq_right hread
          simp only [hread, if_true, hfull, not_true_eq_false, if_false]
          refine .inl ⟨_, dsid, cfg.slot d, rfl, (h.enter streams dsid).advance dsid hread, ?_, ?_, ?_⟩
          · intro a
            rw [advance_seen]
            simp only [seen, filled_enter]
          · rw [advance_streams]
          · rw [advance_streams]
        · have hshort : min d.bytes.length cfg.waitallread = d.bytes.length := by omega
          have hne : ¬ ((d.bytes.length : Nat) : Int) = cfg.waitallread := by omega
          simp only [hread, if_false, hshort, if_true, hne, not_false_eq_true]
          refine .inr ⟨trivial, trivial, .inl ⟨_, _, rfl, h.enter streams dsid,
            filled_enter s streams dsid, rfl, ?_⟩⟩
          simp only [Option.isSome_some, implies_true, and_true, Int.natCast_inj]
          exact and_comm
    · have hshort : min d.bytes.length cfg.waitpeek = d.bytes.length := by omega
      have hne : d.bytes.length ≠ cfg.waitpeek := by omega
      simp only [hpeek, false_and, if_false, hshort, ne_eq, hne, not_false_eq_true, if_true,
        false_implies, and_true, true_and]
      refine .inr (.inl ⟨_, _, rfl, h, fun _ => rfl, rfl, ?_⟩)
      simp only [Int.natCast_inj, hne, not_false_eq_true, and_true]

/-! ## The whole run -/

/-- The demultiplexer's promise for one stream. -/
def Demuxed (cfg : StreamReader σ) (s : State σ) (arrived : List UInt8) (dsid : Nat) : Prop :=
  if cfg.allowVariableBlockSize then ofStream dsid s.outq = arrived
  else ∃ rest, rest.length < cfg.sizes.blocksize ∧ ofStream dsid s.outq ++ rest = arrived

theorem ofStream_blocks_length {bs : List (Nat × List UInt8)} {n : Nat}
    (h : ∀ b ∈ bs, b.2.length = n) (dsid : Nat) : n ∣ (ofStream dsid bs).length := by
  induction bs with
  | nil => exact Nat.dvd_zero n
  | cons b bs ih =>
    rw [ofStream_cons, List.length_append]
    refine Nat.dvd_add ?_ (ih fun c hc => h c (List.mem_cons_of_mem _ hc))
    split
    · exact ⟨1, by rw [h b (List.mem_cons_self ..), Nat.mul_one]⟩
    · exact Nat.dvd_zero n

/-- Nothing is left in a stream's block exactly if whole blocks arrived. -/
theorem filled_nil_iff {s : State σ} (h : Inv cfg s) (dsid : Nat) :
    filled s dsid = [] ↔ cfg.sizes.blocksize ∣ (seen s dsid).length := by
  have hsent := ofStream_blocks_length h.full dsid
  rw [seen, List.length_append, Nat.dvd_add_right hsent]
  constructor
  · intro hnil
    rw [hnil]
    exact Nat.dvd_zero _
  · intro hdvd
    exact List.eq_nil_of_length_eq_zero (Nat.eq_zero_of_dvd_of_lt hdvd (h.room dsid))

theorem ofStream_partialBlocks (s : State σ) (dsid : Nat) :
    ofStream dsid (cfg.partialBlocks s) = if cfg.allowVariableBlockSize then filled s dsid else [] := by
  by_cases havbs : cfg.allowVariableBlockSize = true
  · rw [if_pos havbs, ofStream, partialBlocks, List.filter_comm, OrdMap.filter_toList, filled]
    cases s.dsm[dsid]? with
    | none => rfl
    | some b =>
      cases b with
      | nil => rfl
      | cons x xs => simp [havbs]
  · have hnone : cfg.partialBlocks s = [] := by
      rw [partialBlocks, List.filter_eq_nil_iff]
      intro b _
      simp [havbs]
    rw [if_neg havbs, hnone, ofStream_nil]

theorem epilogue_outq (errno : Nat) (n : Int) (s : State σ) (dsid : Nat) :
    ofStream dsid (cfg.epilogue errno n s).2.outq =
      ofStream dsid s.outq ++
        if n ≠ cfg.waitallread ∧ n ≠ cfg.waitpeek then
          if cfg.allowVariableBlockSize then filled s dsid else []
        else [] := by
  rw [epilogue]
  split
  · rw [ofStream_append, ofStream_partialBlocks]
  · rw [List.append_nil]

/-- How the run looks to one stream when the loop has been left. -/
structure Left (cfg : StreamReader σ) (streams : σ) (t : Turn) (s : State σ) (dsid : Nat)
    (total sent rest : List UInt8) : Prop where
  split : sent ++ rest = total
  short : rest.length < cfg.sizes.blocksize
  whole : rest = [] ↔ cfg.sizes.blocksize ∣ total.length
  flushed : cfg.IsReadError streams t → cfg.allowVariableBlockSize = true →
    ofStream dsid s.outq = total
  kept : ¬ (cfg.IsReadError streams t ∧ cfg.allowVariableBlockSize = true) →
    ofStream dsid s.outq = sent

theorem readLoop_seen (errno : Nat) {s : State σ} (h : Inv cfg s) (ts : List Turn) (dsid : Nat) :
    (cfg.lastTurn s.streams ts = none ∧ ∃ s', cfg.readLoop errno s ts = (none, s') ∧ Inv cfg s' ∧
        seen s' dsid = seen s dsid ++ ofStream dsid (cfg.arrivals s.streams ts)) ∨
      ∃ streams t e s' sent rest, cfg.lastTurn s.streams ts = some (streams, t) ∧
        cfg.readLoop errno s ts = (some e, s') ∧
        Left cfg streams t s' dsid (seen s dsid ++ ofStream dsid (cfg.arrivals s.streams ts))
          sent rest := by
  induction ts generalizing s with
  | nil => exact .inl ⟨rfl, s, rfl, h, by simp [arrivals]⟩
  | cons t ts ih =>
    rcases turn_cases h t ts with ⟨s₁, a, packet, hturn, h₁, hseen, harr, hlast⟩ |
      ⟨harr, hlast, hleave⟩
    · have htotal : seen s dsid ++ ofStream dsid (cfg.arrivals s.streams (t :: ts)) =
          seen s₁ dsid ++ ofStream dsid (cfg.arrivals s₁.streams ts) := by
        rw [harr, hseen, ofStream_cons, List.append_assoc]
      simp only [readLoop, hturn, htotal, hlast]
      exact ih h₁
    · refine .inr ⟨s.streams, t, ?_⟩
      rw [harr, ofStream_nil, List.append_nil, hlast]
      rcases hleave with ⟨n, s₁, hturn, h₁, hfilled, houtq, herr⟩ | ⟨hturn, hno⟩
      · simp only [readLoop, hturn]
        refine ⟨_, _, ofStream dsid s.outq, filled s dsid, trivial, rfl, rfl, h.room dsid,
          filled_nil_iff h dsid, ?_, ?_⟩
        · intro hread havbs
          rw [epilogue_outq, if_pos (herr.mp hread), if_pos havbs, hfilled, houtq]
          rfl
        · intro hnot
          rw [epilogue_outq, houtq]
          split
          · rename_i hn
            rw [if_neg fun havbs => hnot ⟨herr.mpr hn, havbs⟩, List.append_nil]
          · rw [List.append_nil]
      · simp only [readLoop, hturn]
        exact ⟨_, _, ofStream dsid s.outq, filled s dsid, trivial, rfl, rfl, h.room dsid,
          filled_nil_iff h dsid, fun hread => absurd hread hno, fun _ => rfl⟩

theorem initial_inv (cfg : StreamReader σ) (streams : σ) : Inv cfg ⟨streams, ∅, []⟩ where
  room dsid := by
    simpa [filled] using cfg.sizes.block_pos
  whole dsid := by simp [filled]
  full := nofun

/-- For every data stream, while the reader runs: all but a partial block of what
arrived has been passed on. When it has ended, its promise is kept exactly if
partial blocks are not allowed, or there is none, or the loop was left by what
is taken for a read error. -/
theorem demux_iff (cfg : StreamReader σ) (errno : Nat) (streams : σ) (ts : List Turn) (dsid : Nat) :
    (cfg.lastTurn streams ts = none →
      (cfg.run errno streams ts).1 = none ∧
        ∃ rest, rest.length < cfg.sizes.blocksize ∧
          ofStream dsid (cfg.run errno streams ts).2.outq ++ rest =
            ofStream dsid (cfg.arrivals streams ts)) ∧
      ∀ known t, cfg.lastTurn streams ts = some (known, t) →
        (cfg.run errno streams ts).1.isSome ∧
          (Demuxed cfg (cfg.run errno streams ts).2 (ofStream dsid (cfg.arrivals streams ts)) dsid ↔
            cfg.allowVariableBlockSize = false ∨
              cfg.sizes.blocksize ∣ (ofStream dsid (cfg.arrivals streams ts)).length ∨
              cfg.IsReadError known t) := by
  have hseen : seen (⟨streams, ∅, []⟩ : State σ) dsid = [] := by simp [seen, filled]
  rcases readLoop_seen errno (initial_inv cfg streams) ts dsid with
    ⟨hlast, s', hrun, hinv, htotal⟩ | ⟨known, t, e, s', sent, rest, hlast, hrun, hleft⟩
  · rw [hseen, List.nil_append] at htotal
    refine ⟨fun _ => ?_, fun known t hsome => ?_⟩
    · rw [StreamReader.run, hrun]
      exact ⟨rfl, filled s' dsid, hinv.room dsid, htotal⟩
    · rw [hlast] at hsome
      cases hsome
  · rw [hseen, List.nil_append] at hleft
    refine ⟨fun hnone => ?_, ?_⟩
    · rw [hlast] at hnone
      cases hnone
    · intro known' t' hsome
      rw [hlast] at hsome
      obtain ⟨rfl, rfl⟩ := Prod.mk.inj (Option.some.inj hsome)
      rw [StreamReader.run, hrun]
      refine ⟨rfl, ?_⟩
      rw [Demuxed]
      by_cases havbs : cfg.allowVariableBlockSize = true
      · simp only [havbs, if_true, Bool.true_eq_false, false_or]
        by_cases herr : cfg.IsReadError known t
        · simp only [herr, or_true, iff_true]
          exact hleft.flushed herr havbs
        · simp only [herr, or_false]
          rw [hleft.kept fun h => herr h.1, ← hleft.whole, ← hleft.split]
          exact List.self_eq_append_right
      · simp only [havbs, Bool.false_eq_true, if_false]
        rw [hleft.kept fun h => havbs h.2]
        simp only [Bool.not_eq_true] at havbs
        simp only [true_or, iff_true]
        exact ⟨rest, hleft.short, hleft.split⟩

/-! ## Blocks of two packets -/

def twoPackets : Sizes where
  rdSize := 32
  wrSize := 32
  blocksize := 64
  rd_le := Nat.le_refl _
  wr_pos := by decide
  block_pos := by decide
  block_dvd := by decide

def oneStream (_ : Unit) (_ : VdifKey) : Option (Nat × Unit) := some (0, ())

def zeroDatagram (n : Nat) : Turn := .receives ⟨0, List.replicate n 0⟩

theorem demux_iff_interrupted :
    ((udpsnorreaderStream twoPackets true oneStream).run EINTR () [zeroDatagram 40, .peekFails]).1.isSome ∧
      Demuxed (udpsnorreaderStream twoPackets true oneStream)
        ((udpsnorreaderStream twoPackets true oneStream).run EINTR () [zeroDatagram 40, .peekFails]).2
        (ofStream 0 ((udpsnorreaderStream twoPackets true oneStream).arrivals ()
          [zeroDatagram 40, .peekFails])) 0 := by
  obtain ⟨hended, hiff⟩ := (demux_iff (udpsnorreaderStream twoPackets true oneStream) EINTR ()
    [zeroDatagram 40, .peekFails] 0).2 () .peekFails rfl
  exact ⟨hended, hiff.mpr (.inr (.inr trivial))⟩

/-- A datagram as long as what is peeked at ends the reader without a word, and
the packet before it is gone. -/
theorem partial_block_lost :
    ((udpsnorreaderStream twoPackets true oneStream).run 0 () [zeroDatagram 40, zeroDatagram 24]).1 =
        some .done ∧
      (udpsnorreaderStream twoPackets true oneStream).arrivals ()
        [zeroDatagram 40, zeroDatagram 24] = [(0, List.replicate 32 0)] ∧
      ((udpsnorreaderStream twoPackets true oneStream).run 0 ()
        [zeroDatagram 40, zeroDatagram 24]).2.outq = [] ∧
      ¬ Demuxed (udpsnorreaderStream twoPackets true oneStream)
        ((udpsnorreaderStream twoPackets true oneStream).run 0 ()
          [zeroDatagram 40, zeroDatagram 24]).2
        (ofStream 0 ((udpsnorreaderStream twoPackets true oneStream).arrivals ()
          [zeroDatagram 40, zeroDatagram 24])) 0 := by
  refine ⟨by decide +kernel, by decide +kernel, by decide +kernel, ?_⟩
  show ¬ (ofStream 0 ((udpsnorreaderStream twoPackets true oneStream).run 0 ()
    [zeroDatagram 40, zeroDatagram 24]).2.outq = _)
  decide +kernel

end Jive5ab.Net
