import Mathlib.Data.List.Nodup
import Jive5ab.Lib.Slice
import Jive5ab.Net.UdpsReader

/-! # Every datagram in its place

A flag in the work buffer, or in a block that was pushed, stands for a datagram
with the sequence number of that place. The invariant is kept by each part of a
turn: the resync, the shifts, the block from the pool, the receive and the flush. -/
namespace Jive5ab.Net.Udps
open Lib Reader

variable {r : Reader}

/-! ## The invariant -/

/-- A flagged place for `seqnr`. A datagram that was cut short may have been
written over the data of the one the flag stands for. -/
def Holds (r : Reader) (got : List Datagram) (cutShort : Option Nat) (seqnr : Nat) (t : Slot) :
    Prop :=
  ∃ d, got[t.arrival]? = some d ∧ d.seqnr = seqnr ∧
    (cutShort ≠ some seqnr → t.data.take r.sizes.rdSize = d.payload.take r.sizes.rdSize)

structure BlockOk (r : Reader) (got : List Datagram) (cutShort : Option Nat) (since start : Nat)
    (b : Block) : Prop where
  size : b.length = r.nDgPBlock
  width : ∀ t ∈ b, t.data.length = r.sizes.wrSize
  holds : ∀ p t, b[p]? = some t → t.flag = true →
    Holds r got cutShort (start + p) t ∧ since ≤ t.arrival

/-- One block ends before the other begins, unless there was a resync between. -/
def Before (n : Nat) (a b : Pushed) : Prop :=
  a.epoch < b.epoch ∨ a.epoch = b.epoch ∧ a.seqnstart + n ≤ b.seqnstart

def slotMarks (t : Slot) : List Nat := if t.flag then [t.arrival] else []

def blockMarks (b : Block) : List Nat := b.flatMap slotMarks

def windowMarks (w : List (Option Block)) : List Nat := w.flatMap fun b => blockMarks (b.getD [])

def queueMarks (q : List Pushed) : List Nat := q.flatMap fun b => blockMarks b.slots

/-- What the flags stand for, in the queue and in the work buffer. -/
def marks (s : State) : List Nat := queueMarks s.outq ++ windowMarks s.workbuf

structure Core (r : Reader) (s : State) : Prop where
  window : ∀ i b, s.workbuf[i]? = some (some b) → s.firstseqnr + i * r.nDgPBlock < 2 ^ 64 ∧
    BlockOk r s.arrivals s.cutShort s.since (s.firstseqnr + i * r.nDgPBlock) b
  queued : ∀ q ∈ s.outq, BlockOk r s.arrivals s.cutShort 0 q.seqnstart q.slots
  ordered : s.outq.Pairwise (Before r.nDgPBlock)
  once : (marks s).Nodup

/-- What else holds until the loop is left. -/
structure Live (r : Reader) (s : State) : Prop extends Core r s where
  length : s.workbuf.length = r.readahead
  behind : ∀ q ∈ s.outq, q.epoch < s.epoch ∨
    q.epoch = s.epoch ∧ q.seqnstart + r.nDgPBlock ≤ s.firstseqnr
  first_lt : s.firstseqnr < 2 ^ 64
  since_le : s.since ≤ s.arrivals.length
  whole : s.cutShort = none

/-- A location in the work buffer is that of a sequence number. -/
def Located (r : Reader) (s : State) (seqnr : Nat) (loc : Nat × Nat) : Prop :=
  (∃ b, s.workbuf[loc.1]? = some (some b)) ∧ loc.2 < r.nDgPBlock ∧
    seqnr = s.firstseqnr + loc.1 * r.nDgPBlock + loc.2

def Inv (r : Reader) (s : State) : Prop :=
  match s.phase with
  | .first => Live r s ∧ s.firstseqnr = 0 ∧ ∀ (i : Nat) b, s.workbuf[i]? ≠ some (some b)
  | .peek | .read _ none => Live r s
  | .read d (some loc) => Live r s ∧ Located r s d.seqnr loc
  | .ended _ => Core r s

theorem Inv.core {s : State} (h : Inv r s) : Core r s := by
  unfold Inv at h
  split at h
  · exact h.1.toCore
  · exact h.toCore
  · exact h.toCore
  · exact h.1.toCore
  · exact h

theorem nDgPBlock_pos : 0 < r.nDgPBlock :=
  Nat.div_pos (Nat.le_of_dvd r.sizes.block_pos r.sizes.block_dvd) r.sizes.wr_pos

theorem nDgPBlock_mul : r.nDgPBlock * r.sizes.wrSize = r.sizes.blocksize :=
  Nat.div_mul_cancel r.sizes.block_dvd

theorem readahead_pos : 0 < r.readahead := by
  unfold readahead
  split
  · omega
  · exact r.nblock_pos

/-! ## Blocks -/

theorem Holds.append {got : List Datagram} {cut : Option Nat} {n : Nat} {t : Slot}
    (h : Holds r got cut n t) (ds : List Datagram) : Holds r (got ++ ds) cut n t := by
  obtain ⟨d, hd, hn, hp⟩ := h
  refine ⟨d, ?_, hn, hp⟩
  rw [List.getElem?_append_left (List.getElem?_eq_some_iff.mp hd).1]
  exact hd

/-- A datagram cut short spoils only its own place. -/
theorem Holds.cut {got : List Datagram} {n : Nat} {t : Slot} (h : Holds r got none n t)
    (c : Option Nat) : Holds r got c n t := by
  obtain ⟨d, hd, hn, hp⟩ := h
  exact ⟨d, hd, hn, fun _ => hp (by simp)⟩

theorem BlockOk.append {got : List Datagram} {cut : Option Nat} {since start : Nat} {b : Block}
    (h : BlockOk r got cut since start b) (ds : List Datagram) :
    BlockOk r (got ++ ds) cut since start b where
  size := h.size
  width := h.width
  holds p t ht hf := ⟨(h.holds p t ht hf).1.append ds, (h.holds p t ht hf).2⟩

theorem BlockOk.cut {got : List Datagram} {since start : Nat} {b : Block}
    (h : BlockOk r got none since start b) (c : Option Nat) : BlockOk r got c since start b where
  size := h.size
  width := h.width
  holds p t ht hf := ⟨(h.holds p t ht hf).1.cut c, (h.holds p t ht hf).2⟩

theorem BlockOk.forget {got : List Datagram} {cut : Option Nat} {since start : Nat} {b : Block}
    (h : BlockOk r got cut since start b) : BlockOk r got cut 0 start b where
  size := h.size
  width := h.width
  holds p t ht hf := ⟨(h.holds p t ht hf).1, Nat.zero_le _⟩

/-- Without flags a block may stand for any sequence numbers. -/
theorem BlockOk.unflagged {b : Block} (hsize : b.length = r.nDgPBlock)
    (hwidth : ∀ t ∈ b, t.data.length = r.sizes.wrSize) (hflag : ∀ t ∈ b, t.flag = false)
    (got : List Datagram) (cut : Option Nat) (since start : Nat) :
    BlockOk r got cut since start b where
  size := hsize
  width := hwidth
  holds p t ht hf := by
    rw [hflag t (List.mem_of_getElem? ht)] at hf
    cases hf

theorem clearFlags_ok {got got' : List Datagram} {cut cut' : Option Nat} {since since' start start' : Nat}
    {b : Block} (h : BlockOk r got cut since start b) :
    BlockOk r got' cut' since' start' (clearFlags b) := by
  refine BlockOk.unflagged (by simpa [clearFlags] using h.size) ?_ ?_ ..
  · intro t ht
    obtain ⟨u, hu, rfl⟩ := List.mem_map.mp ht
    exact h.width u hu
  · intro t ht
    obtain ⟨u, -, rfl⟩ := List.mem_map.mp ht
    rfl

theorem freshBlock_ok (s : State) (got : List Datagram) (cut : Option Nat) (since start : Nat) :
    BlockOk r got cut since start (r.freshBlock s) := by
  refine BlockOk.unflagged (by simp [freshBlock]) ?_ ?_ ..
  · intro t ht
    obtain ⟨p, -, rfl⟩ := List.mem_map.mp ht
    exact r.memory_length s.npool p
  · intro t ht
    obtain ⟨p, -, rfl⟩ := List.mem_map.mp ht
    rfl

theorem BlockOk.modify {got : List Datagram} {cut cut' : Option Nat} {since start p : Nat} {b : Block}
    (h : BlockOk r got cut since start b) {f : Slot → Slot}
    (hwidth : ∀ t, t.data.length = r.sizes.wrSize → (f t).data.length = r.sizes.wrSize)
    (hother : ∀ q t, q ≠ p → Holds r got cut (start + q) t → Holds r got cut' (start + q) t)
    (hf : ∀ t, b[p]? = some t → (f t).flag = true →
      Holds r got cut' (start + p) (f t) ∧ since ≤ (f t).arrival) :
    BlockOk r got cut' since start (b.modify p f) where
  size := by simpa using h.size
  width t ht := by
    obtain ⟨q, hq⟩ := List.mem_iff_getElem?.mp ht
    rw [List.getElem?_modify, Option.map_eq_map, Option.map_eq_some_iff] at hq
    obtain ⟨u, hu, rfl⟩ := hq
    have hwu := h.width u (List.mem_of_getElem? hu)
    split
    · exact hwidth u hwu
    · exact hwu
  holds q t ht hfl := by
    rw [List.getElem?_modify, Option.map_eq_map, Option.map_eq_some_iff] at ht
    obtain ⟨u, hu, rfl⟩ := ht
    by_cases hpq : p = q
    · subst hpq
      rw [if_pos rfl] at hfl ⊢
      exact hf u hu hfl
    · rw [if_neg hpq] at hfl ⊢
      have hold := h.holds q u hu hfl
      exact ⟨hother q u (Ne.symm hpq) hold.1, hold.2⟩

theorem receive_length {data payload : List UInt8} (h : data.length = r.sizes.wrSize) :
    (r.receive data payload).length = r.sizes.wrSize := by
  have hle := r.sizes.rd_le
  simp only [receive, List.length_append, List.length_take, List.length_drop]
  omega

theorem receive_take {payload : List UInt8} (data : List UInt8)
    (h : r.sizes.rdSize ≤ payload.length) :
    (r.receive data payload).take r.sizes.rdSize = payload.take r.sizes.rdSize := by
  rw [receive, List.take_append_of_le_length, List.take_take, Nat.min_self]
  rw [List.length_take]
  omega

/-! ## Marks -/

theorem blockMarks_unflagged {b : Block} (h : ∀ t ∈ b, t.flag = false) : blockMarks b = [] := by
  unfold blockMarks
  rw [List.flatMap_eq_nil_iff]
  intro t ht
  simp [slotMarks, h t ht]

@[simp] theorem blockMarks_clearFlags (b : Block) : blockMarks (clearFlags b) = [] := by
  refine blockMarks_unflagged fun t ht => ?_
  obtain ⟨u, -, rfl⟩ := List.mem_map.mp ht
  rfl

@[simp] theorem blockMarks_freshBlock (s : State) : blockMarks (r.freshBlock s) = [] := by
  refine blockMarks_unflagged fun t ht => ?_
  obtain ⟨p, -, rfl⟩ := List.mem_map.mp ht
  rfl

@[simp] theorem windowMarks_clearFlags (w : List (Option Block)) :
    windowMarks (w.map (Option.map clearFlags)) = [] := by
  unfold windowMarks
  rw [List.flatMap_eq_nil_iff]
  intro b hb
  obtain ⟨c, -, rfl⟩ := List.mem_map.mp hb
  cases c with
  | none => rfl
  | some c => exact blockMarks_clearFlags c

theorem BlockOk.mark_lt {got : List Datagram} {cut : Option Nat} {since start k : Nat} {b : Block}
    (h : BlockOk r got cut since start b) (hk : k ∈ blockMarks b) : k < got.length := by
  obtain ⟨t, ht, hkt⟩ := List.mem_flatMap.mp hk
  obtain ⟨p, hp⟩ := List.mem_iff_getElem?.mp ht
  unfold slotMarks at hkt
  split at hkt
  · rename_i hf
    obtain rfl := List.mem_singleton.mp hkt
    obtain ⟨d, hd, -⟩ := (h.holds p t hp hf).1
    exact (List.getElem?_eq_some_iff.mp hd).1
  · cases hkt

theorem Core.mark_lt {s : State} (h : Core r s) {k : Nat} (hk : k ∈ marks s) :
    k < s.arrivals.length := by
  rcases List.mem_append.mp hk with hk | hk
  · obtain ⟨q, hq, hkq⟩ := List.mem_flatMap.mp hk
    exact (h.queued q hq).mark_lt hkq
  · obtain ⟨b, hb, hkb⟩ := List.mem_flatMap.mp hk
    obtain ⟨i, hi⟩ := List.mem_iff_getElem?.mp hb
    cases b with
    | none => simp [blockMarks] at hkb
    | some b => exact (h.window i b hi).2.mark_lt hkb

theorem modifySlot_marks {w : List (Option Block)} {loc : Nat × Nat} {b : Block} {t : Slot}
    (hb : w[loc.1]? = some (some b)) (ht : b[loc.2]? = some t) (f : Slot → Slot) :
    ∃ pre post, windowMarks w = pre ++ (slotMarks t ++ post) ∧
      windowMarks (modifySlot w loc f) = pre ++ (slotMarks (f t) ++ post) := by
  obtain ⟨pre, post, hw, hw'⟩ := flatMap_modify hb (fun b => blockMarks (b.getD []))
    (Option.map fun b => b.modify loc.2 f)
  obtain ⟨pre', post', hm, hm'⟩ := flatMap_modify ht slotMarks f
  refine ⟨pre ++ pre', post' ++ post, ?_, ?_⟩
  · unfold windowMarks
    rw [hw, Option.getD_some, blockMarks, hm]
    simp only [List.append_assoc]
  · unfold windowMarks modifySlot
    rw [hw', Option.map_some, Option.getD_some, blockMarks, hm']
    simp only [List.append_assoc]

/-! ## Before the receive -/

theorem resync_live {s : State} {seqnr : Nat} (h : Live r s) (hlt : seqnr < s.firstseqnr) :
    Live r (resync s seqnr) where
  window i b hb := by
    change (s.workbuf.map (Option.map clearFlags))[i]? = some (some b) at hb
    rw [List.getElem?_map, Option.map_eq_some_iff] at hb
    obtain ⟨c, hc, hcb⟩ := hb
    obtain ⟨c, rfl, rfl⟩ := Option.map_eq_some_iff.mp hcb
    obtain ⟨hi, hok⟩ := h.window i c hc
    refine ⟨?_, clearFlags_ok hok⟩
    show seqnr + i * r.nDgPBlock < 2 ^ 64
    omega
  queued := h.queued
  ordered := h.ordered
  once := by
    show (queueMarks s.outq ++ windowMarks (s.workbuf.map (Option.map clearFlags))).Nodup
    rw [windowMarks_clearFlags, List.append_nil]
    exact h.once.of_append_left
  length := by
    show (s.workbuf.map (Option.map clearFlags)).length = _
    rw [List.length_map, h.length]
  behind q hq := by
    refine .inl ?_
    show q.epoch < s.epoch + 1
    rcases h.behind q hq with hlt | ⟨heq, -⟩
    · exact Nat.lt_succ_of_lt hlt
    · exact Nat.lt_succ_of_le (Nat.le_of_eq heq)
  first_lt := Nat.lt_trans hlt h.first_lt
  since_le := Nat.le_refl _
  whole := h.whole

theorem reserve_live {s : State} {blockidx : Nat} (h : Live r s)
    (hlt : s.firstseqnr + blockidx * r.nDgPBlock < 2 ^ 64) : Live r (r.reserve s blockidx) := by
  unfold reserve
  split
  · rename_i hnone
    obtain ⟨hidx, hval⟩ := List.getElem?_eq_some_iff.mp hnone
    refine ⟨⟨?_, h.queued, h.ordered, ?_⟩, ?_, h.behind, h.first_lt, h.since_le, h.whole⟩
    · intro i b hb
      change (s.workbuf.set blockidx _)[i]? = some (some b) at hb
      by_cases hi : blockidx = i
      · subst hi
        rw [List.getElem?_set_self hidx] at hb
        cases hb
        exact ⟨hlt, freshBlock_ok s _ _ _ _⟩
      · rw [List.getElem?_set_ne hi] at hb
        exact h.window i b hb
    · obtain ⟨pre, post, hw, hw'⟩ := flatMap_modify hnone (fun b => blockMarks (b.getD []))
        (fun _ => some (r.freshBlock s))
      have hset : windowMarks (s.workbuf.set blockidx (some (r.freshBlock s))) =
          windowMarks s.workbuf := by
        rw [List.set_eq_modify, windowMarks, windowMarks, hw, hw', Option.getD_some,
          blockMarks_freshBlock]
        rfl
      show (queueMarks s.outq ++ windowMarks _).Nodup
      rw [hset]
      exact h.once
    · show (s.workbuf.set blockidx _).length = _
      rw [List.length_set, h.length]
  · exact h

theorem reserve_firstseqnr (s : State) (blockidx : Nat) :
    (r.reserve s blockidx).firstseqnr = s.firstseqnr := by
  unfold reserve
  split <;> rfl

theorem reserve_isSome {s : State} {blockidx : Nat} (h : blockidx < s.workbuf.length) :
    ∃ b, (r.reserve s blockidx).workbuf[blockidx]? = some (some b) := by
  unfold reserve
  split
  · exact ⟨r.freshBlock s, List.getElem?_set_self h⟩
  · rename_i hne
    cases hb : s.workbuf[blockidx]? with
    | none => exact absurd h (Nat.not_lt.mpr (List.getElem?_eq_none_iff.mp hb))
    | some b =>
      cases b with
      | none => exact absurd hb hne
      | some b => exact ⟨b, rfl⟩

theorem Live.workbuf_cons {s : State} (h : Live r s) : ∃ b w, s.workbuf = b :: w := by
  cases hw : s.workbuf with
  | nil =>
    have hlen := h.length
    have hpos := @readahead_pos r
    rw [hw, List.length_nil] at hlen
    omega
  | cons b w => exact ⟨b, w, rfl⟩

theorem shift_firstseqnr {s : State} (h : s.firstseqnr + r.nDgPBlock < 2 ^ 64) :
    (r.shift s).firstseqnr = s.firstseqnr + r.nDgPBlock := Nat.mod_eq_of_lt h

/-- What is at a place after the shift was one further before. -/
theorem shift_workbuf {s : State} (i : Nat) {b : Block}
    (h : (r.shift s).workbuf[i]? = some (some b)) : s.workbuf[i + 1]? = some (some b) := by
  change (s.workbuf.tail ++ [none])[i]? = some (some b) at h
  rw [← List.getElem?_tail]
  rcases Nat.lt_or_ge i s.workbuf.tail.length with hi | hi
  · rwa [List.getElem?_append_left hi] at h
  · rw [List.getElem?_append_right hi] at h
    have hmem := List.mem_of_getElem? h
    simp at hmem

/-- What a shift puts in the queue, and the marks it moves there. -/
theorem shift_outq {s : State} (h : Live r s) :
    ∃ new, (r.shift s).outq = s.outq ++ new ∧
      (∀ q ∈ new, q.seqnstart = s.firstseqnr ∧ q.epoch = s.epoch ∧
        BlockOk r s.arrivals s.cutShort 0 s.firstseqnr q.slots) ∧
      new.Pairwise (Before r.nDgPBlock) ∧
      queueMarks new ++ windowMarks (r.shift s).workbuf = windowMarks s.workbuf := by
  obtain ⟨b, w, hw⟩ := h.workbuf_cons
  have htail : windowMarks (r.shift s).workbuf = windowMarks w := by
    show windowMarks (s.workbuf.tail ++ [none]) = _
    rw [hw, List.tail_cons, windowMarks, List.flatMap_append]
    simp [windowMarks, blockMarks]
  cases b with
  | none =>
    refine ⟨[], ?_, by simp, .nil, ?_⟩
    · simp [shift, hw]
    · rw [htail, hw]
      simp [windowMarks, queueMarks, blockMarks]
  | some b =>
    have hok : BlockOk r s.arrivals s.cutShort 0 s.firstseqnr b := by
      have hwin := h.window 0 b (by rw [hw]; rfl)
      rw [Nat.zero_mul, Nat.add_zero] at hwin
      exact hwin.2.forget
    refine ⟨[⟨b, r.sizes.blocksize + r.nDgPBlock, s.firstseqnr, s.epoch⟩], ?_, ?_, by simp, ?_⟩
    · simp [shift, hw]
    · intro q hq
      obtain rfl := List.mem_singleton.mp hq
      exact ⟨rfl, rfl, hok⟩
    · rw [htail, hw]
      simp [windowMarks, queueMarks]

/-- New blocks at the end of the queue, of one range after all that was pushed. -/
theorem ordered_append {n start epoch : Nat} {old new : List Pushed}
    (hold : old.Pairwise (Before n)) (hnew : new.Pairwise (Before n))
    (hbehind : ∀ q ∈ old, q.epoch < epoch ∨ q.epoch = epoch ∧ q.seqnstart + n ≤ start)
    (hat : ∀ q ∈ new, q.epoch = epoch ∧ start ≤ q.seqnstart) :
    (old ++ new).Pairwise (Before n) := by
  refine List.pairwise_append.mpr ⟨hold, hnew, ?_⟩
  intro a ha b hb
  obtain ⟨hbe, hbs⟩ := hat b hb
  rcases hbehind a ha with hlt | ⟨heq, hle⟩
  · exact .inl (hbe ▸ hlt)
  · exact .inr ⟨heq.trans hbe.symm, Nat.le_trans hle hbs⟩

theorem shift_live {s : State} (h : Live r s) (hlt : s.firstseqnr + r.nDgPBlock < 2 ^ 64) :
    Live r (r.shift s) := by
  obtain ⟨new, hout, hnew, hpair, hmarks⟩ := shift_outq h
  refine ⟨⟨?_, ?_, ?_, ?_⟩, ?_, ?_, Nat.mod_lt _ (by decide), h.since_le, h.whole⟩
  · intro i c hc
    rw [shift_firstseqnr hlt]
    have hold := h.window (i + 1) c (shift_workbuf i hc)
    rw [Nat.succ_mul, Nat.add_comm (i * r.nDgPBlock), ← Nat.add_assoc] at hold
    exact hold
  · intro q hq
    rw [hout] at hq
    rcases List.mem_append.mp hq with hq | hq
    · exact h.queued q hq
    · obtain ⟨hs, -, hok⟩ := hnew q hq
      rw [hs]
      exact hok
  · rw [hout]
    refine ordered_append h.ordered hpair h.behind fun q hq => ?_
    obtain ⟨hs, he, -⟩ := hnew q hq
    exact ⟨he, Nat.le_of_eq hs.symm⟩
  · have honce := h.once
    unfold marks at honce ⊢
    rw [hout, queueMarks, List.flatMap_append, List.append_assoc]
    rw [← hmarks] at honce
    exact honce
  · obtain ⟨b, w, hw⟩ := h.workbuf_cons
    have hlen := h.length
    show (s.workbuf.tail ++ [none]).length = _
    rw [hw] at hlen ⊢
    simpa using hlen
  · intro q hq
    rw [shift_firstseqnr hlt]
    rw [hout] at hq
    rcases List.mem_append.mp hq with hq | hq
    · rcases h.behind q hq with he | ⟨he, hle⟩
      · exact .inl he
      · exact .inr ⟨he, Nat.le_add_right_of_le hle⟩
    · obtain ⟨hs, he, -⟩ := hnew q hq
      exact .inr ⟨he, Nat.le_of_eq (by rw [hs])⟩

/-- With nothing in the work buffer it may begin anywhere further on. -/
theorem jump_live {s : State} {seqnr : Nat} (h : Live r s)
    (hempty : ∀ (i : Nat) b, s.workbuf[i]? ≠ some (some b)) (hle : s.firstseqnr ≤ seqnr)
    (hseq : seqnr < 2 ^ 64) : Live r { s with firstseqnr := seqnr } where
  window i b hb := absurd hb (hempty i b)
  queued := h.queued
  ordered := h.ordered
  once := h.once
  length := h.length
  behind q hq := by
    rcases h.behind q hq with he | ⟨he, hs⟩
    · exact .inl he
    · exact .inr ⟨he, Nat.le_trans hs hle⟩
  first_lt := hseq
  since_le := h.since_le
  whole := h.whole

/-- The next round of `locate` after a shift. -/
theorem locate_next {s : State} {seqnr left : Nat} (h : Live r s) (hle : s.firstseqnr ≤ seqnr)
    (hseq : seqnr < 2 ^ 64) (hleft : ∀ i b, s.workbuf[i]? = some (some b) → i < left + 1)
    (hout : ¬ (seqnr - s.firstseqnr) / r.nDgPBlock < r.readahead) :
    ∀ t, t = (if left = 0 then { r.shift s with firstseqnr := seqnr } else r.shift s) →
      Live r t ∧ t.firstseqnr ≤ seqnr ∧ (∀ i b, t.workbuf[i]? = some (some b) → i < left) := by
  have hpos := @readahead_pos r
  have hroom : s.firstseqnr + r.nDgPBlock ≤ seqnr := by
    have hone : 1 ≤ (seqnr - s.firstseqnr) / r.nDgPBlock := by omega
    have hmul := (Nat.le_div_iff_mul_le nDgPBlock_pos).mp hone
    omega
  have hlt : s.firstseqnr + r.nDgPBlock < 2 ^ 64 := by omega
  have hshift := shift_live h hlt
  have hempty : ∀ i b, (r.shift s).workbuf[i]? = some (some b) → i < left := fun i b hb =>
    Nat.lt_of_succ_lt_succ (hleft (i + 1) b (shift_workbuf i hb))
  have hfirst : (r.shift s).firstseqnr ≤ seqnr := by rwa [shift_firstseqnr hlt]
  intro t ht
  subst ht
  split
  · rename_i hzero
    have hnone : ∀ i b, (r.shift s).workbuf[i]? ≠ some (some b) := fun i b hb =>
      absurd (hempty i b hb) (by omega)
    exact ⟨jump_live hshift hnone hfirst hseq, Nat.le_refl _, hempty⟩
  · exact ⟨hshift, hfirst, hempty⟩

theorem locate_found {s : State} {seqnr : Nat} (h : Live r s) (hle : s.firstseqnr ≤ seqnr)
    (hseq : seqnr < 2 ^ 64) (hin : (seqnr - s.firstseqnr) / r.nDgPBlock < r.readahead) :
    Live r (r.reserve s ((seqnr - s.firstseqnr) / r.nDgPBlock)) ∧
      Located r (r.reserve s ((seqnr - s.firstseqnr) / r.nDgPBlock)) seqnr
        ((seqnr - s.firstseqnr) / r.nDgPBlock, (seqnr - s.firstseqnr) % r.nDgPBlock) := by
  have hdiv : (seqnr - s.firstseqnr) / r.nDgPBlock * r.nDgPBlock +
      (seqnr - s.firstseqnr) % r.nDgPBlock = seqnr - s.firstseqnr := Nat.div_add_mod' ..
  refine ⟨reserve_live h (by omega), reserve_isSome (by rw [h.length]; exact hin),
    Nat.mod_lt _ nDgPBlock_pos, ?_⟩
  rw [reserve_firstseqnr]
  show seqnr = s.firstseqnr + (seqnr - s.firstseqnr) / r.nDgPBlock * r.nDgPBlock +
    (seqnr - s.firstseqnr) % r.nDgPBlock
  omega

theorem locate_live {seqnr : Nat} (hseq : seqnr < 2 ^ 64) (left : Nat) {s : State} (h : Live r s)
    (hle : s.firstseqnr ≤ seqnr) (hleft : ∀ i b, s.workbuf[i]? = some (some b) → i < left) :
    Live r (r.locate seqnr left s).2 ∧
      ∀ loc, (r.locate seqnr left s).1 = some loc → Located r (r.locate seqnr left s).2 seqnr loc := by
  induction left generalizing s with
  | zero =>
    unfold locate
    by_cases hin : (seqnr - s.firstseqnr) / r.nDgPBlock < r.readahead
    · obtain ⟨hlive, hloc⟩ := locate_found h hle hseq hin
      rw [if_pos hin]
      refine ⟨hlive, fun loc hl => ?_⟩
      obtain rfl := Option.some.inj hl
      exact hloc
    · rw [if_neg hin, ite_self]
      exact ⟨h, fun loc hl => by cases hl⟩
  | succ left ih =>
    unfold locate
    by_cases hin : (seqnr - s.firstseqnr) / r.nDgPBlock < r.readahead
    · obtain ⟨hlive, hloc⟩ := locate_found h hle hseq hin
      rw [if_pos hin]
      refine ⟨hlive, fun loc hl => ?_⟩
      obtain rfl := Option.some.inj hl
      exact hloc
    · rw [if_neg hin]
      split
      · exact ⟨h, fun loc hl => by cases hl⟩
      · obtain ⟨hlive, hfirst, hnext⟩ := locate_next h hle hseq hleft hin _ rfl
        exact ih hlive hfirst hnext

theorem account_live {s : State} (h : Live r s) (seqnr : Nat) (discard : Bool) :
    Live r (account s seqnr discard) :=
  ⟨⟨h.window, h.queued, h.ordered, h.once⟩, h.length, h.behind, h.first_lt, h.since_le, h.whole⟩

theorem Live.setPhase {s : State} (h : Live r s) (p : Phase) : Live r { s with phase := p } :=
  ⟨⟨h.window, h.queued, h.ordered, h.once⟩, h.length, h.behind, h.first_lt, h.since_le, h.whole⟩

theorem Live.setPktcnt {s : State} (h : Live r s) (n : UInt64) : Live r { s with pktcnt := n } :=
  ⟨⟨h.window, h.queued, h.ordered, h.once⟩, h.length, h.behind, h.first_lt, h.since_le, h.whole⟩

/-- The work buffer is given up. -/
theorem Core.dropWindow {s : State} (h : Core r s) (p : Phase) :
    Core r { s with phase := p, workbuf := [] } where
  window i b hb := by
    change ([] : List (Option Block))[i]? = _ at hb
    rw [List.getElem?_nil] at hb
    cases hb
  queued := h.queued
  ordered := h.ordered
  once := by
    show (queueMarks s.outq ++ windowMarks []).Nodup
    rw [windowMarks, List.flatMap_nil, List.append_nil]
    exact h.once.of_append_left

/-- Not discarded means not before the work buffer. -/
theorem heard_live {s : State} (h : Live r s) (seqnr : Nat) :
    Live r (r.heard s seqnr) ∧
      (r.discards s seqnr = false → (r.heard s seqnr).firstseqnr ≤ seqnr) := by
  unfold heard
  dsimp only
  by_cases hre : r.resyncs s seqnr = true
  · have hlt : seqnr < s.firstseqnr := by
      unfold resyncs at hre
      exact of_decide_eq_true (Bool.and_eq_true_iff.mp hre).1
    rw [if_pos hre]
    exact ⟨account_live (resync_live (h.setPktcnt _) hlt) _ _, fun _ => Nat.le_refl _⟩
  · rw [if_neg hre]
    refine ⟨account_live (h.setPktcnt _) _ _, fun hdisc => ?_⟩
    unfold resyncs at hre
    rw [hdisc] at hre
    show s.firstseqnr ≤ seqnr
    simpa using hre

theorem peeked_inv {s : State} {d : Datagram} (h : Live r s) : Inv r (r.peeked s d) := by
  obtain ⟨hlive, hfirst⟩ := heard_live h d.seqnr
  unfold peeked
  by_cases hdisc : r.discards s d.seqnr = true
  · rw [if_pos hdisc]
    exact hlive.setPhase _
  · rw [if_neg hdisc]
    have hleft : ∀ i b, (r.heard s d.seqnr).workbuf[i]? = some (some b) → i < r.readahead := by
      intro i b hb
      rw [← hlive.length]
      exact (List.getElem?_eq_some_iff.mp hb).1
    obtain ⟨hl, hloc⟩ := locate_live d.seqnr_lt r.readahead hlive
      (hfirst (Bool.eq_false_iff.mpr hdisc)) hleft
    split
    · rename_i loc t heq
      rw [heq] at hl hloc
      exact ⟨hl.setPhase _, hloc loc rfl⟩
    · rename_i t heq
      rw [heq] at hl
      exact hl.toCore.dropWindow _

/-! ## The receive -/

/-- A place is written: the block it is in stays in order, and the marks change at
that place only. -/
theorem write_core {s : State} {loc : Nat × Nat} {seqnr : Nat} (h : Live r s)
    (hloc : Located r s seqnr loc) (f : Slot → Slot) (ds : List Datagram) (cut : Option Nat)
    (hwidth : ∀ t, t.data.length = r.sizes.wrSize → (f t).data.length = r.sizes.wrSize)
    (hf : ∀ t, (t.flag = true → Holds r (s.arrivals ++ ds) none seqnr t ∧ s.since ≤ t.arrival) →
      (f t).flag = true → Holds r (s.arrivals ++ ds) cut seqnr (f t) ∧ s.since ≤ (f t).arrival)
    (hmark : ∀ t, slotMarks (f t) = slotMarks t ∨ slotMarks (f t) = [s.arrivals.length]) :
    Core r { s with workbuf := modifySlot s.workbuf loc f, arrivals := s.arrivals ++ ds,
                    cutShort := cut } := by
  obtain ⟨⟨b, hb⟩, hp, hseq⟩ := hloc
  have hwin : ∀ i b, s.workbuf[i]? = some (some b) → s.firstseqnr + i * r.nDgPBlock < 2 ^ 64 ∧
      BlockOk r (s.arrivals ++ ds) none s.since (s.firstseqnr + i * r.nDgPBlock) b := by
    intro i b hb
    obtain ⟨hi, hok⟩ := h.window i b hb
    rw [h.whole] at hok
    exact ⟨hi, hok.append ds⟩
  refine ⟨?_, ?_, h.ordered, ?_⟩
  · intro i c hc
    change (modifySlot s.workbuf loc f)[i]? = some (some c) at hc
    unfold modifySlot at hc
    rw [List.getElem?_modify, Option.map_eq_map, Option.map_eq_some_iff] at hc
    obtain ⟨b', hb', hbc⟩ := hc
    by_cases hi : loc.1 = i
    · subst hi
      rw [if_pos rfl] at hbc
      obtain rfl : some b = b' := Option.some.inj (hb.symm.trans hb')
      obtain rfl := Option.some.inj hbc
      obtain ⟨hlt, hok⟩ := hwin loc.1 b hb
      refine ⟨hlt, hok.modify hwidth (fun q t _ ht => ht.cut cut) fun t ht hft => ?_⟩
      refine hseq ▸ hf t (fun hflag => ?_) hft
      exact hseq.symm ▸ hok.holds loc.2 t ht hflag
    · rw [if_neg hi] at hbc
      subst hbc
      exact ⟨(hwin i c hb').1, (hwin i c hb').2.cut cut⟩
  · intro q hq
    have hok := h.queued q hq
    rw [h.whole] at hok
    exact (hok.append ds).cut cut
  · obtain ⟨t, ht⟩ : ∃ t, b[loc.2]? = some t := by
      have hsize := (hwin loc.1 b hb).2.size
      exact ⟨_, List.getElem?_eq_getElem (by rw [hsize]; exact hp)⟩
    obtain ⟨pre, post, hold, hnew⟩ := modifySlot_marks hb ht f
    have honce := h.once
    have hfresh : ∀ k ∈ marks s, k < s.arrivals.length := fun k hk => h.mark_lt hk
    unfold marks at honce hfresh
    show (queueMarks s.outq ++ windowMarks (modifySlot s.workbuf loc f)).Nodup
    rw [hold] at honce hfresh
    rw [hnew]
    rcases hmark t with hsame | hone
    · rw [hsame]
      exact honce
    · have hsub : (queueMarks s.outq ++ pre ++ post).Sublist
          (queueMarks s.outq ++ (pre ++ (slotMarks t ++ post))) := by
        rw [List.append_assoc]
        exact ((List.sublist_append_right _ _).append_left _).append_left _
      rw [hone, List.singleton_append, ← List.append_assoc, List.nodup_middle, List.nodup_cons]
      refine ⟨fun hmem => ?_, honce.sublist hsub⟩
      exact absurd (hfresh _ (hsub.subset hmem)) (Nat.lt_irrefl _)

theorem received_live {s : State} {d : Datagram} {location : Option (Nat × Nat)} (h : Live r s)
    (hloc : ∀ loc, location = some loc → Located r s d.seqnr loc)
    (hlen : r.sizes.rdSize ≤ d.payload.length) : Live r (r.received s d location) := by
  unfold received
  cases location with
  | none =>
    refine ⟨⟨?_, ?_, h.ordered, h.once⟩, h.length, h.behind, h.first_lt, ?_, h.whole⟩
    · intro i b hb
      exact ⟨(h.window i b hb).1, (h.window i b hb).2.append [d]⟩
    · exact fun q hq => (h.queued q hq).append [d]
    · show s.since ≤ (s.arrivals ++ [d]).length
      rw [List.length_append]
      exact Nat.le_add_right_of_le h.since_le
  | some loc =>
    have hcore := write_core h (hloc loc rfl)
      (fun t => ⟨r.receive t.data d.payload, true, s.arrivals.length⟩) [d] s.cutShort
      (fun t ht => receive_length ht) (fun t _ _ => ?_) (fun t => .inr rfl)
    · refine ⟨⟨hcore.window, hcore.queued, hcore.ordered, hcore.once⟩, ?_, h.behind, h.first_lt, ?_, h.whole⟩
      · show (modifySlot s.workbuf loc _).length = _
        unfold modifySlot
        rw [List.length_modify, h.length]
      · show s.since ≤ (s.arrivals ++ [d]).length
        rw [List.length_append]
        exact Nat.le_add_right_of_le h.since_le
    · refine ⟨⟨d, ?_, rfl, fun _ => receive_take t.data hlen⟩, h.since_le⟩
      show (s.arrivals ++ [d])[s.arrivals.length]? = some d
      simp

/-! ## The flush -/

/-- What the flush looks at: the block at `w[i]` is for the numbers from
`start + i * n` on, which have not wrapped if there is a block. -/
structure Flushable (r : Reader) (s : State) (cut : Option Nat) (start : Nat)
    (w : List (Option Block)) (q : List Pushed) : Prop where
  window : ∀ i b, w[i]? = some (some b) → start + i * r.nDgPBlock < 2 ^ 64 ∧
    BlockOk r s.arrivals cut 0 (start + i * r.nDgPBlock) b
  queued : ∀ x ∈ q, BlockOk r s.arrivals cut 0 x.seqnstart x.slots
  ordered : q.Pairwise (Before r.nDgPBlock)
  behind : ∀ x ∈ q, x.epoch < s.epoch ∨ x.epoch = s.epoch ∧ x.seqnstart + r.nDgPBlock ≤ start

theorem Flushable.next {s : State} {cut : Option Nat} {start : Nat} {b : Option Block}
    {w : List (Option Block)} {q : List Pushed} (h : Flushable r s cut start (b :: w) q) :
    Flushable r s cut (start + r.nDgPBlock) w q where
  window i c hc := by
    have hwin := h.window (i + 1) c hc
    rw [Nat.succ_mul, Nat.add_comm (i * r.nDgPBlock), ← Nat.add_assoc] at hwin
    exact hwin
  queued := h.queued
  ordered := h.ordered
  behind x hx := by
    rcases h.behind x hx with he | ⟨he, hle⟩
    · exact .inl he
    · exact .inr ⟨he, Nat.le_add_right_of_le hle⟩

theorem Flushable.push {s : State} {cut : Option Nat} {start : Nat} {b : Block}
    {w : List (Option Block)} {q : List Pushed} (h : Flushable r s cut start (some b :: w) q)
    (sz : Nat) :
    Flushable r s cut (start + r.nDgPBlock) w (q ++ [⟨b, sz, start, s.epoch⟩]) where
  window := h.next.window
  queued x hx := by
    rcases List.mem_append.mp hx with hx | hx
    · exact h.queued x hx
    · obtain rfl := List.mem_singleton.mp hx
      have hwin := h.window 0 b rfl
      rw [Nat.zero_mul, Nat.add_zero] at hwin
      exact hwin.2
  ordered := by
    refine ordered_append h.ordered (by simp) h.behind fun x hx => ?_
    obtain rfl := List.mem_singleton.mp hx
    exact ⟨rfl, Nat.le_refl _⟩
  behind x hx := by
    rcases List.mem_append.mp hx with hx | hx
    · exact h.next.behind x hx
    · obtain rfl := List.mem_singleton.mp hx
      exact .inr ⟨rfl, Nat.le_refl _⟩

theorem flush_spec {s : State} {cut : Option Nat} (maxseq : Nat) {w : List (Option Block)}
    {start : Nat} {q : List Pushed} (h : Flushable r s cut start w q) :
    (∀ x ∈ (r.flush maxseq s.epoch (start % 2 ^ 64) w q).2,
      BlockOk r s.arrivals cut 0 x.seqnstart x.slots) ∧
    (r.flush maxseq s.epoch (start % 2 ^ 64) w q).2.Pairwise (Before r.nDgPBlock) ∧
    (queueMarks (r.flush maxseq s.epoch (start % 2 ^ 64) w q).2).Sublist
      (queueMarks q ++ windowMarks w) := by
  induction w generalizing start q with
  | nil => exact ⟨h.queued, h.ordered, List.sublist_append_left _ _⟩
  | cons b w ih =>
    have hstop : (∀ x ∈ q, BlockOk r s.arrivals cut 0 x.seqnstart x.slots) ∧
        q.Pairwise (Before r.nDgPBlock) ∧
        (queueMarks q).Sublist (queueMarks q ++ windowMarks (b :: w)) :=
      ⟨h.queued, h.ordered, List.sublist_append_left _ _⟩
    unfold flush
    dsimp only
    rw [Nat.mod_add_mod]
    split
    · split
      · cases b with
        | none =>
          dsimp only
          split
          · exact hstop
          · split
            · obtain ⟨hok, hord, hsub⟩ := ih h.next
              refine ⟨hok, hord, hsub.trans ((List.sublist_append_right _ _).append_left _)⟩
            · exact hstop
        | some b =>
          dsimp only
          have hlt := (h.window 0 b rfl).1
          rw [Nat.zero_mul, Nat.add_zero] at hlt
          split
          · rw [Nat.mod_eq_of_lt hlt]
            obtain ⟨hok, hord, hsub⟩ := ih (h.push _)
            refine ⟨hok, hord, hsub.trans ?_⟩
            simp [queueMarks, windowMarks]
          · exact hstop
      · obtain ⟨hok, hord, hsub⟩ := ih h.next
        refine ⟨hok, hord, hsub.trans ((List.sublist_append_right _ _).append_left _)⟩
    · exact hstop

theorem leave_core {s : State} (h : Core r s) (hfirst : s.firstseqnr < 2 ^ 64)
    (hbehind : ∀ q ∈ s.outq, q.epoch < s.epoch ∨
      q.epoch = s.epoch ∧ q.seqnstart + r.nDgPBlock ≤ s.firstseqnr) (errno : Nat) :
    Core r (r.leave s errno) := by
  have hflush : Flushable r s s.cutShort s.firstseqnr s.workbuf s.outq :=
    ⟨fun i b hb => ⟨(h.window i b hb).1, (h.window i b hb).2.forget⟩, h.queued, h.ordered, hbehind⟩
  obtain ⟨hok, hord, hsub⟩ := flush_spec s.maxseq hflush
  rw [Nat.mod_eq_of_lt hfirst] at hok hord hsub
  unfold leave
  refine ⟨?_, hok, hord, ?_⟩
  · intro i b hb
    change ([] : List (Option Block))[i]? = _ at hb
    rw [List.getElem?_nil] at hb
    cases hb
  · show (queueMarks _ ++ windowMarks []).Nodup
    rw [windowMarks, List.flatMap_nil, List.append_nil]
    exact h.once.sublist hsub

theorem Live.leave {s : State} (h : Live r s) (errno : Nat) : Core r (r.leave s errno) :=
  leave_core h.toCore h.first_lt h.behind errno

/-- The data of a place may be spoilt by a datagram that is cut short. -/
theorem cutShort_core {s : State} {d : Datagram} {loc : Nat × Nat} (h : Live r s)
    (hloc : Located r s d.seqnr loc) :
    Core r { s with
      workbuf := modifySlot s.workbuf loc fun t => { t with data := r.receive t.data d.payload }
      cutShort := some d.seqnr } := by
  have hcore := write_core h hloc
    (fun t => { t with data := r.receive t.data d.payload }) [] (some d.seqnr)
    (fun t ht => receive_length ht) (fun t ht hft => ?_) (fun t => .inl rfl)
  · simpa only [List.append_nil] using hcore
  · obtain ⟨⟨e, he, hn, -⟩, hs⟩ := ht hft
    exact ⟨⟨e, he, hn, fun hne => absurd rfl hne⟩, hs⟩

theorem receivedShort_core {s : State} {d : Datagram} {location : Option (Nat × Nat)}
    (h : Live r s) (hloc : ∀ loc, location = some loc → Located r s d.seqnr loc) (errno : Nat) :
    Core r (r.receivedShort s d location errno) := by
  unfold receivedShort
  cases location with
  | none => exact h.leave errno
  | some loc => exact leave_core (cutShort_core h (hloc loc rfl)) h.first_lt h.behind errno

/-! ## Runs -/

theorem start_inv : Inv r r.start := by
  have hnone : ∀ (i : Nat) b, r.start.workbuf[i]? ≠ some (some b) := by
    intro i b hb
    have hmem := List.mem_of_getElem? hb
    simp [start] at hmem
  refine ⟨⟨⟨fun i b hb => absurd hb (hnone i b), by simp [start], by simp [start], ?_⟩,
    List.length_replicate, by simp [start], by simp [start], Nat.le_refl _, rfl⟩, rfl, hnone⟩
  show (windowMarks (List.replicate r.readahead none)).Nodup
  have hnil : windowMarks (List.replicate r.readahead none) = [] := by
    unfold windowMarks
    rw [List.flatMap_eq_nil_iff]
    intro b hb
    rw [List.eq_of_mem_replicate hb]
    rfl
  rw [hnil]
  exact List.nodup_nil

theorem Inv.read {s : State} {d : Datagram} {location : Option (Nat × Nat)} (h : Inv r s)
    (hphase : s.phase = .read d location) :
    Live r s ∧ ∀ loc, location = some loc → Located r s d.seqnr loc := by
  unfold Inv at h
  rw [hphase] at h
  cases location with
  | none => exact ⟨h, fun loc hl => by cases hl⟩
  | some loc => exact ⟨h.1, fun loc' hl => by obtain rfl := Option.some.inj hl; exact h.2⟩

/-- The first datagram says where the work buffer begins. -/
theorem first_live {s : State} {d : Datagram} (h : Inv r s) (hphase : s.phase = .first) :
    Live r { s with firstseqnr := d.seqnr, maxseq := d.seqnr, minseq := d.seqnr } := by
  unfold Inv at h
  rw [hphase] at h
  obtain ⟨hlive, hzero, hnone⟩ := h
  have hj := jump_live hlive hnone (hzero ▸ Nat.zero_le d.seqnr) d.seqnr_lt
  exact ⟨⟨hj.window, hj.queued, hj.ordered, hj.once⟩, hj.length, hj.behind, hj.first_lt,
    hj.since_le, hj.whole⟩

theorem step_inv {s t : State} {e : Event} (h : Inv r s) (hs : r.step s e = some t) : Inv r t := by
  unfold step at hs
  split at hs
  case h_1 d hphase =>
    obtain rfl := Option.some.inj hs
    exact peeked_inv (first_live h hphase)
  case h_2 hphase =>
    obtain rfl := Option.some.inj hs
    exact h.core.dropWindow _
  case h_3 d hphase =>
    obtain rfl := Option.some.inj hs
    unfold Inv at h
    rw [hphase] at h
    exact peeked_inv h
  case h_4 errno hphase =>
    obtain rfl := Option.some.inj hs
    unfold Inv at h
    rw [hphase] at h
    exact Live.leave h errno
  case h_5 d loc errno hphase =>
    obtain ⟨hlive, hloc⟩ := h.read hphase
    split at hs
    · rename_i hlen
      obtain rfl := Option.some.inj hs
      exact received_live hlive hloc hlen
    · obtain rfl := Option.some.inj hs
      exact receivedShort_core hlive hloc errno
  case h_6 errno hphase =>
    obtain rfl := Option.some.inj hs
    exact (h.read hphase).1.leave errno
  case h_7 => cases hs

theorem reachable_inv {s : State} (h : r.machine.Reachable s) : Inv r s := by
  refine h.invariant (Inv r) ?_ fun _ _ _ => step_inv
  intro s hs
  change s = r.start at hs
  rw [hs]
  exact start_inv

/-! ## What the top half passes on -/

theorem fpblock_length (size : Nat) : (r.fpblock size).length = size := by
  unfold fpblock
  split
  · have hv : r.invalidVdif.length = 16 := by simp [invalidVdif]
    rw [List.length_take, List.length_append, hv, List.length_drop, List.length_map,
      List.length_range]
    omega
  · rw [List.length_map, List.length_range]

theorem finish_length {t : Slot} {size nzeroes : Nat} (h : size ≤ t.data.length) :
    (r.finish size nzeroes t).length = size + nzeroes := by
  unfold finish
  rw [List.length_append, List.length_replicate]
  split
  · rw [List.length_take, Nat.min_eq_left h]
  · rw [fpblock_length]

/-- Either top half does the same: with nothing to append the sizes are equal. -/
theorem topHalf_eq : r.topHalf = r.udpsreaderThZeroeing := by
  unfold topHalf udpsreaderThNonzeroeing udpsreaderThZeroeing
  split
  · rename_i heq
    rw [heq, Nat.sub_self]
  · rfl

theorem slice_topHalf {q : Pushed} {got : List Datagram} {cut : Option Nat} {since start p : Nat}
    {t : Slot} (h : BlockOk r got cut since start q.slots) (ht : q.slots[p]? = some t)
    (hlen : (p + 1) * r.sizes.wrSize ≤ q.iovLen) :
    slice (r.topHalf q) (p * r.sizes.wrSize) r.sizes.wrSize =
      r.finish r.sizes.rdSize (r.sizes.wrSize - r.sizes.rdSize) t := by
  have hle := r.sizes.rd_le
  have hparts : ∀ u ∈ q.slots,
      (r.finish r.sizes.rdSize (r.sizes.wrSize - r.sizes.rdSize) u).length = r.sizes.wrSize := by
    intro u hu
    rw [finish_length (by rw [h.width u hu]; exact hle)]
    omega
  have hblock : (p + 1) * r.sizes.wrSize ≤ r.sizes.blocksize := by
    rw [← nDgPBlock_mul, ← h.size]
    exact Nat.mul_le_mul_right _ (List.getElem?_eq_some_iff.mp ht).1
  rw [topHalf_eq, udpsreaderThZeroeing, udpsreaderTh, slice, List.drop_take, List.take_take,
    Nat.min_eq_left]
  · exact slice_flatMap hparts ht
  · rw [Nat.succ_mul] at hblock hlen
    omega

/-! ## The invariant of a run -/

structure Placed (r : Reader) (s : State) : Prop where
  /-- A flag in the work buffer stands for a datagram of that place, received since
  the last resync. -/
  window : ∀ b p blk t, s.workbuf[b]? = some (some blk) → blk[p]? = some t → t.flag = true →
    Holds r s.arrivals s.cutShort (s.firstseqnr + b * r.nDgPBlock + p) t ∧ s.since ≤ t.arrival
  pushed : ∀ q ∈ s.outq, ∀ p t, q.slots[p]? = some t → t.flag = true →
    Holds r s.arrivals s.cutShort (q.seqnstart + p) t
  /-- What the top half reports as data is that of the datagram. -/
  received : ∀ q ∈ s.outq, ∀ p t, q.slots[p]? = some t → t.flag = true →
    (p + 1) * r.sizes.wrSize ≤ q.iovLen → s.cutShort ≠ some (q.seqnstart + p) →
    ∃ d, s.arrivals[t.arrival]? = some d ∧ d.seqnr = q.seqnstart + p ∧
      slice (r.topHalf q) (p * r.sizes.wrSize) r.sizes.wrSize =
        d.payload.take r.sizes.rdSize ++ List.replicate (r.sizes.wrSize - r.sizes.rdSize) 0
  missing : ∀ q ∈ s.outq, ∀ p t, q.slots[p]? = some t → t.flag = false →
    (p + 1) * r.sizes.wrSize ≤ q.iovLen →
    slice (r.topHalf q) (p * r.sizes.wrSize) r.sizes.wrSize =
      r.fpblock r.sizes.rdSize ++ List.replicate (r.sizes.wrSize - r.sizes.rdSize) 0
  ordered : s.outq.Pairwise (Before r.nDgPBlock)
  /-- No datagram stands behind two flags, in the queue and the work buffer together. -/
  once : (marks s).Nodup

theorem Core.placed {s : State} (h : Core r s) : Placed r s where
  window b p blk t hb ht hf := (h.window b blk hb).2.holds p t ht hf
  pushed q hq p t ht hf := ((h.queued q hq).holds p t ht hf).1
  received q hq p t ht hf hlen hcut := by
    obtain ⟨d, hd, hn, hdata⟩ := ((h.queued q hq).holds p t ht hf).1
    refine ⟨d, hd, hn, ?_⟩
    rw [slice_topHalf (h.queued q hq) ht hlen, finish, if_pos hf, hdata hcut]
  missing q hq p t ht hf hlen := by
    rw [slice_topHalf (h.queued q hq) ht hlen, finish, if_neg (by rw [hf]; decide)]
  ordered := h.ordered
  once := h.once

/-- Flags, data and order are right in every state, whatever arrives. -/
theorem datagrams_placed (r : Reader) (s : State) (h : r.machine.Reachable s) : Placed r s :=
  (reachable_inv h).core.placed

theorem eight_le : 8 ≤ 8 := Nat.le_refl 8
theorem eight_pos : 0 < 8 := by decide

/-- Two blocks of one datagram of 8 bytes. -/
def twoBlocks : Reader where
  sizes := ⟨8, 8, 8, eight_le, eight_pos, eight_pos, by decide⟩
  nblock := 2
  allowVariableBlockSize := true
  isVdif := false
  memory _ _ := List.replicate 8 0
  accepts _ := true
  heap _ := 0
  blocksize_lt := by decide
  nblock_pos := by decide
  nblock_lt := by decide
  memory_length _ _ := rfl

def numbered (seqnr : Fin 1000) : Datagram :=
  ⟨seqnr, List.replicate 8 (UInt8.ofNat seqnr), by omega⟩

/-- Peek and receive, one after the other. -/
def arrive (seqnrs : List (Fin 1000)) : List Event :=
  seqnrs.flatMap fun n => [.peeks (numbered n), .reads 0]

def twoBlocksRun (events : List Event) : Option State :=
  events.foldlM twoBlocks.step twoBlocks.start

theorem twoBlocksRun_reachable {events : List Event} {s : State}
    (h : twoBlocksRun events = some s) : twoBlocks.machine.Reachable s :=
  ⟨twoBlocks.start, events, rfl, ofFn_run h⟩

def restart : List Event := arrive [101, 103, 7, 9] ++ [.peekFails EINTR]

/-- A sender that begins again: 103 is thrown away, and 8 never came. -/
theorem datagrams_placed_restart : ∃ s, Placed twoBlocks s ∧
    s.outq.map (fun q => (q.seqnstart, q.epoch, twoBlocks.topHalf q)) =
      [(101, 0, List.replicate 8 101), (7, 1, List.replicate 8 7),
        (8, 1, (List.range 8).map fillpat), (9, 1, List.replicate 8 9)] := by
  have hrun : (twoBlocksRun restart).map
      (fun s => s.outq.map fun q => (q.seqnstart, q.epoch, twoBlocks.topHalf q)) =
      some [(101, 0, List.replicate 8 101), (7, 1, List.replicate 8 7),
        (8, 1, (List.range 8).map fillpat), (9, 1, List.replicate 8 9)] := by
    decide +kernel
  obtain ⟨s, hs, hout⟩ := Option.map_eq_some_iff.mp hrun
  exact ⟨s, datagrams_placed twoBlocks s (twoBlocksRun_reachable hs), hout⟩

/-- Over a resync the numbers of the blocks go back. -/
theorem resync_goes_back : ¬ ∀ (r : Reader) (s : State), r.machine.Reachable s →
    s.outq.Pairwise fun a b => a.seqnstart < b.seqnstart := by
  intro hall
  have hrun : (twoBlocksRun restart).map (fun s => s.outq.map Pushed.seqnstart) =
      some [101, 7, 8, 9] := by
    decide +kernel
  obtain ⟨s, hs, hout⟩ := Option.map_eq_some_iff.mp hrun
  have hinc := hall twoBlocks s (twoBlocksRun_reachable hs)
  have hmap : (s.outq.map Pushed.seqnstart).Pairwise (· < ·) := List.pairwise_map.mpr hinc
  rw [hout] at hmap
  exact absurd hmap (by decide)

end Jive5ab.Net.Udps
