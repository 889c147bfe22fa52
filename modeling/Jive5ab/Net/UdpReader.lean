import Jive5ab.Lib.Slice
import Jive5ab.Net.DatastreamReader

/-! # Plain UDP

`udpreader` puts datagram behind datagram in a block, each in a place of the read size. The first
one is received before the loop. Acknowledgements and counters are left out, and the queue behind
the reader is never disabled. -/
namespace Jive5ab.Net.Udp
open Lib

/-- What a receive meets. A datagram can be too short, and what is too long is cut. -/
inductive Recv
  | datagram (bytes : List UInt8)
  | fails

/-- What the reader is started with. The `k`-th block of the pool comes with `memory k` in it. -/
structure Reader where
  sizes : Sizes
  allowVariableBlockSize : Bool
  memory : Nat → List UInt8
  memory_length : ∀ k, (memory k).length = sizes.blocksize

/-- `location` is how far it is into the block. -/
structure State where
  b : List UInt8
  location : Nat
  npool : Nat
  outq : List (List UInt8)

namespace Reader

variable (r : Reader)

/-- `recvmsg` with `MSG_WAITALL`: the bytes that were put at the location, if they are enough. -/
def whole : Recv → Option (List UInt8)
  | .datagram bytes => if r.sizes.rdSize ≤ bytes.length then some (bytes.take r.sizes.rdSize) else none
  | .fails => none

def nzeroes : Nat := r.sizes.wrSize - r.sizes.rdSize

/-- A block that is full is passed on before the next receive. -/
def pushFull (s : State) : State :=
  if r.sizes.blocksize ≤ s.location then
    { b := r.memory s.npool, location := 0, npool := s.npool + 1, outq := s.outq ++ [s.b] }
  else s

/-- The datagram is in; the zeroes come behind it. -/
def advance (s : State) (bytes : List UInt8) : State :=
  let b := overwrite s.b s.location bytes
  { s with
    b := overwrite b (s.location + r.sizes.rdSize) (List.replicate r.nzeroes 0)
    location := s.location + r.sizes.wrSize }

/-- The receive has failed: the part that was filled. -/
def leave (s : State) : State :=
  if 0 < s.location && r.allowVariableBlockSize then
    { s with outq := s.outq ++ [s.b.take s.location] }
  else s

/-- At the end of the list the loop waits for the next datagram. -/
def loop (s : State) : List Recv → State
  | [] => r.pushFull s
  | d :: ds =>
    let s := r.pushFull s
    match r.whole d with
    | none => r.leave s
    | some bytes => loop (r.advance s bytes) ds

def start : State := ⟨r.memory 0, 0, 1, []⟩

/-- The blocks that go down the queue. -/
def udpreader : List Recv → List (List UInt8)
  | [] => []
  | d :: ds =>
    match r.whole d with
    | none => []
    | some bytes =>
      (r.loop { r.start with b := overwrite r.start.b 0 bytes, location := r.sizes.wrSize } ds).outq

/-! ## What is expected -/

/-- The datagrams that came in whole, before the first that did not. -/
def received : List Recv → List (List UInt8)
  | [] => []
  | d :: ds =>
    match r.whole d with
    | none => []
    | some bytes => bytes :: received ds

/-- A receive has failed. -/
def ended : List Recv → Bool
  | [] => false
  | d :: ds => (r.whole d).isNone || ended ds

def slot (bytes : List UInt8) : List UInt8 := bytes ++ List.replicate r.nzeroes 0

def slotsPerBlock : Nat := r.sizes.blocksize / r.sizes.wrSize

/-- The places that fill no block. -/
def trailing (slots : List (List UInt8)) : List (List UInt8) :=
  slots.drop (slots.length / r.slotsPerBlock * r.slotsPerBlock)

/-- The places, in blocks; those that are left over are passed on when the reader is left, if a
block may be shorter. -/
def layout (slots : List (List UInt8)) (ended : Bool) : List (List UInt8) :=
  (pieces r.slotsPerBlock slots).map List.flatten ++
    if ended && r.allowVariableBlockSize && !(r.trailing slots).isEmpty then
      [(r.trailing slots).flatten] else []

/-- All places that are passed on are right. -/
def SlotsRight (input : List Recv) : Prop :=
  r.udpreader input = r.layout ((r.received input).map r.slot) (r.ended input)

/-! ## The loop -/

variable {r}

theorem slotsPerBlock_mul (r : Reader) : r.slotsPerBlock * r.sizes.wrSize = r.sizes.blocksize :=
  Nat.div_mul_cancel r.sizes.block_dvd

theorem slotsPerBlock_pos (r : Reader) : 0 < r.slotsPerBlock :=
  Nat.div_pos (Nat.le_of_dvd r.sizes.block_pos r.sizes.block_dvd) r.sizes.wr_pos

theorem whole_length {d : Recv} {bytes : List UInt8} (h : r.whole d = some bytes) :
    bytes.length = r.sizes.rdSize := by
  unfold whole at h
  split at h
  · split at h
    · rename_i hle
      cases h
      exact List.length_take_of_le hle
    · cases h
  · cases h

theorem length_slot {bytes : List UInt8} (h : bytes.length = r.sizes.rdSize) :
    (r.slot bytes).length = r.sizes.wrSize := by
  have hle := r.sizes.rd_le
  rw [slot, List.length_append, List.length_replicate, nzeroes, h]
  omega

theorem length_flatten_slots {slots : List (List UInt8)}
    (h : ∀ c ∈ slots, c.length = r.sizes.wrSize) :
    slots.flatten.length = slots.length * r.sizes.wrSize := by
  induction slots with
  | nil => simp
  | cons c slots ih =>
    rw [List.forall_mem_cons] at h
    rw [List.flatten_cons, List.length_append, h.1, ih h.2, List.length_cons, Nat.succ_mul,
      Nat.add_comm]

theorem layout_full {cur : List (List UInt8)} (h : cur.length = r.slotsPerBlock)
    (slots : List (List UInt8)) (ended : Bool) :
    r.layout (cur ++ slots) ended = cur.flatten :: r.layout slots ended := by
  have htrailing : r.trailing (cur ++ slots) = r.trailing slots := by
    have hdiv : (cur ++ slots).length / r.slotsPerBlock * r.slotsPerBlock =
        cur.length + slots.length / r.slotsPerBlock * r.slotsPerBlock := by
      rw [List.length_append, h, Nat.add_div_left _ (slotsPerBlock_pos r), Nat.succ_mul, Nat.add_comm]
    unfold trailing
    rw [hdiv, List.drop_length_add_append]
  unfold layout
  rw [pieces_piece_append (slotsPerBlock_pos r) h, htrailing]
  rfl

theorem layout_short {cur : List (List UInt8)} (h : cur.length < r.slotsPerBlock) (ended : Bool) :
    r.layout cur ended =
      if ended && r.allowVariableBlockSize && !cur.isEmpty then [cur.flatten] else [] := by
  have hdiv : cur.length / r.slotsPerBlock = 0 := Nat.div_eq_of_lt h
  have htrailing : r.trailing cur = cur := by
    unfold trailing
    rw [hdiv, Nat.zero_mul, List.drop_zero]
  unfold layout
  rw [htrailing, pieces, hdiv]
  rfl

variable (r) in
/-- The places that have been filled, in the block that is being filled. -/
structure Fills (s : State) (cur : List (List UInt8)) : Prop where
  slots : ∀ c ∈ cur, c.length = r.sizes.wrSize
  le : cur.length ≤ r.slotsPerBlock
  location : s.location = cur.length * r.sizes.wrSize
  length : s.b.length = r.sizes.blocksize
  data : s.b.take s.location = cur.flatten

theorem Fills.full_iff {s : State} {cur : List (List UInt8)} (h : r.Fills s cur) :
    r.sizes.blocksize ≤ s.location ↔ cur.length = r.slotsPerBlock := by
  rw [h.location, ← slotsPerBlock_mul r, Nat.mul_le_mul_right_iff r.sizes.wr_pos]
  have hle := h.le
  omega

theorem Fills.pushFull {s : State} {cur : List (List UInt8)} (h : r.Fills s cur) :
    ∃ cur', r.Fills (r.pushFull s) cur' ∧ cur'.length < r.slotsPerBlock ∧
      ∀ slots ended, s.outq ++ r.layout (cur ++ slots) ended =
        (r.pushFull s).outq ++ r.layout (cur' ++ slots) ended := by
  unfold Reader.pushFull
  split
  · rename_i hfull
    have hlen := h.full_iff.mp hfull
    have hb : s.b = cur.flatten := by
      have hloc : s.b.length ≤ s.location := h.length ▸ hfull
      rw [← h.data, List.take_of_length_le hloc]
    refine ⟨[], ⟨by simp, Nat.zero_le _, by simp, r.memory_length _, rfl⟩, slotsPerBlock_pos r, ?_⟩
    intro slots ended
    dsimp only
    rw [layout_full hlen, List.append_assoc, hb]
    rfl
  · rename_i hpart
    refine ⟨cur, h, ?_, fun _ _ => rfl⟩
    rw [h.full_iff] at hpart
    have hle := h.le
    omega

theorem Fills.advance {s : State} {cur : List (List UInt8)} (h : r.Fills s cur)
    (hlt : cur.length < r.slotsPerBlock) {bytes : List UInt8}
    (hbytes : bytes.length = r.sizes.rdSize) :
    r.Fills (r.advance s bytes) (cur ++ [r.slot bytes]) := by
  have hrd := r.sizes.rd_le
  have hfit : s.location + r.sizes.wrSize ≤ s.b.length := by
    rw [h.length, h.location, ← slotsPerBlock_mul r, ← Nat.succ_mul]
    exact Nat.mul_le_mul_right _ hlt
  have hflat : cur.flatten.length = s.location := by rw [length_flatten_slots h.slots, h.location]
  have hsplit : s.b = cur.flatten ++ s.b.drop s.location := by rw [← h.data, List.take_append_drop]
  have hfirst : overwrite s.b s.location bytes =
      (cur.flatten ++ bytes) ++ (s.b.drop s.location).drop bytes.length := by
    rw [hsplit, ← hflat, overwrite_append, List.drop_left]
  have hsecond : (r.advance s bytes).b = cur.flatten ++ bytes ++ List.replicate r.nzeroes 0 ++
      ((s.b.drop s.location).drop bytes.length).drop r.nzeroes := by
    have hpos : s.location + r.sizes.rdSize = (cur.flatten ++ bytes).length := by
      rw [List.length_append, hflat, hbytes]
    unfold Reader.advance
    dsimp only
    rw [hfirst, hpos, overwrite_append, List.length_replicate]
  refine ⟨?_, ?_, ?_, ?_, ?_⟩
  · intro c hc
    obtain hc | hc := List.mem_append.mp hc
    · exact h.slots c hc
    · rw [List.mem_singleton.mp hc, length_slot hbytes]
  · rw [List.length_append, List.length_singleton]
    exact hlt
  · rw [List.length_append, List.length_singleton, Nat.succ_mul, ← h.location]
    rfl
  · rw [hsecond, ← h.length]
    simp only [List.length_append, List.length_drop, List.length_replicate, hflat, hbytes, nzeroes]
    omega
  · have hlen : (r.advance s bytes).location = (cur.flatten ++ r.slot bytes).length := by
      rw [List.length_append, hflat, length_slot hbytes]
      rfl
    rw [hsecond, hlen, slot, ← List.append_assoc, List.take_left, List.flatten_append]
    simp

theorem Fills.leave {s : State} {cur : List (List UInt8)} (h : r.Fills s cur)
    (hlt : cur.length < r.slotsPerBlock) :
    (r.leave s).outq = s.outq ++ r.layout cur true := by
  have hpos : decide (0 < s.location) = !cur.isEmpty := by
    rw [h.location]
    cases cur with
    | nil => simp
    | cons c cur => simpa using r.sizes.wr_pos
  unfold Reader.leave
  rw [layout_short hlt, hpos, Bool.true_and, Bool.and_comm]
  split
  · rw [h.data]
  · rw [List.append_nil]

/-- What the loop passes on, from the places that are filled already. -/
theorem loop_outq {s : State} {cur : List (List UInt8)} (h : r.Fills s cur) (input : List Recv) :
    (r.loop s input).outq =
      s.outq ++ r.layout (cur ++ (r.received input).map r.slot) (r.ended input) := by
  induction input generalizing s cur with
  | nil =>
    obtain ⟨cur', -, hlt, houtq⟩ := h.pushFull
    rw [loop, received, ended, List.map_nil, houtq, List.append_nil, layout_short hlt]
    simp
  | cons d ds ih =>
    obtain ⟨cur', hfills, hlt, houtq⟩ := h.pushFull
    rw [loop, received, ended]
    cases hd : r.whole d with
    | none =>
      rw [houtq, List.map_nil, List.append_nil]
      exact hfills.leave hlt
    | some bytes =>
      dsimp only
      rw [ih (hfills.advance hlt (whole_length hd)), houtq, List.map_cons, Option.isNone_some,
        Bool.false_or, List.append_assoc, List.singleton_append]
      rfl

/-! ## The first datagram -/

variable (r) in
/-- What the pool's memory has behind the first datagram. -/
def staleTail : List UInt8 := slice (r.memory 0) r.sizes.rdSize r.nzeroes

theorem length_staleTail : r.staleTail.length = r.nzeroes := by
  have hle := Nat.le_of_dvd r.sizes.block_pos r.sizes.block_dvd
  rw [staleTail, length_slice, r.memory_length, nzeroes]
  omega

theorem fills_first {bytes : List UInt8} (h : bytes.length = r.sizes.rdSize) :
    r.Fills { r.start with b := overwrite r.start.b 0 bytes, location := r.sizes.wrSize }
      [bytes ++ r.staleTail] := by
  have hrd := r.sizes.rd_le
  have hle := Nat.le_of_dvd r.sizes.block_pos r.sizes.block_dvd
  have hlen := r.memory_length 0
  have hfirst : overwrite r.start.b 0 bytes = bytes ++ (r.memory 0).drop bytes.length := by
    simp [overwrite, start]
  refine ⟨?_, slotsPerBlock_pos r, by simp, ?_, ?_⟩
  · intro c hc
    rw [List.mem_singleton.mp hc, List.length_append, length_staleTail, h, nzeroes]
    omega
  · dsimp only
    rw [hfirst, List.length_append, List.length_drop, hlen, h]
    omega
  · dsimp only
    rw [hfirst, List.take_append, h, List.take_of_length_le (by rw [h]; exact hrd)]
    simp [staleTail, slice, nzeroes]

/-- The places as they are: only that of the first datagram has no zeroes of its own. -/
theorem udpreader_cons {d : Recv} {bytes : List UInt8} (hd : r.whole d = some bytes)
    (ds : List Recv) :
    r.udpreader (d :: ds) =
      r.layout ((bytes ++ r.staleTail) :: (r.received ds).map r.slot) (r.ended ds) := by
  rw [udpreader, hd]
  dsimp only
  rw [loop_outq (fills_first (whole_length hd))]
  rfl

theorem append_flatten_inj {a b : List UInt8} {slots : List (List UInt8)}
    (h : (a :: slots).flatten = (b :: slots).flatten) : a = b := by
  rw [List.flatten_cons, List.flatten_cons] at h
  exact List.append_cancel_right h

/-- Once a block is passed on its first place is seen. -/
theorem layout_inj {a b : List UInt8} {slots : List (List UInt8)} {ended : Bool}
    (h : r.layout (a :: slots) ended = r.layout (b :: slots) ended) :
    (slots.length + 1 < r.slotsPerBlock ∧ (ended && r.allowVariableBlockSize) = false) ∨ a = b := by
  have hpos := slotsPerBlock_pos r
  rcases Nat.lt_or_ge (slots.length + 1) r.slotsPerBlock with hlt | hge
  · have hshort (c : List UInt8) : (c :: slots).length < r.slotsPerBlock := hlt
    rw [layout_short (hshort a), layout_short (hshort b)] at h
    cases hpush : ended && r.allowVariableBlockSize with
    | false => exact .inl ⟨hlt, rfl⟩
    | true =>
      rw [hpush] at h
      exact .inr (append_flatten_inj (List.singleton_inj.mp h))
  · obtain ⟨n, hn⟩ : ∃ n, r.slotsPerBlock = n + 1 := ⟨r.slotsPerBlock - 1, by omega⟩
    have hcut (c : List UInt8) : (c :: slots.take n).length = r.slotsPerBlock := by
      rw [List.length_cons, List.length_take, hn]
      omega
    have hsplit (c : List UInt8) : c :: slots = (c :: slots.take n) ++ slots.drop n := by
      rw [List.cons_append, List.take_append_drop]
    rw [hsplit a, hsplit b, layout_full (hcut a), layout_full (hcut b)] at h
    exact .inr (append_flatten_inj (List.cons.inj h).1)

variable (r) in
/-- Nothing is passed on with the place of the first datagram, or the memory behind that datagram
is zero as it comes from the pool (there is none if nothing was compressed). -/
def FirstRight (input : List Recv) : Prop :=
  r.received input = [] ∨
    ((r.received input).length < r.slotsPerBlock ∧
      (r.ended input && r.allowVariableBlockSize) = false) ∨
    r.staleTail = List.replicate r.nzeroes 0

theorem slotsRight_iff (r : Reader) (input : List Recv) :
    r.SlotsRight input ↔ r.FirstRight input := by
  unfold SlotsRight FirstRight
  cases input with
  | nil => simp [udpreader, received, layout, trailing, pieces]
  | cons d ds =>
    rw [received, ended]
    cases hd : r.whole d with
    | none => simp [udpreader, hd, layout, trailing, pieces]
    | some bytes =>
      dsimp only
      rw [udpreader_cons hd, List.map_cons, Option.isNone_some, Bool.false_or, List.length_cons]
      constructor
      · intro h
        rcases layout_inj h with hnone | heq
        · rw [List.length_map] at hnone
          exact .inr (.inl hnone)
        · exact .inr (.inr (List.append_cancel_left heq))
      · rintro (hnil | ⟨hlt, hpush⟩ | hzero)
        · cases hnil
        · have hshort (c : List UInt8) :
              (c :: (r.received ds).map r.slot).length < r.slotsPerBlock := by
            rwa [List.length_cons, List.length_map]
          rw [layout_short (hshort _), layout_short (hshort _), hpush]
          rfl
        · rw [hzero]
          rfl

end Reader

/-! ## A stale place -/

/-- Two bytes of every four are sent, two places in a block, and the pool's memory is all ones. -/
def compressedReader : Reader where
  sizes := ⟨2, 4, 8, by decide, by decide, by decide, by decide⟩
  allowVariableBlockSize := false
  memory _ := List.replicate 8 255
  memory_length _ := rfl

theorem first_place_stale :
    compressedReader.udpreader [.datagram [1, 2], .datagram [3, 4]] =
        [[1, 2, 255, 255, 3, 4, 0, 0]] ∧
      ¬compressedReader.SlotsRight [.datagram [1, 2], .datagram [3, 4]] := by
  unfold Reader.SlotsRight
  decide

end Jive5ab.Net.Udp
