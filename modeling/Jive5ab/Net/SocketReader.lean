import Jive5ab.Constraints.Soundness
import Jive5ab.Lib.Slice

/-! # Connections

`socketreader` and `udtreader` fill blocks from a connection until it ends. Counters and statistics
are left out, and the queue behind the reader is never disabled. -/
namespace Jive5ab.Net.Connection
open Lib Constraints

/-! ## The two connections -/

inductive Hangup
  | closed
  | failed
  deriving DecidableEq

/-- What arrives on a socket until the remote side closes it, or it fails. -/
structure Socket where
  arriving : List UInt8
  hangup : Hangup

/-- An `int` of 32 bits. -/
def toInt (n : Int) : Int := n.bmod (2 ^ 32)

/-- `recvfrom` with `MSG_WAITALL`: what it returns, and the bytes. -/
def Socket.recvfrom (s : Socket) (len : Nat) : Int × List UInt8 × Socket :=
  let bytes := s.arriving.take len
  (if bytes = [] ∧ s.hangup = .failed then -1 else bytes.length, bytes,
    { s with arriving := s.arriving.drop len })

/-- What is read for one chunk. `leave` is the `break`. -/
structure Chunk (σ : Type) where
  bytes : List UInt8
  stop : Bool
  leave : Bool
  conn : σ

def Socket.readChunk (rdSize : Nat) (s : Socket) : Option (Chunk Socket) :=
  let (n, bytes, s) := s.recvfrom rdSize
  let r := toInt n
  let stop := r ≠ toInt rdSize
  if r ≤ 0 then some ⟨[], stop, true, s⟩ else some ⟨bytes, stop, false, s⟩

/-- What arrives on a UDT socket until it breaks, in the parts that `recv` finds. -/
abbrev Udt := List (List UInt8)

/-- The loop over `UDT::recv`; `none` if it does not end. A `len` that is not positive as an `int`
receives nothing, without an error, as long as there is something. -/
def Udt.recvAll (rdSize : Nat) : List UInt8 → Udt → Option (Chunk Udt)
  | received, [] => some ⟨received, received.length ≠ rdSize, false, []⟩
  | received, [] :: parts => recvAll rdSize received parts
  | received, (c :: part) :: parts =>
    let len := toInt (rdSize - received.length : Nat)
    if received.length = rdSize then some ⟨received, false, false, (c :: part) :: parts⟩
    else if len ≤ 0 then none
    else if (c :: part).length ≤ len.toNat then recvAll rdSize (received ++ c :: part) parts
    else some ⟨received ++ (c :: part).take len.toNat, false, false,
      (c :: part).drop len.toNat :: parts⟩

/-! ## The readers -/

/-- The sizes are those of the sender, so what is read is the write size. -/
structure Layout where
  rdSize : Nat
  wrSize : Nat
  blSize : Nat
  allowVariableBlockSize : Bool

def Layout.nBlank (l : Layout) : Nat := l.wrSize - l.rdSize

structure Reader (σ : Type) extends Layout where
  readChunk : σ → Option (Chunk σ)

namespace Reader

variable {σ : Type} (r : Reader σ)

/-- The block as far as it is filled, and whether to stop. There are not more than `chunks` of
them. -/
def fill : Nat → List UInt8 → σ → Option (List UInt8 × Bool × σ)
  | 0, b, conn => some (b, false, conn)
  | chunks + 1, b, conn =>
    if r.wrSize ≤ r.blSize - b.length then do
      let c ← r.readChunk conn
      if c.leave || c.stop then return (b ++ c.bytes, c.stop, c.conn)
      fill chunks (b ++ c.bytes ++ List.replicate r.nBlank 0) c.conn
    else some (b, false, conn)

/-- The blocks that are pushed, `none` if the loop takes more than that many of them. -/
def loop : Nat → σ → Option (List (List UInt8))
  | 0, _ => none
  | blocks + 1, conn => do
    let (b, stop, conn) ← r.fill r.blSize [] conn
    let pushed := if b.length = r.blSize ∨ r.allowVariableBlockSize then [b] else []
    if stop then return pushed
    return pushed ++ (← loop blocks conn)

end Reader

/-- The sizes of a reader, after `validate`. -/
def layout (sizes : ConstraintSet) (allowVariableBlockSize : Bool) : Layout :=
  ⟨sizes.writeSize.toNat, sizes.readSize.toNat, sizes.blocksize.toNat, allowVariableBlockSize⟩

def reader {σ : Type} (l : Layout) (readChunk : Nat → σ → Option (Chunk σ)) : Reader σ :=
  ⟨l, readChunk l.rdSize⟩

def ofLoop : Option (List (List UInt8)) → Except Failure (List (List UInt8))
  | some blocks => .ok blocks
  | none => .error .forever

def socketreader (sizes : ConstraintSet) (allowVariableBlockSize : Bool) (s : Socket) :
    Except Failure (List (List UInt8)) := do
  sizes.validate
  ofLoop ((reader (layout sizes allowVariableBlockSize) Socket.readChunk).loop
    (s.arriving.length + 1) s)

def udtreader (sizes : ConstraintSet) (allowVariableBlockSize : Bool) (u : Udt) :
    Except Failure (List (List UInt8)) := do
  sizes.validate
  ofLoop ((reader (layout sizes allowVariableBlockSize) fun rdSize => Udt.recvAll rdSize []).loop
    (u.flatten.length + 1) u)

/-! ## What is expected -/

namespace Layout

variable (l : Layout)

def slot (bytes : List UInt8) : List UInt8 := bytes ++ List.replicate l.nBlank 0

/-- The stream in chunks, each with its zeroes; what is left over has none. -/
def expanded (data : List UInt8) : List UInt8 :=
  ((pieces l.rdSize data).map l.slot).flatten ++ data.drop (data.length / l.rdSize * l.rdSize)

/-- How much of the stream is in a block. -/
def dataPerBlock : Nat := l.blSize / l.wrSize * l.rdSize

/-- The blocks keep the stream, the end of it only if a block may be shorter. -/
structure Keeps (data : List UInt8) (blocks : List (List UInt8)) : Prop where
  nonempty : ∀ b ∈ blocks, b ≠ []
  full : ∀ b ∈ blocks.dropLast, b.length = l.blSize
  fits : ∀ b ∈ blocks, b.length ≤ l.blSize
  stream : blocks.flatten =
    if l.allowVariableBlockSize then l.expanded data
    else (l.expanded data).take ((l.expanded data).length / l.blSize * l.blSize)

/-- The reader ends, and its blocks keep the stream. -/
def KeepsStream (data : List UInt8) (result : Except Failure (List (List UInt8))) : Prop :=
  ∃ blocks, result = .ok blocks ∧ l.Keeps data blocks

structure Sized : Prop where
  rd_pos : 0 < l.rdSize
  rd_le : l.rdSize ≤ l.wrSize
  bl_pos : 0 < l.blSize
  block_dvd : l.wrSize ∣ l.blSize

variable {l}

theorem Sized.wr_pos (h : l.Sized) : 0 < l.wrSize := Nat.lt_of_lt_of_le h.rd_pos h.rd_le

theorem Sized.chunks_mul (h : l.Sized) : l.blSize / l.wrSize * l.wrSize = l.blSize :=
  Nat.div_mul_cancel h.block_dvd

theorem Sized.chunks_pos (h : l.Sized) : 0 < l.blSize / l.wrSize :=
  Nat.div_pos (Nat.le_of_dvd h.bl_pos h.block_dvd) h.wr_pos

theorem Sized.dataPerBlock_pos (h : l.Sized) : 0 < l.dataPerBlock :=
  Nat.mul_pos h.chunks_pos h.rd_pos

theorem Sized.length_slot (h : l.Sized) {bytes : List UInt8} (hbytes : bytes.length = l.rdSize) :
    (l.slot bytes).length = l.wrSize := by
  have hle := h.rd_le
  rw [slot, List.length_append, List.length_replicate, nBlank, hbytes]
  omega

theorem expanded_short {data : List UInt8} (h : data.length < l.rdSize) : l.expanded data = data := by
  have hdiv : data.length / l.rdSize = 0 := Nat.div_eq_of_lt h
  rw [expanded, pieces, hdiv, Nat.zero_mul, List.drop_zero]
  rfl

@[simp] theorem expanded_nil : l.expanded [] = [] := by simp [expanded, pieces]

theorem Sized.expanded_chunk (h : l.Sized) {bytes : List UInt8} (hbytes : bytes.length = l.rdSize)
    (data : List UInt8) : l.expanded (bytes ++ data) = l.slot bytes ++ l.expanded data := by
  have hdiv : (bytes ++ data).length / l.rdSize * l.rdSize =
      bytes.length + data.length / l.rdSize * l.rdSize := by
    rw [List.length_append, hbytes, Nat.add_div_left _ h.rd_pos, Nat.succ_mul, Nat.add_comm]
  rw [expanded, pieces_piece_append h.rd_pos hbytes, hdiv, List.drop_length_add_append,
    List.map_cons, List.flatten_cons, List.append_assoc]
  rfl

theorem Sized.expanded_append (h : l.Sized) {chunks : Nat} {front : List UInt8}
    (hfront : front.length = chunks * l.rdSize) (data : List UInt8) :
    l.expanded (front ++ data) = l.expanded front ++ l.expanded data := by
  induction chunks generalizing front with
  | zero =>
    rw [Nat.zero_mul] at hfront
    rw [List.eq_nil_of_length_eq_zero hfront, expanded_nil]
    rfl
  | succ chunks ih =>
    rw [Nat.succ_mul] at hfront
    have hfirst := List.length_take_of_le (show l.rdSize ≤ front.length by omega)
    have hrest : (front.drop l.rdSize).length = chunks * l.rdSize := by
      rw [List.length_drop]
      omega
    rw [← List.take_append_drop l.rdSize front, List.append_assoc, h.expanded_chunk hfirst,
      h.expanded_chunk hfirst, ih hrest, List.append_assoc]

theorem Sized.expanded_split (h : l.Sized) {data : List UInt8} (hle : l.rdSize ≤ data.length) :
    l.expanded data = l.slot (data.take l.rdSize) ++ l.expanded (data.drop l.rdSize) := by
  rw [← h.expanded_chunk (List.length_take_of_le hle), List.take_append_drop]

theorem Sized.length_expanded (h : l.Sized) (data : List UInt8) :
    (l.expanded data).length = data.length / l.rdSize * l.wrSize + data.length % l.rdSize := by
  have hslots : ∀ c ∈ (pieces l.rdSize data).map l.slot, c.length = l.wrSize := by
    intro c hc
    obtain ⟨bytes, hbytes, rfl⟩ := List.mem_map.mp hc
    exact h.length_slot (length_of_mem_pieces hbytes)
  have hflat : ((pieces l.rdSize data).map l.slot).flatten.length =
      data.length / l.rdSize * l.wrSize := by
    rw [List.length_flatten, List.map_congr_left hslots, List.map_const', List.sum_replicate_nat,
      List.length_map, length_pieces]
  have hmod := Nat.div_add_mod' data.length l.rdSize
  rw [expanded, List.length_append, hflat, List.length_drop]
  omega

/-- A block is full of what comes in exactly if the chunks are. -/
theorem Sized.block_dvd_expanded (h : l.Sized) (data : List UInt8) :
    l.blSize ∣ (l.expanded data).length ↔ l.dataPerBlock ∣ data.length := by
  have hlt := Nat.mod_lt data.length h.rd_pos
  have hle := h.rd_le
  rw [h.length_expanded]
  constructor
  · intro hdvd
    have hzero : data.length % l.rdSize = 0 := by
      have hwr := (Nat.dvd_add_right (Nat.dvd_mul_left _ _)).mp (Nat.dvd_trans h.block_dvd hdvd)
      exact Nat.eq_zero_of_dvd_of_lt hwr (by omega)
    rw [hzero, Nat.add_zero, ← h.chunks_mul] at hdvd
    have hchunks := Nat.dvd_of_mul_dvd_mul_right h.wr_pos hdvd
    rw [← Nat.div_mul_cancel (Nat.dvd_of_mod_eq_zero hzero)]
    exact Nat.mul_dvd_mul_right hchunks _
  · rintro ⟨q, hq⟩
    have hdata : data.length = l.blSize / l.wrSize * q * l.rdSize := by
      rw [hq, dataPerBlock, Nat.mul_right_comm]
    rw [hdata, Nat.mul_div_cancel _ h.rd_pos, Nat.mul_mod_left, Nat.add_zero, Nat.mul_right_comm,
      h.chunks_mul]
    exact Nat.dvd_mul_right _ _

variable (l) in
/-- What does not fill a block. -/
def leftOver (data : List UInt8) : List UInt8 :=
  (l.expanded data).drop ((l.expanded data).length / l.blSize * l.blSize)

variable (l) in
/-- The blocks that are pushed: what is left over comes in one of its own, even if it is nothing. -/
def pushed (data : List UInt8) : List (List UInt8) :=
  pieces l.blSize (l.expanded data) ++ if l.allowVariableBlockSize then [l.leftOver data] else []

theorem Sized.length_expanded_block (h : l.Sized) {data : List UInt8}
    (hdata : data.length = l.dataPerBlock) : (l.expanded data).length = l.blSize := by
  rw [h.length_expanded, hdata, dataPerBlock, Nat.mul_div_cancel _ h.rd_pos, Nat.mul_mod_left,
    h.chunks_mul, Nat.add_zero]

theorem Sized.pushed_block (h : l.Sized) {front : List UInt8}
    (hfront : front.length = l.dataPerBlock) (data : List UInt8) :
    l.pushed (front ++ data) = l.expanded front :: l.pushed data := by
  have hblock := h.length_expanded_block hfront
  have hsplit := h.expanded_append hfront data
  have hleft : l.leftOver (front ++ data) = l.leftOver data := by
    rw [leftOver, hsplit, List.length_append, hblock, Nat.add_div_left _ h.bl_pos, Nat.succ_mul,
      Nat.add_comm, ← hblock, List.drop_length_add_append, hblock]
    rfl
  rw [pushed, hsplit, pieces_piece_append h.bl_pos hblock, hleft]
  rfl

theorem Sized.pushed_short (h : l.Sized) {data : List UInt8} (hdata : data.length < l.dataPerBlock) :
    (l.expanded data).length < l.blSize ∧
      l.pushed data = if l.allowVariableBlockSize then [l.expanded data] else [] := by
  have hlt : (l.expanded data).length < l.blSize := by
    have hchunks : data.length / l.rdSize < l.blSize / l.wrSize := Nat.div_lt_of_lt_mul (by
      rwa [Nat.mul_comm])
    have hroom := Nat.mul_le_mul_right l.wrSize (Nat.succ_le_of_lt hchunks)
    have hmod := Nat.mod_lt data.length h.rd_pos
    have hle := h.rd_le
    rw [h.chunks_mul, Nat.succ_mul] at hroom
    rw [h.length_expanded]
    omega
  have hdiv := Nat.div_eq_of_lt hlt
  refine ⟨hlt, ?_⟩
  rw [pushed, pieces, leftOver, hdiv, Nat.zero_mul, List.drop_zero]
  rfl

theorem flatten_pieces_expanded (data : List UInt8) : (pieces l.blSize (l.expanded data)).flatten =
    (l.expanded data).take ((l.expanded data).length / l.blSize * l.blSize) := by
  rw [pieces, flatten_slices, slice, List.drop_zero]

theorem Sized.leftOver_eq_nil_iff (h : l.Sized) (data : List UInt8) :
    l.leftOver data = [] ↔ l.dataPerBlock ∣ data.length := by
  have hmod := Nat.div_add_mod' (l.expanded data).length l.blSize
  rw [leftOver, List.drop_eq_nil_iff, ← h.block_dvd_expanded, Nat.dvd_iff_mod_eq_zero]
  omega

theorem Sized.length_leftOver (h : l.Sized) (data : List UInt8) :
    (l.leftOver data).length < l.blSize := by
  have hmod := Nat.div_add_mod' (l.expanded data).length l.blSize
  have hlt := Nat.mod_lt (l.expanded data).length h.bl_pos
  rw [leftOver, List.length_drop]
  omega

/-- What is pushed keeps the stream unless it ends where a block does. -/
theorem Sized.keeps_pushed_iff (h : l.Sized) (data : List UInt8) :
    l.Keeps data (l.pushed data) ↔
      (l.allowVariableBlockSize = true → ¬l.dataPerBlock ∣ data.length) := by
  rw [← h.leftOver_eq_nil_iff]
  have hpiece : ∀ b ∈ pieces l.blSize (l.expanded data), b.length = l.blSize :=
    fun _ => length_of_mem_pieces
  have hne : ∀ b ∈ pieces l.blSize (l.expanded data), b ≠ [] := fun b hb =>
    List.ne_nil_of_length_pos (hpiece b hb ▸ h.bl_pos)
  cases hallow : l.allowVariableBlockSize with
  | false =>
    have hpushed : l.pushed data = pieces l.blSize (l.expanded data) := by
      rw [pushed, hallow]
      exact List.append_nil _
    rw [hpushed]
    refine ⟨fun _ => nofun, fun _ => ⟨hne, fun b hb => hpiece b (List.dropLast_subset _ hb),
      fun b hb => Nat.le_of_eq (hpiece b hb), ?_⟩⟩
    rw [flatten_pieces_expanded, hallow]
    rfl
  | true =>
    have hpushed : l.pushed data = pieces l.blSize (l.expanded data) ++ [l.leftOver data] := by
      rw [pushed, hallow]
      rfl
    rw [hpushed]
    constructor
    · intro hkeeps _
      exact hkeeps.nonempty _ (by simp)
    · intro hleft
      refine ⟨?_, ?_, ?_, ?_⟩
      · rw [List.forall_mem_append, List.forall_mem_singleton]
        exact ⟨hne, hleft rfl⟩
      · rw [List.dropLast_concat]
        exact hpiece
      · rw [List.forall_mem_append, List.forall_mem_singleton]
        exact ⟨fun b hb => Nat.le_of_eq (hpiece b hb), Nat.le_of_lt (h.length_leftOver data)⟩
      · rw [List.flatten_append, flatten_pieces_expanded, List.flatten_singleton, leftOver,
          List.take_append_drop, hallow]
        rfl

end Layout

/-! ## The loops -/

namespace Reader
open Layout

variable {σ : Type} {r : Reader σ}

variable (r) in
/-- A connection on which chunks come in whole, as long as they are there. -/
structure Delivers (arrived : σ → List UInt8) : Prop where
  whole : ∀ conn, r.rdSize ≤ (arrived conn).length → ∃ conn',
    r.readChunk conn = some ⟨(arrived conn).take r.rdSize, false, false, conn'⟩ ∧
      arrived conn' = (arrived conn).drop r.rdSize
  short : ∀ conn, (arrived conn).length < r.rdSize → ∃ bytes leave conn',
    r.readChunk conn = some ⟨bytes, true, leave, conn'⟩ ∧ bytes = arrived conn

variable {arrived : σ → List UInt8}

/-- With room for `chunks` more, all of which come in. -/
theorem Delivers.fill_whole (hd : r.Delivers arrived) (h : r.toLayout.Sized) {chunks fuel : Nat}
    (hfuel : chunks ≤ fuel) {b : List UInt8} (hroom : b.length + chunks * r.wrSize = r.blSize)
    {conn : σ} (hdata : chunks * r.rdSize ≤ (arrived conn).length) : ∃ conn',
      r.fill fuel b conn =
        some (b ++ r.expanded ((arrived conn).take (chunks * r.rdSize)), false, conn') ∧
      arrived conn' = (arrived conn).drop (chunks * r.rdSize) := by
  induction chunks generalizing fuel b conn with
  | zero =>
    have hfull : ¬r.wrSize ≤ r.blSize - b.length := by
      have := h.wr_pos
      omega
    refine ⟨conn, ?_, by simp⟩
    rw [Nat.zero_mul, List.take_zero, expanded_nil, List.append_nil]
    cases fuel with
    | zero => rfl
    | succ fuel => rw [fill, if_neg hfull]
  | succ chunks ih =>
    rw [Nat.succ_mul] at hroom hdata
    obtain ⟨fuel, rfl⟩ : ∃ n, fuel = n + 1 := ⟨fuel - 1, by omega⟩
    obtain ⟨conn₁, hchunk, hleft⟩ := hd.whole conn (by omega)
    have hlength := List.length_take_of_le (show r.rdSize ≤ (arrived conn).length by omega)
    have hnext : (b ++ (arrived conn).take r.rdSize ++ List.replicate r.nBlank 0).length +
        chunks * r.wrSize = r.blSize := by
      have hslot := h.length_slot hlength
      rw [List.append_assoc, List.length_append, ← slot, hslot]
      omega
    have hmore : chunks * r.rdSize ≤ (arrived conn₁).length := by
      rw [hleft, List.length_drop]
      omega
    obtain ⟨conn', hfill, hrest⟩ := ih (Nat.le_of_succ_le_succ hfuel) hnext hmore
    refine ⟨conn', ?_, by rw [hrest, hleft, List.drop_drop, Nat.succ_mul, Nat.add_comm]⟩
    have hexpanded : r.expanded ((arrived conn).take ((chunks + 1) * r.rdSize)) =
        r.slot ((arrived conn).take r.rdSize) ++
          r.expanded (((arrived conn).drop r.rdSize).take (chunks * r.rdSize)) := by
      rw [← h.expanded_chunk hlength, ← List.take_add, Nat.succ_mul, Nat.add_comm]
    rw [fill, if_pos (by omega), hchunk]
    change r.fill fuel _ conn₁ = _
    rw [hfill, hleft, hexpanded, slot, List.append_assoc, List.append_assoc, List.append_assoc]

/-- The stream ends before the block is full. -/
theorem Delivers.fill_short (hd : r.Delivers arrived) (h : r.toLayout.Sized) {chunks fuel : Nat}
    (hfuel : chunks ≤ fuel) {b : List UInt8} (hroom : b.length + chunks * r.wrSize = r.blSize)
    {conn : σ} (hdata : (arrived conn).length < chunks * r.rdSize) : ∃ conn',
      r.fill fuel b conn = some (b ++ r.expanded (arrived conn), true, conn') := by
  induction chunks generalizing fuel b conn with
  | zero => omega
  | succ chunks ih =>
    rw [Nat.succ_mul] at hroom hdata
    obtain ⟨fuel, rfl⟩ : ∃ n, fuel = n + 1 := ⟨fuel - 1, by omega⟩
    rcases Nat.lt_or_ge (arrived conn).length r.rdSize with hshort | hle
    · obtain ⟨_, leave, conn', hchunk, rfl⟩ := hd.short conn hshort
      refine ⟨conn', ?_⟩
      rw [fill, if_pos (by omega), hchunk, expanded_short hshort]
      simp
    · obtain ⟨conn₁, hchunk, hleft⟩ := hd.whole conn hle
      have hlength := List.length_take_of_le hle
      have hnext : (b ++ (arrived conn).take r.rdSize ++ List.replicate r.nBlank 0).length +
          chunks * r.wrSize = r.blSize := by
        have hslot := h.length_slot hlength
        rw [List.append_assoc, List.length_append, ← slot, hslot]
        omega
      have hless : (arrived conn₁).length < chunks * r.rdSize := by
        rw [hleft, List.length_drop]
        omega
      obtain ⟨conn', hfill⟩ := ih (Nat.le_of_succ_le_succ hfuel) hnext hless
      refine ⟨conn', ?_⟩
      rw [fill, if_pos (by omega), hchunk]
      change r.fill fuel _ conn₁ = _
      rw [hfill, hleft, h.expanded_split hle, slot, List.append_assoc, List.append_assoc,
        List.append_assoc]

/-- What the loop pushes. -/
theorem Delivers.loop_eq (hd : r.Delivers arrived) (h : r.toLayout.Sized) {fuel : Nat} {conn : σ}
    (hfuel : (arrived conn).length < fuel) : r.loop fuel conn = some (r.pushed (arrived conn)) := by
  induction fuel generalizing conn with
  | zero => omega
  | succ fuel ih =>
    have hchunks : r.blSize / r.wrSize ≤ r.blSize := Nat.div_le_self _ _
    have hroom : ([] : List UInt8).length + r.blSize / r.wrSize * r.wrSize = r.blSize := by
      rw [List.length_nil, Nat.zero_add, h.chunks_mul]
    rw [loop]
    rcases Nat.lt_or_ge (arrived conn).length r.dataPerBlock with hshort | hfull
    · obtain ⟨conn', hfill⟩ := hd.fill_short h hchunks hroom hshort
      obtain ⟨hlt, hpushed⟩ := h.pushed_short hshort
      rw [hfill, hpushed]
      simp [Nat.ne_of_lt hlt]
    · obtain ⟨conn', hfill, hrest⟩ := hd.fill_whole h hchunks hroom hfull
      rw [← dataPerBlock, List.nil_append] at hfill
      rw [← dataPerBlock] at hrest
      have hpos := h.dataPerBlock_pos
      have hlength := List.length_take_of_le hfull
      have hmore : (arrived conn').length < fuel := by
        rw [hrest, List.length_drop]
        omega
      have hsplit := h.pushed_block hlength ((arrived conn).drop r.dataPerBlock)
      rw [List.take_append_drop] at hsplit
      rw [hfill, hsplit]
      simp only [Option.bind_eq_bind, Option.bind_some, Bool.false_eq_true, if_false, ih hmore, hrest,
        h.length_expanded_block hlength, true_or, if_true]
      rfl

/-- A block begins with a chunk. -/
theorem fill_start (h : r.toLayout.Sized) (conn : σ) : ∃ n, r.fill r.blSize [] conn =
    (r.readChunk conn).bind fun c =>
      if (c.leave || c.stop) = true then some (c.bytes, c.stop, c.conn)
      else r.fill n (r.slot c.bytes) c.conn := by
  have hle := Nat.le_of_dvd h.bl_pos h.block_dvd
  obtain ⟨n, hn⟩ : ∃ n, r.blSize = n + 1 := ⟨r.blSize - 1, by have := h.bl_pos; omega⟩
  refine ⟨n, ?_⟩
  rw [hn, fill, if_pos (by simpa using hle)]
  rfl

/-- The first chunk is the last one of the block. -/
theorem fill_first (h : r.toLayout.Sized) {conn : σ} {c : Chunk σ}
    (hchunk : r.readChunk conn = some c) (hends : (c.leave || c.stop) = true) :
    r.fill r.blSize [] conn = some (c.bytes, c.stop, c.conn) := by
  obtain ⟨n, hfill⟩ := fill_start h conn
  rw [hfill, hchunk, Option.bind_some, if_pos hends]

theorem loop_first (h : r.toLayout.Sized) {conn : σ} {c : Chunk σ}
    (hchunk : r.readChunk conn = some c) (hends : (c.leave || c.stop) = true) (fuel : Nat) :
    r.loop (fuel + 1) conn =
      let pushed := if c.bytes.length = r.blSize ∨ r.allowVariableBlockSize then [c.bytes] else []
      if c.stop then some pushed else (r.loop fuel c.conn).map (pushed ++ ·) := by
  rw [loop, fill_first h hchunk hends]
  cases c.stop with
  | true => rfl
  | false =>
    cases hloop : r.loop fuel c.conn with
    | none => simp [hloop]
    | some blocks => simp [hloop]

/-- The loop over one chunk does not end. -/
theorem loop_none (h : r.toLayout.Sized) {conn : σ} (hchunk : r.readChunk conn = none) (fuel : Nat) :
    r.loop (fuel + 1) conn = none := by
  obtain ⟨n, hfill⟩ := fill_start h conn
  rw [loop, hfill, hchunk]
  rfl

end Reader

/-! ## What comes in on the two connections -/

theorem toInt_of_lt {n : Int} (h : -1 ≤ n) (hn : n < 2 ^ 31) : toInt n = n := by
  rw [toInt, Int.bmod_def]
  split <;> omega

theorem toInt_of_ge {n : Int} (h : 2 ^ 31 ≤ n) (hn : n < 2 ^ 32) : toInt n = n - 2 ^ 32 := by
  rw [toInt, Int.bmod_def]
  split <;> omega

theorem toInt_ne {n m : Int} (h : -1 ≤ n) (hnm : n < m) (hm : m < 2 ^ 32 - 1) :
    toInt n ≠ toInt m := by
  rw [toInt, toInt, Int.bmod_def, Int.bmod_def]
  split <;> split <;> omega

variable {l : Layout}

theorem Socket.recvfrom_some {s : Socket} {len : Nat} (hlen : 0 < len) (hs : 0 < s.arriving.length) :
    s.recvfrom len = (((min len s.arriving.length : Nat) : Int), s.arriving.take len,
      { s with arriving := s.arriving.drop len }) := by
  have hne : s.arriving.take len ≠ [] := List.ne_nil_of_length_pos (by
    rw [List.length_take]
    omega)
  rw [recvfrom]
  simp only [hne, false_and, if_false, List.length_take]

theorem Socket.readChunk_whole (h : l.Sized) (hrd : l.rdSize < 2 ^ 31) {s : Socket}
    (hs : l.rdSize ≤ s.arriving.length) : s.readChunk l.rdSize =
      some ⟨s.arriving.take l.rdSize, false, false, { s with arriving := s.arriving.drop l.rdSize }⟩ := by
  have hpos := h.rd_pos
  have hint : toInt l.rdSize = l.rdSize := toInt_of_lt (by omega) (by omega)
  rw [readChunk, recvfrom_some hpos (by omega), Nat.min_eq_left hs]
  dsimp only
  rw [hint, if_neg (by omega)]
  simp

/-- Fewer than a chunk, and not more than an `int` counts: the reader stops. -/
theorem Socket.readChunk_short (hrd : l.rdSize < 2 ^ 32 - 1) {s : Socket}
    (hs : s.arriving.length < l.rdSize) (hint : s.arriving.length < 2 ^ 31) :
    ∃ bytes leave s', s.readChunk l.rdSize = some ⟨bytes, true, leave, s'⟩ ∧ bytes = s.arriving := by
  have hbytes : s.arriving.take l.rdSize = s.arriving := List.take_of_length_le (Nat.le_of_lt hs)
  unfold Socket.readChunk Socket.recvfrom
  dsimp only
  rw [hbytes]
  by_cases hfailed : s.arriving = [] ∧ s.hangup = .failed
  · have hne := toInt_ne (show (-1 : Int) ≤ -1 by omega) (m := l.rdSize) (by omega) (by omega)
    rw [if_pos hfailed, if_pos (by rw [toInt_of_lt (by omega) (by omega)]; omega)]
    exact ⟨_, _, _, by rw [decide_eq_true hne], hfailed.1.symm⟩
  · have hne := toInt_ne (show (-1 : Int) ≤ s.arriving.length by omega) (m := l.rdSize) (by omega)
      (by omega)
    rw [if_neg hfailed, decide_eq_true hne,
      toInt_of_lt (n := s.arriving.length) (by omega) (by omega)]
    split
    · rename_i hle
      have hnil : s.arriving = [] := List.eq_nil_of_length_eq_zero (by omega)
      exact ⟨_, _, _, rfl, hnil.symm⟩
    · exact ⟨_, _, _, rfl, rfl⟩

/-- More than an `int` counts: the bytes are not taken into account. -/
theorem Socket.readChunk_large (hrd : l.rdSize < 2 ^ 32) {s : Socket}
    (hlarge : 2 ^ 31 ≤ l.rdSize) (hs : 2 ^ 31 ≤ s.arriving.length) : ∃ stop, s.readChunk l.rdSize =
      some ⟨[], stop, true, { s with arriving := s.arriving.drop l.rdSize }⟩ ∧
      (s.arriving.length < l.rdSize → l.rdSize < 2 ^ 32 - 1 → stop = true) := by
  have hint : toInt ((min l.rdSize s.arriving.length : Nat) : Int) =
      ((min l.rdSize s.arriving.length : Nat) : Int) - 2 ^ 32 := toInt_of_ge (by omega) (by omega)
  rw [readChunk, recvfrom_some (by omega) (by omega)]
  dsimp only
  refine ⟨_, if_pos (by rw [hint]; omega), fun hlt hset => decide_eq_true ?_⟩
  exact toInt_ne (by omega) (by omega) (by omega)

/-- With some bytes of the chunk received. -/
theorem Udt.recvAll_eq {rdSize : Nat} (hrd : rdSize < 2 ^ 31) (u : Udt) {received : List UInt8}
    (hle : received.length ≤ rdSize) :
    (rdSize ≤ received.length + u.flatten.length → ∃ u', Udt.recvAll rdSize received u =
      some ⟨received ++ u.flatten.take (rdSize - received.length), false, false, u'⟩ ∧
        List.flatten u' = u.flatten.drop (rdSize - received.length)) ∧
    (received.length + u.flatten.length < rdSize → ∃ u', Udt.recvAll rdSize received u =
      some ⟨received ++ u.flatten, true, false, u'⟩) := by
  induction u generalizing received with
  | nil =>
    constructor
    · intro hall
      have hfull : received.length = rdSize := by
        simpa using Nat.le_antisymm hle hall
      exact ⟨[], by simp [recvAll, hfull], by simp⟩
    · intro hless
      have hne : received.length ≠ rdSize := by
        rw [List.flatten_nil, List.length_nil] at hless
        omega
      exact ⟨[], by simp [recvAll, hne]⟩
  | cons part parts ih =>
    cases part with
    | nil => exact ih hle
    | cons c part =>
      have hint : toInt (rdSize - received.length : Nat) = (rdSize - received.length : Nat) :=
        toInt_of_lt (by omega) (by omega)
      have hunfold : Udt.recvAll rdSize received ((c :: part) :: parts) =
          if received.length = rdSize then some ⟨received, false, false, (c :: part) :: parts⟩
          else if (c :: part).length ≤ rdSize - received.length then
            recvAll rdSize (received ++ c :: part) parts
          else some ⟨received ++ (c :: part).take (rdSize - received.length), false, false,
            (c :: part).drop (rdSize - received.length) :: parts⟩ := by
        rw [recvAll, hint, Int.toNat_natCast]
        split
        · rfl
        · rw [if_neg (by omega)]
      generalize c :: part = p at hunfold ⊢
      rw [hunfold, List.flatten_cons, List.length_append]
      by_cases hfull : received.length = rdSize
      · refine ⟨fun _ => ⟨p :: parts, ?_, ?_⟩, fun hless => by omega⟩
        · rw [if_pos hfull, hfull, Nat.sub_self, List.take_zero, List.append_nil]
        · rw [hfull, Nat.sub_self, List.drop_zero, List.flatten_cons]
      · rw [if_neg hfull]
        rcases Nat.lt_or_ge (rdSize - received.length) p.length with hlong | hshort
        · rw [if_neg (by omega), List.take_append_of_le_length (by omega),
            List.drop_append_of_le_length (by omega)]
          exact ⟨fun _ => ⟨_, rfl, rfl⟩, fun hless => by omega⟩
        · have hlength : (received ++ p).length = received.length + p.length := List.length_append
          obtain ⟨hwhole, hpart⟩ := @ih (received ++ p) (by omega)
          have hrest : rdSize - received.length = p.length + (rdSize - (received ++ p).length) := by
            omega
          rw [if_pos hshort]
          constructor
          · intro hall
            obtain ⟨u', hrecv, hleft⟩ := hwhole (by omega)
            refine ⟨u', ?_, ?_⟩
            · rw [hrecv, hrest, List.take_length_add_append, List.append_assoc]
            · rw [hleft, hrest, List.drop_length_add_append]
          · intro hless
            obtain ⟨u', hrecv⟩ := hpart (by omega)
            exact ⟨u', by rw [hrecv, List.append_assoc]⟩

/-- More than an `int` counts: nothing is received as long as there is something. -/
theorem Udt.recvAll_large {rdSize : Nat} (hlarge : 2 ^ 31 ≤ rdSize) (hrd : rdSize < 2 ^ 32) (u : Udt) :
    Udt.recvAll rdSize [] u =
      if u.flatten = [] then some ⟨[], true, false, []⟩ else none := by
  induction u with
  | nil =>
    have hne : ¬0 = rdSize := by omega
    simp [recvAll, hne]
  | cons part parts ih =>
    cases part with
    | nil => exact ih
    | cons c part =>
      have hint : toInt (rdSize : Nat) = (rdSize : Nat) - 2 ^ 32 := toInt_of_ge (by omega) (by omega)
      rw [recvAll, List.length_nil, Nat.sub_zero, hint, if_neg (by omega), if_pos (by omega)]
      rfl

theorem socket_delivers (h : l.Sized) (hrd : l.rdSize < 2 ^ 31) :
    (reader l Socket.readChunk).Delivers Socket.arriving := by
  constructor
  · intro s hs
    exact ⟨_, Socket.readChunk_whole h hrd hs, rfl⟩
  · intro s hs
    have hs : s.arriving.length < l.rdSize := hs
    exact Socket.readChunk_short (by omega) hs (by omega)

theorem udt_delivers (hrd : l.rdSize < 2 ^ 31) :
    (reader l fun rdSize => Udt.recvAll rdSize []).Delivers List.flatten := by
  constructor
  · intro u hu
    have hu : l.rdSize ≤ ([] : List UInt8).length + u.flatten.length := by
      rwa [List.length_nil, Nat.zero_add]
    exact (Udt.recvAll_eq hrd u (Nat.zero_le _)).1 hu
  · intro u hu
    have hu : ([] : List UInt8).length + u.flatten.length < l.rdSize := by
      rwa [List.length_nil, Nat.zero_add]
    obtain ⟨u', hrecv⟩ := (Udt.recvAll_eq hrd u (Nat.zero_le _)).2 hu
    exact ⟨_, _, u', hrecv, rfl⟩

/-! ## Chunks that an `int` does not count -/

/-- There is one in a block, which is of fewer than 2 ^ 32 bytes. -/
theorem Layout.Sized.one_chunk (h : l.Sized) (hlarge : 2 ^ 31 ≤ l.rdSize) (hbl : l.blSize < 2 ^ 32) :
    l.dataPerBlock = l.rdSize := by
  have hle := h.rd_le
  have hpos := h.chunks_pos
  have hmul := h.chunks_mul
  have hone : l.blSize / l.wrSize = 1 := by
    by_contra hne
    have htwo : 2 * l.wrSize ≤ l.blSize / l.wrSize * l.wrSize := Nat.mul_le_mul_right _ (by omega)
    omega
  rw [Layout.dataPerBlock, hone, Nat.one_mul]

theorem Layout.Sized.lt_dataPerBlock (h : l.Sized) {n : Nat} (hn : n < l.rdSize) :
    n < l.dataPerBlock := by
  have hone := Nat.mul_le_mul_right l.rdSize h.chunks_pos
  rw [Layout.dataPerBlock]
  omega

/-- What is left of the stream is counted. -/
theorem socket_loop_short (h : l.Sized) (hrd : l.rdSize < 2 ^ 32 - 1) {s : Socket}
    (hs : s.arriving.length < l.rdSize) (hint : s.arriving.length < 2 ^ 31) (fuel : Nat) :
    (reader l Socket.readChunk).loop (fuel + 1) s = some (l.pushed s.arriving) := by
  obtain ⟨_, leave, s', hchunk, rfl⟩ := Socket.readChunk_short hrd hs hint
  have hle := Nat.le_of_dvd h.bl_pos h.block_dvd
  have hrdle := h.rd_le
  have hne : s.arriving.length ≠ l.blSize := by omega
  rw [Reader.loop_first h hchunk (Bool.or_true _),
    (h.pushed_short (h.lt_dataPerBlock hs)).2, Layout.expanded_short hs]
  simp [reader, hne]

/-- What is not counted is left out, and a block without it is not full. -/
theorem socket_loop_large (h : l.Sized) (hlarge : 2 ^ 31 ≤ l.rdSize) (hrd : l.rdSize < 2 ^ 32 - 1)
    {s : Socket} (hs : 2 ^ 31 ≤ s.arriving.length) (fuel : Nat) : ∃ stop,
      (reader l Socket.readChunk).loop (fuel + 1) s =
        (let pushed := if l.allowVariableBlockSize then [[]] else []
        if stop then some pushed else ((reader l Socket.readChunk).loop fuel
          { s with arriving := s.arriving.drop l.rdSize }).map (pushed ++ ·)) ∧
      (s.arriving.length < l.rdSize → stop = true) := by
  obtain ⟨stop, hchunk, hstop⟩ := Socket.readChunk_large (by omega) hlarge hs
  refine ⟨stop, ?_, fun hlt => hstop hlt hrd⟩
  have hne : ¬0 = l.blSize := Nat.ne_of_lt h.bl_pos
  rw [Reader.loop_first h hchunk (Bool.true_or _)]
  simp [reader, hne]

/-- All blocks have to be full, and none is. -/
theorem socket_loop_fixed (h : l.Sized) (hlarge : 2 ^ 31 ≤ l.rdSize) (hrd : l.rdSize < 2 ^ 32 - 1)
    (hfixed : l.allowVariableBlockSize = false) {fuel : Nat} {s : Socket}
    {blocks : List (List UInt8)} (hloop : (reader l Socket.readChunk).loop fuel s = some blocks) :
    blocks = [] := by
  induction fuel generalizing s blocks with
  | zero => cases hloop
  | succ fuel ih =>
    rcases Nat.lt_or_ge s.arriving.length (2 ^ 31) with hint | hs
    · have hlt : s.arriving.length < l.rdSize := by omega
      rw [socket_loop_short h hrd hlt hint, (h.pushed_short (h.lt_dataPerBlock hlt)).2, hfixed] at hloop
      exact (Option.some.inj hloop).symm
    · obtain ⟨stop, hfirst, -⟩ := socket_loop_large h hlarge hrd hs fuel
      rw [hfirst, hfixed] at hloop
      cases stop with
      | true => exact (Option.some.inj hloop).symm
      | false =>
        obtain ⟨blocks', hrest, rfl⟩ := Option.map_eq_some_iff.mp hloop
        rw [ih hrest]
        rfl

/-! ## When the stream is kept -/

theorem Layout.keepsStream_ofLoop {data : List UInt8} {loop : Option (List (List UInt8))} :
    l.KeepsStream data (ofLoop loop) ↔ ∃ blocks, loop = some blocks ∧ l.Keeps data blocks := by
  cases loop with
  | none => simp [KeepsStream, ofLoop]
  | some blocks => simp [KeepsStream, ofLoop]

theorem Layout.Sized.keepsStream_pushed (h : l.Sized) {data : List UInt8}
    {loop : Option (List (List UInt8))} (hloop : loop = some (l.pushed data)) :
    l.KeepsStream data (ofLoop loop) ↔
      (l.allowVariableBlockSize = true → ¬l.dataPerBlock ∣ data.length) := by
  rw [Layout.keepsStream_ofLoop, hloop, ← h.keeps_pushed_iff]
  simp

theorem Layout.Sized.lt_of_keeps_nil (h : l.Sized) {data : List UInt8}
    (hfixed : l.allowVariableBlockSize = false) (hkeeps : l.Keeps data []) :
    data.length < l.dataPerBlock := by
  by_contra hge
  have hfull := h.length_expanded_block (List.length_take_of_le (Nat.not_lt.mp hge))
  have hsplit := h.expanded_append (List.length_take_of_le (Nat.not_lt.mp hge))
    (data.drop l.dataPerBlock)
  rw [← Layout.dataPerBlock, List.take_append_drop] at hsplit
  have hle : l.blSize ≤ (l.expanded data).length := by
    rw [hsplit, List.length_append, hfull]
    exact Nat.le_add_right _ _
  have hone := Nat.mul_le_mul_right l.blSize (Nat.div_pos hle h.bl_pos)
  have hnone := congrArg List.length hkeeps.stream
  have hpos := h.bl_pos
  rw [hfixed, if_neg Bool.false_ne_true, List.length_take] at hnone
  simp only [List.flatten_nil, List.length_nil] at hnone
  omega

theorem socket_keepsStream_iff (h : l.Sized) (hrd : l.rdSize < 2 ^ 32 - 1) (hbl : l.blSize < 2 ^ 32)
    (s : Socket) :
    l.KeepsStream s.arriving
        (ofLoop ((reader l Socket.readChunk).loop (s.arriving.length + 1) s)) ↔
      if l.allowVariableBlockSize then ¬l.dataPerBlock ∣ s.arriving.length ∧
        (l.rdSize < 2 ^ 31 ∨ s.arriving.length < 2 ^ 31)
      else l.rdSize < 2 ^ 31 ∨ s.arriving.length < l.dataPerBlock := by
  rcases Nat.lt_or_ge l.rdSize (2 ^ 31) with hsmall | hlarge
  · rw [h.keepsStream_pushed ((socket_delivers h hsmall).loop_eq h (Nat.lt_succ_self _))]
    cases l.allowVariableBlockSize <;> simp only [hsmall, true_or, and_true, reduceIte,
      Bool.false_eq_true, false_implies, true_implies]
  · have hnot : ¬l.rdSize < 2 ^ 31 := by omega
    rw [h.one_chunk hlarge hbl]
    rcases Nat.lt_or_ge s.arriving.length (2 ^ 31) with hint | hs
    · have hlt : s.arriving.length < l.rdSize := by omega
      rw [h.keepsStream_pushed (socket_loop_short h hrd hlt hint _), h.one_chunk hlarge hbl]
      cases l.allowVariableBlockSize <;> simp only [hint, hlt, or_true, and_true, reduceIte,
        Bool.false_eq_true, false_implies, true_implies]
    · rw [Layout.keepsStream_ofLoop]
      obtain ⟨stop, hfirst, hstop⟩ := socket_loop_large h hlarge hrd hs s.arriving.length
      cases hallow : l.allowVariableBlockSize with
      | true =>
        rw [hallow] at hfirst
        have hempty {blocks : List (List UInt8)}
            (hloop : (reader l Socket.readChunk).loop (s.arriving.length + 1) s = some blocks) :
            [] ∈ blocks := by
          rw [hfirst] at hloop
          cases stop with
          | true =>
            obtain rfl : [[]] = blocks := Option.some.inj hloop
            exact List.mem_cons_self
          | false =>
            obtain ⟨blocks', -, rfl⟩ := Option.map_eq_some_iff.mp hloop
            exact List.mem_cons_self
        constructor
        · rintro ⟨blocks, hloop, hkeeps⟩
          exact absurd rfl (hkeeps.nonempty _ (hempty hloop))
        · rintro ⟨-, hint⟩
          omega
      | false =>
        constructor
        · rintro ⟨blocks, hloop, hkeeps⟩
          rw [socket_loop_fixed h hlarge hrd hallow hloop] at hkeeps
          exact .inr (h.one_chunk hlarge hbl ▸ h.lt_of_keeps_nil hallow hkeeps)
        · intro hless
          have hlt : s.arriving.length < l.rdSize := hless.resolve_left hnot
          refine ⟨_, ?_, (h.keeps_pushed_iff _).mpr (by simp [hallow])⟩
          rw [hfirst, hstop hlt, (h.pushed_short (h.lt_dataPerBlock hlt)).2, hallow]
          rfl

theorem udt_keepsStream_iff (h : l.Sized) (hrd : l.rdSize < 2 ^ 32) (u : Udt) :
    l.KeepsStream u.flatten (ofLoop ((reader l fun rdSize => Udt.recvAll rdSize []).loop
        (u.flatten.length + 1) u)) ↔
      if l.allowVariableBlockSize then ¬l.dataPerBlock ∣ u.flatten.length ∧ l.rdSize < 2 ^ 31
      else l.rdSize < 2 ^ 31 ∨ u.flatten.length = 0 := by
  rcases Nat.lt_or_ge l.rdSize (2 ^ 31) with hsmall | hlarge
  · rw [h.keepsStream_pushed ((udt_delivers hsmall).loop_eq h (Nat.lt_succ_self _))]
    cases l.allowVariableBlockSize <;> simp only [hsmall, true_or, and_true, reduceIte,
      Bool.false_eq_true, false_implies, true_implies]
  · have hnot : ¬l.rdSize < 2 ^ 31 := by omega
    have hchunk : (reader l fun rdSize => Udt.recvAll rdSize []).readChunk u =
        if u.flatten = [] then some ⟨[], true, false, []⟩ else none :=
      Udt.recvAll_large hlarge hrd u
    by_cases hnil : u.flatten = []
    · rw [if_pos hnil] at hchunk
      have hne : ¬0 = l.blSize := Nat.ne_of_lt h.bl_pos
      have hloop : (reader l fun rdSize => Udt.recvAll rdSize []).loop (u.flatten.length + 1) u =
          some (l.pushed u.flatten) := by
        rw [Reader.loop_first h hchunk (Bool.or_true _), hnil,
          (h.pushed_short (show [].length < _ from h.dataPerBlock_pos)).2, Layout.expanded_nil]
        simp [reader, hne]
      rw [h.keepsStream_pushed hloop, hnil]
      cases l.allowVariableBlockSize <;> simp
    · rw [if_neg hnil] at hchunk
      have hlength : u.flatten.length ≠ 0 := fun hzero => hnil (List.eq_nil_of_length_eq_zero hzero)
      rw [Layout.keepsStream_ofLoop, Reader.loop_none h hchunk]
      generalize u.flatten.length = n at hlength ⊢
      cases l.allowVariableBlockSize <;> simp only [hnot, hlength, or_false, and_false, reduceIte,
        Bool.false_eq_true, reduceCtorEq, false_and, exists_false]

theorem layout_sized {sizes : ConstraintSet} (hsizes : sizes.validate = .ok ())
    (allowVariableBlockSize : Bool) : (layout sizes allowVariableBlockSize).Sized ∧
      sizes.writeSize.toNat < 2 ^ 32 - 1 := by
  have hvalid := validate_iff_valid.mp hsizes
  have hset : sizes.writeSize.toNat ≠ 2 ^ 32 - 1 := fun hn =>
    hvalid.writeSize_set (UInt32.toNat_inj.mp hn)
  have hlt := sizes.writeSize.toNat_lt
  refine ⟨⟨UInt32.lt_iff_toNat_lt.mp hvalid.writeSize_pos,
    UInt32.le_iff_toNat_le.mp hvalid.write_le_read, UInt32.lt_iff_toNat_lt.mp hvalid.blocksize_pos,
    ?_⟩, by omega⟩
  have hmod := congrArg UInt32.toNat hvalid.block_reads
  rw [UInt32.toNat_mod] at hmod
  exact Nat.dvd_of_mod_eq_zero hmod

/-- Chunks of two bytes that are sent for four, two of them in a block. -/
def smallBlocks : ConstraintSet :=
  { blocksize := 8, mtu := 1500, compressOffset := 0, applicationOverhead := 8,
    protocolOverhead := 28, readSize := 4, writeSize := 2 }

end Jive5ab.Net.Connection
