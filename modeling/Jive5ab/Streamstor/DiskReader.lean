import Jive5ab.Streamstor.TransferSize
import Mathlib.Algebra.BigOperators.Group.List.Basic
import Mathlib.Tactic.Ring

/-! # Reading a range of the disk

The thread `diskreader` of `threadfns.cc`: blocks of a range, in transfers that are smaller. -/
namespace Jive5ab.Streamstor

/-- `playpointer`: values are truncated to a multiple of eight. -/
structure Playpointer where
  addr : Nat
  lt : addr < 2 ^ 64
  eight : 8 ∣ addr
  deriving DecidableEq

/-- `operator+=` -/
def Playpointer.add (p : Playpointer) (v : Nat) : Playpointer where
  addr := (p.addr + v / 8 * 8) % 2 ^ 64
  lt := Nat.mod_lt _ (by decide)
  eight := (Nat.dvd_mod_iff (by decide)).mpr (Nat.dvd_add p.eight (Nat.dvd_mul_left _ _))

/-- The conversion to `int64_t`. -/
def int64 (n : Int) : Int := n.bmod (2 ^ 64)

/-- `operator-`, which goes round as the machine does. -/
def Playpointer.sub (x y : Playpointer) : Int := int64 (int64 x.addr - int64 y.addr)

/-- `S_READDESC` -/
structure Readdesc where
  addr : Nat
  xferLength : Nat
  deriving DecidableEq

/-- What `diskreader` is started with, and what it has found for its transfers. `ulong` is the
number of bits of an `unsigned long`. -/
structure Diskreaderargs where
  request : Request
  transfer : Transfer
  found : request.transfer .diskreader = .ok transfer
  ppStart : Playpointer
  ppEnd : Playpointer
  allowVariableBlockSize : Bool
  repeats : Bool
  ulong : Nat
  ulong_eq : ulong = 32 ∨ ulong = 64

namespace Diskreaderargs

variable (a : Diskreaderargs)

def blocksize : Nat := a.request.blocksize

def iosz : Nat := a.transfer.iosz

def nread : Nat := a.blocksize / a.iosz

def minimumReadSize : Nat := if a.allowVariableBlockSize then 8 else a.blocksize

/-- The test for the end of the playable region. -/
def AtEnd (cur : Nat) : Prop := a.ppEnd.addr < (cur + a.minimumReadSize) % 2 ^ 64

instance (cur : Nat) : Decidable (a.AtEnd cur) := by
  unfold AtEnd
  infer_instance

/-- The first divider that fits gives a size that goes into a block. -/
theorem iosz_divides : 0 < a.iosz ∧ a.iosz ∣ a.blocksize ∧ 8 ∣ a.iosz ∧ 0 < a.blocksize := by
  have hfound := a.found
  unfold Request.transfer at hfound
  dsimp only at hfound
  split at hfound
  · cases hfound
  split at hfound
  · cases hfound
  rename_i hpos _
  have hpos' := Nat.pos_of_ne_zero hpos
  split at hfound
  · have heq := congrArg Transfer.iosz (Except.ok.inj hfound)
    unfold iosz blocksize
    rw [← heq]
    exact ⟨hpos', Nat.dvd_refl _, Nat.dvd_of_mod_eq_zero a.request.blocksize_mod, hpos'⟩
  · split at hfound
    · cases hfound
    · rename_i hne
      have heq := congrArg Transfer.iosz (Except.ok.inj hfound)
      dsimp only at heq
      obtain ⟨n, -, -, hdiv, hn⟩ := findIosz_sound hne
      have hdvd := Nat.dvd_of_mod_eq_zero hdiv.1
      unfold iosz blocksize
      rw [← heq]
      refine ⟨Nat.pos_of_ne_zero hne, ?_, ?_, hpos'⟩
      · rw [hn]
        exact Nat.div_dvd_of_dvd hdvd
      · rw [hn]
        exact Nat.dvd_of_mod_eq_zero hdiv.2

/-- `cur_pp` and the length in `readdesc`, which is kept from one block to the next. -/
structure State where
  cur : Playpointer
  xferLength : Nat
  eight : 8 ∣ xferLength

/-- At the start, and again when the range is repeated. -/
def start : State := ⟨a.ppStart, a.iosz, a.iosz_divides.2.2.1⟩

/-- The length of the next transfer. -/
def shrink (s : State) : Nat :=
  let bytesLeft := a.ppEnd.sub s.cur
  if bytesLeft < int64 s.xferLength then (bytesLeft % (2 ^ a.ulong : Nat)).toNat
  else s.xferLength

end Diskreaderargs

/-! ## Multiples of eight -/

theorem eight_dvd_int64 {z : Int} (h : (8 : Int) ∣ z) : (8 : Int) ∣ int64 z := by
  have hround := Int.emod_emod_of_dvd (z.bmod (2 ^ 64)) (show (8 : Int) ∣ (2 ^ 64 : Nat) by decide)
  rw [Int.bmod_emod, Int.emod_emod_of_dvd z (by decide), Int.emod_eq_zero_of_dvd h] at hround
  exact Int.dvd_of_emod_eq_zero hround.symm

theorem Playpointer.eight_dvd_sub (x y : Playpointer) : (8 : Int) ∣ x.sub y := by
  have hx := eight_dvd_int64 (Int.natCast_dvd_natCast.mpr x.eight)
  have hy := eight_dvd_int64 (Int.natCast_dvd_natCast.mpr y.eight)
  exact eight_dvd_int64 (Int.dvd_sub hx hy)

namespace Diskreaderargs

variable (a : Diskreaderargs)

theorem eight_dvd_ulong : 8 ∣ 2 ^ a.ulong := by
  rcases a.ulong_eq with h | h
  · rw [h]
    decide
  · rw [h]
    decide

theorem eight_dvd_shrink (s : State) : 8 ∣ a.shrink s := by
  unfold shrink
  dsimp only
  split
  · have hulong : (8 : Int) ∣ (2 ^ a.ulong : Nat) := Int.natCast_dvd_natCast.mpr a.eight_dvd_ulong
    have hround := Int.emod_emod_of_dvd (a.ppEnd.sub s.cur) hulong
    rw [Int.emod_eq_zero_of_dvd (Playpointer.eight_dvd_sub _ _)] at hround
    have hnonneg : 0 ≤ a.ppEnd.sub s.cur % (2 ^ a.ulong : Nat) :=
      Int.emod_nonneg _ (Int.natCast_ne_zero.mpr (Nat.two_pow_pos _).ne')
    rw [← Int.natCast_dvd_natCast, Int.toNat_of_nonneg hnonneg]
    exact Int.dvd_of_emod_eq_zero hround
  · exact s.eight

/-! ## Blocks and passes -/

/-- What has been read into a block. -/
abbrev Block := List Readdesc

/-- After one transfer. -/
def read (s : State) : State where
  cur := s.cur.add (a.shrink s)
  xferLength := a.shrink s
  eight := a.eight_dvd_shrink s

/-- `while( readcnt )` -/
def readBlock : Nat → State → Block × State
  | 0, s => ([], s)
  | readcnt + 1, s =>
    let readdesc : Readdesc := ⟨s.cur.addr, a.shrink s⟩
    if a.shrink s ≠ a.iosz then ([readdesc], a.read s)
    else
      let (b, s) := readBlock readcnt (a.read s)
      (readdesc :: b, s)

/-- At the end of the region the reader stops or goes back to the start. -/
def next (s : State) : Option State :=
  if a.AtEnd s.cur.addr then if a.repeats then some a.start else none else some s

/-- `while( !stop )`: the blocks that are pushed, and whether the end was found after them. -/
def loop : Nat → Option State → List (Block × Bool)
  | 0, _ => []
  | _ + 1, none => []
  | n + 1, some s =>
    let (b, s) := a.readBlock a.nread s
    (b, a.AtEnd s.cur.addr) :: loop n (a.next s)

/-- The first `n` blocks. -/
def diskreader (n : Nat) : List (Block × Bool) :=
  a.loop n (if a.AtEnd a.ppStart.addr then none else some a.start)

/-! ## What a pass has to read -/

/-- Where a pass from `cur` has to end. -/
def stop (cur : Nat) : Nat :=
  if a.allowVariableBlockSize then max cur a.ppEnd.addr
  else cur + (a.ppEnd.addr - cur) / a.blocksize * a.blocksize

end Diskreaderargs

/-- The bytes of a recording, and `XLRRead`, which gives as many of them as it is asked for. -/
structure Recording where
  disk : Nat → UInt8
  xlrRead : Readdesc → List UInt8
  reads : ∀ d, xlrRead d = (List.range d.xferLength).map fun i => disk (d.addr + i)

namespace Recording

variable (r : Recording)

/-- `n` bytes from an address on. -/
def bytes (addr n : Nat) : List UInt8 := (List.range n).map fun i => r.disk (addr + i)

/-- What is in a block. -/
def content (b : Diskreaderargs.Block) : List UInt8 := b.flatMap r.xlrRead

end Recording

namespace Diskreaderargs

variable (a : Diskreaderargs) (r : Recording)

/-- The blocks of a pass that starts at `cur`. -/
structure Pass (cur : Nat) (blocks : List Block) : Prop where
  covers : blocks.flatMap r.content = r.bytes cur (a.stop cur - cur)
  full : ∀ b ∈ blocks.dropLast, (r.content b).length = a.blocksize
  fits : ∀ b ∈ blocks, (r.content b).length ≤ a.blocksize
  transfers : ∀ d ∈ blocks.flatten.dropLast, d.xferLength = a.iosz

/-- The end is found after the last block. -/
def marked : List Block → List (Block × Bool)
  | [] => []
  | [b] => [(b, true)]
  | b :: blocks => (b, false) :: marked blocks

/-- All that is read is one pass, or the same pass again and again. -/
def Covers : Prop :=
  ∃ blocks, a.Pass r a.ppStart.addr blocks ∧ ∀ n,
    a.diskreader n = ((List.replicate (if a.repeats then n else 1) (marked blocks)).flatten).take n

/-- The test finds the end where the pass has to end, and a range of at least one smallest read is
shorter than the half of what the pointers reach. -/
def Fits : Prop :=
  a.AtEnd (a.stop a.ppStart.addr) ∧
    (a.ppStart.addr + a.minimumReadSize ≤ a.ppEnd.addr → a.ppEnd.addr - a.ppStart.addr < 2 ^ 63)

/-! ## Machine arithmetic -/

variable {a}

theorem sub_of_near {x y : Playpointer} (hle : y.addr ≤ x.addr) (hlt : x.addr - y.addr < 2 ^ 63) :
    x.sub y = (x.addr - y.addr : Nat) := by
  have hx := x.lt
  unfold Playpointer.sub int64
  rw [Int.bmod_sub_bmod, Int.sub_bmod_bmod, ← Int.ofNat_sub hle]
  exact Int.bmod_eq_of_le (by omega) (by omega)

theorem sub_of_far {x y : Playpointer} (hle : y.addr ≤ x.addr)
    (hge : 2 ^ 63 ≤ x.addr - y.addr) :
    x.sub y = (x.addr - y.addr : Nat) - 2 ^ 64 := by
  have hx := x.lt
  unfold Playpointer.sub int64
  rw [Int.bmod_sub_bmod, Int.sub_bmod_bmod, ← Int.ofNat_sub hle, ← Int.sub_bmod_right]
  exact Int.bmod_eq_of_le (by omega) (by omega)

theorem int64_of_lt {n : Nat} (h : n < 2 ^ 63) : int64 n = n :=
  Int.bmod_eq_of_le (by omega) (by omega)

theorem add_addr {p : Playpointer} {v : Nat} (h : 8 ∣ v) :
    (p.add v).addr = (p.addr + v) % 2 ^ 64 := by
  change (p.addr + v / 8 * 8) % 2 ^ 64 = _
  rw [Nat.div_mul_cancel h]

theorem read_cur (a : Diskreaderargs) (s : State) :
    (a.read s).cur.addr = (s.cur.addr + a.shrink s) % 2 ^ 64 := by
  rw [read, add_addr (a.eight_dvd_shrink s)]

theorem read_xferLength (a : Diskreaderargs) (s : State) :
    (a.read s).xferLength = a.shrink s := by
  rw [read]

theorem start_cur (a : Diskreaderargs) : a.start.cur = a.ppStart := rfl

theorem start_xferLength (a : Diskreaderargs) : a.start.xferLength = a.iosz := rfl

theorem iosz_lt : a.iosz < 2 ^ 32 :=
  Nat.lt_of_le_of_lt (Nat.le_of_dvd a.iosz_divides.2.2.2 a.iosz_divides.2.1)
    a.request.blocksize_lt

theorem le_ulong : 2 ^ 32 ≤ 2 ^ a.ulong := by
  rcases a.ulong_eq with h | h
  · rw [h]
  · rw [h]
    decide

theorem nread_mul : a.nread * a.iosz = a.blocksize := Nat.div_mul_cancel a.iosz_divides.2.1

theorem nread_pos : 0 < a.nread :=
  Nat.div_pos (Nat.le_of_dvd a.iosz_divides.2.2.2 a.iosz_divides.2.1) a.iosz_divides.1

/-! ## The bytes that are read -/

variable {r}

theorem bytes_append (addr m n : Nat) :
    r.bytes addr m ++ r.bytes (addr + m) n = r.bytes addr (m + n) := by
  unfold Recording.bytes
  rw [List.range_add, List.map_append, List.map_map]
  congr 1
  refine List.map_congr_left fun i _ => ?_
  rw [Function.comp_apply, Nat.add_assoc]

theorem length_bytes (addr n : Nat) : (r.bytes addr n).length = n := by
  rw [Recording.bytes, List.length_map, List.length_range]

theorem xlrRead_eq (addr n : Nat) : r.xlrRead ⟨addr, n⟩ = r.bytes addr n := r.reads ⟨addr, n⟩

/-! ## One block -/

/-- As long as the end is not far away, transfers are whole until the last. -/
theorem shrink_near {s : State} (hle : s.cur.addr ≤ a.ppEnd.addr)
    (hlt : a.ppEnd.addr - s.cur.addr < 2 ^ 63) (hx : s.xferLength = a.iosz) :
    a.shrink s = min a.iosz (a.ppEnd.addr - s.cur.addr) := by
  have hiosz := a.iosz_lt
  unfold shrink
  dsimp only
  rw [sub_of_near hle hlt, hx, int64_of_lt (by omega)]
  by_cases hshort : a.ppEnd.addr - s.cur.addr < a.iosz
  · rw [if_pos (Int.ofNat_lt.mpr hshort), ← Int.natCast_emod, Int.toNat_natCast,
      Nat.mod_eq_of_lt (by have := a.le_ulong; omega), Nat.min_eq_right hshort.le]
  · rw [if_neg (fun h => hshort (Int.ofNat_lt.mp h)), Nat.min_eq_left (Nat.not_lt.mp hshort)]

variable (a r) in
/-- A block of at most `k` transfers that ends at the end of the range or is full. -/
structure ReadNear (k : Nat) (s : State) : Prop where
  content : r.content (a.readBlock k s).1 =
    r.bytes s.cur.addr (min (k * a.iosz) (a.ppEnd.addr - s.cur.addr))
  cur : (a.readBlock k s).2.cur.addr =
    s.cur.addr + min (k * a.iosz) (a.ppEnd.addr - s.cur.addr)
  whole : k * a.iosz ≤ a.ppEnd.addr - s.cur.addr →
    (a.readBlock k s).2.xferLength = a.iosz ∧ ∀ d ∈ (a.readBlock k s).1, d.xferLength = a.iosz
  transfers : ∀ d ∈ (a.readBlock k s).1.dropLast, d.xferLength = a.iosz

theorem readBlock_short {k : Nat} {s : State} (h : a.shrink s ≠ a.iosz) :
    a.readBlock (k + 1) s = ([⟨s.cur.addr, a.shrink s⟩], a.read s) := by
  rw [readBlock]
  exact if_pos h

theorem readBlock_whole {k : Nat} {s : State} (h : a.shrink s = a.iosz) :
    a.readBlock (k + 1) s = (⟨s.cur.addr, a.shrink s⟩ :: (a.readBlock k (a.read s)).1,
      (a.readBlock k (a.read s)).2) := by
  rw [readBlock]
  exact if_neg (not_not.mpr h)

theorem readBlock_near (k : Nat) {s : State} (hle : s.cur.addr ≤ a.ppEnd.addr)
    (hlt : a.ppEnd.addr - s.cur.addr < 2 ^ 63) (hx : s.xferLength = a.iosz) :
    a.ReadNear r k s := by
  induction k generalizing s with
  | zero =>
    refine ⟨?_, ?_, fun _ => ⟨hx, fun d hd => absurd hd List.not_mem_nil⟩,
      fun d hd => absurd hd List.not_mem_nil⟩
    · rw [Nat.zero_mul, Nat.zero_min]
      rfl
    · rw [Nat.zero_mul, Nat.zero_min]
      rfl
  | succ k ih =>
    have hend := a.ppEnd.lt
    have hshrink := shrink_near hle hlt hx
    have hadd := a.read_cur s
    have hmul : (k + 1) * a.iosz = a.iosz + k * a.iosz := by
      rw [Nat.succ_mul, Nat.add_comm]
    rcases Nat.lt_or_ge (a.ppEnd.addr - s.cur.addr) a.iosz with hshort | hmore
    · -- the last transfer of the range
      rw [Nat.min_eq_right hshort.le] at hshrink
      have hne : a.shrink s ≠ a.iosz := by omega
      have hmin : min ((k + 1) * a.iosz) (a.ppEnd.addr - s.cur.addr) =
          a.ppEnd.addr - s.cur.addr := Nat.min_eq_right (by omega)
      refine ⟨?_, ?_, fun hwhole => by omega, ?_⟩
      · rw [readBlock_short hne, hmin, Recording.content, List.flatMap_singleton, xlrRead_eq,
          hshrink]
      · rw [readBlock_short hne, hmin, hadd, hshrink]
        exact Nat.mod_eq_of_lt (by omega)
      · rw [readBlock_short hne]
        exact fun d hd => absurd hd List.not_mem_nil
    · rw [Nat.min_eq_left hmore] at hshrink
      rw [hshrink, Nat.mod_eq_of_lt (by omega)] at hadd
      have hrest : a.ppEnd.addr - (a.read s).cur.addr =
          a.ppEnd.addr - s.cur.addr - a.iosz := by omega
      have hmin : min ((k + 1) * a.iosz) (a.ppEnd.addr - s.cur.addr) =
          a.iosz + min (k * a.iosz) (a.ppEnd.addr - (a.read s).cur.addr) := by omega
      have h := ih (s := a.read s) (by omega) (by omega)
        ((a.read_xferLength s).trans hshrink)
      refine ⟨?_, ?_, fun hwhole => ?_, ?_⟩
      · rw [readBlock_whole hshrink, hmin, ← bytes_append, ← hadd]
        have hcontent := h.content
        unfold Recording.content at hcontent ⊢
        rw [List.flatMap_cons, hcontent, xlrRead_eq, hshrink]
      · rw [readBlock_whole hshrink, hmin, h.cur, hadd, Nat.add_assoc]
      · obtain ⟨hkept, hall⟩ := h.whole (by omega)
        rw [readBlock_whole hshrink]
        refine ⟨hkept, fun d hd => ?_⟩
        rcases List.mem_cons.mp hd with rfl | hd
        · dsimp only
          exact hshrink
        · exact hall d hd
      · rw [readBlock_whole hshrink]
        intro d hd
        have htransfers := h.transfers
        cases hblock : (a.readBlock k (a.read s)).1 with
        | nil =>
          rw [hblock] at hd
          exact absurd hd List.not_mem_nil
        | cons d' b =>
          rw [hblock] at hd htransfers
          rw [List.dropLast_cons_cons] at hd
          rcases List.mem_cons.mp hd with rfl | hd
          · dsimp only
            exact hshrink
          · exact htransfers d hd

/-! ## One pass -/

theorem minimumReadSize_pos : 0 < a.minimumReadSize := by
  unfold minimumReadSize
  split
  · decide
  · exact a.iosz_divides.2.2.2

theorem le_stop (cur : Nat) : cur ≤ a.stop cur := by
  unfold stop
  split
  · exact Nat.le_max_left _ _
  · exact Nat.le_add_right _ _

/-- A whole block does not change where the pass has to end. -/
theorem stop_add {cur : Nat} (h : cur + a.blocksize ≤ a.ppEnd.addr) :
    a.stop (cur + a.blocksize) = a.stop cur := by
  have hpos := a.iosz_divides.2.2.2
  unfold stop
  split
  · rw [Nat.max_eq_right h, Nat.max_eq_right (by omega)]
  · have hdiv : (a.ppEnd.addr - cur) / a.blocksize =
        (a.ppEnd.addr - (cur + a.blocksize)) / a.blocksize + 1 := by
      rw [← Nat.add_div_right _ hpos]
      congr 1
      omega
    rw [hdiv, Nat.succ_mul]
    omega

/-- Where less than the smallest read is left, the block that was read is the last. -/
theorem stop_last {cur : Nat} (hcur : 8 ∣ cur) (hle : cur + a.minimumReadSize ≤ a.ppEnd.addr)
    (hlast : a.ppEnd.addr <
      cur + min a.blocksize (a.ppEnd.addr - cur) + a.minimumReadSize) :
    a.stop cur = cur + min a.blocksize (a.ppEnd.addr - cur) := by
  have height := a.ppEnd.eight
  have hblock := Nat.dvd_trans a.iosz_divides.2.2.1 a.iosz_divides.2.1
  unfold stop minimumReadSize at *
  split at hle
  · rename_i hvariable
    rw [if_pos hvariable] at hlast ⊢
    omega
  · rename_i hfixed
    rw [if_neg hfixed] at hlast ⊢
    have hone : (a.ppEnd.addr - cur) / a.blocksize = 1 :=
      Nat.div_eq_of_lt_le (by omega) (by omega)
    rw [hone, Nat.one_mul, Nat.min_eq_left (by omega)]

/-- Where less than the smallest read is left there is nothing to do. -/
theorem stop_none {cur : Nat} (hcur : 8 ∣ cur) (h : ¬cur + a.minimumReadSize ≤ a.ppEnd.addr) :
    a.stop cur = cur := by
  have height := a.ppEnd.eight
  have hpos := a.iosz_divides.2.2.2
  unfold stop minimumReadSize at *
  split at h
  · rename_i hvariable
    rw [if_pos hvariable]
    omega
  · rename_i hfixed
    rw [if_neg hfixed, Nat.div_eq_of_lt (by omega), Nat.zero_mul, Nat.add_zero]

theorem not_atEnd {cur : Nat} (h : cur + a.minimumReadSize ≤ a.ppEnd.addr) : ¬a.AtEnd cur := by
  have hlt := a.ppEnd.lt
  unfold AtEnd
  rw [Nat.mod_eq_of_lt (Nat.lt_of_le_of_lt h hlt)]
  exact Nat.not_lt.mpr h

theorem loop_succ (n : Nat) (s : State) :
    a.loop (n + 1) (some s) =
      ((a.readBlock a.nread s).1, decide (a.AtEnd (a.readBlock a.nread s).2.cur.addr)) ::
        a.loop n (a.next (a.readBlock a.nread s).2) := by
  rw [loop]

theorem loop_none (n : Nat) : a.loop n none = [] := by
  cases n with
  | zero => rfl
  | succ n => rfl

/-- A block and the pass that comes after it. -/
theorem Pass.cons {cur : Nat} {b : Block} {blocks : List Block}
    (hcontent : r.content b = r.bytes cur a.blocksize)
    (hb : ∀ d ∈ b, d.xferLength = a.iosz) (hne : blocks ≠ [])
    (hle : cur + a.blocksize ≤ a.ppEnd.addr) (h : a.Pass r (cur + a.blocksize) blocks) :
    a.Pass r cur (b :: blocks) := by
  have hlen : (r.content b).length = a.blocksize := by rw [hcontent, length_bytes]
  have hstop := a.le_stop (cur + a.blocksize)
  refine ⟨?_, fun b' hb' => ?_, fun b' hb' => ?_, fun d hd => ?_⟩
  · rw [List.flatMap_cons, h.covers, hcontent, bytes_append, stop_add hle] at *
    congr 1
    omega
  · rw [List.dropLast_cons_of_ne_nil hne] at hb'
    rcases List.mem_cons.mp hb' with rfl | hb'
    · exact hlen
    · exact h.full b' hb'
  · rcases List.mem_cons.mp hb' with rfl | hb'
    · exact hlen.le
    · exact h.fits b' hb'
  · rw [List.flatten_cons, List.dropLast_append] at hd
    split at hd
    · exact hb d (List.dropLast_subset _ hd)
    · rcases List.mem_append.mp hd with hd | hd
      · exact hb d hd
      · exact h.transfers d hd

theorem pass_near {s : State} (hx : s.xferLength = a.iosz)
    (hle : s.cur.addr + a.minimumReadSize ≤ a.ppEnd.addr)
    (hlt : a.ppEnd.addr - s.cur.addr < 2 ^ 63) (hend : a.AtEnd (a.stop s.cur.addr)) :
    ∃ blocks, blocks ≠ [] ∧ a.Pass r s.cur.addr blocks ∧ ∀ n,
      a.loop (blocks.length + n) (some s) =
        marked blocks ++ a.loop n (if a.repeats then some a.start else none) := by
  induction hr : a.ppEnd.addr - s.cur.addr using Nat.strongRecOn generalizing s with
  | _ left ih =>
    have hpos := a.iosz_divides.2.2.2
    have hminimum := a.minimumReadSize_pos
    have hread := readBlock_near (r := r) a.nread (by omega) hlt hx
    have hcontent := hread.content
    have hcur := hread.cur
    rw [nread_mul] at hcontent hcur
    have hwhole := hread.whole
    rw [nread_mul] at hwhole
    generalize hst : a.readBlock a.nread s = read at hcontent hcur hwhole
    obtain ⟨b, s'⟩ := read
    dsimp only at hcontent hcur hwhole
    by_cases hmore : s'.cur.addr + a.minimumReadSize ≤ a.ppEnd.addr
    · have hfull : a.blocksize ≤ a.ppEnd.addr - s.cur.addr := by omega
      rw [Nat.min_eq_left hfull] at hcontent hcur
      obtain ⟨hkept, hb⟩ := hwhole hfull
      have hnext : a.next s' = some s' := if_neg (not_atEnd hmore)
      have hstop : a.stop s'.cur.addr = a.stop s.cur.addr := by
        rw [hcur]
        exact stop_add (by omega)
      obtain ⟨blocks, hne, hpass, hloop⟩ :=
        ih _ (by omega) hkept hmore (by omega) (hstop ▸ hend) rfl
      rw [hcur] at hpass
      refine ⟨b :: blocks, List.cons_ne_nil _ _, hpass.cons hcontent hb hne (by omega), fun n => ?_⟩
      rw [List.length_cons, Nat.succ_add, loop_succ, hst]
      dsimp only
      rw [hnext, hloop n, decide_eq_false (not_atEnd hmore)]
      obtain ⟨b', blocks', rfl⟩ := List.exists_cons_of_ne_nil hne
      rfl
    · have hstop := stop_last s.cur.eight hle (by omega)
      rw [← hcur] at hstop
      rw [hstop] at hend
      refine ⟨[b], List.cons_ne_nil _ _, ⟨?_, fun _ h => absurd h List.not_mem_nil, ?_, ?_⟩,
        fun n => ?_⟩
      · rw [List.flatMap_singleton, hcontent, hstop, hcur]
        congr 1
        omega
      · intro b' hb'
        rw [List.mem_singleton.mp hb', hcontent, length_bytes]
        exact Nat.min_le_left _ _
      · have htransfers := hread.transfers
        rw [hst] at htransfers
        rwa [List.flatten_singleton]
      · rw [List.length_singleton, Nat.add_comm, loop_succ, hst]
        dsimp only
        rw [decide_eq_true hend, next, if_pos hend]
        rfl

/-! ## All passes -/

theorem loop_take (m n : Nat) (s : Option State) : a.loop m s = (a.loop (m + n) s).take m := by
  induction m generalizing s with
  | zero => rfl
  | succ m ih =>
    cases s with
    | none => rw [loop_none, loop_none, List.take_nil]
    | some s => rw [Nat.succ_add, loop_succ, loop_succ, List.take_succ_cons, ← ih]

theorem marked_cons (b : Block) (blocks : List Block) :
    ∃ mark rest, marked (b :: blocks) = (b, mark) :: rest := by
  cases blocks with
  | nil => exact ⟨true, [], rfl⟩
  | cons b' blocks => exact ⟨false, marked (b' :: blocks), rfl⟩

theorem length_marked (blocks : List Block) : (marked blocks).length = blocks.length := by
  induction blocks with
  | nil => rfl
  | cons b blocks ih =>
    cases blocks with
    | nil => rfl
    | cons b' blocks =>
      have hcons : marked (b :: b' :: blocks) = (b, false) :: marked (b' :: blocks) := rfl
      rw [hcons, List.length_cons, ih, List.length_cons (a := b)]

/-- What comes out of a loop that does one pass and then stops or starts again. -/
theorem loop_passes {blocks : List Block} (hne : blocks ≠ [])
    (hloop : ∀ n, a.loop (blocks.length + n) (some a.start) =
      marked blocks ++ a.loop n (if a.repeats then some a.start else none)) (n : Nat) :
    a.loop n (some a.start) =
      ((List.replicate (if a.repeats then n else 1) (marked blocks)).flatten).take n := by
  have hlen := List.length_pos_of_ne_nil hne
  by_cases hrepeats : a.repeats
  · have hpasses : ∀ k, a.loop (k * blocks.length) (some a.start) =
        (List.replicate k (marked blocks)).flatten := by
      intro k
      induction k with
      | zero => rw [Nat.zero_mul]; rfl
      | succ k ih =>
        rw [Nat.succ_mul, Nat.add_comm, hloop, if_pos hrepeats, ih, List.replicate_succ,
          List.flatten_cons]
    rw [if_pos hrepeats, ← hpasses n]
    obtain ⟨m, hm⟩ := Nat.exists_eq_add_of_le (Nat.le_mul_of_pos_right n hlen)
    rw [hm]
    exact a.loop_take n m _
  · have hone := hloop n
    rw [if_neg hrepeats, loop_none, List.append_nil] at hone
    rw [if_neg hrepeats, List.replicate_one, List.flatten_singleton, ← hone, Nat.add_comm]
    exact a.loop_take n _ _

theorem covers_of_fits (h : a.Fits) : a.Covers r := by
  obtain ⟨hend, hnear⟩ := h
  by_cases hstart : a.AtEnd a.ppStart.addr
  · have hstop := stop_none a.ppStart.eight fun hle => not_atEnd hle hstart
    refine ⟨[], ⟨?_, nofun, nofun, nofun⟩, fun n => ?_⟩
    · rw [hstop, Nat.sub_self]
      rfl
    · rw [diskreader, if_pos hstart, loop_none, marked, List.flatten_replicate_nil, List.take_nil]
  · have hle : a.ppStart.addr + a.minimumReadSize ≤ a.ppEnd.addr := by
      by_contra hnot
      rw [stop_none a.ppStart.eight hnot] at hend
      exact hstart hend
    obtain ⟨blocks, hne, hpass, hloop⟩ :=
      pass_near (r := r) (s := a.start) rfl hle (hnear hle) hend
    refine ⟨blocks, hpass, fun n => ?_⟩
    rw [diskreader, if_neg hstart]
    exact loop_passes hne hloop n

/-! ## Where it goes wrong -/

/-- Where the pointer is after a block. -/
theorem readBlock_cur (k : Nat) (s : State) : (a.readBlock k s).2.cur.addr =
    (s.cur.addr + (r.content (a.readBlock k s).1).length) % 2 ^ 64 := by
  induction k generalizing s with
  | zero =>
    rw [readBlock]
    exact (Nat.mod_eq_of_lt s.cur.lt).symm
  | succ k ih =>
    by_cases hwhole : a.shrink s = a.iosz
    · have hcontent : (r.content (a.readBlock (k + 1) s).1).length =
          a.shrink s + (r.content (a.readBlock k (a.read s)).1).length := by
        rw [readBlock_whole hwhole]
        unfold Recording.content
        rw [List.flatMap_cons, List.length_append, xlrRead_eq, length_bytes]
      rw [hcontent, readBlock_whole hwhole, ih, read_cur, Nat.mod_add_mod, Nat.add_assoc]
    · rw [readBlock_short hwhole, Recording.content, List.flatMap_singleton, xlrRead_eq,
        length_bytes, read_cur]

/-- A loop that does a pass finds the end after all that it has read. -/
theorem atEnd_of_marked {blocks : List Block} (hne : blocks ≠ []) {s : State}
    (h : a.loop blocks.length (some s) = marked blocks) :
    a.AtEnd ((s.cur.addr + (blocks.flatMap r.content).length) % 2 ^ 64) := by
  induction blocks generalizing s with
  | nil => exact absurd rfl hne
  | cons b blocks ih =>
    rw [List.length_cons, loop_succ] at h
    have hcur := a.readBlock_cur (r := r) a.nread s
    cases blocks with
    | nil =>
      obtain ⟨hhead, -⟩ := List.cons.inj h
      obtain ⟨hb, hmark⟩ := Prod.mk.inj hhead
      rw [List.flatMap_singleton, ← hb, ← hcur]
      exact of_decide_eq_true hmark
    | cons b' blocks =>
      obtain ⟨hhead, htail⟩ := List.cons.inj h
      obtain ⟨hb, hmark⟩ := Prod.mk.inj hhead
      rw [next, if_neg (of_decide_eq_false hmark)] at htail
      have hend := ih (List.cons_ne_nil _ _) htail
      rw [hcur, hb] at hend
      rw [List.flatMap_cons, List.length_append, ← Nat.add_assoc]
      rwa [Nat.mod_add_mod] at hend

/-- A loop that does passes does the first of them. -/
theorem loop_of_passes {blocks : List Block} (s : State)
    (h : ∀ n, a.loop n (some s) =
      ((List.replicate (if a.repeats then n else 1) (marked blocks)).flatten).take n) :
    blocks ≠ [] ∧ a.loop blocks.length (some s) = marked blocks := by
  have hne : blocks ≠ [] := by
    rintro rfl
    have hone := h 1
    rw [loop_succ, marked, List.flatten_replicate_nil, List.take_nil] at hone
    cases hone
  refine ⟨hne, ?_⟩
  have hpos : 0 < if a.repeats then blocks.length else 1 := by
    split
    · exact List.length_pos_of_ne_nil hne
    · exact Nat.one_pos
  obtain ⟨k, hk⟩ := Nat.exists_eq_add_of_lt hpos
  rw [h, hk, Nat.zero_add, List.replicate_succ, List.flatten_cons]
  exact List.take_left' (length_marked blocks)

theorem shrink_far {s : State} (hle : s.cur.addr ≤ a.ppEnd.addr)
    (hge : 2 ^ 63 ≤ a.ppEnd.addr - s.cur.addr) (hx : s.xferLength < 2 ^ 63) :
    a.shrink s = (a.ppEnd.addr - s.cur.addr) % 2 ^ a.ulong := by
  have hlt := a.ppEnd.lt
  unfold shrink
  dsimp only
  rw [sub_of_far hle hge, int64_of_lt hx, if_pos (by omega)]
  rcases a.ulong_eq with h | h
  · rw [h]
    omega
  · rw [h]
    omega

/-- With 32 bits, a block is as long as the last bits of what is left. -/
theorem readBlock_far (h : a.ulong = 32) (k : Nat) {s : State}
    (hle : s.cur.addr ≤ a.ppEnd.addr) (hge : 2 ^ 63 ≤ a.ppEnd.addr - s.cur.addr)
    (hx : s.xferLength < 2 ^ 63) :
    (r.content (a.readBlock (k + 1) s).1).length = (a.ppEnd.addr - s.cur.addr) % 2 ^ 32 ∧
      (a.readBlock (k + 1) s).2.xferLength < 2 ^ 63 := by
  have hlt := a.ppEnd.lt
  have hiosz := a.iosz_divides.1
  have hshrink := shrink_far hle hge hx
  rw [h] at hshrink
  by_cases hwhole : a.shrink s = a.iosz
  · cases k with
    | zero =>
      rw [readBlock_whole hwhole, readBlock]
      dsimp only
      rw [Recording.content, List.flatMap_singleton, xlrRead_eq, length_bytes, read_xferLength]
      exact ⟨hshrink, by omega⟩
    | succ k =>
      -- of a multiple of 2 ^ 32 there are no last bits
      have hcur := a.read_cur s
      rw [Nat.mod_eq_of_lt (by omega)] at hcur
      have hshrink' := shrink_far (a := a) (s := a.read s) (by omega) (by omega)
        (by rw [read_xferLength]; omega)
      rw [h, hcur] at hshrink'
      have hzero : a.shrink (a.read s) = 0 := by omega
      rw [readBlock_whole hwhole, readBlock_short (by omega)]
      unfold Recording.content
      rw [List.flatMap_cons, List.flatMap_singleton, xlrRead_eq, xlrRead_eq, List.length_append,
        length_bytes, length_bytes, read_xferLength, hzero, Nat.add_zero]
      exact ⟨hshrink, by omega⟩
  · rw [readBlock_short hwhole, Recording.content, List.flatMap_singleton, xlrRead_eq,
      length_bytes, read_xferLength]
    exact ⟨hshrink, by omega⟩

/-- A pass of a range that is too long is longer than two blocks. -/
theorem blocksize_lt_of_far {cur : Nat} (hge : 2 ^ 63 ≤ a.ppEnd.addr - cur) :
    2 * a.blocksize < a.stop cur - cur := by
  have hlt := a.request.blocksize_lt
  have hpos := a.iosz_divides.2.2.2
  change a.blocksize < 2 ^ 32 at hlt
  unfold stop
  split
  · omega
  · have hdiv := Nat.lt_div_mul_add (a := a.ppEnd.addr - cur) hpos
    omega

/-- With 64 bits, the first block is not as long as a block. -/
theorem first_far (h : a.ulong = 64) {s : State} (hle : s.cur.addr ≤ a.ppEnd.addr)
    (hge : 2 ^ 63 ≤ a.ppEnd.addr - s.cur.addr) (hx : s.xferLength < 2 ^ 63) :
    a.blocksize < (r.content (a.readBlock a.nread s).1).length := by
  have hlt := a.ppEnd.lt
  have hiosz := a.iosz_lt
  have hblock := a.request.blocksize_lt
  change a.blocksize < 2 ^ 32 at hblock
  have hshrink := shrink_far hle hge hx
  rw [h, Nat.mod_eq_of_lt (by omega)] at hshrink
  obtain ⟨k, hk⟩ := Nat.exists_eq_add_of_lt a.nread_pos
  rw [hk, Nat.zero_add, readBlock_short (by omega), Recording.content, List.flatMap_singleton,
    xlrRead_eq, length_bytes]
  omega

/-- With 32 bits, there is nothing in the block after a whole one. -/
theorem second_far (h : a.ulong = 32) {s : State} (hle : s.cur.addr ≤ a.ppEnd.addr)
    (hge : 2 ^ 63 ≤ a.ppEnd.addr - s.cur.addr) (hx : s.xferLength < 2 ^ 63)
    (hfull : (r.content (a.readBlock a.nread s).1).length = a.blocksize) :
    (r.content (a.readBlock a.nread (a.readBlock a.nread s).2).1).length = 0 := by
  have hlt := a.ppEnd.lt
  have hcur := a.readBlock_cur (r := r) a.nread s
  obtain ⟨k, hk⟩ := Nat.exists_eq_add_of_lt a.nread_pos
  rw [hfull] at hcur
  rw [hk] at hcur hfull ⊢
  obtain ⟨hlen, hx'⟩ := readBlock_far (r := r) h (0 + k) hle hge hx
  rw [hfull] at hlen
  rw [Nat.mod_eq_of_lt (by omega)] at hcur
  obtain ⟨hlen', -⟩ := readBlock_far (r := r) h (0 + k)
    (s := (a.readBlock (0 + k + 1) s).2) (by omega) (by omega) hx'
  rw [hlen', hcur]
  omega

theorem near_of_covers (h : a.Covers r)
    (hle : a.ppStart.addr + a.minimumReadSize ≤ a.ppEnd.addr) :
    a.ppEnd.addr - a.ppStart.addr < 2 ^ 63 := by
  by_contra hnot
  have hge := Nat.not_lt.mp hnot
  have hpos := a.iosz_divides.2.2.2
  have hiosz := a.iosz_lt
  have hfar := blocksize_lt_of_far hge
  have hle' : a.start.cur.addr ≤ a.ppEnd.addr := by
    rw [start_cur]
    omega
  have hge' : 2 ^ 63 ≤ a.ppEnd.addr - a.start.cur.addr := by rwa [start_cur]
  have hx : a.start.xferLength < 2 ^ 63 := by
    rw [start_xferLength]
    omega
  obtain ⟨blocks, hpass, hloop⟩ := h
  unfold diskreader at hloop
  rw [if_neg (not_atEnd hle)] at hloop
  obtain ⟨hne, hfirst⟩ := loop_of_passes a.start hloop
  have htotal := congrArg List.length hpass.covers
  rw [length_bytes] at htotal
  obtain ⟨b, blocks, rfl⟩ := List.exists_cons_of_ne_nil hne
  rw [List.length_cons, loop_succ] at hfirst
  have hfits := hpass.fits b List.mem_cons_self
  rw [List.flatMap_cons, List.length_append] at htotal
  cases blocks with
  | nil =>
    rw [List.flatMap_nil, List.length_nil] at htotal
    omega
  | cons b' blocks =>
    obtain ⟨hhead, htail⟩ := List.cons.inj hfirst
    obtain ⟨hb, hmark⟩ := Prod.mk.inj hhead
    have hfull : (r.content b).length = a.blocksize :=
      hpass.full b (by rw [List.dropLast_cons_cons]; exact List.mem_cons_self)
    rcases a.ulong_eq with h32 | h64
    · rw [next, if_neg (of_decide_eq_false hmark), List.length_cons, loop_succ] at htail
      obtain ⟨mark, rest, hsecond⟩ := marked_cons b' blocks
      rw [hsecond] at htail
      have hb' := (Prod.mk.inj (List.cons.inj htail).1).1
      have hempty := second_far h32 hle' hge' hx (hb ▸ hfull)
      rw [hb'] at hempty
      cases blocks with
      | nil =>
        rw [List.flatMap_singleton] at htotal
        omega
      | cons b'' blocks =>
        have hfull' := hpass.full b' (by
          rw [List.dropLast_cons_cons, List.dropLast_cons_cons]
          exact List.mem_cons_of_mem _ List.mem_cons_self)
        omega
    · have hlong := first_far (r := r) h64 hle' hge' hx
      rw [hb] at hlong
      omega

theorem atEnd_of_covers (h : a.Covers r) : a.AtEnd (a.stop a.ppStart.addr) := by
  by_cases hstart : a.AtEnd a.ppStart.addr
  · rwa [stop_none a.ppStart.eight fun hle => not_atEnd hle hstart]
  · obtain ⟨blocks, hpass, hloop⟩ := h
    unfold diskreader at hloop
    rw [if_neg hstart] at hloop
    obtain ⟨hne, hfirst⟩ := loop_of_passes a.start hloop
    have hend := atEnd_of_marked (r := r) hne hfirst
    have hstop := a.le_stop a.ppStart.addr
    rw [hpass.covers, length_bytes, start_cur, Nat.add_sub_cancel' hstop] at hend
    unfold AtEnd at hend ⊢
    rwa [Nat.mod_add_mod] at hend

end Diskreaderargs

/-- A recording of zeros. -/
def zeros : Recording where
  disk _ := 0
  xlrRead d := List.replicate d.xferLength 0
  reads d := by rw [List.map_const', List.length_range]

/-- Blocks of 64 kB, of the 16 bytes before the last address of all. -/
def lastBytes : Diskreaderargs where
  request := usual
  transfer := ⟨65536, 128⟩
  found := rfl
  ppStart := ⟨2 ^ 64 - 24, by decide, by decide⟩
  ppEnd := ⟨2 ^ 64 - 8, by decide, by decide⟩
  allowVariableBlockSize := true
  repeats := false
  ulong := 64
  ulong_eq := .inr rfl

end Jive5ab.Streamstor
