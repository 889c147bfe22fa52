import Jive5ab.Lib.ByteMemory
import Jive5ab.Net.UdpsPlacement
import Jive5ab.Trackmask.StaleMemory

/-! # Decompression of blocks

`blockdecompressor` of `threadfns.cc`. A chunk that begins with the fill pattern is not decompressed
but filled, from its end back to what was received; the others are decompressed in place. The
statistics are left out. -/
namespace Jive5ab.Frames
open Lib Trackmask
open Net.Udps.Reader (fillpat)

/-- What the step is started with: the constrained sizes, by their names in `constraints.h`, of which
this lists what `validate` asserts, and what the compressor is made of. The temporaries of the
generated code are not initialised: `tmps p` is what they hold for the chunk at `p`. -/
structure Decompressor where
  readSize : Nat
  writeSize : Nat
  blocksize : Nat
  compressOffset : Nat
  solution : Solution
  signmagdistance : Int
  tmps : Int → Word × Word
  readSize_pos : 0 < readSize
  writeSize_pos : 0 < writeSize
  writeSize_le : writeSize ≤ readSize
  readSize_dvd : readSize ∣ blocksize
  blocksize_pos : 0 < blocksize
  blocksize_mod : blocksize % 8 = 0
  compressOffset_lt : compressOffset < readSize
  compressOffset_mod : compressOffset % 8 = 0

/-- A block with its memory, by address from its begin. -/
structure Block where
  mem : ByteMem
  iovLen : Nat

inductive Outcome
  | skipped
  | raised
  | pushed (m : ByteMem)

namespace Decompressor
variable (d : Decompressor)

/-! ## The code -/

def numwords : Nat := (d.readSize - d.compressOffset) / 8

/-- `none`: the code generator throws. With an empty solution there is no function to call. -/
def compressor : Option (Option Generated) :=
  if d.solution.steps.isEmpty then some none
  else (generateCode d.solution d.numwords false d.signmagdistance).map some

/-- The memory afterwards, and the pointer that is returned. -/
def decompress (c : Option Generated) (tmps : Word × Word) (m : ByteMem) (p : Int) : ByteMem × Int :=
  match c with
  | none => (m, p + 8 * d.numwords)
  | some g =>
    let e := g.decompress.run ⟨m.words p, 0, g.numwords - 1, tmps.1, tmps.2⟩
    (.ofWords e.mem p, p + 8 * e.srcptr)

def readsFill (m : ByteMem) (p : Int) : Bool := (List.range 8).all fun i : Nat => m (p + i) == fillpat i

def storeFill (m : ByteMem) (p : Int) : ByteMem :=
  fun x => if p ≤ x ∧ x < p + 8 then fillpat (x - p).toNat else m x

/-- The pointer is one to words of 64 bits, so it goes back by eight of them. -/
def fillBack (bo : Int) : Nat → Int → ByteMem → ByteMem
  | 0, _, m => m
  | fuel + 1, eo, m => if bo < eo then fillBack bo fuel (eo - 8 * 8) (storeFill m eo) else m

/-- A chunk; `none` if the decompression did not end where it should. -/
def turn (c : Option Generated) (m : ByteMem) (p : Int) : Option ByteMem :=
  if readsFill m p then some (fillBack (p + d.writeSize) d.readSize (p + d.readSize - 8) m)
  else
    let (m', edcptr) := d.decompress c (d.tmps p) m (p + d.compressOffset)
    if (edcptr - p) / 8 = d.writeSize / 8 then some m' else none

def turns (c : Option Generated) : Nat → Int → ByteMem → Option ByteMem
  | 0, _, m => some m
  | k + 1, p, m => (d.turn c m p).bind (turns c k (p + d.readSize))

def blockdecompressor (b : Block) : Outcome :=
  match d.compressor with
  | none => .raised
  | some c =>
    if b.iovLen < d.blocksize then .skipped
    else
      match d.turns c (d.blocksize / d.readSize) 0 b.mem with
      | none => .raised
      | some m => .pushed m

/-! ## What should come of a chunk -/

/-- The bytes of the chunk at `p` that were received, in a memory of zeroes. -/
def received (m : ByteMem) (p : Int) : ByteMem :=
  fun x => if p ≤ x ∧ x < p + d.writeSize then m x else 0

/-- The packet was lost: there is fill pattern for all of it. -/
def Lost (m : ByteMem) (p : Int) : Prop := ∀ i : Nat, i < d.writeSize → m (p + i) = fillpat i

instance (m : ByteMem) (p : Int) : Decidable (d.Lost m p) := by
  unfold Lost
  infer_instance

/-- Byte `i` of the chunk: fill pattern, or the decompression of what was received. -/
def expected (c : Option Generated) (m : ByteMem) (p : Int) (i : Nat) : UInt8 :=
  if d.Lost m p then fillpat i
  else (d.decompress c (0, 0) (d.received m p) (p + d.compressOffset)).1 (p + i)

structure TurnRight (c : Option Generated) (p : Int) (m m' : ByteMem) : Prop where
  chunk : ∀ i : Nat, i < d.readSize → m' (p + i) = d.expected c m p i
  frame : ∀ x, x < p ∨ p + d.readSize ≤ x → m' x = m x

/-- Every chunk is as it should be, and in each turn only its own chunk was modified. -/
structure BlockRight (c : Option Generated) (m out : ByteMem) : Prop where
  chunks : ∀ k : Nat, k < d.blocksize / d.readSize → ∀ i : Nat, i < d.readSize →
    out (k * d.readSize + i) = d.expected c m (k * d.readSize) i
  frame : ∀ k : Nat, k < d.blocksize / d.readSize → ∀ mk mk', d.turns c k 0 m = some mk →
    d.turn c mk (k * d.readSize) = some mk' →
    ∀ x : Int, x < k * d.readSize ∨ k * d.readSize + d.readSize ≤ x → mk' x = mk x

/-- A block that is too short is skipped. -/
def Right (b : Block) : Prop :=
  b.iovLen < d.blocksize ∨ ∃ c out, d.compressor = some c ∧ d.blockdecompressor b = .pushed out ∧
    d.BlockRight c b.mem out

/-! ## When it does -/

/-- The bytes that are filled: those of the last word and of every eighth one before it, as long as
there is something between the word and what was received. -/
def Walked (i : Nat) : Prop :=
  (d.readSize - 1 - i) % 64 < 8 ∧ d.writeSize + 8 + 64 * ((d.readSize - 1 - i) / 64) < d.readSize

instance (i : Nat) : Decidable (d.Walked i) := by
  unfold Walked
  infer_instance

/-- Byte `i` of a chunk that was filled. -/
def refilled (m : ByteMem) (p : Int) (i : Nat) : UInt8 :=
  if d.Walked i then fillpat (7 - (d.readSize - 1 - i) % 64) else m (p + i)

structure ChunkOk (c : Option Generated) (m : ByteMem) (p : Int) : Prop where
  filled : readsFill m p = true → ∀ i : Nat, i < d.readSize → d.refilled m p i = d.expected c m p i
  decompressed : readsFill m p = false →
    let (m', edcptr) := d.decompress c (d.tmps p) m (p + d.compressOffset)
    (edcptr - p) / 8 = d.writeSize / 8 ∧ d.TurnRight c p m m'

end Decompressor

open Decompressor
variable {d : Decompressor} {c : Option Generated}

theorem fillBack_apply {bo : Int} (fuel : Nat) {eo : Int} (hfuel : eo - bo ≤ 64 * fuel) (m : ByteMem)
    (x : Int) :
    fillBack bo fuel eo m x =
      if 0 ≤ eo + 7 - x ∧ (eo + 7 - x) % 64 < 8 ∧ bo < eo - 64 * ((eo + 7 - x) / 64) then
        fillpat (7 - (eo + 7 - x) % 64).toNat
      else m x := by
  induction fuel generalizing eo m with
  | zero =>
    rw [if_neg (by omega)]
    rfl
  | succ fuel ih =>
    unfold fillBack
    by_cases hlt : bo < eo
    · rw [if_pos hlt, ih (by omega)]
      by_cases hnear : eo + 7 - x < 64
      · rw [if_neg (by omega), storeFill]
        by_cases hin : eo ≤ x ∧ x < eo + 8
        · rw [if_pos hin, if_pos (by omega)]
          congr 1
          omega
        · rw [if_neg hin, if_neg (by omega)]
      · have hshift : (eo - 8 * 8 + 7 - x) % 64 = (eo + 7 - x) % 64 := by omega
        by_cases hin : 0 ≤ eo + 7 - x ∧ (eo + 7 - x) % 64 < 8 ∧ bo < eo - 64 * ((eo + 7 - x) / 64)
        · rw [if_pos hin, if_pos (by omega), hshift]
        · rw [if_neg hin, if_neg (by omega), storeFill, if_neg (by omega)]
    · rw [if_neg hlt, if_neg (by omega)]

/-- A chunk that is filled. -/
theorem turn_fill {m : ByteMem} {p : Int} (h : readsFill m p = true) :
    ∃ m', d.turn c m p = some m' ∧ (∀ i : Nat, i < d.readSize → m' (p + i) = d.refilled m p i) ∧
      ∀ x, x < p ∨ p + d.readSize ≤ x → m' x = m x := by
  refine ⟨_, if_pos h, fun i hi => ?_, fun x hx => ?_⟩
  · have hdist : p + (d.readSize : Int) - 8 + 7 - (p + i) = ((d.readSize - 1 - i : Nat) : Int) := by
      omega
    rw [fillBack_apply _ (by omega), hdist, refilled]
    by_cases hw : d.Walked i
    · rw [if_pos hw]
      unfold Walked at hw
      rw [if_pos (by omega)]
      congr 1
      omega
    · rw [if_neg hw]
      unfold Walked at hw
      rw [if_neg (by omega)]
  · rw [fillBack_apply _ (by omega), if_neg]
    omega

/-- A turn does what it should exactly if the chunk is as it must be. -/
theorem turn_right_iff {m : ByteMem} {p : Int} :
    (∃ m', d.turn c m p = some m' ∧ d.TurnRight c p m m') ↔ d.ChunkOk c m p := by
  by_cases hfill : readsFill m p = true
  · obtain ⟨m', hturn, hchunk, hframe⟩ := turn_fill (d := d) (c := c) hfill
    constructor
    · rintro ⟨m'', hturn', hright⟩
      obtain rfl := Option.some.inj (hturn.symm.trans hturn')
      refine ⟨fun _ i hi => (hchunk i hi).symm.trans (hright.chunk i hi), fun h => ?_⟩
      rw [hfill] at h
      cases h
    · exact fun hok => ⟨m', hturn, fun i hi => (hchunk i hi).trans (hok.filled hfill i hi), hframe⟩
  · have hno := Bool.eq_false_iff.mpr hfill
    unfold turn
    rw [if_neg hfill]
    dsimp only
    constructor
    · rintro ⟨m', hturn, hright⟩
      refine ⟨fun h => absurd h hfill, fun _ => ?_⟩
      split at hturn
      · obtain rfl := Option.some.inj hturn
        exact ⟨‹_›, hright⟩
      · cases hturn
    · intro hok
      obtain ⟨hptr, hright⟩ := hok.decompressed hno
      exact ⟨_, if_pos hptr, hright⟩

/-! ## The turns of a block -/

theorem succ_mul_readSize (k : Nat) :
    ((k + 1 : Nat) : Int) * d.readSize = k * d.readSize + d.readSize := by
  rw [Int.natCast_succ, Int.add_mul, Int.one_mul]

theorem turns_succ (k : Nat) (p : Int) (m : ByteMem) :
    d.turns c (k + 1) p m = (d.turns c k p m).bind fun mk => d.turn c mk (p + k * d.readSize) := by
  induction k generalizing p m with
  | zero =>
    have hzero : p + ((0 : Nat) : Int) * d.readSize = p := by simp
    simp only [turns, Option.bind_some, hzero]
    cases d.turn c m p <;> rfl
  | succ k ih =>
    have hnext : p + d.readSize + k * d.readSize = p + (k + 1 : Nat) * d.readSize := by
      rw [succ_mul_readSize, Int.add_assoc, Int.add_comm (d.readSize : Int)]
    rw [turns]
    cases hturn : d.turn c m p with
    | none => simp [turns, hturn]
    | some m' => rw [Option.bind_some, ih, hnext, turns, hturn, Option.bind_some]

/-- Each turn up to the `n`-th modifies its own chunk only. -/
def Steady (d : Decompressor) (c : Option Generated) (n : Nat) (m : ByteMem) : Prop :=
  ∀ k : Nat, k < n → ∀ mk mk', d.turns c k 0 m = some mk → d.turn c mk (k * d.readSize) = some mk' →
    ∀ x : Int, x < k * d.readSize ∨ k * d.readSize + d.readSize ≤ x → mk' x = mk x

theorem turns_step {k : Nat} {m mk mk' : ByteMem} (h : d.turns c k 0 m = some mk)
    (hturn : d.turn c mk (k * d.readSize) = some mk') : d.turns c (k + 1) 0 m = some mk' := by
  rw [turns_succ, h, Option.bind_some, Int.zero_add]
  exact hturn

theorem turns_split {k : Nat} {m out : ByteMem} (h : d.turns c (k + 1) 0 m = some out) :
    ∃ mk, d.turns c k 0 m = some mk ∧ d.turn c mk (k * d.readSize) = some out := by
  rw [turns_succ, Option.bind_eq_some_iff] at h
  simpa only [Int.zero_add] using h

/-- A run of all turns has each of them. -/
theorem turns_at {n k : Nat} {m out : ByteMem} (h : d.turns c n 0 m = some out) (hk : k < n) :
    ∃ mk mk', d.turns c k 0 m = some mk ∧ d.turn c mk (k * d.readSize) = some mk' := by
  induction n generalizing out with
  | zero => exact absurd hk (Nat.not_lt_zero k)
  | succ n ih =>
    obtain ⟨mn, hn, hturn⟩ := turns_split h
    rcases Nat.lt_succ_iff_lt_or_eq.mp hk with hlt | rfl
    · exact ih hn hlt
    · exact ⟨mn, out, hn, hturn⟩

/-- Before its turn a chunk is as it came. -/
theorem Steady.before {n k : Nat} {m mk : ByteMem} (h : Steady d c n m) (hk : k ≤ n)
    (hturns : d.turns c k 0 m = some mk) (x : Int) (hx : x < 0 ∨ k * d.readSize ≤ x) : mk x = m x := by
  induction k generalizing mk with
  | zero =>
    obtain rfl := Option.some.inj hturns
    rfl
  | succ k ih =>
    obtain ⟨mj, hj, hturn⟩ := turns_split hturns
    have hpos : 0 ≤ (k : Int) * d.readSize :=
      Int.mul_nonneg (Int.natCast_nonneg _) (Int.natCast_nonneg _)
    rw [succ_mul_readSize] at hx
    rw [h k hk mj mk hj hturn x (by omega)]
    exact ih (Nat.le_of_succ_le hk) hj (by omega)

/-- After its turn it stays as it is. -/
theorem Steady.after {n k : Nat} {m mk out : ByteMem} (h : Steady d c n m) (hk : k ≤ n)
    (hturns : d.turns c k 0 m = some mk) (hout : d.turns c n 0 m = some out) (x : Int)
    (hx : x < k * d.readSize) : out x = mk x := by
  induction hk generalizing out with
  | refl =>
    obtain rfl := Option.some.inj (hturns.symm.trans hout)
    rfl
  | @step n hle ih =>
    obtain ⟨mn, hn, hturn⟩ := turns_split hout
    have hmono : (k : Int) * d.readSize ≤ n * d.readSize :=
      Int.mul_le_mul_of_nonneg_right (Int.ofNat_le.mpr hle) (Int.natCast_nonneg _)
    rw [h n (Nat.lt_succ_self n) mn out hn hturn x (by omega)]
    exact ih (fun j hj => h j (Nat.lt_succ_of_lt hj)) hn

theorem expected_congr {m m' : ByteMem} {p : Int}
    (h : ∀ i : Nat, i < d.readSize → m (p + i) = m' (p + i)) (i : Nat) :
    d.expected c m p i = d.expected c m' p i := by
  have hle := d.writeSize_le
  have hlost : d.Lost m p ↔ d.Lost m' p :=
    forall₂_congr fun i hi => by rw [h i (Nat.lt_of_lt_of_le hi hle)]
  have hreceived : d.received m p = d.received m' p := by
    funext x
    unfold received
    split
    · have hx := h (x - p).toNat (by omega)
      have hback : p + (x - p) = x := by omega
      rwa [Int.toNat_of_nonneg (by omega), hback] at hx
    · rfl
  unfold expected
  rw [hreceived]
  simp only [hlost]

/-- All turns are right, if each chunk is as it must be when its turn comes. -/
theorem turns_right {n : Nat} {m : ByteMem}
    (h : ∀ k : Nat, k < n → ∀ mk, d.turns c k 0 m = some mk → d.ChunkOk c mk (k * d.readSize)) :
    ∃ out, d.turns c n 0 m = some out ∧ Steady d c n m := by
  induction n with
  | zero => exact ⟨m, rfl, fun k hk => absurd hk (Nat.not_lt_zero k)⟩
  | succ n ih =>
    obtain ⟨mn, hn, hsteady⟩ := ih fun k hk => h k (Nat.lt_succ_of_lt hk)
    obtain ⟨out, hturn, hright⟩ := turn_right_iff.mpr (h n (Nat.lt_succ_self n) mn hn)
    refine ⟨out, turns_step hn hturn, fun k hk mk mk' hmk hmk' => ?_⟩
    rcases Nat.lt_succ_iff_lt_or_eq.mp hk with hlt | rfl
    · exact hsteady k hlt mk mk' hmk hmk'
    · obtain rfl := Option.some.inj (hn.symm.trans hmk)
      obtain rfl := Option.some.inj (hturn.symm.trans hmk')
      exact hright.frame

theorem blockRight_iff {m : ByteMem} :
    (∃ out, d.turns c (d.blocksize / d.readSize) 0 m = some out ∧ d.BlockRight c m out) ↔
      ∀ k : Nat, k < d.blocksize / d.readSize → ∀ mk, d.turns c k 0 m = some mk →
        d.ChunkOk c mk (k * d.readSize) := by
  have hchunk {k : Nat} (hk : k < d.blocksize / d.readSize) {mk mk' out : ByteMem}
      (hsteady : Steady d c (d.blocksize / d.readSize) m)
      (hout : d.turns c (d.blocksize / d.readSize) 0 m = some out) (hmk : d.turns c k 0 m = some mk)
      (hturn : d.turn c mk (k * d.readSize) = some mk') (i : Nat) (hi : i < d.readSize) :
      out (k * d.readSize + i) = mk' (k * d.readSize + i) ∧
        d.expected c mk (k * d.readSize) i = d.expected c m (k * d.readSize) i := by
    refine ⟨hsteady.after hk (turns_step hmk hturn) hout _ ?_, expected_congr (fun j _ => ?_) i⟩
    · rw [succ_mul_readSize]
      omega
    · exact hsteady.before (Nat.le_of_lt hk) hmk _ (.inr (by omega))
  constructor
  · rintro ⟨out, hout, hright⟩ k hk mk hmk
    obtain ⟨mj, mk', hmj, hturn⟩ := turns_at hout hk
    obtain rfl := Option.some.inj (hmk.symm.trans hmj)
    refine turn_right_iff.mp ⟨mk', hturn, fun i hi => ?_, hright.frame k hk mk mk' hmk hturn⟩
    obtain ⟨hafter, hexp⟩ := hchunk hk hright.frame hout hmk hturn i hi
    rw [← hafter, hexp]
    exact hright.chunks k hk i hi
  · intro hok
    obtain ⟨out, hout, hsteady⟩ := turns_right hok
    refine ⟨out, hout, fun k hk i hi => ?_, hsteady⟩
    obtain ⟨mk, mk', hmk, hturn⟩ := turns_at hout hk
    obtain ⟨hafter, hexp⟩ := hchunk hk hsteady hout hmk hturn i hi
    obtain ⟨mj', hturn', hright⟩ := turn_right_iff.mpr (hok k hk mk hmk)
    obtain rfl := Option.some.inj (hturn.symm.trans hturn')
    rw [hafter, ← hexp]
    exact hright.chunk i hi

theorem halves_readSize : 0 < 32 := by decide
theorem halves_writeSize : 0 < 16 := by decide

/-- Chunks of four words that are packed into two. -/
def halves : Decompressor where
  readSize := 32
  writeSize := 16
  blocksize := 32
  compressOffset := 0
  solution := Solution.solve 0xFFFFFFFF
  signmagdistance := 0
  tmps _ := (0, 0)
  readSize_pos := halves_readSize
  writeSize_pos := halves_writeSize
  writeSize_le := by decide
  readSize_dvd := by decide
  blocksize_pos := halves_readSize
  blocksize_mod := by decide
  compressOffset_lt := halves_readSize
  compressOffset_mod := by decide

/-- `n` bytes of fill pattern, then ones up to 16, and zeroes behind. -/
def fillBlock (n : Nat) : Block where
  mem x := if 0 ≤ x ∧ x < n then fillpat x.toNat else if 0 ≤ x ∧ x < 16 then 1 else 0
  iovLen := 32

/-- A byte of the first chunk that is not what it should be. -/
theorem not_right {b : Block} {i : Nat} (hlong : ¬b.iovLen < d.blocksize) (hi : i < d.readSize)
    (hwrong : (d.compressor.all fun c => (d.turns c (d.blocksize / d.readSize) 0 b.mem).all fun out =>
      out i != d.expected c b.mem 0 i) = true) : ¬d.Right b := by
  rintro (hshort | ⟨c, out, hc, hpushed, hright⟩)
  · exact hlong hshort
  · unfold blockdecompressor at hpushed
    rw [hc] at hpushed hwrong
    dsimp only at hpushed
    rw [if_neg hlong] at hpushed
    cases hturns : d.turns c (d.blocksize / d.readSize) 0 b.mem with
    | none => simp [hturns] at hpushed
    | some m =>
      have hm : m = out := by simpa [hturns] using hpushed
      have hpos : 0 < d.blocksize / d.readSize :=
        Nat.div_pos (Nat.le_of_dvd d.blocksize_pos d.readSize_dvd) d.readSize_pos
      have hchunk := hright.chunks 0 hpos i hi
      simp [hturns, hm] at hwrong hchunk
      exact hwrong hchunk

theorem Lost.readsFill {m : ByteMem} {p : Int} (h : d.Lost m p) (hw : 8 ≤ d.writeSize) :
    readsFill m p = true := by
  unfold Decompressor.readsFill
  rw [List.all_eq_true]
  intro i hi
  rw [h i (Nat.lt_of_lt_of_le (List.mem_range.mp hi) hw)]
  exact beq_self_eq_true _

/-- With sizes in words, what is not filled has to be fill pattern already. -/
theorem lost_ok_iff (hread : d.readSize % 8 = 0) (hwrite : d.writeSize % 8 = 0) {m : ByteMem}
    {p : Int} (hlost : d.Lost m p) : d.ChunkOk c m p ↔
      ∀ i : Nat, d.writeSize ≤ i → i < d.readSize → d.Walked i ∨ m (p + i) = fillpat i := by
  have hpos := d.writeSize_pos
  have hfill := Lost.readsFill hlost (by omega)
  have hexp (i : Nat) : d.expected c m p i = fillpat i := if_pos hlost
  have hphase (i : Nat) (hi : i < d.readSize) (hw : d.Walked i) :
      fillpat (7 - (d.readSize - 1 - i) % 64) = fillpat i := by
    have hlast := hw.1
    have hmod : (7 - (d.readSize - 1 - i) % 64) % 4 = i % 4 := by omega
    unfold fillpat
    rw [hmod]
  constructor
  · intro hok i hle hi
    have hrefilled := hok.filled hfill i hi
    rw [hexp, refilled] at hrefilled
    split at hrefilled
    · exact .inl ‹_›
    · exact .inr hrefilled
  · refine fun hall => ⟨fun _ i hi => ?_, fun h => ?_⟩
    · rw [hexp, refilled]
      split
      · exact hphase i hi ‹_›
      · rename_i hnot
        rcases Nat.lt_or_ge i d.writeSize with hlt | hge
        · exact hlost i hlt
        · exact (hall i hge hi).resolve_left hnot
    · rw [hfill] at h
      cases h

theorem fillpat_ne_zero (i : Nat) : fillpat i ≠ 0 := by
  have hmod : i % 4 = 0 ∨ i % 4 = 1 ∨ i % 4 = 2 ∨ i % 4 = 3 := by omega
  unfold fillpat
  rcases hmod with h | h | h | h <;> rw [h] <;> decide

/-- A lost packet as the reader leaves it: it is only filled if nothing is missing. -/
theorem lost_zeroes_iff (hread : d.readSize % 8 = 0) (hwrite : d.writeSize % 8 = 0) {m : ByteMem}
    {p : Int} (hlost : d.Lost m p)
    (hzero : ∀ i : Nat, d.writeSize ≤ i → i < d.readSize → m (p + i) = 0) :
    d.ChunkOk c m p ↔ d.writeSize = d.readSize := by
  have hle := d.writeSize_le
  rw [lost_ok_iff hread hwrite hlost]
  constructor
  · intro hall
    by_contra hne
    rcases hall d.writeSize (Nat.le_refl _) (by omega) with hw | hfill
    · unfold Walked at hw
      omega
    · rw [hzero _ (Nat.le_refl _) (by omega)] at hfill
      exact fillpat_ne_zero _ hfill.symm
  · intro heq i hge hi
    omega

theorem fpblock_getElem? {r : Net.Udps.Reader} (hvdif : r.isVdif = false) {size : Nat}
    (h8 : size % 8 = 0) {i : Nat} (hi : i < size) : (r.fpblock size)[i]? = some (fillpat i) := by
  have hwhole : i < size / 8 * 8 := by omega
  simp [Net.Udps.Reader.fpblock, hvdif, hi, hwhole]

/-- The place of a datagram that did not come, as the UDP reader passes it on. -/
theorem missing_lost {r : Net.Udps.Reader} {q : Net.Udps.Pushed} {got : List Net.Udps.Datagram}
    {cut : Option Nat} {since start j : Nat} {t : Net.Udps.Slot}
    (hok : Net.Udps.BlockOk r got cut since start q.slots) (ht : q.slots[j]? = some t)
    (hflag : t.flag = false) (hlen : (j + 1) * r.sizes.wrSize ≤ q.iovLen) (hvdif : r.isVdif = false)
    (hread : r.sizes.wrSize = d.readSize) (hwrite : r.sizes.rdSize = d.writeSize)
    (h8 : d.writeSize % 8 = 0) {m : ByteMem} (hm : ∀ i : Nat, m i = (r.topHalf q).getD i 0) :
    d.Lost m (j * d.readSize) ∧
      ∀ i : Nat, d.writeSize ≤ i → i < d.readSize → m (j * d.readSize + i) = 0 := by
  have hle := d.writeSize_le
  have hslice := Net.Udps.slice_topHalf hok ht hlen
  rw [Net.Udps.Reader.finish, if_neg (by rw [hflag]; decide), hread, hwrite] at hslice
  have hbyte (i : Nat) (hi : i < d.readSize) : m (j * d.readSize + i) =
      (r.fpblock d.writeSize ++ List.replicate (d.readSize - d.writeSize) 0).getD i 0 := by
    have hget : (r.topHalf q)[j * d.readSize + i]? =
        (slice (r.topHalf q) (j * d.readSize) d.readSize)[i]? := by
      rw [slice, List.getElem?_take_of_lt hi, List.getElem?_drop]
    have hat := hm (j * d.readSize + i)
    push_cast at hat
    rw [hat, List.getD_eq_getElem?_getD, List.getD_eq_getElem?_getD, hget, hslice]
  constructor
  · intro i hi
    rw [hbyte i (by omega), List.getD_eq_getElem?_getD,
      List.getElem?_append_left (by rwa [Net.Udps.fpblock_length]), fpblock_getElem? hvdif h8 hi]
    rfl
  · intro i hge hi
    rw [hbyte i hi, List.getD_eq_getElem?_getD,
      List.getElem?_append_right (by rwa [Net.Udps.fpblock_length])]
    simp [List.getElem?_replicate]
    split <;> rfl

/-! ## Data -/

theorem compressor_eq {mask : Word} (hs : Solved mask d.solution) {g : Generated}
    (hg : generateCode d.solution d.numwords false d.signmagdistance = some g) :
    d.compressor = some (some g) := by
  obtain ⟨init, l, hsteps, -⟩ := hs.init_steps
  rw [compressor, hsteps, hg, if_neg (by simp)]
  rfl

/-- The words of the chunk are the same from what was received alone. -/
theorem decompress_received {g : Generated} {n : Nat}
    (hread : d.readSize = d.compressOffset + 8 * n)
    (hwrite : d.writeSize = d.compressOffset + 8 * d.solution.compressedWords n) {m : ByteMem} {p : Int}
    (hzero : ∀ i : Nat, d.writeSize ≤ i → i < d.readSize → m (p + i) = 0)
    (hstale : ∀ (mem mem₀ : Int → Word) (tmps tmps' : Word × Word),
      (∀ j : Int, 0 ≤ j → j < d.solution.compressedWords n → mem j = mem₀ j) →
      (∀ j : Int, d.solution.compressedWords n ≤ j → j < n → mem₀ j = 0) →
      ∀ j : Int, 0 ≤ j → j < n → g.runDecompress mem tmps j = g.runDecompress mem₀ tmps' j |||
        staleBits mem (d.solution.compressedWords n) d.signmagdistance
          (emptiedAtOnce false (n - 1) (d.solution.allSteps n) j) j)
    (tmps : Word × Word) (j : Int) (hj : 0 ≤ j) (hjn : j < n) :
    g.runDecompress (m.words (p + d.compressOffset)) tmps j =
      g.runDecompress ((d.received m p).words (p + d.compressOffset)) (0, 0) j := by
  have hfront : ∀ j : Int, 0 ≤ j → j < d.solution.compressedWords n →
      m.words (p + d.compressOffset) j = (d.received m p).words (p + d.compressOffset) j := by
    intro j hj hjk
    refine ByteMem.wordAt_congr fun i hi => (if_pos ?_).symm
    omega
  have hbehind : ∀ j : Int, d.solution.compressedWords n ≤ j → j < n →
      (d.received m p).words (p + d.compressOffset) j = 0 := by
    intro j hjk hjn
    refine ByteMem.wordAt_zero fun i hi => if_neg ?_
    omega
  have hnone : staleBits (m.words (p + d.compressOffset)) (d.solution.compressedWords n)
      d.signmagdistance (emptiedAtOnce false (n - 1) (d.solution.allSteps n) j) j = 0 := by
    unfold staleBits
    split
    · refine ByteMem.wordAt_zero fun i hi => ?_
      have hat : p + d.compressOffset + 8 * j + i =
          p + ((d.compressOffset + 8 * j + i).toNat : Int) := by omega
      rw [hat]
      exact hzero _ (by omega) (by omega)
    · rfl
  rw [hstale _ _ tmps (0, 0) hfront hbehind j hj hjn, hnone]
  exact BitVec.or_zero

/-- Data that was compressed to the sizes that are constrained, with zeroes behind. -/
theorem data_ok {mask : Word} (hbuilt : Built mask d.solution)
    (hcomplete : d.solution.complete = true) {n k : Nat} (hn : 0 < n) (h32 : n < 2 ^ 32)
    (hsize : d.solution.outputsize n = some k) (hread : d.readSize = d.compressOffset + 8 * n)
    (hwrite : d.writeSize = d.compressOffset + 8 * k)
    (hin : d.signmagdistance = 0 ∨ (d.solution.allSteps n).countP Step.decSrc < n) {m : ByteMem}
    {p : Int} (hzero : ∀ i : Nat, d.writeSize ≤ i → i < d.readSize → m (p + i) = 0)
    (hdata : readsFill m p = false) (hnot : ¬d.Lost m p) :
    ∃ c, d.compressor = some c ∧ d.ChunkOk c m p := by
  have hs := hbuilt.solved hcomplete
  have hwords : d.numwords = n := by
    unfold numwords
    omega
  obtain ⟨g, hg, hnumwords, hframe⟩ := hs.decompress_frame hn d.signmagdistance
  obtain ⟨g', hg', hstale⟩ := hs.decompress_stale hn d.signmagdistance
  obtain rfl := Option.some.inj (hg.symm.trans hg')
  have hk : k = d.solution.compressedWords n := by
    have hle := hs.compressedWords_le n
    rw [hs.outputsize_eq, Nat.mod_eq_of_lt (by omega)] at hsize
    exact (Option.some.inj hsize).symm
  subst hk
  refine ⟨some g, compressor_eq hs (hwords ▸ hg), fun h => ?_, fun _ => ?_⟩
  · rw [hdata] at h
    cases h
  · obtain ⟨hptr, hout⟩ := hframe (m.words (p + d.compressOffset)) (d.tmps p)
    have hsame := decompress_received hread hwrite hzero hstale (d.tmps p)
    have hframe₀ := (hframe ((d.received m p).words (p + d.compressOffset)) (0, 0)).2 hin
    subst hnumwords
    unfold decompress
    dsimp only
    refine ⟨?_, fun i hi => ?_, fun x hx => ?_⟩
    · rw [hptr]
      omega
    · rw [expected, if_neg hnot]
      by_cases hhead : i < d.compressOffset
      · -- the header stays as it is
        have hbefore : (p + i - (p + d.compressOffset)) / 8 < 0 := by omega
        refine (ByteMem.ofWords_apply (hout hin _ (.inl hbefore))).trans ?_
        rw [ByteMem.ofWords_words]
        refine Eq.trans ?_ (ByteMem.ofWords_apply (hframe₀ _ (.inl hbefore))).symm
        rw [ByteMem.ofWords_words, received, if_pos (by omega)]
      · exact ByteMem.ofWords_apply (hsame _ (by omega) (by omega))
    · refine (ByteMem.ofWords_apply (hout hin _ (by omega))).trans ?_
      exact ByteMem.ofWords_words _ _ _

end Jive5ab.Frames
