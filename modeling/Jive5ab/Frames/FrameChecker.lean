import Jive5ab.Frames.PatternGenerator
import Jive5ab.Net.UdpsReader

/-! # Checking frames of fill pattern

`framechecker` of `threadfns.cc`: the frames are made again and compared byte by byte with what
comes in, except for datagrams that were lost and are fill pattern throughout. The messages and the
statistics are left out. -/
namespace Jive5ab.Frames
open Lib
open Net.Udps.Reader (fillpat)

/-- A block as it comes in, and the memory behind it. -/
structure CheckBlock where
  bytes : List UInt8
  behind : Nat → UInt8

/-- The eight bytes from `i` on, read as one word. -/
def CheckBlock.word (b : CheckBlock) (i : Nat) : List UInt8 :=
  (List.range 8).map fun j => b.bytes.getD (i + j) (b.behind (i + j - b.bytes.length))

/-- `inFill`: what is checked against is the packet of fill pattern, not the frame. -/
structure CheckState where
  ok : Bool
  nbyte : Nat
  framebyte : Nat
  fpbyte : Nat
  fill : BitVec 64
  framebuf : List UInt8
  inFill : Bool

def fillWord : List UInt8 := (List.range 8).map fillpat

namespace FillPattern
variable (p : FillPattern)

/-! ## The code -/

/-- Behind the first `compressOffset` bytes of what is read at once only the bits of the mask were
sent. -/
def checkFrame (mask fill : BitVec 64) : List UInt8 :=
  overwrite
    (wordBytes (p.header.framesize / 8) fun j =>
      if j % (p.readSize / 8) * 8 < p.compressOffset then fill else fill &&& mask)
    p.header.syncwordoffset p.header.syncword

def nextFrame (mask : BitVec 64) (s : CheckState) : CheckState :=
  if s.nbyte % p.header.framesize = 0 then
    { s with framebuf := p.checkFrame mask s.fill, fill := s.fill + p.inc, framebyte := 0 }
  else s

/-- At the begin of a datagram: was it lost? -/
def choose (word : List UInt8) (s : CheckState) : CheckState :=
  if s.nbyte % p.readSize = 0 then
    if word = fillWord ∧ word ≠ slice s.framebuf s.framebyte 8 then
      { s with fpbyte := 0, inFill := true }
    else { s with inFill := false }
  else s

def compare (byte : UInt8) (s : CheckState) : CheckState :=
  if s.inFill then
    { s with ok := byte == fillpat s.fpbyte, nbyte := s.nbyte + 1, fpbyte := s.fpbyte + 1 }
  else
    { s with
      ok := byte == s.framebuf.getD s.framebyte 0, nbyte := s.nbyte + 1
      framebyte := s.framebyte + 1 }

def checkByte (mask : BitVec 64) (byte : UInt8) (word : List UInt8) (s : CheckState) : CheckState :=
  compare byte (p.choose word (p.nextFrame mask s))

def checkBlock (mask : BitVec 64) (s : CheckState) (b : CheckBlock) : CheckState :=
  (List.range b.bytes.length).foldl
    (fun s i => if s.ok then p.checkByte mask (b.bytes.getD i 0) (b.word i) s else s) s

def checkStart : CheckState := ⟨true, 0, 0, 0, p.fill, [], false⟩

/-- `none` if the assertion about `read_size` fails. -/
def framechecker (mask : BitVec 64) (blocks : List CheckBlock) : Option CheckState :=
  if p.readSize % 8 = 0 then
    some (blocks.foldl (fun s b => if s.ok then p.checkBlock mask s b else s) p.checkStart)
  else none

/-- No error is reported. -/
def accepted (mask : BitVec 64) (blocks : List CheckBlock) : Bool :=
  (p.framechecker mask blocks).any CheckState.ok

/-! ## What it compares with -/

/-- How far into its frame the checker is at byte `n`, if some datagrams are passed over. -/
def place (passed : Nat → Bool) (n : Nat) : Nat :=
  (List.range (n % p.header.framesize)).countP fun i =>
    !passed ((n - n % p.header.framesize + i) / p.readSize)

/-- What byte `n` has to be. -/
def expectedByte (passed : Nat → Bool) (n : Nat) : UInt8 :=
  if passed (n / p.readSize) then fillpat (n % p.readSize)
  else (p.frame (n / p.header.framesize)).getD (p.place passed n) 0

/-- Is a datagram passed over that begins at byte `n` with this word? -/
def PassedOver (passed : Nat → Bool) (n : Nat) (word : List UInt8) : Prop :=
  word = fillWord ∧ word ≠ slice (p.frame (n / p.header.framesize)) (p.place passed n) 8

instance (passed : Nat → Bool) (n : Nat) (word : List UInt8) :
    Decidable (p.PassedOver passed n word) := by
  unfold PassedOver
  infer_instance

/-- The state before byte `n`, if all bytes so far were right. -/
structure CheckAt (passed : Nat → Bool) (n : Nat) (s : CheckState) : Prop where
  nbyte : s.nbyte = n
  fill : s.fill = p.fillAt (p.begun n)
  frame : n % p.header.framesize ≠ 0 →
    s.framebuf = p.frame (n / p.header.framesize) ∧ s.framebyte = p.place passed n
  mode : n % p.readSize ≠ 0 →
    s.inFill = passed (n / p.readSize) ∧ (s.inFill = true → s.fpbyte = n % p.readSize)

end FillPattern

variable {p : FillPattern} {passed : Nat → Bool} {mask : BitVec 64}
open FillPattern

/-- Without compression the frames are those of the generator, without time stamp. -/
theorem checkFrame_eq (hmask : mask = BitVec.allOnes 64) (fill : BitVec 64) :
    p.checkFrame mask fill = p.blank fill := by
  have hword (j : Nat) : (if j % (p.readSize / 8) * 8 < p.compressOffset then fill
      else fill &&& mask) = fill := by
    rw [hmask, BitVec.and_allOnes, ite_self]
  simp only [checkFrame, blank, hword]

theorem place_boundary {n : Nat} (h : n % p.header.framesize = 0) : p.place passed n = 0 := by
  simp [place, h]

theorem place_succ {n : Nat} (h : n % p.header.framesize + 1 < p.header.framesize) :
    p.place passed (n + 1) = p.place passed n + if passed (n / p.readSize) then 0 else 1 := by
  obtain ⟨-, hmod⟩ := div_mod_within h
  have hle := Nat.mod_le n p.header.framesize
  have hstart : n + 1 - (n % p.header.framesize + 1) = n - n % p.header.framesize := by omega
  have hlast : n - n % p.header.framesize + n % p.header.framesize = n := Nat.sub_add_cancel hle
  unfold place
  rw [hmod, hstart, List.range_succ, List.countP_append, List.countP_singleton, hlast]
  cases passed (n / p.readSize) <;> rfl

/-! ## One byte -/

theorem FillPattern.CheckAt.nextFrame {n : Nat} {s : CheckState} (hmask : mask = BitVec.allOnes 64)
    (h : p.CheckAt passed n s) :
    (p.nextFrame mask s).framebuf = p.frame (n / p.header.framesize) ∧
      (p.nextFrame mask s).framebyte = p.place passed n ∧
      (p.nextFrame mask s).fill = p.fillAt (n / p.header.framesize + 1) ∧
      (p.nextFrame mask s).nbyte = n ∧ (p.nextFrame mask s).inFill = s.inFill ∧
      (p.nextFrame mask s).fpbyte = s.fpbyte := by
  obtain rfl := h.nbyte
  unfold FillPattern.nextFrame
  by_cases hzero : s.nbyte % p.header.framesize = 0
  · have hfill : s.fill = p.fillAt (s.nbyte / p.header.framesize) := by
      rw [h.fill, begun_boundary hzero]
    rw [if_pos hzero]
    refine ⟨?_, (place_boundary hzero).symm, ?_, rfl, rfl, rfl⟩
    · show p.checkFrame mask s.fill = _
      rw [checkFrame_eq hmask, hfill]
      rfl
    · show s.fill + p.inc = _
      rw [hfill, fillAt_succ]
  · rw [if_neg hzero]
    obtain ⟨hbuf, hbyte⟩ := h.frame hzero
    exact ⟨hbuf, hbyte, by rw [h.fill, begun_inside hzero], rfl, rfl, rfl⟩

/-- Ready to compare byte `n`. -/
structure Ready (p : FillPattern) (passed : Nat → Bool) (n : Nat) (s : CheckState) : Prop where
  nbyte : s.nbyte = n
  fill : s.fill = p.fillAt (n / p.header.framesize + 1)
  framebuf : s.framebuf = p.frame (n / p.header.framesize)
  framebyte : s.framebyte = p.place passed n
  inFill : s.inFill = passed (n / p.readSize)
  fpbyte : s.inFill = true → s.fpbyte = n % p.readSize

theorem FillPattern.CheckAt.ready {n : Nat} {s : CheckState} (hmask : mask = BitVec.allOnes 64)
    (h : p.CheckAt passed n s) {word : List UInt8}
    (hpassed : n % p.readSize = 0 → (passed (n / p.readSize) = true ↔ p.PassedOver passed n word)) :
    Ready p passed n (p.choose word (p.nextFrame mask s)) := by
  obtain ⟨hbuf, hbyte, hfill, hn, hin, hfp⟩ := h.nextFrame hmask
  unfold choose
  rw [hn, hbuf, hbyte]
  split
  · rename_i hzero
    split
    · rename_i hover
      exact ⟨rfl, hfill, rfl, rfl, ((hpassed hzero).mpr hover).symm, fun _ => hzero.symm⟩
    · rename_i hnot
      have hfalse := Bool.eq_false_iff.mpr fun htrue => hnot ((hpassed hzero).mp htrue)
      exact ⟨rfl, hfill, rfl, rfl, hfalse.symm, fun htrue => by cases htrue⟩
  · rename_i hne
    obtain ⟨hmode, hcount⟩ := h.mode hne
    exact ⟨hn, hfill, hbuf, hbyte, hin.trans hmode, fun htrue => hfp.trans (hcount (hin ▸ htrue))⟩

/-- What is decided at the begin of a datagram. -/
theorem FillPattern.CheckAt.choose_inFill {n : Nat} {s : CheckState}
    (hmask : mask = BitVec.allOnes 64) (h : p.CheckAt passed n s) (hzero : n % p.readSize = 0)
    (word : List UInt8) :
    (p.choose word (p.nextFrame mask s)).inFill = true ↔ p.PassedOver passed n word := by
  obtain ⟨hbuf, hbyte, -, hn, -, -⟩ := h.nextFrame hmask
  unfold choose PassedOver
  rw [hn, if_pos hzero, hbuf, hbyte]
  split
  · rename_i hover
    exact iff_of_true rfl hover
  · rename_i hnot
    exact iff_of_false Bool.false_ne_true hnot

theorem begun_succ (n : Nat) : p.begun (n + 1) = n / p.header.framesize + 1 := by
  have hsum : n + 1 + p.header.framesize - 1 = n + p.header.framesize := by omega
  rw [begun, hsum, Nat.add_div_right _ p.header.framesize_pos]

/-- If the next byte does not begin a new piece it is in the same one. -/
theorem same_piece {k n : Nat} (hk : 0 < k) (h : (n + 1) % k ≠ 0) :
    n % k + 1 < k ∧ (n + 1) / k = n / k ∧ (n + 1) % k = n % k + 1 := by
  have hlt : n % k + 1 < k :=
    Nat.lt_of_le_of_ne (Nat.mod_lt n hk) fun heq => h (div_mod_end hk heq).2
  exact ⟨hlt, div_mod_within hlt⟩

theorem Ready.compare {n : Nat} {s : CheckState} (h : Ready p passed n s) (byte : UInt8) :
    ((compare byte s).ok = true ↔ byte = p.expectedByte passed n) ∧
      p.CheckAt passed (n + 1) (compare byte s) ∧ (compare byte s).inFill = s.inFill := by
  have hfill : s.fill = p.fillAt (p.begun (n + 1)) := h.fill.trans (by rw [begun_succ])
  have hin := h.inFill
  unfold FillPattern.compare expectedByte
  split
  · rename_i htrue
    rw [htrue] at hin
    rw [if_pos hin.symm, ← h.fpbyte htrue]
    refine ⟨beq_iff_eq, ⟨congrArg (· + 1) h.nbyte, hfill, fun hne => ?_, fun hne => ?_⟩, rfl⟩
    · obtain ⟨hlt, hdiv, -⟩ := same_piece p.header.framesize_pos hne
      rw [hdiv, place_succ hlt, ← hin, if_pos rfl]
      exact ⟨h.framebuf, h.framebyte⟩
    · obtain ⟨-, hdiv, hmod⟩ := same_piece p.readSize_pos hne
      rw [hdiv, hmod]
      exact ⟨h.inFill, fun _ => congrArg (· + 1) (h.fpbyte htrue)⟩
  · rename_i hfalse
    have hnot := Bool.eq_false_iff.mpr hfalse
    rw [hnot] at hin
    rw [if_neg (by rw [← hin]; exact Bool.false_ne_true), ← h.framebuf, ← h.framebyte]
    refine ⟨beq_iff_eq, ⟨congrArg (· + 1) h.nbyte, hfill, fun hne => ?_, fun hne => ?_⟩, rfl⟩
    · obtain ⟨hlt, hdiv, -⟩ := same_piece p.header.framesize_pos hne
      rw [hdiv, place_succ hlt, ← hin, if_neg Bool.false_ne_true]
      exact ⟨h.framebuf, congrArg (· + 1) h.framebyte⟩
    · obtain ⟨-, hdiv, -⟩ := same_piece p.readSize_pos hne
      rw [hdiv]
      exact ⟨h.inFill, fun htrue => absurd htrue hfalse⟩

/-- Is the choice of the datagrams that are passed over the one made for this word? -/
def Chosen (p : FillPattern) (passed : Nat → Bool) (n : Nat) (word : List UInt8) : Prop :=
  n % p.readSize = 0 → (passed (n / p.readSize) = true ↔ p.PassedOver passed n word)

theorem FillPattern.CheckAt.checkByte {n : Nat} {s : CheckState} (hmask : mask = BitVec.allOnes 64)
    (h : p.CheckAt passed n s) {word : List UInt8} (hchosen : Chosen p passed n word)
    (byte : UInt8) :
    ((p.checkByte mask byte word s).ok = true ↔ byte = p.expectedByte passed n) ∧
      p.CheckAt passed (n + 1) (p.checkByte mask byte word s) :=
  let hcompare := (h.ready hmask hchosen).compare byte
  ⟨hcompare.1, hcompare.2.1⟩

theorem compare_inFill (byte : UInt8) (s : CheckState) :
    (FillPattern.compare byte s).inFill = s.inFill := by
  unfold FillPattern.compare
  split <;> rfl

/-- The checker's own choice. -/
theorem FillPattern.CheckAt.chosen {n : Nat} {s : CheckState} (hmask : mask = BitVec.allOnes 64)
    (h : p.CheckAt passed n s) {word : List UInt8} (byte : UInt8)
    (hpassed : n % p.readSize = 0 →
      passed (n / p.readSize) = (p.checkByte mask byte word s).inFill) :
    Chosen p passed n word := by
  intro hzero
  rw [hpassed hzero, FillPattern.checkByte, compare_inFill]
  exact h.choose_inFill hmask hzero word

/-! ## The bytes of all blocks -/

/-- Each byte with the word that is read there. -/
def CheckBlock.views (b : CheckBlock) : List (UInt8 × List UInt8) :=
  (List.range b.bytes.length).map fun i => (b.bytes.getD i 0, b.word i)

def checkView (p : FillPattern) (mask : BitVec 64) (s : CheckState) (v : UInt8 × List UInt8) :
    CheckState := if s.ok then p.checkByte mask v.1 v.2 s else s

/-- After an error nothing is looked at. -/
theorem foldl_checkView_error {s : CheckState} (h : s.ok = false) (vs : List (UInt8 × List UInt8)) :
    vs.foldl (checkView p mask) s = s := by
  induction vs with
  | nil => rfl
  | cons v vs ih => rwa [List.foldl_cons, checkView, h, if_neg Bool.false_ne_true]

theorem checkBlocks_eq (blocks : List CheckBlock) (s : CheckState) :
    blocks.foldl (fun s b => if s.ok then p.checkBlock mask s b else s) s =
      (blocks.flatMap CheckBlock.views).foldl (checkView p mask) s := by
  induction blocks generalizing s with
  | nil => rfl
  | cons b blocks ih =>
    have hblock : p.checkBlock mask s b = b.views.foldl (checkView p mask) s := by
      rw [CheckBlock.views, List.foldl_map]
      rfl
    rw [List.foldl_cons, List.flatMap_cons, List.foldl_append, ih, hblock]
    cases hok : s.ok with
    | true => rfl
    | false => rw [foldl_checkView_error hok, if_neg Bool.false_ne_true]

theorem flatMap_views_fst (blocks : List CheckBlock) :
    (blocks.flatMap CheckBlock.views).map Prod.fst = blocks.flatMap CheckBlock.bytes := by
  induction blocks with
  | nil => rfl
  | cons b blocks ih =>
    have hbytes : b.views.map Prod.fst = b.bytes := by
      refine List.ext_getElem (by simp [CheckBlock.views]) fun i hi _ => ?_
      have hlt : i < b.bytes.length := by simpa [CheckBlock.views] using hi
      simp [CheckBlock.views, hlt]
    rw [List.flatMap_cons, List.map_append, ih, hbytes, List.flatMap_cons]

/-- The state after `n` bytes. -/
def stateAfter (p : FillPattern) (mask : BitVec 64) (vs : List (UInt8 × List UInt8)) (n : Nat) :
    CheckState := (vs.take n).foldl (checkView p mask) p.checkStart

theorem stateAfter_succ {vs : List (UInt8 × List UInt8)} {n : Nat} {v : UInt8 × List UInt8}
    (hv : vs[n]? = some v) :
    stateAfter p mask vs (n + 1) = checkView p mask (stateAfter p mask vs n) v := by
  rw [stateAfter, List.take_add_one, hv, List.foldl_append]
  rfl

theorem start_checkAt : p.CheckAt passed 0 p.checkStart where
  nbyte := rfl
  fill := by
    rw [begun_boundary (Nat.zero_mod _), Nat.zero_div]
    simp [fillAt, checkStart]
  frame h := absurd (Nat.zero_mod _) h
  mode h := absurd (Nat.zero_mod _) h

theorem stateAfter_ok {vs : List (UInt8 × List UInt8)} {n m : Nat} (hnm : n ≤ m)
    (h : (stateAfter p mask vs m).ok = true) : (stateAfter p mask vs n).ok = true := by
  by_contra hnot
  have herror := Bool.eq_false_iff.mpr hnot
  have hsplit : vs.take m = vs.take n ++ (vs.drop n).take (m - n) := by
    rw [← List.take_add, Nat.add_sub_cancel' hnm]
  have hsame : stateAfter p mask vs m = stateAfter p mask vs n := by
    rw [stateAfter, hsplit, List.foldl_append]
    exact foldl_checkView_error herror _
  exact hnot (hsame ▸ h)

/-- All bytes before byte `n` are as expected. -/
def RightUntil (p : FillPattern) (passed : Nat → Bool) (vs : List (UInt8 × List UInt8)) (n : Nat) :
    Prop :=
  ∀ i v, i < n → vs[i]? = some v → Chosen p passed i v.2 ∧ v.1 = p.expectedByte passed i

theorem RightUntil.stateAfter {vs : List (UInt8 × List UInt8)} {n : Nat}
    (hmask : mask = BitVec.allOnes 64) (hn : n ≤ vs.length) (h : RightUntil p passed vs n) :
    (stateAfter p mask vs n).ok = true ∧ p.CheckAt passed n (stateAfter p mask vs n) := by
  induction n with
  | zero => exact ⟨rfl, start_checkAt⟩
  | succ n ih =>
    obtain ⟨hok, hat⟩ := ih (by omega) fun i v hi => h i v (by omega)
    have hv : vs[n]? = some vs[n] := List.getElem?_eq_getElem hn
    obtain ⟨hchosen, hbyte⟩ := h n _ (Nat.lt_succ_self n) hv
    obtain ⟨hiff, hnext⟩ := hat.checkByte hmask hchosen vs[n].1
    rw [stateAfter_succ hv, checkView, if_pos hok]
    exact ⟨hiff.mpr hbyte, hnext⟩

/-- As the checker itself chose, until the error. -/
theorem stateAfter_right {vs : List (UInt8 × List UInt8)} {n : Nat}
    (hmask : mask = BitVec.allOnes 64) (hn : n ≤ vs.length)
    (hpassed : ∀ j, passed j = (stateAfter p mask vs (j * p.readSize + 1)).inFill)
    (h : (stateAfter p mask vs n).ok = true) : RightUntil p passed vs n := by
  induction n with
  | zero => exact fun i v hi => absurd hi (Nat.not_lt_zero i)
  | succ n ih =>
    have hok := stateAfter_ok (Nat.le_succ n) h
    have hright := ih (by omega) hok
    obtain ⟨-, hat⟩ := hright.stateAfter hmask (by omega)
    have hv : vs[n]? = some vs[n] := List.getElem?_eq_getElem hn
    have hstep : stateAfter p mask vs (n + 1) = _ := stateAfter_succ hv
    rw [checkView, if_pos hok] at hstep
    have hchosen : Chosen p passed n vs[n].2 := by
      refine hat.chosen hmask vs[n].1 fun hzero => ?_
      rw [hpassed, Nat.div_mul_cancel (Nat.dvd_of_mod_eq_zero hzero), hstep]
    obtain ⟨hiff, -⟩ := hat.checkByte hmask hchosen vs[n].1
    intro i v hi hvi
    rcases Nat.lt_succ_iff_lt_or_eq.mp hi with hlt | rfl
    · exact hright i v hlt hvi
    · obtain rfl := Option.some.inj (hv.symm.trans hvi)
      exact ⟨hchosen, hiff.mp (hstep ▸ h)⟩

/-- No error is reported if and only if all bytes are as expected for some choice. -/
theorem accepted_right_iff {blocks : List CheckBlock} (hmask : mask = BitVec.allOnes 64) :
    p.accepted mask blocks = true ↔ p.readSize % 8 = 0 ∧
      ∃ passed, RightUntil p passed (blocks.flatMap CheckBlock.views)
        (blocks.flatMap CheckBlock.views).length := by
  have hall : (blocks.flatMap CheckBlock.views).foldl (checkView p mask) p.checkStart =
      stateAfter p mask (blocks.flatMap CheckBlock.views)
        (blocks.flatMap CheckBlock.views).length := by
    rw [stateAfter, List.take_length]
  unfold accepted framechecker
  split
  · rename_i hwhole
    rw [checkBlocks_eq, hall, Option.any_some, and_iff_right hwhole]
    constructor
    · exact fun hok => ⟨_, stateAfter_right hmask (Nat.le_refl _) (fun _ => rfl) hok⟩
    · exact fun ⟨_, hright⟩ => (hright.stateAfter hmask (Nat.le_refl _)).1
  · rename_i hnot
    exact iff_of_false Bool.false_ne_true fun h => hnot h.1

end Jive5ab.Frames
