import Jive5ab.Headersearch.State
import Jive5ab.Lib.ByteMemory
import Jive5ab.Lib.Slice

/-! # Frames of fill pattern

`framepatterngenerator` of `threadfns.cc`: frames of one 64-bit value, with a sync word and a time
stamp, cut into blocks. The wait for the time of a frame is left out. -/
namespace Jive5ab.Frames
open Lib Headersearch
open Vdif (HighResTime)

/-- What is used of a `headersearch_type` with a sync word. `encodeTimestamp` is `none` if it
throws. -/
structure SyncHeader where
  framesize : Nat
  syncword : List UInt8
  syncwordoffset : Nat
  frametime : ℚ≥0
  encodeTimestamp : List UInt8 → HighResTime → Option (List UInt8)
  framesize_pos : 0 < framesize
  framesize_mod : framesize % 8 = 0
  syncword_ne : syncword ≠ []
  syncword_fits : syncwordoffset + syncword.length ≤ framesize
  encode_length : ∀ f t f', f.length = framesize → encodeTimestamp f t = some f' →
    f'.length = framesize

/-- `fillpatargs` and the sizes of the runtime; `now` is the time it is started. -/
structure FillPattern where
  header : SyncHeader
  fill : BitVec 64
  inc : BitVec 64
  nword : Nat
  now : HighResTime
  blocksize : Nat
  readSize : Nat
  compressOffset : Nat
  blocksize_pos : 0 < blocksize
  blocksize_mod : blocksize % 8 = 0
  readSize_pos : 0 < readSize

/-- The frame that is copied from, as far as it is copied, and what the next one is made with. -/
structure GenState where
  frame : List UInt8
  frameptr : Nat
  fill : BitVec 64
  ts : HighResTime

/-- `n` words in memory. -/
def wordBytes (n : Nat) (w : Nat → BitVec 64) : List UInt8 :=
  (List.range (8 * n)).map fun i => ByteMem.byteOf (w (i / 8)) (i % 8)

namespace FillPattern
variable (p : FillPattern)

/-- A frame without time stamp. -/
def blank (fill : BitVec 64) : List UInt8 :=
  overwrite (wordBytes (p.header.framesize / 8) fun _ => fill) p.header.syncwordoffset
    p.header.syncword

def newFrame (s : GenState) : Option GenState :=
  (p.header.encodeTimestamp (p.blank s.fill) s.ts).map fun frame =>
    { s with frame, fill := s.fill + p.inc, ts := advance s.ts p.header.frametime }

/-- Keep on copying frames until `needed` bytes are there; each turn copies one at least. -/
def fillUp : Nat → Nat → GenState → Option (List UInt8 × GenState)
  | _, 0, s => some ([], s)
  | 0, _ + 1, _ => none
  | fuel + 1, needed + 1, s =>
    (if s.frameptr = 0 then p.newFrame s else some s).bind fun s =>
      let nCopy := min (needed + 1) (p.header.framesize - s.frameptr)
      let frameptr := s.frameptr + nCopy
      (fillUp fuel (needed + 1 - nCopy)
        { s with frameptr := if frameptr = p.header.framesize then 0 else frameptr }).map
        fun (bytes, s') => (slice s.frame s.frameptr nCopy ++ bytes, s')

/-- The blocks that are pushed, until the queue does not accept one or an exception is thrown. -/
def generate (accepts : Nat → Bool) : Nat → Nat → Nat → GenState → List (List UInt8)
  | 0, _, _, _ => []
  | fuel + 1, k, wordcount, s =>
    if p.blocksize / 8 < wordcount then
      match p.fillUp p.blocksize p.blocksize s with
      | none => []
      | some (bytes, s') =>
        if accepts k then bytes :: generate accepts fuel (k + 1) (wordcount - p.blocksize / 8) s'
        else []
    else []

/-- The frame buffer is not initialised, but nothing is copied from it before it is filled. -/
def framepatterngenerator (accepts : Nat → Bool) (heap : List UInt8) : List (List UInt8) :=
  p.generate accepts p.nword 0 p.nword ⟨heap, 0, p.fill, p.now⟩

/-! ## The stream by frames -/

/-- The value that frame `k` is filled with. -/
def fillAt (k : Nat) : BitVec 64 := p.fill + BitVec.ofNat 64 k * p.inc

def timeAt : Nat → HighResTime
  | 0 => p.now
  | k + 1 => advance (timeAt k) p.header.frametime

/-- Frame `k` without time stamp, and with it. -/
def frame (k : Nat) : List UInt8 := p.blank (p.fillAt k)

def stamped (k : Nat) : Option (List UInt8) := p.header.encodeTimestamp (p.frame k) (p.timeAt k)

/-- Byte `n` of the stream. -/
def streamByte (n : Nat) : UInt8 :=
  ((p.stamped (n / p.header.framesize)).getD []).getD (n % p.header.framesize) 0

/-- How many frames have been begun before byte `n`. -/
def begun (n : Nat) : Nat := (n + p.header.framesize - 1) / p.header.framesize

/-- The state when the next byte to be copied is byte `n` of the stream. -/
structure GenAt (n : Nat) (s : GenState) : Prop where
  frameptr : s.frameptr = n % p.header.framesize
  fill : s.fill = p.fillAt (p.begun n)
  ts : s.ts = p.timeAt (p.begun n)
  frame : n % p.header.framesize ≠ 0 → p.stamped (n / p.header.framesize) = some s.frame

end FillPattern

variable {p : FillPattern}
open FillPattern

@[simp] theorem length_wordBytes (n : Nat) (w : Nat → BitVec 64) : (wordBytes n w).length = 8 * n := by
  simp [wordBytes]

theorem length_blank (fill : BitVec 64) : (p.blank fill).length = p.header.framesize := by
  have hmod := p.header.framesize_mod
  have hlen : 8 * (p.header.framesize / 8) = p.header.framesize := by omega
  have hfits := p.header.syncword_fits
  rw [blank, length_overwrite (by rw [length_wordBytes, hlen]; exact hfits), length_wordBytes, hlen]

theorem length_stamped {k : Nat} {f : List UInt8} (h : p.stamped k = some f) :
    f.length = p.header.framesize := p.header.encode_length _ _ _ (length_blank _) h

theorem fillAt_succ (k : Nat) : p.fillAt (k + 1) = p.fillAt k + p.inc := by
  rw [fillAt, fillAt, BitVec.ofNat_add, BitVec.add_mul, BitVec.one_mul, ← BitVec.add_assoc]

theorem begun_boundary {n : Nat} (h : n % p.header.framesize = 0) :
    p.begun n = n / p.header.framesize := by
  have hpos := p.header.framesize_pos
  have hdiv := Nat.div_add_mod' n p.header.framesize
  refine Nat.div_eq_of_lt_le (by omega) ?_
  rw [Nat.succ_mul]
  omega

theorem begun_inside {n : Nat} (h : n % p.header.framesize ≠ 0) :
    p.begun n = n / p.header.framesize + 1 := by
  have hpos := p.header.framesize_pos
  have hdiv := Nat.div_add_mod' n p.header.framesize
  have hlt := Nat.mod_lt n hpos
  refine Nat.div_eq_of_lt_le ?_ ?_
  · rw [Nat.succ_mul]
    omega
  · rw [Nat.succ_mul, Nat.succ_mul]
    omega

/-- Further on in the same frame, or at its end. -/
theorem div_mod_within {fs n m : Nat} (h : n % fs + m < fs) :
    (n + m) / fs = n / fs ∧ (n + m) % fs = n % fs + m := by
  have hpos : 0 < fs := by omega
  have hdiv := Nat.div_add_mod' n fs
  have hn : n + m = n % fs + m + fs * (n / fs) := by
    rw [Nat.mul_comm]
    omega
  rw [hn, Nat.add_mul_div_left _ _ hpos, Nat.add_mul_mod_self_left, Nat.div_eq_of_lt h,
    Nat.mod_eq_of_lt h, Nat.zero_add]
  exact ⟨rfl, rfl⟩

theorem div_mod_end {fs n m : Nat} (hpos : 0 < fs) (h : n % fs + m = fs) :
    (n + m) / fs = n / fs + 1 ∧ (n + m) % fs = 0 := by
  have hdiv := Nat.div_add_mod' n fs
  have hn : n + m = fs * (n / fs + 1) := by
    rw [Nat.mul_succ, Nat.mul_comm]
    omega
  rw [hn, Nat.mul_div_cancel_left _ hpos, Nat.mul_mod_right]
  exact ⟨rfl, rfl⟩

/-- At the start of a turn there is a frame to copy from. -/
theorem FillPattern.GenAt.next {n : Nat} {s s' : GenState} (h : p.GenAt n s)
    (hs : (if s.frameptr = 0 then p.newFrame s else some s) = some s') :
    s'.frameptr = n % p.header.framesize ∧ p.stamped (n / p.header.framesize) = some s'.frame ∧
      s'.fill = p.fillAt (n / p.header.framesize + 1) ∧
      s'.ts = p.timeAt (n / p.header.framesize + 1) := by
  by_cases hzero : n % p.header.framesize = 0
  · rw [if_pos (h.frameptr.trans hzero), newFrame, h.fill, h.ts, begun_boundary hzero,
      Option.map_eq_some_iff] at hs
    obtain ⟨frame, hframe, rfl⟩ := hs
    exact ⟨h.frameptr, hframe, (fillAt_succ _).symm, rfl⟩
  · rw [if_neg fun h0 => hzero (h.frameptr.symm.trans h0)] at hs
    obtain rfl := Option.some.inj hs
    refine ⟨h.frameptr, h.frame hzero, ?_, ?_⟩
    · rw [h.fill, begun_inside hzero]
    · rw [h.ts, begun_inside hzero]

/-- Some bytes of a frame are copied. -/
theorem copied_genAt {n m : Nat} {s : GenState} (hptr : s.frameptr = n % p.header.framesize)
    (hframe : p.stamped (n / p.header.framesize) = some s.frame)
    (hfill : s.fill = p.fillAt (n / p.header.framesize + 1))
    (hts : s.ts = p.timeAt (n / p.header.framesize + 1)) (hm : 0 < m)
    (hfit : s.frameptr + m ≤ p.header.framesize) :
    p.GenAt (n + m) { s with
      frameptr := if s.frameptr + m = p.header.framesize then 0 else s.frameptr + m } := by
  rw [hptr] at hfit ⊢
  by_cases hend : n % p.header.framesize + m = p.header.framesize
  · obtain ⟨hdiv, hmod⟩ := div_mod_end p.header.framesize_pos hend
    refine ⟨?_, ?_, ?_, fun h => absurd hmod h⟩
    · rw [hmod]
      exact if_pos hend
    · rw [begun_boundary hmod, hdiv]
      exact hfill
    · rw [begun_boundary hmod, hdiv]
      exact hts
  · obtain ⟨hdiv, hmod⟩ := div_mod_within (Nat.lt_of_le_of_ne hfit hend)
    have hne : (n + m) % p.header.framesize ≠ 0 := by omega
    refine ⟨?_, ?_, ?_, fun _ => ?_⟩
    · rw [hmod]
      exact if_neg hend
    · rw [begun_inside hne, hdiv]
      exact hfill
    · rw [begun_inside hne, hdiv]
      exact hts
    · rw [hdiv]
      exact hframe

/-- The bytes that are copied are those of the stream. -/
theorem slice_streamByte {n m i : Nat} {f : List UInt8}
    (hframe : p.stamped (n / p.header.framesize) = some f)
    (hfit : n % p.header.framesize + m ≤ p.header.framesize) (hi : i < m) :
    p.stamped ((n + i) / p.header.framesize) = some f ∧
      (slice f (n % p.header.framesize) m)[i]? = some (p.streamByte (n + i)) := by
  obtain ⟨hdiv, hmod⟩ := @div_mod_within p.header.framesize n i (by omega)
  have hlt : n % p.header.framesize + i < f.length := by
    rw [length_stamped hframe]
    omega
  refine ⟨by rw [hdiv]; exact hframe, ?_⟩
  rw [streamByte, hdiv, hmod, hframe, slice, List.getElem?_take_of_lt hi, List.getElem?_drop,
    Option.getD_some, List.getD_eq_getElem?_getD, List.getElem?_eq_getElem hlt, Option.getD_some]

/-- The bytes of a block, and where the copying is after them. -/
theorem fillUp_spec {fuel needed n : Nat} {s s' : GenState} {bytes : List UInt8}
    (h : p.GenAt n s) (hb : p.fillUp fuel needed s = some (bytes, s')) :
    p.GenAt (n + needed) s' ∧ bytes.length = needed ∧
      ∀ i, i < needed → (p.stamped ((n + i) / p.header.framesize)).isSome ∧
        bytes[i]? = some (p.streamByte (n + i)) := by
  induction fuel generalizing needed n s bytes with
  | zero =>
    cases needed with
    | zero =>
      obtain ⟨rfl, rfl⟩ : [] = bytes ∧ s = s' := by simpa [fillUp] using hb
      exact ⟨h, rfl, fun i hi => absurd hi (Nat.not_lt_zero i)⟩
    | succ needed => simp [fillUp] at hb
  | succ fuel ih =>
    cases needed with
    | zero =>
      obtain ⟨rfl, rfl⟩ : [] = bytes ∧ s = s' := by simpa [fillUp] using hb
      exact ⟨h, rfl, fun i hi => absurd hi (Nat.not_lt_zero i)⟩
    | succ needed =>
      rw [fillUp, Option.bind_eq_some_iff] at hb
      obtain ⟨t, ht, hb⟩ := hb
      obtain ⟨hptr, hframe, hfill, hts⟩ := h.next ht
      obtain ⟨⟨rest, s₁⟩, hrest, heq⟩ := Option.map_eq_some_iff.mp hb
      obtain ⟨rfl, rfl⟩ := Prod.mk.inj heq
      have hlt := Nat.mod_lt n p.header.framesize_pos
      have hcopy : ∃ m, m = min (needed + 1) (p.header.framesize - t.frameptr) := ⟨_, rfl⟩
      obtain ⟨m, hm⟩ := hcopy
      rw [← hm] at hrest ⊢
      have hfit : n % p.header.framesize + m ≤ p.header.framesize := by omega
      have hgen := copied_genAt hptr hframe hfill hts (m := m) (by omega) (hptr ▸ hfit)
      obtain ⟨hend, hlen, hbytes⟩ := ih hgen hrest
      have hslice : (slice t.frame t.frameptr m).length = m := by
        rw [length_slice, length_stamped hframe]
        omega
      rw [show n + m + (needed + 1 - m) = n + (needed + 1) by omega] at hend
      refine ⟨hend, ?_, fun i hi => ?_⟩
      · rw [List.length_append, hslice, hlen]
        omega
      · by_cases him : i < m
        · obtain ⟨hst, hbyte⟩ := slice_streamByte hframe hfit him
          rw [List.getElem?_append_left (by rwa [hslice]), hptr]
          exact ⟨Option.isSome_of_eq_some hst, hbyte⟩
        · have hrest := hbytes (i - m) (by omega)
          rw [show n + m + (i - m) = n + i by omega] at hrest
          rwa [List.getElem?_append_right (by rw [hslice]; omega), hslice]

/-- There are turns enough. -/
theorem fillUp_isSome (hall : ∀ k, (p.stamped k).isSome = true) {fuel needed n : Nat}
    {s : GenState} (h : p.GenAt n s) (hfuel : needed ≤ fuel) :
    (p.fillUp fuel needed s).isSome = true := by
  induction fuel generalizing needed n s with
  | zero =>
    obtain rfl := Nat.le_zero.mp hfuel
    rfl
  | succ fuel ih =>
    cases needed with
    | zero => rfl
    | succ needed =>
      have hsome : ∃ t, (if s.frameptr = 0 then p.newFrame s else some s) = some t := by
        by_cases hzero : s.frameptr = 0
        · rw [if_pos hzero, newFrame, h.fill, h.ts, begun_boundary (h.frameptr ▸ hzero)]
          obtain ⟨f, hf⟩ := Option.isSome_iff_exists.mp (hall (n / p.header.framesize))
          exact ⟨_, Option.map_eq_some_iff.mpr ⟨f, hf, rfl⟩⟩
        · exact ⟨s, if_neg hzero⟩
      obtain ⟨t, ht⟩ := hsome
      obtain ⟨hptr, hframe, hfill, hts⟩ := h.next ht
      have hlt := Nat.mod_lt n p.header.framesize_pos
      rw [fillUp, ht, Option.bind_some, Option.isSome_map]
      exact ih (copied_genAt hptr hframe hfill hts (by omega) (by omega)) (by omega)

/-- Blocks of one size, with the bytes of the stream. -/
theorem generate_spec {accepts : Nat → Bool} {fuel k wordcount n : Nat} {s : GenState}
    (h : p.GenAt n s) :
    (∀ b ∈ p.generate accepts fuel k wordcount s, b.length = p.blocksize) ∧
      ∀ i, i < (p.generate accepts fuel k wordcount s).flatten.length →
        (p.stamped ((n + i) / p.header.framesize)).isSome ∧
          (p.generate accepts fuel k wordcount s).flatten[i]? = some (p.streamByte (n + i)) := by
  induction fuel generalizing k wordcount n s with
  | zero => exact ⟨by simp [generate], by simp [generate]⟩
  | succ fuel ih =>
    unfold generate
    split
    · cases hb : p.fillUp p.blocksize p.blocksize s with
      | none => simp
      | some r =>
        obtain ⟨bytes, s'⟩ := r
        obtain ⟨hgen, hlen, hbytes⟩ := fillUp_spec h hb
        dsimp only
        split
        · obtain ⟨hsize, hrest⟩ := @ih (k + 1) (wordcount - p.blocksize / 8) _ _ hgen
          refine ⟨List.forall_mem_cons.mpr ⟨hlen, hsize⟩, fun i hi => ?_⟩
          rw [List.flatten_cons, List.length_append, hlen] at hi
          rw [List.flatten_cons]
          by_cases hib : i < p.blocksize
          · rw [List.getElem?_append_left (by rwa [hlen])]
            exact hbytes i hib
          · have hnext := hrest (i - p.blocksize) (by omega)
            rw [show n + p.blocksize + (i - p.blocksize) = n + i by omega] at hnext
            rwa [List.getElem?_append_right (by omega), hlen]
        · simp
    · simp

/-- A block for every `blocksize` bytes of the words that are asked for, but not for the last
words. -/
theorem length_generate (hall : ∀ k, (p.stamped k).isSome = true) {fuel k wordcount n : Nat}
    {s : GenState} (h : p.GenAt n s) (hfuel : wordcount ≤ fuel) :
    (p.generate (fun _ => true) fuel k wordcount s).length = (wordcount - 1) / (p.blocksize / 8) := by
  have hmod := p.blocksize_mod
  have hpos := p.blocksize_pos
  induction fuel generalizing k wordcount n s with
  | zero =>
    obtain rfl := Nat.le_zero.mp hfuel
    simp [generate]
  | succ fuel ih =>
    unfold generate
    split
    · rename_i hlt
      obtain ⟨⟨bytes, s'⟩, hb⟩ :=
        Option.isSome_iff_exists.mp (fillUp_isSome hall h (Nat.le_refl p.blocksize))
      have hdiv := Nat.div_eq_sub_div (show 0 < p.blocksize / 8 by omega)
        (show p.blocksize / 8 ≤ wordcount - 1 by omega)
      rw [hb]
      dsimp only
      rw [if_pos rfl, List.length_cons, ih (fillUp_spec h hb).1 (by omega), hdiv,
        Nat.sub_right_comm]
    · rename_i hle
      exact (Nat.div_eq_of_lt (by omega)).symm

theorem start_genAt (heap : List UInt8) : p.GenAt 0 ⟨heap, 0, p.fill, p.now⟩ where
  frameptr := (Nat.zero_mod _).symm
  fill := by
    rw [begun_boundary (Nat.zero_mod _), Nat.zero_div]
    simp [fillAt]
  ts := by
    rw [begun_boundary (Nat.zero_mod _), Nat.zero_div]
    rfl
  frame h := absurd (Nat.zero_mod _) h

/-- Every block has `blocksize` bytes, and together they are those of the frames in a row. -/
theorem framepatterngenerator_stream (accepts : Nat → Bool) (heap : List UInt8) :
    (∀ b ∈ p.framepatterngenerator accepts heap, b.length = p.blocksize) ∧
      ∀ i, i < (p.framepatterngenerator accepts heap).flatten.length →
        (p.stamped (i / p.header.framesize)).isSome ∧
          (p.framepatterngenerator accepts heap).flatten[i]? = some (p.streamByte i) := by
  have hspec := @generate_spec p accepts p.nword 0 p.nword 0 _ (start_genAt heap)
  simp only [Nat.zero_add] at hspec
  exact hspec

end Jive5ab.Frames
