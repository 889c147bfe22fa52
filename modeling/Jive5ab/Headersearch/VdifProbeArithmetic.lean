import Jive5ab.Headersearch.VdifProbe

/-! # The arithmetic of the VDIF probe

When the number of tracks, the payload and the bit rate of a probe are computed without a word
that wraps and without a divisor that is zero. The fields that they come from are taken as they
stand in the buffer, so this is a condition on the buffer. -/
namespace Jive5ab.Headersearch
open Lib Lib.Checked

/-! ## Watched steps -/

section
variable {α : Type} {w d : Nat} {x : Int}

theorem watched_word_ok (h : 0 ≤ x ∧ x < 2 ^ w) :
    (Arithmetic.watched.word w x : Probing Nat) = .ok x.toNat := if_pos h

theorem faultless_word {f : Nat → Probing α} :
    Faultless (Arithmetic.watched.word w x >>= f) ↔
      (0 ≤ x ∧ x < 2 ^ w) ∧ Faultless (f x.toNat) := by
  by_cases h : 0 ≤ x ∧ x < 2 ^ w
  · rw [watched_word_ok h, ok_bind]
    exact ⟨fun hf => ⟨h, hf⟩, fun hf => hf.2⟩
  · have hwraps : (Arithmetic.watched.word w x : Probing Nat) = .error .wraps := if_neg h
    rw [hwraps]
    exact iff_of_false id fun hf => h hf.1

theorem faultless_divisor {f : Unit → Probing α} :
    Faultless (Arithmetic.watched.divisor d >>= f) ↔ d ≠ 0 ∧ Faultless (f ()) := by
  by_cases h : d = 0
  · have hzero : (Arithmetic.watched.divisor d : Probing Unit) = .error .dividesByZero := if_pos h
    rw [hzero]
    exact iff_of_false id fun hf => hf.1 h
  · have hok : (Arithmetic.watched.divisor d : Probing Unit) = .ok () := if_neg h
    rw [hok, ok_bind]
    exact ⟨fun hf => ⟨h, hf⟩, fun hf => hf.2⟩

end

/-! ## The frames that are looked at -/

section
variable (buf : List UInt8) (base : Words)

/-- The frames of the thread of the base from `pos` on: those of its second, and the first one
of another second, at `last`. -/
inductive LooksAt : Nat → ThreadMap → List Nat → Nat → ThreadMap → Prop
  | other {pos : Nat} {threads : ThreadMap} :
      (vdifHeaderAt buf pos).get .epochSeconds ≠ base.get .epochSeconds →
      LooksAt pos threads [pos] pos threads
  | more {pos next last : Nat} {threads threads' threads'' : ThreadMap} {poss : List Nat} :
      (vdifHeaderAt buf pos).get .epochSeconds = base.get .epochSeconds →
      findNextVdifThreadHeader buf base (vdifSecond base) pos threads = .ok (some next, threads') →
      LooksAt next threads' poss last threads'' →
      LooksAt pos threads (pos :: poss) last threads''

variable {buf base} {pos last fuel frmPtr maxNum : Nat} {threads threads' : ThreadMap}

theorem LooksAt.first_mem {poss : List Nat} (h : LooksAt buf base pos threads poss last threads') :
    pos ∈ poss := by
  cases h with
  | other => exact List.mem_singleton_self _
  | more => exact List.mem_cons_self

theorem max_add_one_mul_lt {a b c : Nat} {bound : Nat} :
    (max a b + 1) * c < bound ↔ (a + 1) * c < bound ∧ (b + 1) * c < bound := by
  rcases Nat.le_total a b with h | h
  · have hle : (a + 1) * c ≤ (b + 1) * c := Nat.mul_le_mul_right c (by omega)
    rw [Nat.max_eq_right h]
    exact ⟨fun hb => ⟨Nat.lt_of_le_of_lt hle hb, hb⟩, fun hab => hab.2⟩
  · have hle : (b + 1) * c ≤ (a + 1) * c := Nat.mul_le_mul_right c (by omega)
    rw [Nat.max_eq_left h]
    exact ⟨fun ha => ⟨ha, Nat.lt_of_le_of_lt hle ha⟩, fun hab => hab.1⟩

/-- The loop comes to the last of the frames, with the largest of their numbers. -/
theorem sameSecondLoop_of_looksAt {poss : List Nat}
    (h : LooksAt buf base pos threads poss last threads')
    (hpos : pos + sizeofVdifHeader ≤ buf.length) (hfuel : buf.length < fuel + pos) :
    ∃ frm m, sameSecondLoop buf base (vdifSecond base) fuel frmPtr pos
        (max maxNum ((vdifHeaderAt buf pos).get .dataFrameNum)) threads =
          .ok ⟨frm, some last, m, threads'⟩ ∧
      last + sizeofVdifHeader ≤ buf.length ∧
      (vdifHeaderAt buf last).get .epochSeconds ≠ base.get .epochSeconds ∧
      ∀ c bound, (m + 1) * c < bound ↔ (maxNum + 1) * c < bound ∧
        ∀ p ∈ poss, ((vdifHeaderAt buf p).get .dataFrameNum + 1) * c < bound := by
  induction h generalizing fuel frmPtr maxNum with
  | @other pos threads hother =>
    cases fuel with
    | zero =>
      unfold sizeofVdifHeader at hpos
      omega
    | succ fuel =>
      refine ⟨frmPtr, max maxNum ((vdifHeaderAt buf pos).get .dataFrameNum), ?_, hpos, hother,
        fun c bound => ?_⟩
      · rw [sameSecondLoop, derefVdif_inside hpos, ok_bind, if_pos hother]
      · rw [max_add_one_mul_lt, List.forall_mem_singleton]
  | @more pos next last threads threads' threads'' poss hsame hfound _ ih =>
    obtain ⟨found, heq, hbehind⟩ := @findNext_spec buf base (vdifSecond base) pos threads hpos
    rw [hfound] at heq
    obtain rfl := Except.ok.inj heq
    obtain ⟨hon, hinside⟩ := hbehind next rfl
    cases fuel with
    | zero =>
      unfold sizeofVdifHeader at hpos
      omega
    | succ fuel =>
      obtain ⟨frm, m, hloop, hlast, hother, hmax⟩ := @ih fuel pos
        (max maxNum ((vdifHeaderAt buf pos).get .dataFrameNum)) hinside (by omega)
      refine ⟨frm, m, ?_, hlast, hother, fun c bound => ?_⟩
      · rw [sameSecondLoop, derefVdif_inside hpos, ok_bind, if_neg (not_not.mpr hsame), hfound,
          ok_bind]
        dsimp only
        rw [derefVdif_inside hinside, ok_bind, hloop]
      · rw [hmax, max_add_one_mul_lt, List.forall_mem_cons, and_assoc]

/-- A loop that ends at a frame of another second has looked at the frames up to it. -/
theorem looksAt_of_sameSecondLoop {second : SecondEnd}
    (h : sameSecondLoop buf base (vdifSecond base) fuel frmPtr pos maxNum threads = .ok second)
    (hpos : pos + sizeofVdifHeader ≤ buf.length) (hlast : second.nextFrame = some last) :
    ∃ poss, LooksAt buf base pos threads poss last second.threads := by
  induction fuel generalizing frmPtr pos maxNum threads with
  | zero => cases h
  | succ fuel ih =>
    rw [sameSecondLoop, derefVdif_inside hpos, ok_bind] at h
    split_ifs at h with hother
    · obtain rfl := Except.ok.inj h
      obtain rfl := Option.some.inj hlast
      exact ⟨_, .other hother⟩
    · obtain ⟨⟨found, threads'⟩, hfound, hbehind⟩ :=
        @findNext_spec buf base (vdifSecond base) pos threads hpos
      rw [hfound, ok_bind] at h
      cases found with
      | none =>
        obtain rfl := Except.ok.inj h
        cases hlast
      | some next =>
        obtain ⟨-, hinside⟩ := hbehind next rfl
        dsimp only at h
        rw [derefVdif_inside hinside, ok_bind] at h
        obtain ⟨poss, hlooks⟩ := ih h hinside
        exact ⟨_, .more (not_not.mp hother) hfound hlooks⟩

end

/-! ## Tracks and payload -/

section
variable (base : Words)

def vdifTracks : Nat :=
  2 ^ base.get .log2nchans * (base.get .bitsPerSample + 1) * (base.get .complex + 1)

def vdifHeaderBytes : Nat := if base.get .legacy = 1 then 16 else 32

def vdifPayload : Nat := base.get .dataFrameLen8 * 8 - vdifHeaderBytes base

/-- What a first header describes, with numbers that do not wrap. -/
def described (baseTime : Int) (result : DataCheckType) : DataCheckType :=
  { result with
    format := vdifFormat base
    ntrack := vdifTracks base
    trackbitrate := unknownRate
    time := (baseTime, none)
    byteOffset := 0
    vdifFrameSize := base.get .dataFrameLen8 * 8
    vdifDataSize := vdifPayload base
    frameNumber := base.get .dataFrameNum }

variable {base} {α : Type} {baseTime : Int} {result : DataCheckType}

theorem vdifTracks_pos : 0 < vdifTracks base :=
  Nat.mul_pos (Nat.mul_pos (Nat.two_pow_pos _) (Nat.succ_pos _)) (Nat.succ_pos _)

theorem headersize_vdifFormat (n : Nat) : headersize (vdifFormat base) n = vdifHeaderBytes base := by
  unfold vdifFormat vdifHeaderBytes
  split <;> split <;> rfl

theorem dataFrameLen8_lt : base.get .dataFrameLen8 * 8 < 2 ^ 27 := by
  have hlen := BitField.get_lt (base (Field.word .dataFrameLen8)) (Field.off .dataFrameLen8) 24
  change base.get .dataFrameLen8 < 2 ^ 24 at hlen
  omega

theorem faultless_describe {f : DataCheckType → Probing α} :
    Faultless (describe .watched base baseTime result >>= f) ↔
      (vdifTracks base < 2 ^ 32 ∧ vdifHeaderBytes base ≤ base.get .dataFrameLen8 * 8) ∧
        Faultless (f (described base baseTime result)) := by
  have hlen : base.get .dataFrameLen8 * 8 < 2 ^ 27 := dataFrameLen8_lt
  unfold describe
  dsimp only
  rw [bind_assoc, faultless_word, bind_assoc, faultless_word, bind_assoc, faultless_word,
    headersize_vdifFormat]
  rw [Int.toNat_natCast, Int.toNat_natCast, Int.toNat_sub, pure_bind]
  constructor
  · rintro ⟨⟨-, htracks⟩, -, ⟨hpayload, -⟩, hf⟩
    exact ⟨⟨by exact_mod_cast htracks, by omega⟩, hf⟩
  · rintro ⟨⟨htracks, hpayload⟩, hf⟩
    exact ⟨⟨Int.natCast_nonneg _, by exact_mod_cast htracks⟩, ⟨Int.natCast_nonneg _, by omega⟩,
      ⟨by omega, by omega⟩, hf⟩

/-! ## The bit rate -/

theorem faultless_recomputeTime {frame : Words} (payload : Nat) :
    Faultless (recomputeTime frame payload result) := by
  unfold recomputeTime
  split
  · exact faultless_throws _
  · refine faultless_bind.mpr ⟨?_, fun _ _ => faultless_ok _⟩
    unfold decodeVdif
    split
    · exact faultless_ok _
    · exact faultless_throws _

variable {roundUp : Nat → Nat → Option Nat} {frame : Words} {maxNum : Nat}

theorem faultless_payload {f : Nat → Probing α}
    (hpayload : vdifHeaderBytes base ≤ base.get .dataFrameLen8 * 8) :
    Faultless (Arithmetic.watched.word 32
      ((base.get .dataFrameLen8 * 8 : ℕ) - if base.get .legacy = 1 then (16 : ℤ) else 32) >>= f) ↔
      Faultless (f (vdifPayload base)) := by
  have hlen : base.get .dataFrameLen8 * 8 < 2 ^ 27 := dataFrameLen8_lt
  have hbytes : (if base.get .legacy = 1 then (16 : ℤ) else 32) = vdifHeaderBytes base := by
    unfold vdifHeaderBytes
    split <;> rfl
  rw [faultless_word, hbytes, Int.toNat_sub]
  exact ⟨fun h => h.2, fun hf => ⟨⟨by omega, by omega⟩, hf⟩⟩

/-- Without a frame of another second there is no rate. -/
theorem faultless_deriveBitrate_none
    (hpayload : vdifHeaderBytes base ≤ base.get .dataFrameLen8 * 8) :
    Faultless (deriveBitrate .watched roundUp base frame none maxNum result) := by
  unfold deriveBitrate
  dsimp only
  rw [faultless_word, faultless_payload hpayload]
  exact ⟨by decide, faultless_ok _⟩

/-- The rate is in the words from which it is computed. -/
def RateInWords (base : Words) (maxNum : Nat) (next : Words) : Prop :=
  base.get .epochSeconds < next.get .epochSeconds ∧
    (maxNum + 1) * (vdifPayload base *
      if next.get .epochSeconds = base.get .epochSeconds + 1 then 1 else 8) < 2 ^ 32

theorem faultless_standardBitrate {payload : Nat} (hmax : maxNum + 1 < 2 ^ 32)
    (htracks : 0 < result.ntrack) :
    Faultless (standardBitrate .watched roundUp frame payload maxNum result) ↔
      (maxNum + 1) * payload < 2 ^ 32 := by
  unfold standardBitrate
  rw [faultless_word, Int.toNat_natCast, faultless_word, Int.toNat_natCast, faultless_divisor]
  constructor
  · rintro ⟨-, ⟨-, hbytes⟩, -⟩
    exact_mod_cast hbytes
  · intro hbytes
    refine ⟨⟨Int.natCast_nonneg _, by exact_mod_cast hmax⟩,
      ⟨Int.natCast_nonneg _, by exact_mod_cast hbytes⟩, Nat.ne_of_gt htracks, ?_⟩
    split
    · exact faultless_ok _
    · exact faultless_recomputeTime payload

theorem faultless_periodBitrate {payload dutsec : Nat} (hmax : maxNum + 1 < 2 ^ 32)
    (htracks : 0 < result.ntrack ∧ result.ntrack < 2 ^ 32)
    (hdutsec : 0 < dutsec ∧ dutsec < 2 ^ 32) :
    Faultless (periodBitrate .watched frame payload dutsec maxNum result) ↔
      (maxNum + 1) * (payload * 8) < 2 ^ 32 := by
  have hproduct : dutsec * result.ntrack < 2 ^ 32 * 2 ^ 32 :=
    Nat.mul_lt_mul'' hdutsec.2 htracks.2
  rw [← Nat.mul_assoc]
  unfold periodBitrate
  rw [faultless_word, Int.toNat_natCast, faultless_word, Int.toNat_natCast, faultless_word,
    Int.toNat_natCast, faultless_word, Int.toNat_natCast, faultless_divisor]
  constructor
  · rintro ⟨-, -, ⟨-, hbits⟩, -⟩
    exact_mod_cast hbits
  · intro hbits
    have hbytes : (maxNum + 1) * payload < 2 ^ 32 :=
      Nat.lt_of_le_of_lt (Nat.le_mul_of_pos_right _ (by decide)) hbits
    refine ⟨⟨Int.natCast_nonneg _, by exact_mod_cast hmax⟩,
      ⟨Int.natCast_nonneg _, by exact_mod_cast hbytes⟩,
      ⟨Int.natCast_nonneg _, by exact_mod_cast hbits⟩,
      ⟨Int.natCast_nonneg _, by exact_mod_cast hproduct⟩,
      Nat.ne_of_gt (Nat.mul_pos hdutsec.1 htracks.1), ?_⟩
    split
    · exact faultless_throws _
    · exact faultless_recomputeTime payload

theorem faultless_deriveBitrate_some {next : Words}
    (hpayload : vdifHeaderBytes base ≤ base.get .dataFrameLen8 * 8)
    (hother : next.get .epochSeconds ≠ base.get .epochSeconds) (hmax : maxNum + 1 < 2 ^ 32)
    (htracks : 0 < result.ntrack ∧ result.ntrack < 2 ^ 32) :
    Faultless (deriveBitrate .watched roundUp base frame (some next) maxNum result) ↔
      RateInWords base maxNum next := by
  have hepoch : next.get .epochSeconds < 2 ^ 30 :=
    BitField.get_lt (next (Field.word .epochSeconds)) (Field.off .epochSeconds) 30
  unfold deriveBitrate RateInWords
  dsimp only
  rw [faultless_word, faultless_payload hpayload]
  by_cases hback : next.get .epochSeconds < base.get .epochSeconds
  · exact iff_of_false (fun h => by omega) (fun h => by omega)
  obtain ⟨k, hk⟩ : ∃ k, next.get .epochSeconds = base.get .epochSeconds + (k + 1) :=
    ⟨next.get .epochSeconds - base.get .epochSeconds - 1, by omega⟩
  have hdutsec : ((next.get .epochSeconds : ℤ) - base.get .epochSeconds).toNat = k + 1 := by omega
  have hrange : 0 ≤ (next.get .epochSeconds : ℤ) - base.get .epochSeconds ∧
      (next.get .epochSeconds : ℤ) - base.get .epochSeconds < 2 ^ 64 := by omega
  have hlater : base.get .epochSeconds < next.get .epochSeconds := by omega
  rw [hdutsec, and_iff_right hrange, and_iff_right hlater]
  cases k with
  | zero =>
    rw [if_pos hk, Nat.mul_one]
    exact faultless_standardBitrate hmax htracks.1
  | succ k =>
    rw [if_neg (by omega)]
    exact faultless_periodBitrate hmax htracks ⟨Nat.succ_pos _, by omega⟩

end

/-! ## The whole probe -/

section
variable {buf : List UInt8} {threads : ThreadMap} {roundUp : Nat → Nat → Option Nat} {base : Words}
  {result : DataCheckType} {which : WhichFrame} {second : SecondEnd}

theorem faultless_finishProbe (hbase : 0 + sizeofVdifHeader ≤ buf.length)
    (hfrm : second.frmPtr + sizeofVdifHeader ≤ buf.length)
    (hlast : ∀ next, second.nextFrame = some next → next + sizeofVdifHeader ≤ buf.length ∧
      (vdifHeaderAt buf next).get .epochSeconds ≠ base.get .epochSeconds ∧
      second.maxDataFrameNum + 1 < 2 ^ 32)
    (hpayload : vdifHeaderBytes base ≤ base.get .dataFrameLen8 * 8)
    (htracks : 0 < result.ntrack ∧ result.ntrack < 2 ^ 32) :
    Faultless (finishProbe .watched roundUp base buf which second result) ↔
      (isSimpleVdif second.threads → ∀ next, second.nextFrame = some next →
        RateInWords base second.maxDataFrameNum (vdifHeaderAt buf next)) := by
  have hptr : (if which = .captureFirst then 0 else second.frmPtr) + sizeofVdifHeader ≤
      buf.length := by
    split
    · exact hbase
    · exact hfrm
  unfold finishProbe
  dsimp only
  rw [derefVdif_inside hptr, ok_bind, unknownVDIFRateDecoder_ok, ok_bind]
  by_cases hsimple : isSimpleVdif second.threads
  · rw [if_neg (not_not.mpr hsimple), imp_iff_right hsimple]
    cases hend : second.nextFrame with
    | none =>
      refine iff_of_true ?_ fun _ h => nomatch h
      exact faultless_bind.mpr ⟨faultless_deriveBitrate_none hpayload, fun _ _ => faultless_ok _⟩
    | some last =>
      obtain ⟨hinside, hother, hmax⟩ := hlast last hend
      dsimp only
      have hrate (frame : Words) (r : DataCheckType) (hr : r.ntrack = result.ntrack) :
          Faultless (deriveBitrate .watched roundUp base frame (some (vdifHeaderAt buf last))
            second.maxDataFrameNum r) ↔
            RateInWords base second.maxDataFrameNum (vdifHeaderAt buf last) :=
        faultless_deriveBitrate_some hpayload hother hmax (by rwa [hr])
      rw [derefVdif_inside hinside, ok_bind, faultless_bind]
      constructor
      · rintro ⟨hfaultless, -⟩ next hnext
        obtain rfl := Option.some.inj hnext
        refine (hrate _ _ ?_).mp hfaultless
        rfl
      · refine fun h => ⟨(hrate _ _ ?_).mpr (h last rfl), fun _ _ => faultless_ok _⟩
        rfl
  · rw [if_pos hsimple]
    exact iff_of_true (faultless_ok _) fun h => absurd h hsimple

/-- The threads seen before, and that of the first frame. -/
def withBase (buf : List UInt8) (threads : ThreadMap) : ThreadMap :=
  threads.insertIfNew ((vdifHeaderAt buf 0).get .threadId) (vdifHeaderAt buf 0)

/-- The buffer holds another frame of the thread of its first one. -/
def ProbeReaches (buf : List UInt8) (threads : ThreadMap) : Prop :=
  sizeofVdifHeader ≤ buf.length ∧ ∃ next threads',
    findNextVdifThreadHeader buf (vdifHeaderAt buf 0) (vdifSecond (vdifHeaderAt buf 0)) 0
      (withBase buf threads) = .ok (some next, threads')

structure ProbeInWords (buf : List UInt8) (threads : ThreadMap) : Prop where
  tracks : vdifTracks (vdifHeaderAt buf 0) < 2 ^ 32
  payload : vdifHeaderBytes (vdifHeaderAt buf 0) ≤ (vdifHeaderAt buf 0).get .dataFrameLen8 * 8
  rate : ∀ poss last threads',
    LooksAt buf (vdifHeaderAt buf 0) 0 (withBase buf threads) poss last threads' →
    isSimpleVdif threads' → ∀ pos ∈ poss, RateInWords (vdifHeaderAt buf 0)
      ((vdifHeaderAt buf pos).get .dataFrameNum) (vdifHeaderAt buf last)

theorem dataFrameNum_lt (w : Words) : (w.get .dataFrameNum + 1) * 1 < 2 ^ 32 := by
  have hnum := BitField.get_lt (w (Field.word .dataFrameNum)) (Field.off .dataFrameNum) 24
  change w.get .dataFrameNum < 2 ^ 24 at hnum
  omega

/-- The loop of a probe that has found a second frame, in terms of the frames that it looks at. -/
theorem second_of_looksAt {next last : Nat} {threads' threads'' : ThreadMap} {poss : List Nat}
    (hnext : next + sizeofVdifHeader ≤ buf.length)
    (hfound : findNextVdifThreadHeader buf (vdifHeaderAt buf 0) (vdifSecond (vdifHeaderAt buf 0)) 0
      threads = .ok (some next, threads'))
    (hsecond : sameSecondLoop buf (vdifHeaderAt buf 0) (vdifSecond (vdifHeaderAt buf 0))
      (buf.length + 1) next next (max ((vdifHeaderAt buf 0).get .dataFrameNum)
        ((vdifHeaderAt buf next).get .dataFrameNum)) threads' = .ok second)
    (h : LooksAt buf (vdifHeaderAt buf 0) 0 threads poss last threads'') :
    second.nextFrame = some last ∧ threads'' = second.threads ∧
      (vdifHeaderAt buf last).get .epochSeconds ≠ (vdifHeaderAt buf 0).get .epochSeconds ∧
      ∀ c bound, (second.maxDataFrameNum + 1) * c < bound ↔
        ∀ pos ∈ poss, ((vdifHeaderAt buf pos).get .dataFrameNum + 1) * c < bound := by
  cases h with
  | other hother => exact absurd rfl hother
  | @more _ next' _ _ threads₁ _ poss hsame hfound' hrest =>
    rw [hfound] at hfound'
    obtain ⟨hnext', rfl⟩ := Prod.mk.inj (Except.ok.inj hfound')
    obtain rfl := Option.some.inj hnext'
    obtain ⟨frm, m, hloop, -, hother, hmax⟩ := @sameSecondLoop_of_looksAt _ _ _ _ _ next
      ((vdifHeaderAt buf 0).get .dataFrameNum) _ _ _ hrest hnext (Nat.lt_add_right _ (Nat.lt_succ_self _))
    rw [hsecond] at hloop
    obtain rfl := Except.ok.inj hloop
    refine ⟨rfl, rfl, hother, fun c bound => ?_⟩
    rw [hmax, List.forall_mem_cons]

/-- No word of the probe wraps and no divisor is zero exactly if the fields of the buffer keep
within the words. -/
theorem probing_faultless_iff (roundUp : Nat → Nat → Option Nat) (buf : List UInt8)
    (result : DataCheckType) (which : WhichFrame) :
    Faultless (seemsLikeVdif .watched roundUp buf result which) ↔
      (ProbeReaches buf result.vdifThreads → ProbeInWords buf result.vdifThreads) := by
  unfold seemsLikeVdif
  by_cases hlen : buf.length < sizeofVdifHeader
  · rw [if_pos hlen]
    exact iff_of_true (faultless_ok _) fun h => absurd h.1 (Nat.not_le.mpr hlen)
  have hbase : 0 + sizeofVdifHeader ≤ buf.length := by omega
  rw [if_neg hlen, derefVdif_inside hbase, ok_bind, unknownVDIFRateDecoder_ok, ok_bind]
  dsimp only
  obtain ⟨⟨found, threads⟩, hfound, hbehind⟩ := @findNext_spec buf (vdifHeaderAt buf 0)
    (vdifSecond (vdifHeaderAt buf 0)) 0 (withBase buf result.vdifThreads) hbase
  have hfound' := hfound
  unfold withBase at hfound'
  rw [hfound', ok_bind]
  cases found with
  | none =>
    refine iff_of_true (faultless_ok _) ?_
    rintro ⟨-, next, threads', hnext⟩
    rw [hnext] at hfound
    cases hfound
  | some next =>
    obtain ⟨-, hnext⟩ := hbehind next rfl
    have hreaches : ProbeReaches buf result.vdifThreads := ⟨by omega, next, threads, hfound⟩
    rw [imp_iff_right hreaches]
    dsimp only
    rw [faultless_describe, derefVdif_inside hnext, ok_bind]
    obtain ⟨second, hsecond, hfrm, hlast⟩ := @sameSecondLoop_spec buf (vdifHeaderAt buf 0)
      (vdifSecond (vdifHeaderAt buf 0)) next (buf.length + 1) threads next
      (max ((vdifHeaderAt buf 0).get .dataFrameNum) ((vdifHeaderAt buf next).get .dataFrameNum))
      hnext hnext (by omega)
    rw [hsecond, ok_bind]
    have hlooks {last : Nat} (hend : second.nextFrame = some last) : ∃ poss,
        LooksAt buf (vdifHeaderAt buf 0) 0 (withBase buf result.vdifThreads) poss last
          second.threads := by
      obtain ⟨poss, hposs⟩ := looksAt_of_sameSecondLoop hsecond hnext hend
      exact ⟨0 :: poss, .more rfl hfound hposs⟩
    have hrest (htracks : vdifTracks (vdifHeaderAt buf 0) < 2 ^ 32)
        (hpayload : vdifHeaderBytes (vdifHeaderAt buf 0) ≤
          (vdifHeaderAt buf 0).get .dataFrameLen8 * 8) :=
      @faultless_finishProbe buf roundUp (vdifHeaderAt buf 0)
        (described (vdifHeaderAt buf 0) (vdifSecond (vdifHeaderAt buf 0)) result) which second hbase
        hfrm (fun last hend => by
          obtain ⟨poss, hposs⟩ := hlooks hend
          obtain ⟨-, -, hother, hmax⟩ := second_of_looksAt hnext hfound hsecond hposs
          have hnum := (hmax 1 (2 ^ 32)).mpr fun pos _ => dataFrameNum_lt _
          exact ⟨hlast last hend, hother, by omega⟩) hpayload ⟨vdifTracks_pos, htracks⟩
    constructor
    · rintro ⟨⟨htracks, hpayload⟩, hfaultless⟩
      refine ⟨htracks, hpayload, fun poss last threads' hposs hsimple pos hpos => ?_⟩
      obtain ⟨hend, rfl, -, hmax⟩ := second_of_looksAt hnext hfound hsecond hposs
      obtain ⟨hlater, hbits⟩ := (hrest htracks hpayload).mp hfaultless hsimple last hend
      exact ⟨hlater, (hmax _ _).mp hbits pos hpos⟩
    · rintro ⟨htracks, hpayload, hrate⟩
      refine ⟨⟨htracks, hpayload⟩, (hrest htracks hpayload).mpr fun hsimple last hend => ?_⟩
      obtain ⟨poss, hposs⟩ := hlooks hend
      obtain ⟨-, -, -, hmax⟩ := second_of_looksAt hnext hfound hsecond hposs
      have hall := hrate poss last second.threads hposs hsimple
      exact ⟨(hall 0 hposs.first_mem).1, (hmax _ _).mpr fun pos hpos => (hall pos hpos).2⟩

end

/-! ## What is watched is the probe itself -/

/-- Without a fault the machine comes to the same. -/
def SameUnlessFault {α : Type} (x y : Probing α) : Prop := Faultless x → y = x

section
variable {α β : Type} {roundUp : Nat → Nat → Option Nat} {base frame : Words}
  {result : DataCheckType}

theorem sameUnlessFault_refl (x : Probing α) : SameUnlessFault x x := fun _ => rfl

theorem sameUnlessFault_bind {x y : Probing α} {f g : α → Probing β} (h : SameUnlessFault x y)
    (hf : ∀ a, SameUnlessFault (f a) (g a)) : SameUnlessFault (x >>= f) (y >>= g) := by
  intro hfaultless
  obtain ⟨hx, hrest⟩ := faultless_bind.mp hfaultless
  rw [h hx]
  cases x with
  | ok a => exact hf a (hrest a rfl)
  | error e => rfl

theorem sameUnlessFault_word (w : Nat) (x : Int) :
    SameUnlessFault (Arithmetic.watched.word w x) (Arithmetic.machine.word w x) := by
  intro hfaultless
  by_cases h : 0 ≤ x ∧ x < 2 ^ w
  · rw [watched_word_ok h]
    show (Except.ok (x % 2 ^ w).toNat : Probing Nat) = .ok x.toNat
    rw [Int.emod_eq_of_lt h.1 h.2]
  · have hwraps : (Arithmetic.watched.word w x : Probing Nat) = .error .wraps := if_neg h
    rw [hwraps] at hfaultless
    exact hfaultless.elim

theorem sameUnlessFault_divisor (d : Nat) :
    SameUnlessFault (Arithmetic.watched.divisor d) (Arithmetic.machine.divisor d) := by
  intro hfaultless
  by_cases h : d = 0
  · have hzero : (Arithmetic.watched.divisor d : Probing Unit) = .error .dividesByZero := if_pos h
    rw [hzero] at hfaultless
    exact hfaultless.elim
  · exact (if_neg h : (Arithmetic.watched.divisor d : Probing Unit) = .ok ()).symm

theorem sameUnlessFault_describe (baseTime : Int) :
    SameUnlessFault (describe .watched base baseTime result)
      (describe .machine base baseTime result) :=
  sameUnlessFault_bind (sameUnlessFault_word _ _) fun _ =>
    sameUnlessFault_bind (sameUnlessFault_word _ _) fun _ =>
      sameUnlessFault_bind (sameUnlessFault_word _ _) fun _ => sameUnlessFault_refl _

theorem sameUnlessFault_standardBitrate (payload maxNum : Nat) :
    SameUnlessFault (standardBitrate .watched roundUp frame payload maxNum result)
      (standardBitrate .machine roundUp frame payload maxNum result) :=
  sameUnlessFault_bind (sameUnlessFault_word _ _) fun _ =>
    sameUnlessFault_bind (sameUnlessFault_word _ _) fun _ =>
      sameUnlessFault_bind (sameUnlessFault_divisor _) fun _ => sameUnlessFault_refl _

theorem sameUnlessFault_periodBitrate (payload dutsec maxNum : Nat) :
    SameUnlessFault (periodBitrate .watched frame payload dutsec maxNum result)
      (periodBitrate .machine frame payload dutsec maxNum result) :=
  sameUnlessFault_bind (sameUnlessFault_word _ _) fun _ =>
    sameUnlessFault_bind (sameUnlessFault_word _ _) fun _ =>
      sameUnlessFault_bind (sameUnlessFault_word _ _) fun _ =>
        sameUnlessFault_bind (sameUnlessFault_word _ _) fun _ =>
          sameUnlessFault_bind (sameUnlessFault_divisor _) fun _ => sameUnlessFault_refl _

theorem sameUnlessFault_deriveBitrate (next : Option Words) (maxNum : Nat) :
    SameUnlessFault (deriveBitrate .watched roundUp base frame next maxNum result)
      (deriveBitrate .machine roundUp base frame next maxNum result) := by
  refine sameUnlessFault_bind (sameUnlessFault_word _ _) fun dutsec =>
    sameUnlessFault_bind (sameUnlessFault_word _ _) fun payload => ?_
  split
  · exact sameUnlessFault_refl _
  · exact sameUnlessFault_standardBitrate payload maxNum
  · exact sameUnlessFault_periodBitrate payload _ maxNum

theorem sameUnlessFault_finishProbe (buf : List UInt8) (which : WhichFrame) (second : SecondEnd) :
    SameUnlessFault (finishProbe .watched roundUp base buf which second result)
      (finishProbe .machine roundUp base buf which second result) := by
  unfold finishProbe
  dsimp only
  generalize (if which = .captureFirst then 0 else second.frmPtr) = frmPtr
  refine sameUnlessFault_bind (sameUnlessFault_refl _) fun _ =>
    sameUnlessFault_bind (sameUnlessFault_refl _) fun _ => ?_
  split
  · exact sameUnlessFault_refl _
  · split
    · exact sameUnlessFault_bind (sameUnlessFault_deriveBitrate none _) fun _ =>
        sameUnlessFault_refl _
    · exact sameUnlessFault_bind (sameUnlessFault_refl _) fun _ =>
        sameUnlessFault_bind (sameUnlessFault_deriveBitrate (some _) _) fun _ =>
          sameUnlessFault_refl _

/-- The watched probe is the probe, up to its first fault. -/
theorem seemsLikeVdif_machine {buf : List UInt8} {which : WhichFrame}
    (h : Faultless (seemsLikeVdif .watched roundUp buf result which)) :
    seemsLikeVdif .machine roundUp buf result which =
      seemsLikeVdif .watched roundUp buf result which := by
  revert h
  show SameUnlessFault _ _
  unfold seemsLikeVdif
  split
  · exact sameUnlessFault_refl _
  refine sameUnlessFault_bind (sameUnlessFault_refl _) fun base =>
    sameUnlessFault_bind (sameUnlessFault_refl _) fun baseTime =>
      sameUnlessFault_bind (sameUnlessFault_refl _) fun found => ?_
  split
  · exact sameUnlessFault_refl _
  · exact sameUnlessFault_bind (sameUnlessFault_describe baseTime) fun _ =>
      sameUnlessFault_bind (sameUnlessFault_refl _) fun _ =>
        sameUnlessFault_bind (sameUnlessFault_refl _) fun second =>
          sameUnlessFault_finishProbe buf which second

end

/-! ## Numbers that vanish -/

/-- A result that nothing is known of. -/
def unknownResult : DataCheckType := ⟨.unknown, 0, unknownRate, (0, none), 0, 0, 0, ∅, 0⟩

/-- Two frames of 64 bytes, a second apart; `2 ^ 31` channels of complex samples. -/
def vanishingTracks : List UInt8 :=
  [0, 0, 0, 0, 0, 0, 0, 0, 8, 0, 0, 31, 0, 0, 0, 128] ++ List.replicate 48 0 ++
    [1, 0, 0, 0, 0, 0, 0, 0, 8, 0, 0, 31, 0, 0, 0, 128]

/-- The number of tracks comes out as zero, and then it is a divisor. -/
theorem vanishingTracks_wraps : ¬Faultless (seemsLikeVdif .watched (fun _ _ => none)
    vanishingTracks unknownResult .captureFirst) := by
  decide +kernel

end Jive5ab.Headersearch
