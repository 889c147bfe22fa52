import Mathlib.Tactic.Linarith
import Mathlib.Tactic.LinearCombination
import Mathlib.Tactic.FieldSimp
import Mathlib.Tactic.Ring
import Jive5ab.Vdif.Reframe

/-! # Time through the reframer

What each cut frame's header says, and exactly when that is the time of the
frame: the roll-over into the next period is written to the header block before
the template overwrites it, so it never reaches the output. -/
namespace Jive5ab.Vdif
open Lib Lib.Calendar

/-! ## Time stamps -/

theorem normalize_value (sec : Int) (ss : ℚ≥0) :
    (HighResTime.normalize sec ss).value = sec + ss := by
  have hle : ((ss.num / ss.den : ℕ) : ℚ≥0) ≤ ss := by
    rw [← NNRat.floor_def]
    exact Nat.floor_le zero_le
  simp only [HighResTime.value, HighResTime.normalize]
  generalize ss.num / ss.den = whole at hle
  rw [NNRat.coe_sub hle]
  push_cast
  ring

theorem timestamp_value (frametime : ℚ≥0) (hdr : VdifHeader) :
    (vdifFrameTimestamp frametime hdr).value =
      epochStart (100 + (hdr.refEpoch / 2 : ℕ)) (6 * (hdr.refEpoch % 2)) 0 + hdr.epochSeconds +
        hdr.dataFrameNum * frametime := by
  have hsec := mktime_sec ⟨100 + (hdr.refEpoch / 2 : ℕ), 6 * (hdr.refEpoch % 2), 1, 0, 0, 0⟩
    hdr.epochSeconds
  rw [vdifFrameTimestamp, normalize_value, epochStart, epochStart, hsec]
  push_cast
  ring

/-! ## The breaking-up loop -/

section
variable {args : ReframeArgs} {tag : Nat} {hdr : VdifHeader} {rate : ℚ≥0} {data : List UInt8}

theorem breakUp_succ {fuel dfn pos : Nat} (hfit : pos + args.outputSize ≤ data.length)
    (hdfn : dfn ≤ rate.num) :
    args.breakUp tag hdr rate data (fuel + 1) dfn pos =
      ⟨tag, { hdr with dataFrameNum := dfn % rate.num % 2 ^ 24 }, slice data pos args.outputSize⟩ ::
        args.breakUp tag hdr rate data fuel (dfn % rate.num + 1) (pos + args.outputSize) := by
  rw [ReframeArgs.breakUp, if_pos hfit]
  by_cases hroll : rate.num ≤ dfn
  · obtain rfl : dfn = rate.num := by omega
    simp only [if_pos hroll, memcpy, Nat.sub_self, Nat.mod_self]
  · simp only [if_neg hroll, memcpy, Nat.mod_eq_of_lt (Nat.not_le.mp hroll)]

theorem breakUp_length (hout : 0 < args.outputSize) (hrate : 0 < rate.num) {fuel dfn pos : Nat}
    (hfuel : data.length < fuel + pos) (hdfn : dfn ≤ rate.num) :
    (args.breakUp tag hdr rate data fuel dfn pos).length = (data.length - pos) / args.outputSize := by
  induction fuel generalizing dfn pos with
  | zero =>
    rw [Nat.div_eq_of_lt (by omega)]
    rfl
  | succ fuel ih =>
    by_cases hfit : pos + args.outputSize ≤ data.length
    · have hone : (data.length - pos) / args.outputSize =
          (data.length - pos - args.outputSize) / args.outputSize + 1 :=
        Nat.div_eq_sub_div hout (by omega)
      rw [breakUp_succ hfit hdfn, List.length_cons, ih (by omega) (Nat.mod_lt _ hrate), hone,
        Nat.sub_sub]
    · rw [ReframeArgs.breakUp, if_neg hfit, Nat.div_eq_of_lt (by omega)]
      rfl

/-- The frame number runs modulo the frame rate; the seconds stay. -/
theorem breakUp_getElem? (hrate : 0 < rate.num) {fuel dfn pos k : Nat} {cut : VdifFrame}
    (hdfn : dfn ≤ rate.num) (hk : (args.breakUp tag hdr rate data fuel dfn pos)[k]? = some cut) :
    cut = ⟨tag, { hdr with dataFrameNum := (dfn + k) % rate.num % 2 ^ 24 },
      slice data (pos + k * args.outputSize) args.outputSize⟩ := by
  induction fuel generalizing dfn pos k with
  | zero => cases hk
  | succ fuel ih =>
    by_cases hfit : pos + args.outputSize ≤ data.length
    · rw [breakUp_succ hfit hdfn] at hk
      cases k with
      | zero =>
        obtain rfl := Option.some.inj hk
        simp
      | succ k =>
        rw [ih (Nat.mod_lt _ hrate) hk]
        have hnum : (dfn % rate.num + 1 + k) % rate.num = (dfn + (k + 1)) % rate.num := by
          rw [Nat.add_assoc, Nat.mod_add_mod, Nat.add_comm 1 k]
        have hpos : pos + args.outputSize + k * args.outputSize =
            pos + (k + 1) * args.outputSize := by ring
        rw [hnum, hpos]
    · rw [ReframeArgs.breakUp, if_neg hfit] at hk
      cases hk

end

/-! ## One input frame -/

/-- Frames that are not skipped. -/
def Accepted (args : ReframeArgs) (tf : Frame) : Prop :=
  tf.framedata.length = args.inputSize ∧ (args.datathreadid tf.tag).isSome ∧ tf.ntrack ≠ 0

/-- The output frame grid: a frame length, and a whole number of them in the
subsecond. -/
def OnGrid (args : ReframeArgs) (tf : Frame) : Prop :=
  args.vdifFramelen tf.ntrack ≠ 0 ∧ (tf.frametime.tvSubsecond / args.vdifFramelen tf.ntrack).den = 1

/-- The number of the first frame cut, within its second. -/
def firstFn (args : ReframeArgs) (tf : Frame) : Nat :=
  (tf.frametime.tvSubsecond / args.vdifFramelen tf.ntrack).num

/-- Frames in a period. -/
def framesPerPeriod (args : ReframeArgs) (tf : Frame) : Nat :=
  (1 / args.vdifFramelen tf.ntrack).num

/-- The `k`-th frame cut from `tf`. -/
structure CutOf (args : ReframeArgs) (epoch tmEpoch : Int) (tf : Frame) (k : Nat)
    (cut : VdifFrame) : Prop where
  tag : args.datathreadid tf.tag = some cut.tag
  refEpoch : cut.header.refEpoch = (epoch % 2 ^ 6).toNat
  epochSeconds : cut.header.epochSeconds = ((tf.frametime.tvSec - tmEpoch) % 2 ^ 30).toNat
  dataFrameNum :
    cut.header.dataFrameNum = (firstFn args tf + k) % framesPerPeriod args tf % 2 ^ 24
  payload : cut.payload = slice tf.framedata (k * args.outputSize) args.outputSize

structure CutsOf (args : ReframeArgs) (epoch tmEpoch : Int) (tf : Frame) (cuts : List VdifFrame) :
    Prop where
  length : cuts.length = args.inputSize / args.outputSize
  cut : ∀ k cut, cuts[k]? = some cut → CutOf args epoch tmEpoch tf k cut

def HeadersOf (epoch : Int) (tagheader : ReframeArgs.Headers) : Prop :=
  ∀ thread hdr, tagheader thread = some hdr → hdr.refEpoch = (epoch % 2 ^ 6).toNat

theorem firstFn_lt {args : ReframeArgs} {tf : Frame} (h : OnGrid args tf) :
    firstFn args tf < framesPerPeriod args tf := by
  obtain ⟨hlen, hden⟩ := h
  have hlenpos : 0 < args.vdifFramelen tf.ntrack := pos_of_ne_zero hlen
  have hfn : ((firstFn args tf : ℕ) : ℚ≥0) = tf.frametime.tvSubsecond / args.vdifFramelen tf.ntrack := by
    rw [firstFn, ← NNRat.num_div_den (tf.frametime.tvSubsecond / args.vdifFramelen tf.ntrack), hden]
    simp
  have hlt : ((firstFn args tf : ℕ) : ℚ≥0) < 1 / args.vdifFramelen tf.ntrack := by
    rw [hfn]
    exact div_lt_div_of_pos_right tf.frametime.normal hlenpos
  have hle : 1 / args.vdifFramelen tf.ntrack ≤ ((framesPerPeriod args tf : ℕ) : ℚ≥0) := by
    conv_lhs => rw [← NNRat.num_div_den (1 / args.vdifFramelen tf.ntrack)]
    exact div_le_self zero_le (by exact_mod_cast NNRat.den_pos _)
  exact_mod_cast hlt.trans_le hle

theorem reframeOne_skips {args : ReframeArgs} {epoch tmEpoch : Int}
    {tagheader : ReframeArgs.Headers} {tf : Frame} (h : ¬ Accepted args tf) :
    args.reframeOne epoch tmEpoch tagheader tf = .ok (tagheader, []) := by
  rw [ReframeArgs.reframeOne]
  split
  · rfl
  rename_i hsize
  split
  · rfl
  rename_i thread hthread
  split
  · rfl
  rename_i htrack
  exact absurd ⟨Decidable.not_not.mp hsize, by rw [hthread]; rfl, htrack⟩ h

theorem reframeOne_cuts {args : ReframeArgs} {epoch : Int} (tmEpoch : Int)
    {tagheader : ReframeArgs.Headers} {tf : Frame} (hout : 0 < args.outputSize)
    (hheaders : HeadersOf epoch tagheader) (h : Accepted args tf) :
    (¬ OnGrid args tf ∧ ∃ e, args.reframeOne epoch tmEpoch tagheader tf = .error e) ∨
      (OnGrid args tf ∧ ∃ tagheader' cuts, HeadersOf epoch tagheader' ∧
        args.reframeOne epoch tmEpoch tagheader tf = .ok (tagheader', cuts) ∧
        CutsOf args epoch tmEpoch tf cuts) := by
  obtain ⟨hsize, hthread, htrack⟩ := h
  obtain ⟨thread, hthread⟩ := Option.isSome_iff_exists.mp hthread
  simp only [ReframeArgs.reframeOne, hsize, ne_eq, not_true_eq_false, if_false, hthread, htrack]
  generalize hhdr : ({ (tagheader thread).getD (args.newHeader epoch thread) with
    epochSeconds := ((tf.frametime.tvSec - tmEpoch) % 2 ^ 30).toNat
    log2nchans := Nat.log2 (tf.ntrack / args.bitsPerChannel) % 2 ^ 5 } : VdifHeader) = hdr
  have hepoch : hdr.refEpoch = (epoch % 2 ^ 6).toNat := by
    rw [← hhdr]
    cases hold : tagheader thread with
    | none => rfl
    | some old => exact hheaders thread old hold
  have hsec : hdr.epochSeconds = ((tf.frametime.tvSec - tmEpoch) % 2 ^ 30).toNat := by rw [← hhdr]
  have hlen0 : (tf.ntrack : ℚ≥0) * args.bitrate = 0 → args.vdifFramelen tf.ntrack = 0 := by
    intro h0
    rw [ReframeArgs.vdifFramelen, h0, div_zero]
  split
  · rename_i hzero
    exact .inl ⟨fun hgrid => hgrid.1 (hzero.elim hlen0 id), _, rfl⟩
  rename_i hnonzero
  split
  · rename_i hden
    exact .inl ⟨fun hgrid => hden hgrid.2, _, rfl⟩
  rename_i hden
  have hgrid : OnGrid args tf := ⟨fun h0 => hnonzero (.inr h0), Decidable.not_not.mp hden⟩
  have hfn := firstFn_lt hgrid
  refine .inr ⟨hgrid, _, _, ?_, rfl, ⟨?_, ?_⟩⟩
  · intro thread' hdr' hget
    by_cases heq : thread' = thread
    · subst heq
      rw [Function.update_self] at hget
      obtain rfl := Option.some.inj hget
      exact hepoch
    · rw [Function.update_of_ne heq] at hget
      exact hheaders thread' hdr' hget
  · refine (breakUp_length hout (Nat.zero_lt_of_lt hfn) ?_ (Nat.le_of_lt hfn)).trans ?_
    · omega
    · rw [hsize, Nat.sub_zero]
  · intro k cut hk
    obtain rfl := breakUp_getElem? (Nat.zero_lt_of_lt hfn) (Nat.le_of_lt hfn) hk
    exact ⟨hthread, hepoch, hsec, rfl, by rw [Nat.zero_add]⟩

/-! ## The stream -/

theorem reframeLoop_all {args : ReframeArgs} {epoch : Int} (tmEpoch : Int) (hout : 0 < args.outputSize)
    {frames : List Frame} {tagheader : ReframeArgs.Headers} (hheaders : HeadersOf epoch tagheader)
    (h : ∀ tf ∈ frames, Accepted args tf → OnGrid args tf) :
    (args.reframeLoop epoch tmEpoch tagheader frames).1.length = frames.length := by
  induction frames generalizing tagheader with
  | nil => rfl
  | cons tf tfs ih =>
    have htfs := fun tf' htf' => h tf' (List.mem_cons_of_mem _ htf')
    by_cases hacc : Accepted args tf
    · rcases reframeOne_cuts tmEpoch hout hheaders hacc with
        ⟨hgrid, _⟩ | ⟨_, tagheader', cuts, hheaders', hone, _⟩
      · exact absurd (h tf (List.mem_cons_self ..) hacc) hgrid
      · simp only [ReframeArgs.reframeLoop, hone, List.length_cons, ih hheaders' htfs]
    · simp only [ReframeArgs.reframeLoop, reframeOne_skips hacc, List.length_cons,
        ih hheaders htfs]

theorem reframeLoop_cuts {args : ReframeArgs} {epoch tmEpoch : Int} (hout : 0 < args.outputSize)
    {frames : List Frame} {tagheader : ReframeArgs.Headers} (hheaders : HeadersOf epoch tagheader)
    {i : Nat} {tf : Frame} (hi : frames[i]? = some tf) (hacc : Accepted args tf)
    {cuts : List VdifFrame}
    (hcuts : (args.reframeLoop epoch tmEpoch tagheader frames).1[i]? = some cuts) :
    OnGrid args tf ∧ CutsOf args epoch tmEpoch tf cuts := by
  induction frames generalizing tagheader i with
  | nil => cases hi
  | cons tf₀ tfs ih =>
    cases hone : args.reframeOne epoch tmEpoch tagheader tf₀ with
    | error e =>
      simp only [ReframeArgs.reframeLoop, hone] at hcuts
      cases hcuts
    | ok res =>
      obtain ⟨tagheader', cuts₀⟩ := res
      simp only [ReframeArgs.reframeLoop, hone] at hcuts
      by_cases hacc₀ : Accepted args tf₀
      · rcases reframeOne_cuts tmEpoch hout hheaders hacc₀ with
          ⟨_, e, herr⟩ | ⟨hgrid, tagheader'', cuts', hheaders', hone', hcut⟩
        · rw [hone] at herr
          cases herr
        · rw [hone] at hone'
          obtain ⟨rfl, rfl⟩ := Prod.mk.inj (Except.ok.inj hone')
          cases i with
          | zero =>
            obtain rfl := Option.some.inj hi
            obtain rfl := Option.some.inj hcuts
            exact ⟨hgrid, hcut⟩
          | succ i => exact ih hheaders' hi hcuts
      · rw [reframeOne_skips hacc₀] at hone
        obtain ⟨rfl, rfl⟩ := Prod.mk.inj (Except.ok.inj hone)
        cases i with
        | zero =>
          obtain rfl := Option.some.inj hi
          exact absurd hacc hacc₀
        | succ i => exact ih hheaders hi hcuts

/-! ## When the time is kept -/

/-- What a second comes back as from the 6-bit epoch and the 30-bit seconds,
both set from the half year the first frame is in. -/
def secondBack (first tf : HighResTime) : Int :=
  epochStart (100 + (((vdifEpoch first).1 % 2 ^ 6).toNat / 2 : ℕ))
      (6 * (((vdifEpoch first).1 % 2 ^ 6).toNat % 2)) 0 +
    (tf.tvSec - (vdifEpoch first).2) % 2 ^ 30

theorem vdifEpoch_start {first : HighResTime} (h0 : 0 ≤ (vdifEpoch first).1)
    (h64 : (vdifEpoch first).1 < 64) :
    epochStart (100 + (((vdifEpoch first).1 % 2 ^ 6).toNat / 2 : ℕ))
      (6 * (((vdifEpoch first).1 % 2 ^ 6).toNat % 2)) 0 = (vdifEpoch first).2 := by
  have hmon : (gmtime first.tvSec).mon ≤ 11 := List.countP_le_length
  have hmod : (vdifEpoch first).1 % 2 ^ 6 = (vdifEpoch first).1 := Int.emod_eq_of_lt h0 h64
  rw [hmod]
  simp only [vdifEpoch] at h0 h64 ⊢
  have hyear : 100 + ((((gmtime first.tvSec).year + 1900 - 2000) * 2 +
      (if 6 ≤ (gmtime first.tvSec).mon then 1 else 0)).toNat / 2 : ℕ) =
        (gmtime first.tvSec).year := by
    split at h0 <;> simp_all <;> omega
  have hhalf : 6 * ((((gmtime first.tvSec).year + 1900 - 2000) * 2 +
      (if 6 ≤ (gmtime first.tvSec).mon then 1 else 0)).toNat % 2) =
        (gmtime first.tvSec).mon / 6 * 6 := by
    split at h0 <;> simp_all <;> omega
  rw [hyear, hhalf]

/-- For a stream that starts in 2000 to 2031: the second is not before the half
year of the first frame, nor 2^30 seconds after its start. -/
theorem secondBack_iff {first tf : HighResTime} (h0 : 0 ≤ (vdifEpoch first).1)
    (h64 : (vdifEpoch first).1 < 64) : secondBack first tf = tf.tvSec ↔
      (vdifEpoch first).2 ≤ tf.tvSec ∧ tf.tvSec < (vdifEpoch first).2 + 2 ^ 30 := by
  rw [secondBack, vdifEpoch_start h0 h64]
  omega

/-- So the first frame itself is never in the way. -/
theorem secondBack_first {first : HighResTime} (h0 : 0 ≤ (vdifEpoch first).1)
    (h64 : (vdifEpoch first).1 < 64) : secondBack first first = first.tvSec := by
  rw [secondBack_iff h0 h64]
  obtain ⟨hle, hlt⟩ := daysBeforeYear_yearOf (first.tvSec / 86400)
  have hmean := (daysBeforeYear_mean (yearOf (first.tvSec / 86400))).1
  have hnext := (daysBeforeYear_mean (yearOf (first.tvSec / 86400) + 1)).2
  have hhalf := monthStart_half_le (isLeap (yearOf (first.tvSec / 86400)))
    (first.tvSec / 86400 - daysBeforeYear (yearOf (first.tvSec / 86400))) (by omega)
  have hpos := monthStart_nonneg (isLeap (yearOf (first.tvSec / 86400)))
    (monthOf (isLeap (yearOf (first.tvSec / 86400)))
      (first.tvSec / 86400 - daysBeforeYear (yearOf (first.tvSec / 86400))) / 6 * 6)
  simp only [vdifEpoch, epochStart, mktime, gmtime, Int.sub_add_cancel]
  omega

/-- All frames cut from `tf` start before the period ends that its second
begins, and their numbers fit the header. -/
def InPeriod (args : ReframeArgs) (tf : Frame) : Prop :=
  firstFn args tf + args.inputSize / args.outputSize ≤ framesPerPeriod args tf ∧
    firstFn args tf + args.inputSize / args.outputSize ≤ 2 ^ 24

/-- Every frame that is not skipped is cut up completely, and each part decodes
to its own time. -/
def PreservesTime (args : ReframeArgs) (frames : List Frame) : Prop :=
  ∀ (i : Nat) (tf : Frame), frames[i]? = some tf → Accepted args tf →
    ∃ cuts, (reframeToVdif args frames).1[i]? = some cuts ∧
      cuts.length = args.inputSize / args.outputSize ∧
      ∀ (k : Nat) (cut : VdifFrame), cuts[k]? = some cut →
        (vdifFrameTimestamp (decoderFrametime tf.ntrack args.bitrate args.outputSize)
          cut.header).value =
        tf.frametime.value + k * decoderFrametime tf.ntrack args.bitrate args.outputSize

theorem decoderFrametime_eq (args : ReframeArgs) (ntrack : Nat) :
    decoderFrametime ntrack args.bitrate args.outputSize = args.vdifFramelen ntrack := by
  rw [decoderFrametime, ReframeArgs.vdifFramelen, Nat.mul_comm]

theorem subsecond_onGrid {args : ReframeArgs} {tf : Frame} (h : OnGrid args tf) :
    tf.frametime.tvSubsecond = firstFn args tf * args.vdifFramelen tf.ntrack := by
  obtain ⟨hlen, hden⟩ := h
  have hfn : tf.frametime.tvSubsecond / args.vdifFramelen tf.ntrack = (firstFn args tf : ℕ) := by
    rw [firstFn, ← NNRat.num_div_den (tf.frametime.tvSubsecond / args.vdifFramelen tf.ntrack), hden]
    simp
  rw [← hfn, div_mul_cancel₀ _ hlen]

/-- The error of a header, in its seconds and in its frame number. -/
theorem cut_value {args : ReframeArgs} {first : HighResTime} {tf : Frame} {k : Nat} {cut : VdifFrame}
    (hgrid : OnGrid args tf)
    (hcut : CutOf args (vdifEpoch first).1 (vdifEpoch first).2 tf k cut) :
    (vdifFrameTimestamp (decoderFrametime tf.ntrack args.bitrate args.outputSize)
        cut.header).value =
      tf.frametime.value + k * decoderFrametime tf.ntrack args.bitrate args.outputSize ↔
    ((secondBack first tf.frametime - tf.frametime.tvSec : Int) : ℚ) =
      (((firstFn args tf + k : ℕ) : ℚ) -
          ((firstFn args tf + k) % framesPerPeriod args tf % 2 ^ 24 : ℕ)) *
        args.vdifFramelen tf.ntrack := by
  have hsec : ((cut.header.epochSeconds : ℕ) : Int) =
      (tf.frametime.tvSec - (vdifEpoch first).2) % 2 ^ 30 := by
    rw [hcut.epochSeconds, Int.toNat_of_nonneg (Int.emod_nonneg _ (by decide))]
  have hback : (secondBack first tf.frametime : ℚ) =
      epochStart (100 + (cut.header.refEpoch / 2 : ℕ)) (6 * (cut.header.refEpoch % 2)) 0 +
        (cut.header.epochSeconds : ℚ) := by
    rw [secondBack, ← hsec, hcut.refEpoch]
    push_cast
    rfl
  rw [timestamp_value, ← hback, decoderFrametime_eq, hcut.dataFrameNum, HighResTime.value,
    subsecond_onGrid hgrid]
  generalize (firstFn args tf + k) % framesPerPeriod args tf % 2 ^ 24 = num
  push_cast
  constructor
  · intro h
    linear_combination h
  · intro h
    linear_combination h

/-- A frame number loses less than the subsecond, so a time that is right has its
second right. -/
theorem second_of_first {sec : Int} {n m : Nat} {len : ℚ≥0} (hle : m ≤ n) (hlt : (n : ℚ≥0) * len < 1)
    (h : (sec : ℚ) = ((n : ℚ) - m) * len) : sec = 0 := by
  have hlen : (0 : ℚ) ≤ len := len.2
  have hdiff : (0 : ℚ) ≤ (n : ℚ) - m := sub_nonneg.mpr (by exact_mod_cast hle)
  have hnn : (0 : ℚ) ≤ sec := h ▸ mul_nonneg hdiff hlen
  have hn : ((n : ℚ) * len : ℚ) < 1 := by exact_mod_cast hlt
  have hone : (sec : ℚ) < 1 := by
    have hm : (0 : ℚ) ≤ m * len := mul_nonneg (Nat.cast_nonneg m) hlen
    rw [h]
    linarith
  have h0 : (0 : Int) ≤ sec := by exact_mod_cast hnn
  have h1 : sec < 1 := by exact_mod_cast hone
  omega

theorem frame_iff {args : ReframeArgs} {first : HighResTime} {tf : Frame} {cuts : List VdifFrame}
    (hgrid : OnGrid args tf) (hone : 0 < args.inputSize / args.outputSize)
    (hcuts : CutsOf args (vdifEpoch first).1 (vdifEpoch first).2 tf cuts) :
    (∀ (k : Nat) (cut : VdifFrame), cuts[k]? = some cut →
      (vdifFrameTimestamp (decoderFrametime tf.ntrack args.bitrate args.outputSize)
          cut.header).value =
        tf.frametime.value + k * decoderFrametime tf.ntrack args.bitrate args.outputSize) ↔
    secondBack first tf.frametime = tf.frametime.tvSec ∧ InPeriod args tf := by
  have hfn := firstFn_lt hgrid
  have hlen : (args.vdifFramelen tf.ntrack : ℚ) ≠ 0 := by exact_mod_cast hgrid.1
  constructor
  · intro h
    have hsec : secondBack first tf.frametime = tf.frametime.tvSec := by
      have hlt0 : 0 < cuts.length := hcuts.length ▸ hone
      have hget := List.getElem?_eq_getElem hlt0
      have h0 := (cut_value hgrid (hcuts.cut 0 _ hget)).mp (h 0 _ hget)
      have hsub : ((firstFn args tf + 0 : ℕ) : ℚ≥0) * args.vdifFramelen tf.ntrack < 1 := by
        rw [Nat.add_zero, ← subsecond_onGrid hgrid]
        exact tf.frametime.normal
      have hle : (firstFn args tf + 0) % framesPerPeriod args tf % 2 ^ 24 ≤ firstFn args tf + 0 :=
        (Nat.mod_le _ _).trans (Nat.mod_le _ _)
      have hzero := second_of_first hle hsub h0
      omega
    refine ⟨hsec, ?_⟩
    -- the last frame cut is the one that reaches furthest
    have hltl : args.inputSize / args.outputSize - 1 < cuts.length := by
      rw [hcuts.length]
      omega
    have hget := List.getElem?_eq_getElem hltl
    have hlast := (cut_value hgrid (hcuts.cut _ _ hget)).mp (h _ _ hget)
    rw [hsec, sub_self, Int.cast_zero, eq_comm, mul_eq_zero_iff_right hlen, sub_eq_zero] at hlast
    have hnum : firstFn args tf + (args.inputSize / args.outputSize - 1) =
        (firstFn args tf + (args.inputSize / args.outputSize - 1)) % framesPerPeriod args tf %
          2 ^ 24 := by
      exact_mod_cast hlast
    have hperiod := Nat.mod_lt (firstFn args tf + (args.inputSize / args.outputSize - 1))
      (Nat.zero_lt_of_lt hfn)
    have hbits := Nat.mod_lt ((firstFn args tf + (args.inputSize / args.outputSize - 1)) %
      framesPerPeriod args tf) (show 0 < 2 ^ 24 by decide)
    have hmod := Nat.mod_le ((firstFn args tf + (args.inputSize / args.outputSize - 1)) %
      framesPerPeriod args tf) (2 ^ 24)
    exact ⟨by omega, by omega⟩
  · rintro ⟨hsec, hperiod, hbits⟩ k cut hk
    rw [cut_value hgrid (hcuts.cut k cut hk)]
    have hklt : k < args.inputSize / args.outputSize := by
      rw [← hcuts.length]
      exact (List.getElem?_eq_some_iff.mp hk).1
    have hmod : (firstFn args tf + k) % framesPerPeriod args tf % 2 ^ 24 = firstFn args tf + k := by
      rw [Nat.mod_eq_of_lt (show firstFn args tf + k < framesPerPeriod args tf by omega)]
      exact Nat.mod_eq_of_lt (by omega)
    rw [hsec, hmod, sub_self, sub_self, Int.cast_zero, zero_mul]

/-- Four frames a second, cut in twos. -/
def rollArgs : ReframeArgs where
  stationId := 5
  tagremapper := []
  bitrate := 256
  inputSize := 16
  outputSize := 8
  bitsPerChannel := 2
  bitsPerSample := 2
  complexVdif := false

def rollFrame (subsecond : ℚ≥0) (h : subsecond < 1) : Frame where
  tag := 3
  ntrack := 1
  frametime := ⟨1577836800, subsecond, h⟩
  framedata := List.replicate 16 0

end Jive5ab.Vdif
