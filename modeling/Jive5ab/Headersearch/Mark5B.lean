import Jive5ab.Headersearch.VdifHeaders
import Jive5ab.Headersearch.VlbaTime
import Jive5ab.Lib.Rounding
import Mathlib.Data.Fin.VecNotation

/-! # Mark5B headers

A frame number within the second, of which the header keeps 15 bits, and the VLBA
time code. The decoder remembers the frame before, to tell whether the number has
wrapped within the second. -/
namespace Jive5ab.Headersearch
open Lib Lib.Calendar Lib.Rounding Vdif

/-! ## Encoding -/

section
attribute [local instance] neZero_four atLeastTwo_10000

def mk5bWords (w : Words) (tvSec : Int) (framenr dms : Nat) : Words :=
  let word2 := timeWord (tvSec.tmod 86400) (mjdOf tvSec)
  let word3 := fractionWord dms
  let crc := crc16Vlba (networkBytes word2 ++ networkBytes word3)
  ![w 0, BitVec.ofNat 32 (framenr &&& 0x7fff), word2, word3 ||| (crc &&& 0xffff)]

def encodeMk5bTimestamp (w : Words) (ts : HighResTime) (hdr : Headersearch) :
    Except HeaderError Words :=
  if hdr.trackbitrate = 0 ∨ hdr.trackbitrate = unknownTrackbitrate ∨ hdr.trackbitrate.den ≠ 1 then
    .error .invalidTrackBitrate
  else if hdr.state.frametime = 0 then .error .badRational
  else
    let framenum := ts.tvSubsecond / hdr.state.frametime
    if framenum.den ≠ 1 then .error .notRepresentable
    else if ¬ framenum.num < 2 ^ 32 - 1 then .error .framenumOverflow
    else .ok (mk5bWords w ts.tvSec framenum.num (deciMilliseconds ts.tvSubsecond))

/-! ## Checking -/

def mark5bSyncword : BitVec 32 := 0xabaddeed

def checkMark5b (w : Words) (strict : Strict) : Bool :=
  if strict.chkSyncword && w 0 != mark5bSyncword then false
  else !strict.chkCrc || strict.chkAllowDbe ||
    crc16Vlba (networkBytes (w 2) ++ networkBytes (w 3)) == 0

/-! ## Decoding -/

def mk5bTs (w : Words) : VlbaDigits where
  j k := nibble (w 2) (20 + 4 * k)
  s k := nibble (w 2) (4 * k)
  ss k := nibble (w 3) (16 + 4 * k)

/-- `m5b_state`, in the user data of the decoder. That is cleared to zeroes, which is
no fraction. -/
structure M5bState where
  second : Int
  frameno : Option ℚ≥0
  wrap : Bool

def M5bState.cleared : M5bState := ⟨0, none, false⟩

/-- Has the frame number wrapped in this second? -/
def M5bState.wraps (m : M5bState) (tvSec : Int) (frameno : ℚ≥0) : Option Bool :=
  if tvSec ≠ m.second then some false
  else if m.wrap then some true
  else m.frameno.map fun prev => decide (frameno < prev)

def rationalCastDouble (r : ℚ≥0) : ℚ := toDouble (toDouble r.num / toDouble r.den)

/-- Do the time code and the frame number disagree on the first four decimals? -/
def errcond (prevnsec subsecond : ℚ≥0) : Bool :=
  rationalCastUnsigned ((prevnsec * 10000 : ℚ≥0) : ℚ) ≠
    ⌊rationalCastDouble (subsecond * 10000)⌋.toNat % 2 ^ 32

def mk5bFrameTimestamp (currentMjd : Int) (w : Words) (trackbitrate : ℚ≥0) (state : DecoderState)
    (m5b : M5bState) (strict : Strict) : M5bState × Except HeaderError HighResTime :=
  let vlba := decodeVlbaTimestamp currentMjd (mk5bTs w)
  let hframeno : ℚ≥0 := BitField.get (w 1) 0 15
  match m5b.wraps vlba.tvSec hframeno with
  | none => (m5b, .error .badRational)
  | some wrap =>
    let frameno := hframeno + if wrap then 0x8000 else 0
    let nothrow (e : HeaderError) : M5bState × Except HeaderError HighResTime :=
      ({ m5b with wrap }, if strict.chkNothrow then .ok (.normalize 0 0) else .error e)
    let done (t : HighResTime) : M5bState × Except HeaderError HighResTime :=
      (⟨vlba.tvSec, some hframeno, wrap⟩, .ok t)
    if trackbitrate = unknownTrackbitrate then done vlba
    else if state.framerate ≤ frameno then
      if strict.chkStrict || strict.chkConsistent then nothrow .framenoOutOfRange else done vlba
    else
      -- less than a second, so there is nothing to carry
      let t := HighResTime.normalize vlba.tvSec (state.frametime * frameno)
      let maybeDbe := decide (vlba.tvSubsecond = 0) && decide (frameno ≠ 0)
      if strict.chkConsistent && (errcond vlba.tvSubsecond t.tvSubsecond &&
          (!maybeDbe || (maybeDbe && !strict.chkAllowDbe))) then
        nothrow .subsecondMismatch
      else done t

end

/-- Frames in a row, each with the day of the clock when it is decoded. -/
def decodeRun (hdr : Headersearch) (strict : Strict) :
    M5bState → List (Int × Words) → Except HeaderError (List HighResTime)
  | _, [] => .ok []
  | m5b, (now, w) :: frames =>
    match mk5bFrameTimestamp now w hdr.trackbitrate hdr.state m5b strict with
    | (_, .error e) => .error e
    | (m5b, .ok t) => (decodeRun hdr strict m5b frames).map (t :: ·)

/-! ## What is written -/

theorem mk5bTs_words (w : Words) {t : Int} (h0 : 0 ≤ t) (framenr dms : Nat) :
    mk5bTs (mk5bWords w t framenr dms) = .of (t.tmod 86400).toNat (mjdOf t).toNat dms := by
  obtain ⟨n, rfl⟩ := Int.eq_ofNat_of_zero_le h0
  obtain ⟨sec, hsec⟩ : ∃ sec : Nat, (n : Int).tmod 86400 = sec := ⟨n % 86400, rfl⟩
  obtain ⟨mjd, hmjd⟩ : ∃ mjd : Nat, mjdOf n = mjd := ⟨40587 + n / 86400, rfl⟩
  unfold mk5bTs mk5bWords VlbaDigits.of
  dsimp only [Matrix.cons_val]
  rw [hsec, hmjd, Int.toNat_natCast, Int.toNat_natCast]
  congr 1
  · funext k
    exact nibble_timeWord_mjd sec mjd k.isLt
  · funext k
    exact nibble_timeWord_sec sec mjd k.isLt
  · funext k
    rw [nibble_or_low _ _ (by omega)]
    exact nibble_fractionWord dms k.isLt

/-- What is encoded passes every check, behind a sync word. -/
theorem checkMark5b_words {w : Words} (hsync : w 0 = mark5bSyncword) (tvSec : Int)
    (framenr dms : Nat) (strict : Strict) : checkMark5b (mk5bWords w tvSec framenr dms) strict = true := by
  have hfirst : mk5bWords w tvSec framenr dms 0 = mark5bSyncword := hsync
  have hcrc : crc16Vlba (networkBytes (mk5bWords w tvSec framenr dms 2) ++
      networkBytes (mk5bWords w tvSec framenr dms 3)) = 0 :=
    crc16_own fun i hi => fractionWord_low dms hi
  unfold checkMark5b
  rw [hfirst, hcrc, bne_self_eq_false, Bool.and_false]
  simp

/-! ## Frames in a row -/

/-- The time of frame `k` after the start. -/
def frameTime (hdr : Headersearch) (start : Int) (k : Nat) : HighResTime :=
  .normalize start (k * hdr.state.frametime)

theorem normalize_tvSec (sec : Int) (ss : ℚ≥0) :
    (HighResTime.normalize sec ss).tvSec = sec + (⌊ss⌋₊ : ℕ) := by
  rw [NNRat.floor_def]
  rfl

theorem normalize_tvSubsecond (sec : Int) (ss : ℚ≥0) :
    (HighResTime.normalize sec ss).tvSubsecond = ss - (⌊ss⌋₊ : ℕ) := by
  rw [NNRat.floor_def]
  rfl

/-- The next frame is in the same second, or the first of its own. -/
theorem frameTime_succ (hdr : Headersearch) (start : Int) (k : Nat) :
    ((frameTime hdr start (k + 1)).tvSec = (frameTime hdr start k).tvSec ∧
      (frameTime hdr start (k + 1)).tvSubsecond =
        (frameTime hdr start k).tvSubsecond + hdr.state.frametime) ∨
    ((frameTime hdr start (k + 1)).tvSec ≠ (frameTime hdr start k).tvSec ∧
      (frameTime hdr start (k + 1)).tvSubsecond < hdr.state.frametime) := by
  unfold frameTime
  have hnext : ((k + 1 : ℕ) : ℚ≥0) * hdr.state.frametime =
      k * hdr.state.frametime + hdr.state.frametime := by
    push_cast
    ring
  rw [normalize_tvSec, normalize_tvSec, normalize_tvSubsecond, normalize_tvSubsecond, hnext]
  generalize hx : (k : ℚ≥0) * hdr.state.frametime = x
  generalize hdr.state.frametime = f
  have hle : ((⌊x⌋₊ : ℕ) : ℚ≥0) ≤ x := Nat.floor_le zero_le
  have hlt : x < (⌊x⌋₊ : ℕ) + 1 := Nat.lt_floor_add_one x
  have hle' : ((⌊x + f⌋₊ : ℕ) : ℚ≥0) ≤ x + f := Nat.floor_le zero_le
  have hmono : ⌊x⌋₊ ≤ ⌊x + f⌋₊ := Nat.floor_mono le_self_add
  rcases Nat.eq_or_lt_of_le hmono with hsame | hnew
  · left
    rw [← hsame]
    exact ⟨rfl, (tsub_add_eq_add_tsub hle).symm⟩
  · right
    refine ⟨by omega, ?_⟩
    rw [tsub_lt_iff_right hle', add_comm f]
    refine add_lt_add_of_lt_of_le (hlt.trans_le ?_) le_rfl
    exact_mod_cast hnew

theorem encodeMk5b_ok {w out : Words} {ts : HighResTime} {hdr : Headersearch}
    (h : encodeMk5bTimestamp w ts hdr = .ok out) :
    hdr.trackbitrate ≠ unknownTrackbitrate ∧ hdr.state.frametime ≠ 0 ∧
      ∃ num : Nat, ts.tvSubsecond = num * hdr.state.frametime ∧
        out = mk5bWords w ts.tvSec num (deciMilliseconds ts.tvSubsecond) := by
  unfold encodeMk5bTimestamp at h
  split at h
  · cases h
  rename_i hrate
  split at h
  · cases h
  rename_i hframetime
  dsimp only at h
  split at h
  · cases h
  rename_i hwhole
  split at h
  · cases h
  have hden := not_not.mp hwhole
  refine ⟨fun hunknown => hrate (.inr (.inl hunknown)), hframetime,
    (ts.tvSubsecond / hdr.state.frametime).num, ?_, (Except.ok.inj h).symm⟩
  have hnum := NNRat.num_div_den (ts.tvSubsecond / hdr.state.frametime)
  rw [hden, Nat.cast_one, div_one] at hnum
  rw [hnum, div_mul_cancel₀ _ hframetime]

/-! ## Decoding a frame -/

section
attribute [local instance] atLeastTwo_10000

/-- The encoder's four decimals are the ones of the time. -/
def Fits (ss : ℚ≥0) : Prop := (ss * 10000).num < 2 ^ 32 ∧ (ss * 10000).den < 2 ^ 32

end

theorem rationalCastUnsigned_of_lt {r : ℚ≥0} (hnum : r.num < 2 ^ 32) (hden : r.den < 2 ^ 32) :
    rationalCastUnsigned (r : ℚ) = r.num / r.den := by
  have hcut : ((r.num : Int) % 2 ^ 32).toNat = r.num := by omega
  unfold rationalCastUnsigned
  rw [NNRat.num_coe, NNRat.den_coe, hcut, Nat.mod_eq_of_lt hden]

theorem deciMilliseconds_of_fits {ss : ℚ≥0} (h : Fits ss) :
    deciMilliseconds ss = (ss * 10000).num / (ss * 10000).den :=
  rationalCastUnsigned_of_lt h.1 h.2

theorem floor_deciMilliseconds {ss : ℚ≥0} (h : Fits ss) :
    ⌊rationalCastDouble (ss * 10000)⌋ = (deciMilliseconds ss : ℕ) := by
  obtain ⟨hnum, hden⟩ := h
  unfold rationalCastDouble
  rw [toDouble_natCast (by omega), toDouble_natCast (by omega),
    floor_toDouble_div (by omega) (NNRat.den_pos _), deciMilliseconds_of_fits ⟨hnum, hden⟩]

theorem deciMilliseconds_lt {ss : ℚ≥0} (h : Fits ss) (hlt : ss < 1) : deciMilliseconds ss < 10000 := by
  rw [deciMilliseconds_of_fits h, ← NNRat.floor_def, Nat.floor_lt zero_le]
  calc ss * 10000 < 1 * 10000 := by gcongr
    _ = ((10000 : ℕ) : ℚ≥0) := by norm_num

theorem errcond_eq_false {ss : ℚ≥0} (h : Fits ss) (hlt : ss < 1) :
    errcond ((deciMilliseconds ss : ℕ) / 10000) ss = false := by
  have hback : rationalCastUnsigned ((((deciMilliseconds ss : ℕ) : ℚ≥0) / 10000 * 10000 : ℚ≥0) : ℚ) =
      deciMilliseconds ss := by
    have hsmall := deciMilliseconds_lt h hlt
    rw [div_mul_cancel₀ _ (by norm_num), rationalCastUnsigned_of_lt]
    · rw [NNRat.num_natCast, NNRat.den_natCast, Nat.div_one]
    · rw [NNRat.num_natCast]
      omega
    · rw [NNRat.den_natCast]
      decide
  unfold errcond
  rw [hback, floor_deciMilliseconds h, Int.toNat_natCast]
  have hsmall := deciMilliseconds_lt h hlt
  exact decide_eq_false (not_not.mpr (Nat.mod_eq_of_lt (by omega)).symm)

theorem mark5b_rates {hdr : Headersearch} {ntrack : Nat} {trackbitrate : ℚ≥0}
    (hhdr : hdr = .make .mark5b ntrack trackbitrate 10000) (h : hdr.state.frametime ≠ 0) :
    hdr.state.framerate ≠ 0 ∧ hdr.state.frametime = (hdr.state.framerate)⁻¹ := by
  have hrate : hdr.state.framerate ≠ 0 := by
    rw [hhdr] at h ⊢
    unfold Headersearch.make DecoderState.make at h ⊢
    dsimp only at h ⊢
    split at h
    · rename_i hvalid
      rw [if_pos ⟨by decide, hvalid.2⟩]
      refine div_ne_zero (mul_ne_zero (by exact_mod_cast hvalid.1) ?_) (by norm_num)
      have hne := hvalid.2
      unfold validSamplerate at hne
      rw [Bool.and_eq_true, decide_eq_true_eq, decide_eq_true_eq] at hne
      exact hne.2
    · exact absurd rfl h
  refine ⟨hrate, ?_⟩
  rw [hhdr] at hrate ⊢
  exact (make_frametime hrate).1

theorem get_frameno (num : Nat) :
    BitField.get (BitVec.ofNat 32 (num &&& 0x7fff)) 0 15 = num % 2 ^ 15 := by
  have hand : num &&& 0x7fff = num % 2 ^ 15 := Nat.and_two_pow_sub_one_eq_mod num 15
  unfold BitField.get
  rw [hand, BitVec.toNat_ofNat, Nat.shiftRight_zero]
  omega

/-- What the decoder remembers of a frame with its true number in the second. -/
def M5bState.after (tvSec : Int) (num : Nat) : M5bState :=
  ⟨tvSec, some (num % 2 ^ 15 : ℕ), decide (2 ^ 15 ≤ num)⟩

section
variable {hdr : Headersearch} {t : HighResTime} {num : Nat} {now : Int}

theorem decodeVlba_words (h0 : 0 ≤ t.tvSec) (hle : mjdOf t.tvSec ≤ now)
    (hlt : now < mjdOf t.tvSec + 1000) (w : Words) (dms : Nat) :
    (decodeVlbaTimestamp now (mk5bTs (mk5bWords w t.tvSec num dms))).tvSec = t.tvSec ∧
      (decodeVlbaTimestamp now (mk5bTs (mk5bWords w t.tvSec num dms))).tvSubsecond =
        ((dms % 10000 : ℕ) : ℚ≥0) / 10000 := by
  have hfraction : ((dms % 10000 : ℕ) : ℚ≥0) / 10000 < 1 := by
    rw [div_lt_one (by norm_num)]
    exact_mod_cast Nat.mod_lt dms (by decide)
  rw [mk5bTs_words w h0, decodeVlba_of h0 hle hlt, normalize_of_lt hfraction]
  exact ⟨rfl, rfl⟩

/-- A frame whose number wraps as the decoder takes it to. -/
theorem mk5bFrameTimestamp_words (hknown : hdr.trackbitrate ≠ unknownTrackbitrate)
    (hrate : hdr.state.framerate ≠ 0) (hframetime : hdr.state.frametime = (hdr.state.framerate)⁻¹)
    (hnum : num < 65536) (hss : t.tvSubsecond = num * hdr.state.frametime) (h0 : 0 ≤ t.tvSec)
    (hle : mjdOf t.tvSec ≤ now) (hlt : now < mjdOf t.tvSec + 1000) {strict : Strict}
    (hfits : strict.chkConsistent = true → Fits t.tvSubsecond) {m5b : M5bState}
    (hwrap : m5b.wraps t.tvSec (num % 2 ^ 15 : ℕ) = some (decide (2 ^ 15 ≤ num))) (w : Words) :
    mk5bFrameTimestamp now (mk5bWords w t.tvSec num (deciMilliseconds t.tvSubsecond))
        hdr.trackbitrate hdr.state m5b strict = (.after t.tvSec num, .ok t) := by
  obtain ⟨hsec, hfraction⟩ := @decodeVlba_words t num now h0 hle hlt w (deciMilliseconds t.tvSubsecond)
  have hframeno : BitField.get (mk5bWords w t.tvSec num (deciMilliseconds t.tvSubsecond) 1) 0 15 =
      num % 2 ^ 15 := get_frameno num
  have hwhole : ((num % 2 ^ 15 : ℕ) : ℚ≥0) + (if decide (2 ^ 15 ≤ num) = true then 0x8000 else 0) =
      num := by
    by_cases hbig : 2 ^ 15 ≤ num
    · rw [decide_eq_true hbig, if_pos rfl]
      exact_mod_cast (show num % 2 ^ 15 + 0x8000 = num by omega)
    · rw [decide_eq_false hbig, if_neg (by decide), add_zero]
      exact_mod_cast (show num % 2 ^ 15 = num by omega)
  have hbelow : ¬ hdr.state.framerate ≤ num := by
    have hnormal := t.normal
    rw [hss, hframetime, ← div_eq_mul_inv, div_lt_one (pos_of_ne_zero hrate)] at hnormal
    exact not_le.mpr hnormal
  have htime : HighResTime.normalize t.tvSec (hdr.state.frametime * num) = t := by
    rw [mul_comm, ← hss, normalize_of_lt t.normal]
  have hagree : (strict.chkConsistent && errcond
      (((deciMilliseconds t.tvSubsecond % 10000 : ℕ) : ℚ≥0) / 10000) t.tvSubsecond) = false := by
    cases hcheck : strict.chkConsistent with
    | false => rfl
    | true =>
      have hsmall := deciMilliseconds_lt (hfits hcheck) t.normal
      rw [Nat.mod_eq_of_lt hsmall, errcond_eq_false (hfits hcheck) t.normal]
      rfl
  unfold mk5bFrameTimestamp
  dsimp only
  rw [hframeno, hsec, hwrap]
  dsimp only
  rw [if_neg hknown, hwhole, if_neg hbelow, htime, hfraction, ← Bool.and_assoc, hagree,
    Bool.false_and, if_neg (by decide)]
  rfl

end

/-! ## Decoding a run -/

/-- The decoder is ready for a frame: it can tell whether the number has wrapped. -/
def M5bState.Ready (m5b : M5bState) (tvSec : Int) (num : Nat) : Prop :=
  m5b.wraps tvSec (num % 2 ^ 15 : ℕ) = some (decide (2 ^ 15 ≤ num))

theorem M5bState.ready_first {m5b : M5bState} {tvSec : Int} (h : tvSec ≠ m5b.second) :
    m5b.Ready tvSec 0 := by
  unfold Ready wraps
  rw [if_pos h]
  rfl

/-- The next number of the same second. -/
theorem M5bState.ready_next (tvSec : Int) {num : Nat} (h : num + 1 < 65536) :
    (M5bState.after tvSec num).Ready tvSec (num + 1) := by
  unfold Ready wraps after
  rw [if_neg (not_not.mpr rfl)]
  dsimp only
  by_cases hbig : 2 ^ 15 ≤ num
  · rw [decide_eq_true hbig, if_pos rfl, decide_eq_true (by omega)]
  · rw [decide_eq_false hbig, if_neg (by decide), Option.map_some, Option.some.injEq, decide_eq_decide,
      Nat.cast_lt]
    omega

/-- A number for a time, by which the decoder and the encoder count. -/
theorem ready_succ {hdr : Headersearch} (hframetime : hdr.state.frametime ≠ 0) {start : Int}
    {k num num' : Nat} (hnum' : num' < 65536)
    (hss : (frameTime hdr start k).tvSubsecond = num * hdr.state.frametime)
    (hss' : (frameTime hdr start (k + 1)).tvSubsecond = num' * hdr.state.frametime) :
    (M5bState.after (frameTime hdr start k).tvSec num).Ready (frameTime hdr start (k + 1)).tvSec num' := by
  have hpos := pos_of_ne_zero hframetime
  rcases frameTime_succ hdr start k with ⟨hsec, hnext⟩ | ⟨hsec, hnext⟩
  · have hsucc : num' = num + 1 := by
      rw [hss, hss', ← add_one_mul] at hnext
      exact_mod_cast mul_right_cancel₀ hframetime hnext
    subst hsucc
    rw [hsec]
    exact M5bState.ready_next _ hnum'
  · have hzero : num' = 0 := by
      rw [hss', ← lt_div_iff₀ hpos, div_self hframetime] at hnext
      exact Nat.lt_one_iff.mp (by exact_mod_cast hnext)
    subst hzero
    exact M5bState.ready_first hsec

section
variable {hdr : Headersearch} {ntrack : Nat} {trackbitrate : ℚ≥0} {start : Int} {n : Nat}
  {w out : Nat → Words} {now : Nat → Int} {strict : Strict}

theorem frame_number (hhdr : hdr = .make .mark5b ntrack trackbitrate 10000)
    (hrate : hdr.state.framerate ≤ 65536) {t : HighResTime} {w out : Words}
    (h : encodeMk5bTimestamp w t hdr = .ok out) :
    ∃ num : Nat, num < 65536 ∧ t.tvSubsecond = num * hdr.state.frametime ∧
      out = mk5bWords w t.tvSec num (deciMilliseconds t.tvSubsecond) := by
  obtain ⟨-, hframetime, num, hss, hout⟩ := encodeMk5b_ok h
  obtain ⟨hne, hinv⟩ := mark5b_rates hhdr hframetime
  refine ⟨num, ?_, hss, hout⟩
  have hnormal := t.normal
  rw [hss, hinv, ← div_eq_mul_inv, div_lt_one (pos_of_ne_zero hne)] at hnormal
  exact_mod_cast hnormal.trans_le hrate

/-- From any frame of the run that the decoder is ready for. -/
theorem decodeRun_ready (hhdr : hdr = .make .mark5b ntrack trackbitrate 10000)
    (hrate : hdr.state.framerate ≤ 65536) (h0 : 0 ≤ start)
    (henc : ∀ k < n, encodeMk5bTimestamp (w k) (frameTime hdr start k) hdr = .ok (out k))
    (hnow : ∀ k < n, mjdOf (frameTime hdr start k).tvSec ≤ now k ∧
      now k < mjdOf (frameTime hdr start k).tvSec + 1000)
    (hfits : strict.chkConsistent = true → ∀ k < n, Fits (frameTime hdr start k).tvSubsecond)
    (m k : Nat) (m5b : M5bState) (hm : k + m ≤ n)
    (hready : ∀ num : Nat, num < 65536 →
      (frameTime hdr start k).tvSubsecond = num * hdr.state.frametime →
      m5b.Ready (frameTime hdr start k).tvSec num) :
    decodeRun hdr strict m5b ((List.range' k m).map fun i => (now i, out i)) =
      .ok ((List.range' k m).map (frameTime hdr start)) := by
  induction m generalizing k m5b with
  | zero => rfl
  | succ m ih =>
    have hk : k < n := by omega
    obtain ⟨hknown, hframetime, -⟩ := encodeMk5b_ok (henc k hk)
    obtain ⟨hne, hinv⟩ := mark5b_rates hhdr hframetime
    obtain ⟨num, hnum, hss, hout⟩ := frame_number hhdr hrate (henc k hk)
    have hsec : 0 ≤ (frameTime hdr start k).tvSec := by
      unfold frameTime
      rw [normalize_tvSec]
      omega
    have hframe := mk5bFrameTimestamp_words hknown hne hinv hnum hss hsec (hnow k hk).1 (hnow k hk).2
      (fun hcheck => hfits hcheck k hk) (hready num hnum hss) (w k)
    have hrest := ih (k + 1) (.after (frameTime hdr start k).tvSec num) (by omega)
      fun num' hnum' hss' => ready_succ hframetime hnum' hss hss'
    rw [List.range'_succ, List.map_cons, List.map_cons]
    unfold decodeRun
    rw [hout, hframe]
    dsimp only
    rw [hrest]
    rfl

/-- Every run that the encoder takes, from a second other than the one the decoder
remembers, when the four decimals of every frame are right or not looked at. -/
theorem decodeRun_encoded (hhdr : hdr = .make .mark5b ntrack trackbitrate 10000)
    (hrate : hdr.state.framerate ≤ 65536) (h0 : 0 ≤ start) {m5b : M5bState}
    (hfresh : start ≠ m5b.second)
    (henc : ∀ k < n, encodeMk5bTimestamp (w k) (frameTime hdr start k) hdr = .ok (out k))
    (hnow : ∀ k < n, mjdOf (frameTime hdr start k).tvSec ≤ now k ∧
      now k < mjdOf (frameTime hdr start k).tvSec + 1000)
    (hfits : strict.chkConsistent = true → ∀ k < n, Fits (frameTime hdr start k).tvSubsecond) :
    decodeRun hdr strict m5b ((List.range n).map fun k => (now k, out k)) =
      .ok ((List.range n).map (frameTime hdr start)) := by
  rw [List.range_eq_range']
  rcases Nat.eq_zero_or_pos n with rfl | hn
  · rfl
  refine decodeRun_ready hhdr hrate h0 henc hnow hfits n 0 m5b (by omega) fun num _ hss => ?_
  have hfirst : frameTime hdr start 0 = ⟨start, 0, one_pos⟩ := by
    unfold frameTime
    rw [Nat.cast_zero, zero_mul, normalize_of_lt one_pos]
  obtain ⟨-, hframetime, -⟩ := encodeMk5b_ok (henc 0 hn)
  have hzero : num = 0 := by
    rw [hfirst] at hss
    exact_mod_cast (mul_eq_zero.mp hss.symm).resolve_right hframetime
  subst hzero
  rw [hfirst]
  exact M5bState.ready_first hfresh

end

/-! ## Whole numbers of frames in a second -/

/-- The four decimals fit at any whole frame rate. -/
theorem fits_of_whole {rate num : Nat} (hpos : 0 < rate) (hrate : rate ≤ 65536) (hnum : num < rate) :
    Fits (num * (rate : ℚ≥0)⁻¹) := by
  have hcast : (((num : ℚ≥0) * (rate : ℚ≥0)⁻¹ * 10000 : ℚ≥0) : ℚ) = ((num * 10000 : ℕ) : ℚ) / rate := by
    push_cast
    ring
  obtain ⟨hn, hd⟩ := num_den_le (num * 10000) hpos
  rw [← hcast, NNRat.num_coe] at hn
  rw [← hcast, NNRat.den_coe] at hd
  unfold Fits
  omega

/-- Frame `k` of a run at `rate` frames a second. -/
theorem frameTime_whole {hdr : Headersearch} {rate : Nat} (hpos : 0 < rate)
    (hframetime : hdr.state.frametime = (rate : ℚ≥0)⁻¹) (start : Int) (k : Nat) :
    (frameTime hdr start k).tvSec = start + (k / rate : ℕ) ∧
      (frameTime hdr start k).tvSubsecond = (k % rate : ℕ) * hdr.state.frametime := by
  have hne : ((rate : ℕ) : ℚ≥0) ≠ 0 := by exact_mod_cast hpos.ne'
  have hfloor : ⌊(k : ℚ≥0) * hdr.state.frametime⌋₊ = k / rate := by
    rw [hframetime, ← div_eq_mul_inv]
    exact Nat.floor_div_eq_div k rate
  unfold frameTime
  rw [normalize_tvSec, normalize_tvSubsecond, hfloor]
  refine ⟨rfl, tsub_eq_of_eq_add ?_⟩
  have hsplit : (k : ℚ≥0) = (k % rate : ℕ) + rate * (k / rate : ℕ) := by
    exact_mod_cast (Nat.mod_add_div k rate).symm
  rw [hframetime]
  nth_rewrite 1 [hsplit]
  rw [add_mul, mul_right_comm, mul_inv_cancel₀ hne, one_mul]

theorem encodeMk5b_whole {hdr : Headersearch} {rate : Nat} {t : HighResTime} {num : Nat}
    (hpos : 0 < rate) (hframetime : hdr.state.frametime = (rate : ℚ≥0)⁻¹)
    (hbitrate : ¬ (hdr.trackbitrate = 0 ∨ hdr.trackbitrate = unknownTrackbitrate ∨
      hdr.trackbitrate.den ≠ 1)) (hss : t.tvSubsecond = num * hdr.state.frametime)
    (hnum : num < 2 ^ 32 - 1) (w : Words) :
    encodeMk5bTimestamp w t hdr =
      .ok (mk5bWords w t.tvSec num (deciMilliseconds t.tvSubsecond)) := by
  have hne : hdr.state.frametime ≠ 0 := by
    rw [hframetime]
    exact inv_ne_zero (by exact_mod_cast hpos.ne')
  have hframenum : t.tvSubsecond / hdr.state.frametime = (num : ℚ≥0) := by
    rw [hss, mul_div_cancel_right₀ _ hne]
  unfold encodeMk5bTimestamp
  rw [if_neg hbitrate, if_neg hne, hframenum]
  dsimp only
  rw [NNRat.den_natCast, NNRat.num_natCast, if_neg (by decide), if_neg (by omega)]

/-! ## Runs at some rates -/

/-- 32 tracks, 65536 frames a second. -/
def mark5bFast : Headersearch := .make .mark5b 32 163840000 10000

theorem mark5bFast_frametime : mark5bFast.state.frametime = ((65536 : ℕ) : ℚ≥0)⁻¹ := by decide +kernel

/-- The last second of day 58999. -/
def truncatedDayEnd : Int := 1590883199

/-- Frame `k` of a run from there. -/
def fastFrame (k : Nat) : Words :=
  mk5bWords (fun _ => mark5bSyncword) (frameTime mark5bFast truncatedDayEnd k).tvSec (k % 65536)
    (deciMilliseconds (frameTime mark5bFast truncatedDayEnd k).tvSubsecond)

theorem decodeRun_encoded_rollover :
    decodeRun mark5bFast .chkDefault .cleared
        ((List.range 200000).map fun k => (59998 - (k % 2 : ℕ), fastFrame k)) =
      .ok ((List.range 200000).map (frameTime mark5bFast truncatedDayEnd)) := by
  refine @decodeRun_encoded mark5bFast 32 163840000 truncatedDayEnd 200000
    (fun _ _ => mark5bSyncword) fastFrame _ _ rfl (by decide +kernel) (by decide) _ (by decide)
    (fun k _ => ?_) (fun k hk => ?_) fun _ k _ => ?_
  · obtain ⟨-, hss⟩ := frameTime_whole (by decide) mark5bFast_frametime truncatedDayEnd k
    exact encodeMk5b_whole (by decide) mark5bFast_frametime (by decide +kernel) hss (by omega) _
  · obtain ⟨hsec, -⟩ := frameTime_whole (by decide) mark5bFast_frametime truncatedDayEnd k
    have hsecond : k / 65536 ≤ 3 := by omega
    have hclock : (0 : Int) ≤ truncatedDayEnd + (k / 65536 : ℕ) := by
      unfold truncatedDayEnd
      omega
    rw [hsec]
    unfold mjdOf
    rw [Int.tdiv_eq_ediv_of_nonneg hclock]
    unfold truncatedDayEnd
    omega
  · obtain ⟨-, hss⟩ := frameTime_whole (by decide) mark5bFast_frametime truncatedDayEnd k
    rw [hss, mark5bFast_frametime]
    exact fits_of_whole (by decide) (by decide) (Nat.mod_lt k (by decide))

/-- One track at 1000001 bits a second. -/
def mark5bOdd : Headersearch := .make .mark5b 1 1000001 10000

def oddFrame (k : Nat) : Words :=
  (encodeMk5bTimestamp (fun _ => mark5bSyncword) (frameTime mark5bOdd 1600000000 k)
    mark5bOdd).toOption.getD fun _ => 0

/-- The seventh frame, at 0.4799995 s, is written with the decimals .0505 -/
theorem oddRate_rejected :
    mark5bOdd.state.framerate ≤ 65536 ∧
      (∀ k < 7, encodeMk5bTimestamp (fun _ => mark5bSyncword) (frameTime mark5bOdd 1600000000 k)
        mark5bOdd = .ok (oddFrame k)) ∧
      (decodeRun mark5bOdd .chkDefault .cleared
        ((List.range 7).map fun k => (59105, oddFrame k))).isOk = false := by
  have hall : ∀ k < 7, (encodeMk5bTimestamp (fun _ => mark5bSyncword)
      (frameTime mark5bOdd 1600000000 k) mark5bOdd).isOk = true := by decide +kernel
  refine ⟨by decide +kernel, fun k hk => ?_, ?_⟩
  · have hok := hall k hk
    unfold oddFrame
    revert hok
    cases encodeMk5bTimestamp (fun _ => mark5bSyncword) (frameTime mark5bOdd 1600000000 k) mark5bOdd with
    | ok out => exact fun _ => rfl
    | error e => exact fun hok => Bool.noConfusion hok
  · decide +kernel

end Jive5ab.Headersearch
