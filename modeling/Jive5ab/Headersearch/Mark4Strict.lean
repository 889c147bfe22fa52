import Jive5ab.Headersearch.Mark4

/-! # Which Mark4 times pass the strict check

`decode_mk4_timestamp` in strict mode on the header of any time stamp. It looks at the
milliseconds and the quarters they imply, and at no more than the part of the time below a
second. -/
namespace Jive5ab.Headersearch
open Lib Lib.Calendar Vdif

/-- From 0.125 to 32 Mbps. -/
def strictBitrates : List Nat := standardBitrates ++ [32000000]

/-- Eighths of a millisecond in a frame of 2500 bytes. -/
def eighths (bitrate : Nat) : Nat := 160000000 / bitrate

/-- On a frame boundary; one is on every minute, so they can be counted from any. -/
def OnGrid (hdr : Headersearch) (ts : HighResTime) : Prop :=
  ∃ k : ℤ, ts.value = k * hdr.state.frametime

section
attribute [local instance] atLeastTwo_1000

/-- The milliseconds of a header. -/
def wholeMilliseconds (ts : HighResTime) : Nat := ⌊ts.tvSubsecond * 1000⌋₊

end

/-- The time code of a header for a time stamp, be it on a frame boundary or not. -/
def timecodeOf (ts : HighResTime) : List Crc.Byte :=
  (mk4Header (gmtime ts.tvSec) (yday ts.tvSec + 1) (wholeMilliseconds ts)).drop 12

/-- Accepted on a frame boundary, and an exception elsewhere. -/
def StrictlyDecoded (currentYear : Int) (ts : HighResTime) (hdr : Headersearch) (strict : Strict) :
    Prop :=
  (OnGrid hdr ts → ∃ t, decodeMk4Timestamp currentYear (timecodeOf ts) hdr.trackbitrate strict
    hdr.state = .ok t) ∧
  (¬OnGrid hdr ts → ∃ e, decodeMk4Timestamp currentYear (timecodeOf ts) hdr.trackbitrate strict
    hdr.state = .error e)

/-! ## What is accepted -/

section
attribute [local instance] atLeastTwo_1000 atLeastTwo_8000000 atLeastTwo_16000000 atLeastTwo_25
  atLeastTwo_100000

/-- The subsecond the decoder makes of the milliseconds. -/
def impliedSubsecond (trackbitrate : ℚ≥0) (ms : Nat) : ℚ≥0 :=
  (ms : ℚ≥0) / 1000 + if trackbitrate = 8000000 ∨ trackbitrate = 16000000 then
    ((ms % 10 % 5 : ℕ) : ℚ≥0) * (25 / 100000) else 0

end

/-- Nothing but the milliseconds matters. -/
theorem decodeMk4_ok_iff (tm : Tm) (yd : Int) {ms : Nat} (hms : ms < 1000) (crc : BitVec 32)
    (currentYear : Int) {trackbitrate : ℚ≥0} (hknown : trackbitrate ≠ unknownTrackbitrate)
    {strict : Strict} (hstrict : strict.chkStrict = true) (hthrow : strict.chkNothrow = false)
    {decoder : DecoderState} (hframetime : decoder.frametime ≠ 0) :
    (∃ t, decodeMk4Timestamp currentYear (mk4Timecode tm yd ms crc) trackbitrate strict decoder =
      .ok t) ↔
      ¬(ms % 10 = 4 ∨ ms % 10 = 9) ∧
        isModulo (impliedSubsecond trackbitrate ms) decoder.frametime = true := by
  have hpack : BitField.get (pack (digit ms 2) (digit ms 1)) 4 4 = ms / 10 ^ 2 % 10 ∧
      BitField.get (pack (digit ms 2) (digit ms 1)) 0 4 = ms / 10 ^ 1 % 10 := by
    rw [digit_natCast, digit_natCast]
    exact pack_digits (Nat.mod_lt _ (by norm_num)) (Nat.mod_lt _ (by norm_num))
  have hlast : BitField.get (BitVec.ofInt 8 (digit ms 0) <<< 4 |||
      ((crc >>> 8) &&& 0x0f).setWidth 8) 4 4 = ms % 10 := by
    rw [digit_natCast, pow_zero, Nat.div_one]
    exact last_digit (Nat.mod_lt _ (by norm_num)) _
  have hmilli : 100 * (ms / 10 ^ 2 % 10) + 10 * (ms / 10 ^ 1 % 10) + ms % 10 = ms :=
    three_digits_of_lt hms
  have himplied : (ms : ℚ≥0) / 1000 + (if trackbitrate = 8000000 ∨ trackbitrate = 16000000 then
      ((ms % 10 % 5 : ℕ) : ℚ≥0) * (25 / 100000) else 0) = impliedSubsecond trackbitrate ms := rfl
  unfold decodeMk4Timestamp mk4Timecode
  simp only [List.getD_cons_zero, List.getD_cons_succ, hpack, hlast, hmilli, hstrict, hthrow,
    himplied, true_and, Bool.false_eq_true, if_false]
  by_cases hdigit : ms % 10 = 4 ∨ ms % 10 = 9
  · rw [if_pos hdigit]
    exact iff_of_false (fun ⟨_, h⟩ => nomatch h) (fun h => h.1 hdigit)
  · rw [if_neg hdigit, if_neg fun h => hframetime h.2]
    cases hmod : isModulo (impliedSubsecond trackbitrate ms) decoder.frametime with
    | true =>
      rw [if_neg fun h => Bool.noConfusion h.2]
      exact iff_of_true ⟨_, rfl⟩ ⟨hdigit, rfl⟩
    | false =>
      rw [if_pos ⟨hknown, rfl⟩]
      exact iff_of_false (fun ⟨_, h⟩ => nomatch h) (fun h => Bool.noConfusion h.2)

/-! ## The nine bit rates -/

variable {ntrack bitrate : Nat}

theorem mark4_eighths (hntrack : validNtrack ntrack = true) (hrate : bitrate ∈ strictBitrates) :
    (mark4 ntrack bitrate).state.frametime = (eighths bitrate : ℚ≥0) / 8000 ∧ 0 < eighths bitrate ∧
      (bitrate : ℚ≥0) ≠ unknownTrackbitrate := by
  have hall : ∀ n ∈ [8, 16, 32, 64], ∀ r ∈ strictBitrates,
      (mark4 n r).state.frametime = (eighths r : ℚ≥0) / 8000 ∧ 0 < eighths r ∧
        (r : ℚ≥0) ≠ unknownTrackbitrate := by decide +kernel
  exact hall ntrack (mem_ntracks hntrack) bitrate hrate

/-- The milliseconds of a second that starts on a frame, for the frames that have a header of
their own. -/
def FrameMilliseconds (bitrate ms : Nat) : Prop :=
  if bitrate = 8000000 then ms % 5 = 0 ∨ ms % 5 = 2
  else if bitrate = 16000000 then ms % 5 ≠ 4
  else if bitrate = 32000000 then ms % 5 = 0
  else ms % (20000000 / bitrate) = 0

/-- The second starts on a frame. -/
def SecondOnGrid (hdr : Headersearch) (ts : HighResTime) : Prop :=
  ∃ k : ℤ, (ts.tvSec : ℚ) = k * hdr.state.frametime

/-- In eighths of a millisecond. -/
theorem implied_iff (bitrate ms j : Nat) :
    impliedSubsecond bitrate ms = j * ((eighths bitrate : ℚ≥0) / 8000) ↔
      8 * ms + (if bitrate = 8000000 ∨ bitrate = 16000000 then 2 * (ms % 5) else 0) =
        j * eighths bitrate := by
  have hrates : ((bitrate : ℚ≥0) = 8000000 ∨ (bitrate : ℚ≥0) = 16000000) ↔
      (bitrate = 8000000 ∨ bitrate = 16000000) := by
    norm_cast
  have hdigit : ms % 10 % 5 = ms % 5 := Nat.mod_mod_of_dvd ms (by norm_num)
  have hscale : impliedSubsecond bitrate ms = ((8 * ms + (if bitrate = 8000000 ∨ bitrate = 16000000
      then 2 * (ms % 5) else 0) : ℕ) : ℚ≥0) / 8000 := by
    unfold impliedSubsecond
    rw [hdigit]
    by_cases hhigh : bitrate = 8000000 ∨ bitrate = 16000000
    · rw [if_pos (hrates.mpr hhigh), if_pos hhigh]
      push_cast
      ring
    · rw [if_neg fun h => hhigh (hrates.mp h), if_neg hhigh]
      push_cast
      ring
  rw [hscale, ← mul_div_assoc, div_left_inj' (by norm_num)]
  exact_mod_cast Iff.rfl

/-- What is accepted, in milliseconds. -/
theorem accepted_iff (hntrack : validNtrack ntrack = true) (hrate : bitrate ∈ strictBitrates)
    (ms : Nat) : ¬(ms % 10 = 4 ∨ ms % 10 = 9) ∧
      isModulo (impliedSubsecond bitrate ms) (mark4 ntrack bitrate).state.frametime = true ↔
      FrameMilliseconds bitrate ms := by
  obtain ⟨hframetime, hpos, -⟩ := mark4_eighths hntrack hrate
  have hne : (mark4 ntrack bitrate).state.frametime ≠ 0 := by
    rw [hframetime]
    exact div_ne_zero (by exact_mod_cast hpos.ne') (by norm_num)
  have hmod : isModulo (impliedSubsecond bitrate ms) (mark4 ntrack bitrate).state.frametime = true ↔
      eighths bitrate ∣
        8 * ms + (if bitrate = 8000000 ∨ bitrate = 16000000 then 2 * (ms % 5) else 0) := by
    unfold isModulo
    rw [beq_iff_eq, den_eq_one_iff hne, hframetime]
    simp only [implied_iff]
    exact ⟨fun ⟨j, h⟩ => ⟨j, by rw [h, Nat.mul_comm]⟩, fun ⟨j, h⟩ => ⟨j, by rw [h, Nat.mul_comm]⟩⟩
  rw [hmod]
  unfold strictBitrates standardBitrates at hrate
  unfold FrameMilliseconds eighths
  simp only [List.mem_append, List.mem_cons, List.not_mem_nil, or_false, or_assoc] at hrate
  rcases hrate with rfl | rfl | rfl | rfl | rfl | rfl | rfl | rfl | rfl <;> norm_num <;> omega

/-! ## The grid -/

/-- A time on the grid is a whole number of eighths of a millisecond into its second. -/
theorem onGrid_iff (hntrack : validNtrack ntrack = true) (hrate : bitrate ∈ strictBitrates)
    (ts : HighResTime) : OnGrid (mark4 ntrack bitrate) ts ↔ ∃ x : ℕ, x < 8000 ∧
      ts.tvSubsecond = (x : ℚ≥0) / 8000 ∧ (eighths bitrate : ℤ) ∣ 8000 * ts.tvSec + (x : ℤ) := by
  obtain ⟨hframetime, hpos, -⟩ := mark4_eighths hntrack hrate
  have hvalue : ∀ k : ℤ, ts.value = k * (mark4 ntrack bitrate).state.frametime ↔
      (ts.tvSubsecond : ℚ) * 8000 = ((k * eighths bitrate - 8000 * ts.tvSec : ℤ) : ℚ) := by
    intro k
    rw [hframetime, HighResTime.value]
    push_cast
    constructor
    · intro h
      linear_combination 8000 * h
    · intro h
      linear_combination (1 / 8000 : ℚ) * h
  have hnonneg : (0 : ℚ) ≤ ts.tvSubsecond := NNRat.coe_nonneg _
  have hlt : (ts.tvSubsecond : ℚ) < 1 := by exact_mod_cast ts.normal
  constructor
  · rintro ⟨k, hk⟩
    rw [hvalue] at hk
    have hlow : 0 ≤ k * eighths bitrate - 8000 * ts.tvSec := by
      have hcast : (0 : ℚ) ≤ ((k * eighths bitrate - 8000 * ts.tvSec : ℤ) : ℚ) := by linarith
      exact_mod_cast hcast
    have hhigh : k * eighths bitrate - 8000 * ts.tvSec < 8000 := by
      have hcast : ((k * eighths bitrate - 8000 * ts.tvSec : ℤ) : ℚ) < ((8000 : ℤ) : ℚ) := by
        push_cast at hk ⊢
        linarith
      exact_mod_cast hcast
    obtain ⟨x, hx⟩ := Int.eq_ofNat_of_zero_le hlow
    rw [hx] at hk hhigh
    refine ⟨x, by omega, ?_, k, by linear_combination -hx⟩
    rw [eq_div_iff (by norm_num)]
    exact NNRat.coe_injective (by push_cast at hk ⊢; exact hk)
  · rintro ⟨x, -, hx, k, hk⟩
    refine ⟨k, (hvalue k).mpr ?_⟩
    have hsum : k * eighths bitrate - 8000 * ts.tvSec = (x : ℤ) := by
      rw [Int.mul_comm k, ← hk]
      ring
    rw [hsum, hx]
    push_cast
    ring

theorem secondOnGrid_iff (hntrack : validNtrack ntrack = true) (hrate : bitrate ∈ strictBitrates)
    (ts : HighResTime) : SecondOnGrid (mark4 ntrack bitrate) ts ↔
      (eighths bitrate : ℤ) ∣ 8000 * ts.tvSec := by
  obtain ⟨hframetime, -, -⟩ := mark4_eighths hntrack hrate
  unfold SecondOnGrid
  rw [hframetime]
  constructor
  · rintro ⟨k, hk⟩
    refine ⟨k, ?_⟩
    have hscaled : ((8000 * ts.tvSec : ℤ) : ℚ) = ((eighths bitrate * k : ℤ) : ℚ) := by
      push_cast at hk ⊢
      linear_combination 8000 * hk
    exact_mod_cast hscaled
  · rintro ⟨k, hk⟩
    refine ⟨k, ?_⟩
    have hscaled : ((8000 * ts.tvSec : ℤ) : ℚ) = ((eighths bitrate * k : ℤ) : ℚ) := by rw [hk]
    push_cast at hscaled ⊢
    linear_combination (1 / 8000 : ℚ) * hscaled

/-- Frames that are whole milliseconds apart. -/
theorem multiple_milliseconds (a : Nat) {sec : ℤ} {x : Nat}
    (hgrid : ((8 * a : ℕ) : ℤ) ∣ 8000 * sec + x) :
    x / 8 % a = 0 ↔ ((8 * a : ℕ) : ℤ) ∣ 8000 * sec := by
  have height : (8 : ℤ) ∣ 8000 * sec := ⟨1000 * sec, by ring⟩
  have hdvd : (8 : ℤ) ∣ ((8 * a : ℕ) : ℤ) := ⟨a, by push_cast; ring⟩
  obtain ⟨y, rfl⟩ : 8 ∣ x := by
    exact_mod_cast (Int.dvd_iff_dvd_of_dvd_add (hdvd.trans hgrid)).mp height
  rw [Int.dvd_iff_dvd_of_dvd_add hgrid, Nat.mul_div_cancel_left y (by norm_num),
    Int.natCast_dvd_natCast, Nat.mul_dvd_mul_iff_left (by norm_num), Nat.dvd_iff_mod_eq_zero]

/-- The milliseconds of a time on the grid. -/
theorem grid_milliseconds (hrate : bitrate ∈ strictBitrates) {sec : ℤ} {x : Nat}
    (hgrid : (eighths bitrate : ℤ) ∣ 8000 * sec + x) : FrameMilliseconds bitrate (x / 8) ↔
      (eighths bitrate : ℤ) ∣ 8000 * sec ∧ (bitrate = 32000000 → x / 8 % 5 = 0) := by
  unfold strictBitrates standardBitrates at hrate
  unfold FrameMilliseconds eighths at *
  simp only [List.mem_append, List.mem_cons, List.not_mem_nil, or_false, or_assoc] at hrate
  rcases hrate with rfl | rfl | rfl | rfl | rfl | rfl | rfl | rfl | rfl <;> norm_num at *
  · exact multiple_milliseconds 160 hgrid
  · exact multiple_milliseconds 80 hgrid
  · exact multiple_milliseconds 40 hgrid
  · exact multiple_milliseconds 20 hgrid
  · exact multiple_milliseconds 10 hgrid
  · exact multiple_milliseconds 5 hgrid
  any_goals omega
  -- at 8 Mbps the frames are two and a half milliseconds apart
  obtain ⟨m, hm⟩ : ∃ m, x = 20 * m := ⟨x / 20, by omega⟩
  rcases Nat.even_or_odd' m with ⟨n, rfl | rfl⟩
  · omega
  · omega

/-! ## The strict check -/

/-- On the grid, in seconds that start on a frame, and at 32 Mbps only in the first of every five
milliseconds; off the grid, not in the milliseconds of a frame. -/
def StrictCheckExact (ntrack bitrate : Nat) (ts : HighResTime) : Prop :=
  (OnGrid (mark4 ntrack bitrate) ts → SecondOnGrid (mark4 ntrack bitrate) ts ∧
    (bitrate = 32000000 → wholeMilliseconds ts % 5 = 0)) ∧
  (¬OnGrid (mark4 ntrack bitrate) ts → ¬FrameMilliseconds bitrate (wholeMilliseconds ts))

theorem wholeMilliseconds_lt (ts : HighResTime) : wholeMilliseconds ts < 1000 := by
  have hlt : ts.tvSubsecond * 1000 < (1000 : ℕ) := by
    have hscaled := mul_lt_mul_of_pos_right ts.normal (show (0 : ℚ≥0) < 1000 by norm_num)
    rwa [one_mul] at hscaled
  exact (Nat.floor_lt zero_le).mpr hlt

theorem wholeMilliseconds_eighths {ts : HighResTime} {x : Nat}
    (h : ts.tvSubsecond = (x : ℚ≥0) / 8000) : wholeMilliseconds ts = x / 8 := by
  have hscaled : ts.tvSubsecond * 1000 = (x : ℚ≥0) / (8 : ℕ) := by
    rw [h]
    push_cast
    ring
  rw [wholeMilliseconds, hscaled, Nat.floor_div_eq_div]

/-- Where `encode_mk4_timestamp` encodes a time stamp, these are the milliseconds of its header. -/
theorem encodeMk4_milliseconds (hntrack : validNtrack ntrack = true)
    (hrate : bitrate ∈ strictBitrates) {framedata out : Framedata} {ts : HighResTime}
    (h : encodeMk4Timestamp framedata ts (mark4 ntrack bitrate) = .ok out) :
    out = putBits (ntrack / 8) framedata 0
      (headerBits (mk4Header (gmtime ts.tvSec) (yday ts.tvSec + 1) (wholeMilliseconds ts))) := by
  obtain ⟨hframetime, hpos, -⟩ := mark4_eighths hntrack hrate
  have hne : (mark4 ntrack bitrate).state.frametime ≠ 0 := by
    rw [hframetime]
    exact div_ne_zero (by exact_mod_cast hpos.ne') (by norm_num)
  unfold encodeMk4Timestamp putHeader at h
  rw [if_neg hne] at h
  split at h
  · cases h
  · dsimp only at h
    split at h
    · cases h
    · rename_i hden
      obtain ⟨j, hj⟩ := (den_eq_one_iff hne).mp (not_not.mp hden)
      rw [hframetime] at hj
      have hss : ts.tvSubsecond = ((j * eighths bitrate : ℕ) : ℚ≥0) / 8000 := by
        rw [hj]
        push_cast
        ring
      have hsmall : j * eighths bitrate < 8000 := by
        have hlt := ts.normal
        rw [hss, div_lt_one (by norm_num)] at hlt
        exact_mod_cast hlt
      have hms : milliseconds ts.tvSubsecond = wholeMilliseconds ts := by
        have hcast : ((ts.tvSubsecond * 1000 : ℚ≥0) : ℚ) = ((j * eighths bitrate : ℕ) : ℚ) / (8 : ℕ) := by
          rw [hss]
          push_cast
          ring
        rw [wholeMilliseconds_eighths hss, milliseconds, hcast,
          rationalCastUnsigned_div (by norm_num) (by norm_num) (by omega)]
      rw [hms] at h
      split at h
      · cases h
      · split at h
        · exact (Except.ok.inj h).symm
        · cases h

theorem strictMk4_iff (hntrack : validNtrack ntrack = true) (hrate : bitrate ∈ strictBitrates)
    (ts : HighResTime) (currentYear : Int) (strict : Strict) (hstrict : strict.chkStrict = true)
    (hthrow : strict.chkNothrow = false) :
    StrictlyDecoded currentYear ts (mark4 ntrack bitrate) strict ↔
      StrictCheckExact ntrack bitrate ts := by
  obtain ⟨hframetime, hpos, hknown⟩ := mark4_eighths hntrack hrate
  have hne : (mark4 ntrack bitrate).state.frametime ≠ 0 := by
    rw [hframetime]
    exact div_ne_zero (by exact_mod_cast hpos.ne') (by norm_num)
  obtain ⟨crc, hcode⟩ := mk4Header_timecode (gmtime ts.tvSec) (yday ts.tvSec + 1)
    (wholeMilliseconds ts)
  have hok : (∃ t, decodeMk4Timestamp currentYear (timecodeOf ts) (mark4 ntrack bitrate).trackbitrate
      strict (mark4 ntrack bitrate).state = .ok t) ↔
      FrameMilliseconds bitrate (wholeMilliseconds ts) := by
    rw [timecodeOf, hcode]
    exact (decodeMk4_ok_iff _ _ (wholeMilliseconds_lt ts) crc currentYear hknown hstrict hthrow
      hne).trans (accepted_iff hntrack hrate _)
  have herror : (∃ e, decodeMk4Timestamp currentYear (timecodeOf ts)
      (mark4 ntrack bitrate).trackbitrate strict (mark4 ntrack bitrate).state = .error e) ↔
      ¬FrameMilliseconds bitrate (wholeMilliseconds ts) := by
    rw [← hok]
    cases decodeMk4Timestamp currentYear (timecodeOf ts) (mark4 ntrack bitrate).trackbitrate strict
        (mark4 ntrack bitrate).state with
    | ok t => exact iff_of_false (fun ⟨_, h⟩ => nomatch h) (fun h => h ⟨t, rfl⟩)
    | error e => exact iff_of_true ⟨e, rfl⟩ (fun ⟨_, h⟩ => nomatch h)
  unfold StrictlyDecoded StrictCheckExact
  rw [hok, herror]
  refine and_congr_left fun _ => forall_congr' fun hgrid => ?_
  obtain ⟨x, -, hss, hdvd⟩ := (onGrid_iff hntrack hrate ts).mp hgrid
  rw [wholeMilliseconds_eighths hss, grid_milliseconds hrate hdvd,
    secondOnGrid_iff hntrack hrate]

theorem strictMk4_iff_late : StrictlyDecoded 2026 mark4Late (mark4 32 16000000) .chkDefault ↔
    StrictCheckExact 32 16000000 mark4Late :=
  strictMk4_iff rfl (by simp [strictBitrates, standardBitrates]) mark4Late 2026 .chkDefault rfl rfl

/-- A time on the grid that is rejected, and one off the grid that is accepted: 1.12 s and 1.16 s
into a minute, with frames of 0.16 s. -/
theorem strictMk4_slow : ¬StrictlyDecoded 2026 mark4Slow (mark4 32 125000) .chkDefault ∧
    ¬StrictlyDecoded 2026 (.normalize 1600000021 (4 / 25)) (mark4 32 125000) .chkDefault := by
  have hrate : 125000 ∈ strictBitrates := by simp [strictBitrates, standardBitrates]
  constructor
  · rintro ⟨haccepted, -⟩
    obtain ⟨t, ht⟩ := haccepted ⟨10000000132, by decide +kernel⟩
    have hthrown : (decodeMk4Timestamp 2026 (timecodeOf mark4Slow) (mark4 32 125000).trackbitrate
        .chkDefault (mark4 32 125000).state).isOk = false := by decide +kernel
    rw [ht] at hthrown
    cases hthrown
  · rintro ⟨-, hrejected⟩
    have hoff : ¬OnGrid (mark4 32 125000) (.normalize 1600000021 (4 / 25)) := by
      intro hgrid
      obtain ⟨x, -, hss, hdvd⟩ := (onGrid_iff rfl hrate _).mp hgrid
      have hsec : (HighResTime.normalize 1600000021 (4 / 25)).tvSec = 1600000021 := by decide +kernel
      have hsub : (HighResTime.normalize 1600000021 (4 / 25)).tvSubsecond = 4 / 25 := by
        decide +kernel
      have heighths : eighths 125000 = 1280 := by decide
      have hx : x = 1280 := by
        rw [hsub, div_eq_div_iff (by norm_num) (by norm_num)] at hss
        have hnat : 4 * 8000 = x * 25 := by exact_mod_cast hss
        omega
      rw [hsec, hx, heighths] at hdvd
      omega
    obtain ⟨e, he⟩ := hrejected hoff
    have haccepted : (decodeMk4Timestamp 2026 (timecodeOf (.normalize 1600000021 (4 / 25)))
        (mark4 32 125000).trackbitrate .chkDefault (mark4 32 125000).state).isOk = true := by
      decide +kernel
    rw [he] at haccepted
    cases haccepted

end Jive5ab.Headersearch
