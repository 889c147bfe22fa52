import Mathlib.Data.Int.GCD
import Mathlib.Data.Nat.ModEq
import Jive5ab.Headersearch.VdifHeaders

/-! # VDIF headers for frames that do not divide a second

`encode_vdif2_timestamp` counts frames from the start of a period of several
seconds, which the offset table gives. The reference epoch it takes from the time
stamp itself: when the period starts in the half year before, the difference is
negative, and loses its sign in the header. -/
namespace Jive5ab.Headersearch
open Lib Lib.Calendar Vdif

/-! ## Encoding -/

/-- The whole second that frames are counted from. -/
def periodStart (hdr : Headersearch) (ts : HighResTime) : Int :=
  ts.tvSec + hdr.state.offsetLut.getD (moduloPeriod hdr.state.frametime ts.tvSubsecond) 0

def encodeVdif2Timestamp (w : Words) (ts : HighResTime) (hdr : Headersearch) :
    Except HeaderError Words :=
  match hdr.checkRates with
  | .error e => .error e
  | .ok () =>
    let framenum : ℚ := (ts.value - periodStart hdr ts) / hdr.state.frametime
    if framenum.den ≠ 1 then .error .notRepresentable
    else
      let (epoch, tmEpoch) := vdifEpoch ts
      if ¬ framenum.num < 2 ^ 24 - 1 then .error .framenumOverflow
      else .ok (writeVdifHeader hdr w epoch (periodStart hdr ts - tmEpoch) framenum.num)

/-! ## Time stamps and their values -/

/-- Whole seconds and the rest are determined by their sum. -/
theorem split_value {t : HighResTime} {sec : Int} {ss : ℚ≥0} (hss : ss < 1)
    (h : t.value = sec + ss) : t.tvSec = sec ∧ t.tvSubsecond = ss := by
  have hss' : (ss : ℚ) < 1 := by exact_mod_cast hss
  have hnormal : (t.tvSubsecond : ℚ) < 1 := by exact_mod_cast t.normal
  have hnonneg : (0 : ℚ) ≤ ss := ss.2
  have hnonneg' : (0 : ℚ) ≤ t.tvSubsecond := t.tvSubsecond.2
  unfold HighResTime.value at h
  have hlt : ((t.tvSec - sec : Int) : ℚ) < 1 := by push_cast; linarith
  have hgt : ((sec - t.tvSec : Int) : ℚ) < 1 := by push_cast; linarith
  have hlt' : t.tvSec - sec < 1 := by exact_mod_cast hlt
  have hgt' : sec - t.tvSec < 1 := by exact_mod_cast hgt
  have hsec : t.tvSec = sec := by omega
  refine ⟨hsec, ?_⟩
  rw [hsec] at h
  exact_mod_cast add_left_cancel h

theorem value_injective {t u : HighResTime} (h : t.value = u.value) : t = u := by
  obtain ⟨hsec, hss⟩ := split_value u.normal h
  obtain ⟨sec, ss, _⟩ := t
  obtain ⟨sec', ss', _⟩ := u
  dsimp only at hsec hss
  subst hsec hss
  rfl

theorem advance_value (t : HighResTime) (dt : ℚ≥0) : (advance t dt).value = t.value + dt := by
  unfold advance
  rw [normalize_value, HighResTime.value]
  push_cast
  ring

/-! ## The table looks back -/

theorem le_normalize_tvSec (sec : Int) (ss : ℚ≥0) : sec ≤ (HighResTime.normalize sec ss).tvSec := by
  exact Int.le_add_of_nonneg_right (Int.natCast_nonneg _)

/-- No entry leads forward in time. -/
theorem computeOffsetLut_nonpos (frametime : ℚ≥0) : ∀ e ∈ computeOffsetLut frametime, e ≤ 0 := by
  have hstep : ∀ (l : List Nat) (s : HighResTime × List Int), 0 ≤ s.1.tvSec → (∀ e ∈ s.2, e ≤ 0) →
      ∀ e ∈ (l.foldl (lutStep frametime) s).2, e ≤ 0 := by
    intro l
    induction l with
    | nil => exact fun s _ h => h
    | cons t0 l ih =>
      intro s hs h
      rw [List.foldl_cons]
      refine ih _ (Int.le_trans hs (le_normalize_tvSec ..)) fun e he => ?_
      rcases List.mem_or_eq_of_mem_set he with hold | rfl
      · exact h e hold
      · omega
  refine hstep _ _ (le_normalize_tvSec ..) fun e he => ?_
  rw [(List.mem_replicate.mp he).2]

theorem periodStart_le {hdr : Headersearch} (h : ∀ e ∈ hdr.state.offsetLut, e ≤ 0) (ts : HighResTime) :
    periodStart hdr ts ≤ ts.tvSec := by
  unfold periodStart
  rw [List.getD_eq_getElem?_getD]
  cases hget : hdr.state.offsetLut[moduloPeriod hdr.state.frametime ts.tvSubsecond]? with
  | none =>
    rw [Option.getD_none]
    omega
  | some e =>
    have hle := h e (List.mem_of_getElem? hget)
    rw [Option.getD_some]
    omega

/-! ## More than one frame a second -/

/-- The first frame after the start of second `j` of a period of `p` seconds with
`q` frames. -/
def firstFrame (p q j : Nat) : Nat := j * q / p + 1

/-- How far into its second it is, in parts of a frame. -/
def firstOffset (p q j : Nat) : Nat := firstFrame p q j * p - j * q

section
variable {p q : Nat}

theorem firstFrame_within (hp : 0 < p) (j : Nat) :
    j * q < firstFrame p q j * p ∧ firstFrame p q j * p ≤ j * q + p := by
  have hdiv := Nat.div_add_mod (j * q) p
  have hmod := Nat.mod_lt (j * q) hp
  have hmul : firstFrame p q j * p = p * (j * q / p) + p := by
    unfold firstFrame
    ring
  omega

theorem firstOffset_add (hp : 0 < p) (j : Nat) :
    firstOffset p q j + j * q = firstFrame p q j * p := by
  have hwithin := @firstFrame_within p q hp j
  unfold firstOffset
  omega

theorem firstOffset_le (hp : 0 < p) (j : Nat) : firstOffset p q j ≤ p := by
  have hwithin := @firstFrame_within p q hp j
  unfold firstOffset
  omega

/-- From second to second. -/
theorem firstFrame_succ (hp : 0 < p) (hpq : p < q) (j : Nat) :
    firstFrame p q (j + 1) = firstFrame p q j + (((j + 1) * q - firstFrame p q j * p) / p + 1) := by
  have hwithin := @firstFrame_within p q hp j
  have hle : firstFrame p q j * p ≤ (j + 1) * q := by
    rw [Nat.succ_mul]
    omega
  have hsplit : (j + 1) * q = ((j + 1) * q - firstFrame p q j * p) + firstFrame p q j * p := by omega
  have hdiv : (j + 1) * q / p = ((j + 1) * q - firstFrame p q j * p) / p + firstFrame p q j := by
    conv => lhs; rw [hsplit]
    exact Nat.add_mul_div_right _ _ hp
  rw [firstFrame, hdiv]
  omega

/-- Offsets that agree modulo the period belong to the same second of it. -/
theorem second_unique (hcop : p.Coprime q) {i j x : Nat} (hi : i < p) (hj : j < p)
    (hxi : p ∣ i * q + x) (hxj : p ∣ j * q + x) : i = j := by
  have hmod : i * q + x ≡ j * q + x [MOD p] :=
    ((Nat.modEq_zero_iff_dvd).mpr hxi).trans ((Nat.modEq_zero_iff_dvd).mpr hxj).symm
  have hiq : i * q ≡ j * q [MOD p] := Nat.ModEq.add_right_cancel' x hmod
  have hij : i ≡ j [MOD p] := Nat.ModEq.cancel_right_of_coprime hcop hiq
  exact hij.eq_of_lt_of_lt hi hj

theorem offset_dvd (hp : 0 < p) (j : Nat) : p ∣ j * q + firstOffset p q j := by
  rw [Nat.add_comm, firstOffset_add hp j]
  exact Nat.dvd_mul_left p _

theorem offset_dvd_congr {j x y : Nat} (h : x % p = y % p) : p ∣ j * q + x ↔ p ∣ j * q + y := by
  have hmod : j * q + x ≡ j * q + y [MOD p] := Nat.ModEq.add_left _ h
  rw [← Nat.modEq_zero_iff_dvd, ← Nat.modEq_zero_iff_dvd]
  exact ⟨hmod.symm.trans, hmod.trans⟩

/-- Every offset belongs to some second of the period. -/
theorem second_exists (hp : 0 < p) (hcop : p.Coprime q) (x : Nat) : ∃ j < p, p ∣ j * q + x := by
  obtain ⟨j, hj, hjq⟩ := Nat.exists_mul_mod_eq_of_coprime (x * (p - 1)) hcop.symm (Nat.ne_of_gt hp)
  refine ⟨j, hj, (Nat.modEq_zero_iff_dvd).mp ?_⟩
  have hsum : x * (p - 1) + x = x * p := by
    rw [← Nat.mul_succ, Nat.succ_eq_add_one, Nat.sub_add_cancel hp]
  have hmod : j * q + x ≡ x * (p - 1) + x [MOD p] := by
    rw [Nat.mul_comm j q]
    exact Nat.ModEq.add_right x hjq
  rw [hsum] at hmod
  exact hmod.trans (Nat.modEq_zero_iff_dvd.mpr (Nat.dvd_mul_left p x))

end

/-! ## What the table has -/

/-- A subsecond in units of a `q`-th second. -/
theorem moduloPeriod_eq {frametime ss : ℚ≥0} {x : Nat} (hss : ss = x / frametime.den)
    (hdvd : ss.den ∣ frametime.den) : moduloPeriod frametime ss = x % frametime.num := by
  obtain ⟨c, hc⟩ := hdvd
  have hden : (ss.den : ℚ≥0) ≠ 0 := by exact_mod_cast ss.den_ne_zero
  have hq : (frametime.den : ℚ≥0) ≠ 0 := by exact_mod_cast frametime.den_ne_zero
  have hx : ss.num * c = x := by
    have hratio : (ss.num : ℚ≥0) / ss.den = x / frametime.den := by
      rw [NNRat.num_div_den]
      exact hss
    rw [div_eq_div_iff hden hq] at hratio
    have hnat : ss.num * frametime.den = x * ss.den := by exact_mod_cast hratio
    rw [hc, ← Nat.mul_assoc, Nat.mul_right_comm] at hnat
    exact Nat.eq_of_mul_eq_mul_right ss.den_pos hnat
  unfold moduloPeriod
  rw [hc, Nat.mul_div_cancel_left _ ss.den_pos, hx]

theorem den_dvd {ss : ℚ≥0} {x q : Nat} (h : ss = x / q) : ss.den ∣ q := by
  have hcast : (ss : ℚ) = Rat.divInt x q := by
    rw [Rat.divInt_eq_div, h]
    push_cast
    rfl
  have hden := Rat.den_dvd (x : ℤ) (q : ℤ)
  rw [← hcast] at hden
  exact_mod_cast hden

theorem cast_eq (x : ℚ≥0) : (x : ℚ) = x.num / x.den := by
  conv_lhs => rw [← NNRat.num_div_den x]
  push_cast
  rfl

section
variable {frametime : ℚ≥0} {j : Nat} {tm : HighResTime} {lut : List Int}

/-- After `j` seconds of the period: the time of the next frame, and an entry for
every second so far. -/
structure LutInv (frametime : ℚ≥0) (j : Nat) (tm : HighResTime) (lut : List Int) : Prop where
  value : tm.value = (firstFrame frametime.num frametime.den j : ℕ) * frametime
  length : lut.length = frametime.num
  entries : ∀ i < j,
    lut[firstOffset frametime.num frametime.den i % frametime.num]? = some (-(i : Int))

/-- A frame rate that the loop can deal with: more than a frame a second, and
numbers that an `unsigned int` holds. -/
structure Quick (frametime : ℚ≥0) : Prop where
  num_pos : 0 < frametime.num
  num_lt : frametime.num < frametime.den
  den_lt : frametime.den < 2 ^ 32

theorem LutInv.split (h : LutInv frametime j tm lut) (hquick : Quick frametime) :
    tm.tvSec = j ∧
      tm.tvSubsecond = (firstOffset frametime.num frametime.den j : ℕ) / frametime.den := by
  have hle := firstOffset_le (p := frametime.num) (q := frametime.den) hquick.num_pos j
  have hadd := firstOffset_add (p := frametime.num) (q := frametime.den) hquick.num_pos j
  have hlt := hquick.num_lt
  have hq : (0 : ℚ≥0) < frametime.den := by exact_mod_cast frametime.den_pos
  refine split_value ?_ ?_
  · rw [div_lt_one hq]
    exact_mod_cast Nat.lt_of_le_of_lt hle hlt
  · have hq' : (frametime.den : ℚ) ≠ 0 := by exact_mod_cast frametime.den_ne_zero
    rw [h.value, cast_eq frametime, ← mul_div_assoc]
    push_cast
    field_simp
    rw [Nat.add_comm, Nat.mul_comm j] at hadd
    exact_mod_cast hadd.symm

theorem LutInv.step (h : LutInv frametime j tm lut) (hquick : Quick frametime)
    (hcop : frametime.num.Coprime frametime.den) (hj : j < frametime.num) :
    LutInv frametime (j + 1) (lutStep frametime (tm, lut) j).1 (lutStep frametime (tm, lut) j).2 := by
  obtain ⟨hp, hpq, hq32⟩ := id hquick
  obtain ⟨hsec, hss⟩ := h.split hquick
  have hwithin := @firstFrame_within frametime.num frametime.den hp j
  have hsucc := firstFrame_succ hp hpq j
  have hle : firstFrame frametime.num frametime.den j * frametime.num ≤ (j + 1) * frametime.den := by
    rw [Nat.succ_mul]
    omega
  generalize hy : (j + 1) * frametime.den - firstFrame frametime.num frametime.den j * frametime.num = y
    at hsucc
  have hylt : y < frametime.den := by
    rw [Nat.succ_mul] at hy
    omega
  have hydiv : y / frametime.num ≤ y := Nat.div_le_self ..
  have hnframe : rationalCastUnsigned ((((j + 1 : ℕ) : ℚ) - tm.value) / frametime) =
      y / frametime.num := by
    have hsum : ((j + 1 : ℕ) : ℚ) * frametime.den =
        y + (firstFrame frametime.num frametime.den j : ℕ) * (frametime.num : ℕ) := by
      exact_mod_cast (show (j + 1) * frametime.den = y + _ by omega)
    have hp' : (frametime.num : ℚ) ≠ 0 := by exact_mod_cast Nat.ne_of_gt hp
    have hq' : (frametime.den : ℚ) ≠ 0 := by exact_mod_cast frametime.den_ne_zero
    have hratio : (((j + 1 : ℕ) : ℚ) - tm.value) / frametime = (y : ℚ) / frametime.num := by
      rw [h.value, cast_eq frametime]
      field_simp
      linear_combination hsum
    rw [hratio]
    exact rationalCastUnsigned_div hp (by omega) (by omega)
  have hmodulo := moduloPeriod_eq hss (den_dvd hss)
  refine ⟨?_, ?_, fun i hi => ?_⟩
  · show (advance tm _).value = _
    rw [advance_value, hnframe, Nat.mod_eq_of_lt (by omega), h.value, hsucc]
    push_cast
    ring
  · show (lut.set _ _).length = _
    rw [List.length_set, h.length]
  · have hmlt : firstOffset frametime.num frametime.den j % frametime.num < frametime.num :=
      Nat.mod_lt _ hp
    show (lut.set (moduloPeriod frametime tm.tvSubsecond % 2 ^ 32) (-tm.tvSec))[_]? = _
    rw [hmodulo, Nat.mod_eq_of_lt (show _ < 2 ^ 32 by omega), hsec]
    rcases Nat.lt_succ_iff_lt_or_eq.mp hi with hlt | rfl
    · have hne : firstOffset frametime.num frametime.den j % frametime.num ≠
          firstOffset frametime.num frametime.den i % frametime.num := by
        intro heq
        have hij := second_unique hcop (Nat.lt_trans hlt hj) hj (offset_dvd hp i)
          ((offset_dvd_congr heq).mp (offset_dvd hp j))
        omega
      rw [List.getElem?_set_ne hne]
      exact h.entries i hlt
    · rw [List.getElem?_set_self (by rw [h.length]; exact hmlt)]

theorem computeOffsetLut_inv (hquick : Quick frametime) (hcop : frametime.num.Coprime frametime.den)
    {n : Nat} (hn : n ≤ frametime.num) :
    LutInv frametime n ((List.range n).foldl (lutStep frametime)
        (.normalize 0 frametime, List.replicate frametime.num 0)).1
      ((List.range n).foldl (lutStep frametime)
        (.normalize 0 frametime, List.replicate frametime.num 0)).2 := by
  induction n with
  | zero =>
    refine ⟨?_, List.length_replicate, fun i hi => absurd hi (Nat.not_lt_zero i)⟩
    show (HighResTime.normalize 0 frametime).value = _
    rw [normalize_value]
    simp [firstFrame]
  | succ n ih =>
    rw [List.range_succ, List.foldl_append]
    exact (ih (Nat.le_of_succ_le hn)).step hquick hcop hn

/-- The entry for an offset that belongs to second `j`. -/
theorem computeOffsetLut_getElem? (hquick : Quick frametime)
    (hcop : frametime.num.Coprime frametime.den) {x : Nat} (hj : j < frametime.num)
    (hx : frametime.num ∣ j * frametime.den + x) :
    (computeOffsetLut frametime)[x % frametime.num]? = some (-(j : Int)) := by
  have hentry := (computeOffsetLut_inv hquick hcop (Nat.le_refl _)).entries j hj
  have hsame : firstOffset frametime.num frametime.den j % frametime.num = x % frametime.num := by
    have hmod : j * frametime.den + firstOffset frametime.num frametime.den j ≡
        j * frametime.den + x [MOD frametime.num] :=
      (Nat.modEq_zero_iff_dvd.mpr (offset_dvd hquick.num_pos j)).trans
        (Nat.modEq_zero_iff_dvd.mpr hx).symm
    exact Nat.ModEq.add_left_cancel' _ hmod
  rw [hsame] at hentry
  exact hentry

end

/-- With more than a frame a second the table gives the start of the period: the
last second before the time stamp that is a whole number of frames away. -/
theorem periodStart_quick {hdr : Headersearch} {ts : HighResTime} (hquick : Quick hdr.state.frametime)
    (hlut : hdr.state.offsetLut = computeOffsetLut hdr.state.frametime)
    (hts : ts.tvSubsecond.den ∣ hdr.state.frametime.den) :
    ts.tvSec - hdr.state.frametime.num < periodStart hdr ts ∧ periodStart hdr ts ≤ ts.tvSec ∧
      ∃ n < hdr.state.frametime.den, ts.value = periodStart hdr ts + n * hdr.state.frametime := by
  obtain ⟨hp, hpq, -⟩ := id hquick
  generalize hft : hdr.state.frametime = frametime at *
  have hq0 : (frametime.den : ℚ≥0) ≠ 0 := by exact_mod_cast frametime.den_ne_zero
  obtain ⟨x, hx⟩ : ∃ x : ℕ, ts.tvSubsecond = x / frametime.den := by
    obtain ⟨c, hc⟩ := id hts
    refine ⟨ts.tvSubsecond.num * c, ?_⟩
    have hc0 : (c : ℚ≥0) ≠ 0 := by
      rintro h
      rw [hc] at hq0
      push_cast at hq0
      rw [h, mul_zero] at hq0
      exact hq0 rfl
    conv_lhs => rw [← NNRat.num_div_den ts.tvSubsecond]
    rw [hc]
    push_cast
    rw [mul_div_mul_right _ _ hc0]
  have hxlt : x < frametime.den := by
    have hnormal := ts.normal
    rw [hx, div_lt_one (by exact_mod_cast frametime.den_pos)] at hnormal
    exact_mod_cast hnormal
  have hcop : frametime.num.Coprime frametime.den := frametime.coprime_num_den
  obtain ⟨j, hj, hdvd⟩ := second_exists hp hcop x
  obtain ⟨n, hn⟩ := id hdvd
  have hentry := computeOffsetLut_getElem? hquick hcop hj hdvd
  have hstart : periodStart hdr ts = ts.tvSec - j := by
    unfold periodStart
    rw [hlut, hft, moduloPeriod_eq hx hts, List.getD_eq_getElem?_getD, hentry, Option.getD_some]
    omega
  have hnlt : n < frametime.den := by
    have hjq : j * frametime.den + frametime.den ≤ frametime.num * frametime.den := by
      rw [← Nat.succ_mul]
      exact Nat.mul_le_mul_right _ hj
    have hpn : frametime.num * n < frametime.num * frametime.den := by omega
    exact Nat.lt_of_mul_lt_mul_left hpn
  refine ⟨by omega, by omega, n, hnlt, ?_⟩
  have hsum : (j : ℚ) * frametime.den + x = frametime.num * n := by exact_mod_cast hn
  have hq' : (frametime.den : ℚ) ≠ 0 := by exact_mod_cast frametime.den_ne_zero
  rw [hstart, HighResTime.value, hx, cast_eq frametime]
  push_cast
  field_simp
  linear_combination hsum

/-! ## When the time comes back -/

def RoundTrips (hdr : Headersearch) (ts : HighResTime) : Prop :=
  ∀ w, ∃ out, encodeVdif2Timestamp w ts hdr = .ok out ∧
    vdifFrameTimestamp out hdr.trackbitrate hdr.state = .ok (.time ts)

/-- The period has started in the half year of the time stamp, and the frame number
fits the header. -/
structure InEpoch (hdr : Headersearch) (ts : HighResTime) : Prop where
  epoch : (vdifEpoch ts).2 ≤ periodStart hdr ts
  frame : ∃ n : ℕ, n < 2 ^ 24 - 1 ∧ ts.value = periodStart hdr ts + n * hdr.state.frametime

/-- A frame time is encoded as the number of frames since the start of the period. -/
theorem encodeVdif2_eq {hdr : Headersearch} {ts : HighResTime} (hcheck : hdr.checkRates = .ok ())
    (hft : hdr.state.frametime ≠ 0) {n : ℕ} (hn : n < 2 ^ 24 - 1)
    (hvalue : ts.value = periodStart hdr ts + n * hdr.state.frametime) (w : Words) :
    encodeVdif2Timestamp w ts hdr =
      .ok (writeVdifHeader hdr w (vdifEpoch ts).1 (periodStart hdr ts - (vdifEpoch ts).2) n) := by
  have hft' : (hdr.state.frametime : ℚ) ≠ 0 := by exact_mod_cast hft
  have hframenum : (ts.value - periodStart hdr ts) / hdr.state.frametime = (n : ℚ) := by
    rw [hvalue, add_sub_cancel_left, mul_div_cancel_right₀ _ hft']
  unfold encodeVdif2Timestamp
  rw [hcheck, hframenum]
  dsimp only
  rw [Rat.den_natCast, Rat.num_natCast, if_neg (by decide), if_neg (by omega)]

theorem roundTrips_iff {hdr : Headersearch} {ts : HighResTime} (hcheck : hdr.checkRates = .ok ())
    (hbitrate : 0 < hdr.trackbitrate) (hknown : hdr.trackbitrate ≠ unknownTrackbitrate)
    (hft : hdr.state.frametime ≠ 0) (hle : periodStart hdr ts ≤ ts.tvSec)
    (h0 : 0 ≤ (vdifEpoch ts).1) (h64 : (vdifEpoch ts).1 < 64) :
    RoundTrips hdr ts ↔ InEpoch hdr ts := by
  have hft' : (hdr.state.frametime : ℚ) ≠ 0 := by exact_mod_cast hft
  have hftpos : (0 : ℚ) < hdr.state.frametime := by exact_mod_cast pos_of_ne_zero hft
  have hback := (secondBack_iff h0 h64).mp (secondBack_first h0 h64)
  have hdecode : ∀ (w : Words) (sec : Int) (n : Nat), n < 2 ^ 24 →
      vdifFrameTimestamp (writeVdifHeader hdr w (vdifEpoch ts).1 sec n) hdr.trackbitrate hdr.state =
        .ok (.time (.normalize ((vdifEpoch ts).2 + sec % 2 ^ 30) (n * hdr.state.frametime))) := by
    intro w sec n hn
    have hnum : ((n : ℕ) : Int) % 2 ^ 24 = n := Int.emod_eq_of_lt (by omega) (by omega)
    have htime := @vdifFrameTimestamp_write hdr ts w h0 h64 sec n
    rw [hnum, Int.toNat_natCast] at htime
    unfold vdifFrameTimestamp
    rw [if_pos hbitrate]
    dsimp only
    rw [if_neg hknown, htime]
  constructor
  · intro h
    obtain ⟨out, hout, htime⟩ := h fun _ => 0
    -- the encoder did not throw, so the frame number is whole and small
    unfold encodeVdif2Timestamp at hout
    rw [hcheck] at hout
    dsimp only at hout
    split at hout
    · cases hout
    rename_i hden
    split at hout
    · cases hout
    rename_i hsmall
    generalize hn : (ts.value - periodStart hdr ts) / (hdr.state.frametime : ℚ) = framenum at *
    have hpos : 0 ≤ framenum := by
      have hle' : (periodStart hdr ts : ℚ) ≤ ts.tvSec := by exact_mod_cast hle
      have hss : (0 : ℚ) ≤ ts.tvSubsecond := ts.tvSubsecond.2
      rw [← hn, HighResTime.value]
      exact div_nonneg (by linarith) (le_of_lt hftpos)
    obtain ⟨n, hnum⟩ : ∃ n : ℕ, framenum.num = n := Int.eq_ofNat_of_zero_le (Rat.num_nonneg.mpr hpos)
    have hframe : framenum = (n : ℚ) := by
      have hint := Rat.coe_int_num_of_den_eq_one (Decidable.not_not.mp hden)
      rw [hnum] at hint
      exact_mod_cast hint.symm
    have hvalue : ts.value = periodStart hdr ts + n * hdr.state.frametime := by
      rw [hframe, div_eq_iff hft'] at hn
      linarith
    rw [hnum] at hsmall hout
    obtain rfl := Except.ok.inj hout
    rw [hdecode _ _ _ (by omega)] at htime
    have hsame := congrArg HighResTime.value (Decoded.time.inj (Except.ok.inj htime))
    rw [normalize_value, hvalue] at hsame
    push_cast at hsame
    have hsec : (vdifEpoch ts).2 + (periodStart hdr ts - (vdifEpoch ts).2) % 2 ^ 30 =
        periodStart hdr ts := by
      exact_mod_cast (add_right_cancel hsame)
    exact ⟨by omega, n, by omega, hvalue⟩
  · rintro ⟨hepoch, n, hn, hvalue⟩ w
    refine ⟨_, encodeVdif2_eq hcheck hft hn hvalue w, ?_⟩
    have hsec : (vdifEpoch ts).2 + (periodStart hdr ts - (vdifEpoch ts).2) % 2 ^ 30 =
        periodStart hdr ts := by
      rw [Int.emod_eq_of_lt (by omega) (by omega)]
      omega
    rw [hdecode _ _ _ (by omega), hsec]
    congr 2
    refine value_injective ?_
    rw [normalize_value, hvalue]
    push_cast
    rfl

/-- The table of a format that needs one. -/
theorem make_offsetLut {fmt : FormatType} {ntrack payloadsize : Nat} {trackbitrate : ℚ≥0}
    {hdr : Headersearch} (hhdr : hdr = .make fmt ntrack trackbitrate payloadsize)
    (hrate : hdr.state.framerate ≠ 0) (hperiod : hdr.state.framerate.den ≠ 1)
    (hft : hdr.state.frametime ≠ 0) :
    (∀ e ∈ hdr.state.offsetLut, e ≤ 0) ∧
      (Quick hdr.state.frametime → hdr.state.offsetLut = computeOffsetLut hdr.state.frametime) := by
  have hlut : hdr.state.offsetLut =
      if validSamplerate hdr.state.frametime ∧ validSamplerate hdr.state.framerate ∧
          hdr.state.framerate.den ≠ 1 then
        computeOffsetLut hdr.state.frametime
      else [] := by
    rw [hhdr]
    rfl
  refine ⟨fun e he => ?_, fun hquick => ?_⟩
  · rw [hlut] at he
    split at he
    · exact computeOffsetLut_nonpos _ e he
    · cases he
  · have hknown : ∀ x : ℚ≥0, x ≠ 0 → (x.den ≠ 1 ∨ x < 1) → validSamplerate x = true := by
      intro x hx hsmall
      unfold validSamplerate
      rw [Bool.and_eq_true, decide_eq_true_eq, decide_eq_true_eq]
      refine ⟨?_, hx⟩
      rintro rfl
      revert hsmall
      decide +kernel
    have hlt : hdr.state.frametime < 1 := by
      rw [← NNRat.num_div_den hdr.state.frametime,
        div_lt_one (by exact_mod_cast hdr.state.frametime.den_pos)]
      exact_mod_cast hquick.num_lt
    rw [hlut, if_pos ⟨hknown _ hft (.inr hlt), hknown _ hrate (.inl hperiod), hperiod⟩]

/-- For frame rates that need a period: time stamps from 2000 up to 2032 come back
exactly if their period started in their own half year and the frame number fits.
With more than a frame a second the start of the period is what it should be. -/
theorem encodeVdif2_roundTrip_iff {fmt : FormatType} {ntrack payloadsize : Nat} {trackbitrate : ℚ≥0}
    {hdr : Headersearch} (hhdr : hdr = .make fmt ntrack trackbitrate payloadsize)
    (hrate : hdr.state.framerate ≠ 0) (hperiod : hdr.state.framerate.den ≠ 1) {ts : HighResTime}
    (hfrom : mktime ⟨100, 0, 1, 0, 0, 0⟩ ≤ ts.tvSec) (hto : ts.tvSec < mktime ⟨132, 0, 1, 0, 0, 0⟩) :
    (RoundTrips hdr ts ↔ InEpoch hdr ts) ∧
      (Quick hdr.state.frametime → ts.tvSubsecond.den ∣ hdr.state.frametime.den →
        ts.tvSec - hdr.state.frametime.num < periodStart hdr ts ∧ periodStart hdr ts ≤ ts.tvSec ∧
          ∃ n < hdr.state.frametime.den, ts.value = periodStart hdr ts + n * hdr.state.frametime) := by
  obtain ⟨hframetime, hcheck, hbitrate, hknown⟩ :
      hdr.state.frametime = (hdr.state.framerate)⁻¹ ∧ hdr.checkRates = .ok () ∧
        0 < hdr.trackbitrate ∧ hdr.trackbitrate ≠ unknownTrackbitrate := by
    rw [hhdr] at hrate ⊢
    exact make_frametime hrate
  have hft : hdr.state.frametime ≠ 0 := by
    rw [hframetime]
    exact inv_ne_zero hrate
  obtain ⟨hlut, hquicklut⟩ := make_offsetLut hhdr hrate hperiod hft
  obtain ⟨h0, h64⟩ := vdifEpoch_range hfrom hto
  exact ⟨roundTrips_iff hcheck hbitrate hknown hft (periodStart_le hlut ts) h0 h64,
    fun hquick hts => periodStart_quick hquick (hquicklut hquick) hts⟩

/-- A track of 96 kbps in frames of 64000 bits: three frames in two seconds. -/
def threeInTwo : Headersearch := .make .vdif 1 96000 8000

section
attribute [local instance] atLeastTwo_3

/-- A third of a second into 2000. -/
def newYear : HighResTime := ⟨946684800, 1 / 3, by decide +kernel⟩

end

/-- And a second later. -/
def afterNewYear : HighResTime := { newYear with tvSec := 946684801 }

theorem encodeVdif2_roundTrip_iff_newYear : RoundTrips threeInTwo afterNewYear :=
  (@encodeVdif2_roundTrip_iff .vdif 1 8000 96000 threeInTwo rfl (by decide +kernel) (by decide +kernel)
    afterNewYear (by decide) (by decide)).1.mpr
      ⟨by decide +kernel, 2, by decide, by decide +kernel⟩

/-- The period has started in 1999, and the header says 2034. -/
theorem period_before_epoch :
    (encodeVdif2Timestamp (fun _ => 0) newYear threeInTwo).toOption.map
        (fun out => (Vdif.vdifFrameTimestamp threeInTwo.state.frametime out.header).value) =
      some (newYear.value + 2 ^ 30) ∧
    ¬ RoundTrips threeInTwo newYear := by
  have hwrong : (encodeVdif2Timestamp (fun _ => 0) newYear threeInTwo).toOption.map
        (fun out => (Vdif.vdifFrameTimestamp threeInTwo.state.frametime out.header).value) =
      some (newYear.value + 2 ^ 30) := by
    decide +kernel
  refine ⟨hwrong, fun h => ?_⟩
  obtain ⟨out, hout, htime⟩ := h fun _ => 0
  rw [hout] at hwrong
  have hvalue : (Vdif.vdifFrameTimestamp threeInTwo.state.frametime out.header).value = _ :=
    Option.some.inj hwrong
  have hknown : threeInTwo.trackbitrate ≠ unknownTrackbitrate := by decide +kernel
  have hbitrate : 0 < threeInTwo.trackbitrate := by decide +kernel
  unfold vdifFrameTimestamp at htime
  rw [if_pos hbitrate] at htime
  dsimp only at htime
  rw [if_neg hknown] at htime
  rw [Decoded.time.inj (Except.ok.inj htime)] at hvalue
  revert hvalue
  decide +kernel

end Jive5ab.Headersearch
