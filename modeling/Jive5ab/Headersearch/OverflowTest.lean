import Jive5ab.Headersearch.Construct

/-! # The overflow test of the constructor

It compares a product that may have wrapped with one of its factors, after the rates have been
computed from it. -/
namespace Jive5ab.Headersearch
open Lib

/-! ## What is asserted -/

/-- The assertions, all of them. -/
structure Checks (fmt : FormatType) (ntrack : Nat) (trackbitrate : Samplerate) (payloadsz : Nat) :
    Prop where
  tracks : (isMk4Vlba fmt || fmt == .mark5b) = true →
    (if fmt = .mark5b then 1 else 8) ≤ ntrack ∧ ntrack ≤ 64 ∧ ntrack &&& (ntrack - 1) = 0
  straight : isSt fmt = true → ntrack = 32
  payload : isVdif fmt = true → payloadsz % 8 = 0
  product : trackbitrate ≠ unknownRate → trackbitrate.num ≤ ntrack * trackbitrate.num % 2 ^ 64
  integer : trackbitrate.den ≠ 1 → isVdif fmt = true

theorem ezassert_ok {cond : Prop} [Decidable cond] {what : String} :
    ezassert cond what = .ok () ↔ cond := by
  unfold ezassert
  by_cases h : cond
  · rw [if_pos h]
    exact ⟨fun _ => h, fun _ => rfl⟩
  · rw [if_neg h]
    exact ⟨nofun, fun hcond => absurd hcond h⟩

/-- An assertion that is only made under a condition, and what comes after it. -/
theorem guarded_ok {guard cond : Prop} [Decidable guard] [Decidable cond] {what : String}
    {rest : Unit → Except FormatError Unit} :
    (if guard then ezassert cond what >>= rest else rest ()) = .ok () ↔
      (guard → cond) ∧ rest () = .ok () := by
  by_cases hguard : guard
  · rw [if_pos hguard, Checked.bind_eq_ok]
    constructor
    · rintro ⟨_, hassert, hrest⟩
      exact ⟨fun _ => ezassert_ok.mp hassert, hrest⟩
    · rintro ⟨hcond, hrest⟩
      exact ⟨(), ezassert_ok.mpr (hcond hguard), hrest⟩
  · rw [if_neg hguard]
    exact ⟨fun hrest => ⟨fun h => absurd h hguard, hrest⟩, fun h => h.2⟩

theorem checkFormat_ok {fmt : FormatType} {ntrack payloadsz : Nat} {trackbitrate : Samplerate} :
    checkFormat fmt ntrack trackbitrate payloadsz = .ok () ↔
      Checks fmt ntrack trackbitrate payloadsz := by
  have hlast : (if trackbitrate.den ≠ 1 then
      ezassert (isVdif fmt = true) "Only VDIF format can handle non-integer samplerate per second"
      else pure ()) = .ok () ↔ (trackbitrate.den ≠ 1 → isVdif fmt = true) := by
    by_cases hden : trackbitrate.den ≠ 1
    · rw [if_pos hden, ezassert_ok]
      exact ⟨fun h _ => h, fun h => h hden⟩
    · rw [if_neg hden]
      exact ⟨fun _ h => absurd h hden, fun _ => rfl⟩
  unfold checkFormat
  dsimp only
  rw [guarded_ok, guarded_ok, guarded_ok, guarded_ok, hlast]
  exact ⟨fun ⟨h₁, h₂, h₃, h₄, h₅⟩ => ⟨h₁, h₂, h₃, h₄, h₅⟩,
    fun h => ⟨h.tracks, h.straight, h.payload, h.product, h.integer⟩⟩

/-! ## What is divided -/

theorem mul_ofNat {t : Samplerate} (ht : t.Normal) (n : Nat) :
    t.mul (.ofNat n) = Fraction.wrap (n * t.value) := by
  rw [Fraction.mul_eq ht (Fraction.normal_ofNat n), Fraction.value_ofNat, mul_comm]

theorem inWords_mul {t : Samplerate} (ht : t.Normal) (hden : t.den < 2 ^ 64) {n : Nat}
    (hfits : n * t.num < 2 ^ 64) : InWords (2 ^ 64) (n * t.value) := by
  constructor
  · have hg : 0 < n.gcd t.den := Nat.gcd_pos_of_pos_right n ht.den_pos
    have hcoprime : (n / n.gcd t.den * t.num).Coprime (t.den / n.gcd t.den) :=
      (Nat.coprime_div_gcd_div_gcd hg).mul_left
        (ht.coprime.coprime_div_right (Nat.gcd_dvd_right n t.den))
    have hpos : 0 < t.den / n.gcd t.den :=
      Nat.div_pos (Nat.gcd_le_right n ht.den_pos) hg
    have hvalue : n * t.value =
        ((n / n.gcd t.den * t.num : ℕ) : ℚ≥0) / ((t.den / n.gcd t.den : ℕ) : ℚ≥0) := by
      have hg' : ((n.gcd t.den : ℕ) : ℚ≥0) ≠ 0 := Nat.cast_ne_zero.mpr hg.ne'
      have hd' : (t.den : ℚ≥0) ≠ 0 := Nat.cast_ne_zero.mpr ht.den_pos.ne'
      rw [Nat.cast_mul, Nat.cast_div (Nat.gcd_dvd_left n t.den) hg',
        Nat.cast_div (Nat.gcd_dvd_right n t.den) hg', Fraction.value]
      field_simp
    rw [hvalue, (Fraction.num_den_of_coprime hpos hcoprime).1]
    exact (Nat.mul_le_mul_right _ (Nat.div_le_self n _)).trans_lt hfits
  · have hle := Fraction.den_mul_le t.value n
    rw [ht.num_den.2, mul_comm] at hle
    exact hle.trans_lt hden

/-- After the test a product is not zero by accident. -/
theorem mul_num_ne_zero {t : Samplerate} {n : Nat} (hnum : 0 < t.num)
    (htest : t.num ≤ n * t.num % 2 ^ 64) : (t.mul (.ofNat n)).num ≠ 0 := by
  intro hzero
  have hgcd : n.gcd t.den ∣ n := Nat.gcd_dvd_left n t.den
  have hmod : t.num * (n / n.gcd t.den) % 2 ^ 64 = 0 := by
    simpa [Fraction.mul, Fraction.ofNat] using hzero
  have hsplit : n * t.num = t.num * (n / n.gcd t.den) * n.gcd t.den := by
    rw [Nat.mul_assoc, Nat.div_mul_cancel hgcd, Nat.mul_comm]
  rw [hsplit, Nat.mul_mod, hmod, Nat.zero_mul, Nat.zero_mod] at htest
  omega

/-- A quotient that comes out exactly has words for its parts. -/
theorem den_lt_of_value_wrap {q : ℚ≥0} (hq : q ≠ 0) (hnum : q.num < 2 ^ 64)
    (h : (Fraction.wrap q : Samplerate).value = q) : q.den < 2 ^ 64 := by
  have hpos : (q.num : ℚ≥0) ≠ 0 := Nat.cast_ne_zero.mpr (NNRat.num_ne_zero.mpr hq)
  have hden : ((q.den % 2 ^ 64 : ℕ) : ℚ≥0) ≠ 0 := by
    intro hzero
    rw [Fraction.value, Fraction.wrap, hzero, div_zero] at h
    exact hq h.symm
  have hvalue : (q.num : ℚ≥0) / ((q.den % 2 ^ 64 : ℕ) : ℚ≥0) = q.num / q.den := by
    rw [q.num_div_den]
    rwa [Fraction.value, Fraction.wrap, Nat.mod_eq_of_lt hnum] at h
  have hsame : ((q.den % 2 ^ 64 : ℕ) : ℚ≥0) = q.den := by
    rw [div_eq_div_iff hden (Nat.cast_ne_zero.mpr q.den_ne_zero)] at hvalue
    exact (mul_left_cancel₀ hpos hvalue).symm
  have hnat : q.den % 2 ^ 64 = q.den := by exact_mod_cast hsame
  omega

/-! ## The rates -/

/-- Tracks, bits a second on one of them and bytes in a frame that make a rate. -/
structure Nonzero (ntrack : Nat) (t : Samplerate) (payloadsz : Nat) : Prop where
  tracks : ntrack ≠ 0
  rate : isValidRate t = true
  payload : payloadsz ≠ 0

variable {ntrack payloadsz : Nat} {t : Samplerate}

theorem framerateOf_eq (h : Nonzero ntrack t payloadsz) (ht : t.Normal)
    (hwords : InWords (2 ^ 64) (ntrack * t.value)) (hbits : 8 * payloadsz < 2 ^ 32)
    (hnum : (t.mul (.ofNat ntrack)).num ≠ 0) :
    framerateOf ntrack t payloadsz = .ok (.wrap (ntrack * t.value / (8 * payloadsz : ℕ))) := by
  have hsmall : payloadsz * 8 % 2 ^ 32 = 8 * payloadsz := by
    rw [Nat.mul_comm, Nat.mod_eq_of_lt hbits]
  rw [mul_ofNat ht] at hnum
  unfold framerateOf
  rw [if_pos ⟨h.payload, h.rate⟩, hsmall, mul_ofNat ht,
    Fraction.div_eq (Fraction.normal_wrap hwords) (Fraction.normal_ofNat _)
      (Nat.mul_pos (by decide) (Nat.pos_of_ne_zero h.payload)).ne' hnum,
    Fraction.value_wrap hwords, Fraction.value_ofNat]
  rfl

theorem frametimeOf_eq (h : Nonzero ntrack t payloadsz) (ht : t.Normal)
    (hwords : InWords (2 ^ 64) (ntrack * t.value)) (hbits : 8 * payloadsz < 2 ^ 32)
    (hnum : (t.mul (.ofNat ntrack)).num ≠ 0) :
    frametimeOf ntrack t payloadsz = .ok (.wrap ((8 * payloadsz : ℕ) / (ntrack * t.value))) := by
  have hsmall : payloadsz * 8 % 2 ^ 32 = 8 * payloadsz := by
    rw [Nat.mul_comm, Nat.mod_eq_of_lt hbits]
  rw [mul_ofNat ht] at hnum
  unfold frametimeOf
  rw [if_pos ⟨h.tracks, h.rate⟩, hsmall, mul_ofNat ht,
    Fraction.div_eq (Fraction.normal_ofNat _) (Fraction.normal_wrap hwords) hnum
      (Nat.mul_pos (by decide) (Nat.pos_of_ne_zero h.payload)).ne',
    Fraction.value_wrap hwords, Fraction.value_ofNat]
  rfl

/-! ## What returns -/

/-- Nothing that overflows, and the rates are exact. -/
def RejectsOverflow (fmt : FormatType) (tracks : Nat) (trkbitrate : Samplerate)
    (vdifpayloadsize : Nat) : Prop :=
  ∀ h, HeadersearchType.make fmt tracks trkbitrate vdifpayloadsize = .ok h →
    tracks * trkbitrate.num < 2 ^ 64 ∧ 8 * h.payloadsize < 2 ^ 32 ∧
    h.state.framerate.value = tracks * trkbitrate.value / (8 * h.payloadsize : ℕ) ∧
    h.state.frametime.value = (tracks * trkbitrate.value / (8 * h.payloadsize : ℕ))⁻¹

/-- An assertion fails, or a number of bits is zero that should not be. -/
def Noticed (fmt : FormatType) (tracks : Nat) (trkbitrate : Samplerate) (payloadsz : Nat) : Prop :=
  ¬Checks fmt tracks trkbitrate payloadsz ∨
    payloadsz ≠ 0 ∧ isValidRate trkbitrate = true ∧ 8 * payloadsz % 2 ^ 32 = 0

/-- Products in their words, and a frame rate whose denominator is a word. -/
def FitsWords (tracks : Nat) (trkbitrate : Samplerate) (payloadsz : Nat) : Prop :=
  tracks * trkbitrate.num < 2 ^ 64 ∧ 8 * payloadsz < 2 ^ 32 ∧
    (tracks * trkbitrate.value / (8 * payloadsz : ℕ)).den < 2 ^ 64

theorem eq_zero_of_num (ht : t.Normal) (hnum : t.num = 0) : t = .ofNat 0 := by
  obtain ⟨num, den⟩ := t
  obtain ⟨hpos, hcoprime⟩ := ht
  dsimp only at hpos hcoprime hnum
  subst hnum
  rw [(Nat.coprime_zero_left den).mp hcoprime]
  rfl

theorem num_pos_of_valid (ht : t.Normal) (hvalid : isValidRate t = true) : 0 < t.num := by
  rcases Nat.eq_zero_or_pos t.num with hzero | hpos
  · rw [eq_zero_of_num ht hzero] at hvalid
    exact absurd hvalid (by decide)
  · exact hpos

theorem rates_ok {fmt : FormatType} (ht : t.Normal) (hchecks : Checks fmt ntrack t payloadsz)
    (hbits : payloadsz ≠ 0 → isValidRate t = true → 8 * payloadsz % 2 ^ 32 ≠ 0) :
    ∃ st, DecoderRates.make ntrack t payloadsz = .ok st := by
  obtain ⟨framerate, hframerate⟩ : ∃ r, framerateOf ntrack t payloadsz = .ok r := by
    unfold framerateOf
    split
    · rename_i h
      have hne : payloadsz * 8 % 2 ^ 32 ≠ 0 := by
        rw [Nat.mul_comm]
        exact hbits h.1 h.2
      unfold Fraction.div
      rw [if_neg (show (Fraction.ofNat (payloadsz * 8 % 2 ^ 32) : Samplerate).num ≠ 0 from hne)]
      split
      · exact ⟨_, rfl⟩
      · exact ⟨_, rfl⟩
    · exact ⟨_, rfl⟩
  obtain ⟨frametime, hframetime⟩ : ∃ r, frametimeOf ntrack t payloadsz = .ok r := by
    unfold frametimeOf
    split
    · rename_i h
      have hknown : t ≠ unknownRate := by
        rintro rfl
        exact absurd h.2 (by decide)
      have hne := mul_num_ne_zero (num_pos_of_valid ht h.2) (hchecks.product hknown)
      unfold Fraction.div
      rw [if_neg hne]
      split
      · exact ⟨_, rfl⟩
      · exact ⟨_, rfl⟩
    · exact ⟨_, rfl⟩
  exact ⟨⟨framerate, frametime⟩,
    Checked.bind_eq_ok.mpr ⟨_, hframerate, Checked.bind_eq_ok.mpr ⟨_, hframetime, rfl⟩⟩⟩

theorem rates_made {st : DecoderRates} (h : DecoderRates.make ntrack t payloadsz = .ok st) :
    framerateOf ntrack t payloadsz = .ok st.framerate ∧
      frametimeOf ntrack t payloadsz = .ok st.frametime := by
  unfold DecoderRates.make at h
  obtain ⟨framerate, hframerate, h⟩ := Checked.bind_eq_ok.mp h
  obtain ⟨frametime, hframetime, h⟩ := Checked.bind_eq_ok.mp h
  cases h
  exact ⟨hframerate, hframetime⟩

theorem mul_num_ne_zero_of_fits {n : Nat} (hn : n ≠ 0) (hnum : 0 < t.num)
    (hproduct : n * t.num < 2 ^ 64) : (t.mul (.ofNat n)).num ≠ 0 := by
  refine mul_num_ne_zero hnum ?_
  rw [Nat.mod_eq_of_lt hproduct]
  exact Nat.le_mul_of_pos_left _ (Nat.pos_of_ne_zero hn)

theorem rates_of_nothing {st : DecoderRates} (hnot : ¬Nonzero ntrack t payloadsz) (ht : t.Normal)
    (hknown : t ≠ unknownRate) (hfits : FitsWords ntrack t payloadsz)
    (h : DecoderRates.make ntrack t payloadsz = .ok st) :
    (ntrack * t.value / (8 * payloadsz : ℕ) : ℚ≥0) = 0 ∧ st.framerate.value = 0 ∧
      st.frametime.value = 0 := by
  obtain ⟨hframerate, hframetime⟩ := rates_made h
  unfold framerateOf at hframerate
  unfold frametimeOf at hframetime
  by_cases hvalid : isValidRate t = true
  · by_cases htracks : ntrack = 0
    · subst htracks
      rw [if_neg (fun h => h.1 rfl)] at hframetime
      have hzero : t.mul (.ofNat 0) = .ofNat 0 := by
        rw [mul_ofNat ht, Nat.cast_zero, zero_mul, Fraction.wrap_zero (by decide)]
      rw [hzero] at hframerate
      refine ⟨by simp, ?_, by rw [← Except.ok.inj hframetime]; simp⟩
      split at hframerate
      · by_cases hbits : payloadsz * 8 % 2 ^ 32 = 0
        · rw [hbits] at hframerate
          cases hframerate
        · rw [Fraction.ofNat_zero_div hbits] at hframerate
          rw [← Except.ok.inj hframerate]
          simp
      · rw [← Except.ok.inj hframerate]
        simp
    · have hpayload : payloadsz = 0 := by
        by_contra hne
        exact hnot ⟨htracks, hvalid, hne⟩
      subst hpayload
      have hne := mul_num_ne_zero_of_fits htracks (num_pos_of_valid ht hvalid) hfits.1
      rw [if_neg (fun h => h.1 rfl)] at hframerate
      rw [if_pos ⟨htracks, hvalid⟩, Nat.zero_mul, Nat.zero_mod, Fraction.ofNat_zero_div hne]
        at hframetime
      rw [← Except.ok.inj hframerate, ← Except.ok.inj hframetime]
      simp
  · have hzero : t = .ofNat 0 := by
      by_contra hne
      refine hvalid ?_
      simp [isValidRate, hknown, hne]
    rw [if_neg (fun h => hvalid h.2)] at hframerate hframetime
    rw [← Except.ok.inj hframerate, ← Except.ok.inj hframetime, hzero]
    simp

/-- The frame rate and its inverse, in words. -/
theorem inWords_rate (h : Nonzero ntrack t payloadsz) (ht : t.Normal) (hden : t.den < 2 ^ 64)
    (hfits : FitsWords ntrack t payloadsz) :
    InWords (2 ^ 64) (ntrack * t.value / (8 * payloadsz : ℕ)) ∧
      InWords (2 ^ 64) ((8 * payloadsz : ℕ) / (ntrack * t.value)) := by
  have hwords := inWords_mul ht hden hfits.1
  have hpos : 0 < 8 * payloadsz := Nat.mul_pos (by decide) (Nat.pos_of_ne_zero h.payload)
  have hquo : InWords (2 ^ 64) (ntrack * t.value / (8 * payloadsz : ℕ)) := by
    refine ⟨?_, hfits.2.2⟩
    rw [(Fraction.num_den_div _ hpos).1]
    exact (Nat.div_le_self _ _).trans_lt hwords.num
  have hzero : (ntrack * t.value / (8 * payloadsz : ℕ) : ℚ≥0) ≠ 0 := by
    have hvalue : t.value ≠ 0 := by
      rw [Fraction.value]
      exact div_ne_zero (Nat.cast_ne_zero.mpr (num_pos_of_valid ht h.rate).ne')
        (Nat.cast_ne_zero.mpr ht.den_pos.ne')
    exact div_ne_zero (mul_ne_zero (Nat.cast_ne_zero.mpr h.tracks) hvalue)
      (Nat.cast_ne_zero.mpr hpos.ne')
  refine ⟨hquo, ?_⟩
  rw [← inv_div]
  exact ⟨by rw [NNRat.num_inv_of_ne_zero hzero]; exact hquo.den,
    by rw [NNRat.den_inv_of_ne_zero hzero]; exact hquo.num⟩

/-- Of products that fit all rates are exact. -/
theorem rates_exact {st : DecoderRates} (ht : t.Normal) (hden : t.den < 2 ^ 64)
    (hknown : t ≠ unknownRate) (hfits : FitsWords ntrack t payloadsz)
    (h : DecoderRates.make ntrack t payloadsz = .ok st) :
    st.framerate.value = ntrack * t.value / (8 * payloadsz : ℕ) ∧
      st.frametime.value = (ntrack * t.value / (8 * payloadsz : ℕ))⁻¹ := by
  by_cases hall : Nonzero ntrack t payloadsz
  · obtain ⟨hframerate, hframetime⟩ := rates_made h
    have hwords := inWords_mul ht hden hfits.1
    have hne := mul_num_ne_zero_of_fits hall.tracks (num_pos_of_valid ht hall.rate) hfits.1
    obtain ⟨hquo, hinv⟩ := inWords_rate hall ht hden hfits
    rw [framerateOf_eq hall ht hwords hfits.2.1 hne] at hframerate
    rw [frametimeOf_eq hall ht hwords hfits.2.1 hne] at hframetime
    rw [← Except.ok.inj hframerate, ← Except.ok.inj hframetime, Fraction.value_wrap hquo,
      Fraction.value_wrap hinv, inv_div]
    exact ⟨rfl, rfl⟩
  · obtain ⟨hzero, hframerate, hframetime⟩ := rates_of_nothing hall ht hknown hfits h
    rw [hzero, hframerate, hframetime, inv_zero]
    exact ⟨rfl, rfl⟩

/-! ## When the test is enough -/

variable {fmt : FormatType} {tracks vdifpayloadsize : Nat} {trkbitrate : Samplerate}

theorem make_of_not_noticed (ht : trkbitrate.Normal)
    (hnot : ¬Noticed fmt tracks trkbitrate (payloadsize fmt tracks vdifpayloadsize)) :
    ∃ h, HeadersearchType.make fmt tracks trkbitrate vdifpayloadsize = .ok h := by
  obtain ⟨hchecks, hbits⟩ := not_or.mp hnot
  rw [not_not] at hchecks
  obtain ⟨st, hst⟩ := rates_ok ht hchecks fun hne hvalid hzero => hbits ⟨hne, hvalid, hzero⟩
  exact ⟨_, Checked.bind_eq_ok.mpr ⟨st, hst,
    Checked.bind_eq_ok.mpr ⟨(), checkFormat_ok.mpr hchecks, rfl⟩⟩⟩

theorem not_noticed_of_make {h : HeadersearchType}
    (hmake : HeadersearchType.make fmt tracks trkbitrate vdifpayloadsize = .ok h) :
    ¬Noticed fmt tracks trkbitrate (payloadsize fmt tracks vdifpayloadsize) := by
  obtain ⟨st, hst, hcheck, -⟩ := HeadersearchType.make_ok hmake
  rintro (hfails | ⟨hne, hvalid, hzero⟩)
  · exact hfails (checkFormat_ok.mp hcheck)
  · have hframerate := (rates_made hst).1
    unfold framerateOf at hframerate
    rw [if_pos ⟨hne, hvalid⟩, Nat.mul_comm, hzero] at hframerate
    cases hframerate

end Jive5ab.Headersearch
