import Jive5ab.Highrestime.Arithmetic

/-! # The laws of times and differences

What is added comes off again, and the difference of two times takes the one to the
other, where the words have room and enough is borrowed. -/
namespace Jive5ab.Highrestime

open Lib Lib.Rounding

namespace HighResTime

structure GroupLaws (a b : HighResTime) (d : HighResDelta) : Prop where
  difference : ∃ δ, a.minus b = some δ ∧ b.addDelta δ = some a
  sum : ∃ s, a.addDelta d = some s ∧ s.Normalised ∧ s.subDelta d = some a
  rest : ∃ s, a.subDelta d = some s ∧ s.Normalised ∧ s.addDelta d = some a

/-- The words have room for what is computed on the way. -/
structure Fits (a b : HighResTime) (d : HighResDelta) : Prop where
  delta : Room (a.tvSubsecond.den.lcm d.den) (magnitude d).value
  difference : Room (a.tvSubsecond.den.lcm b.tvSubsecond.den) (magnitude (a.value - b.value)).value

/-- The fraction of a second, in lowest terms, when `|d|` has been added to `ss`. -/
def after (ss : Subsecond) (d : HighResDelta) : Subsecond :=
  Fraction.wrap (ss.value + (magnitude d).value - ⌊ss.value + (magnitude d).value⌋₊)

/-! ## Deltas -/

theorem magnitude_neg (d : HighResDelta) : magnitude (-d) = magnitude d := by
  rw [magnitude, magnitude, Rat.neg_num, Rat.neg_den, Int.natAbs_neg]

theorem toDelta_of_room {q : ℚ} {L : ℕ} (hden : q.den ∣ L) (hroom : Room L (magnitude q).value) :
    toDelta q = some q := by
  have hle := Nat.le_of_dvd hroom.pos hden
  have hLpos : (0 : ℚ) < L := Nat.cast_pos.mpr hroom.pos
  have hLone : (1 : ℚ) ≤ L := Nat.one_le_cast.mpr hroom.pos
  have hcast := (NNRat.cast_le (K := ℚ)).mpr hroom.room
  push_cast [magnitude_value] at hcast
  have hdenpos : (0 : ℚ) < q.den := Nat.cast_pos.mpr q.den_pos
  have hnum : |(q.num : ℚ)| ≤ |q| * L := by
    have hsplit : (q.num : ℚ) = q * q.den := (Rat.mul_den_eq_num q).symm
    rw [hsplit, abs_mul, abs_of_pos hdenpos]
    gcongr
  have hbound : |(q.num : ℚ)| < 2 ^ 63 := by
    have habs := abs_nonneg q
    nlinarith
  have hwordq : (L : ℚ) < 2 ^ 63 := by
    have habs : 0 ≤ |q| * L := by positivity
    nlinarith
  obtain ⟨hlow, hhigh⟩ := abs_lt.mp hbound
  have hlow' : -2 ^ 63 < q.num := by exact_mod_cast hlow
  have hword : L < 2 ^ 63 := by exact_mod_cast hwordq
  rw [toDelta, if_pos ⟨hlow'.le, by exact_mod_cast hhigh, hle.trans_lt hword⟩]

theorem subDelta_of_room {t : HighResTime} {d : HighResDelta} {L : ℕ} (hden : d.den ∣ L)
    (hroom : Room L (magnitude d).value) : t.subDelta d = t.addDelta (-d) := by
  rw [subDelta, toDelta_of_room (q := -d) (L := L) (by rwa [Rat.neg_den])
    (by rwa [magnitude_neg]), Option.bind_some]

/-! ## Up and down again -/

section UpDown

variable {a : HighResTime} {e : HighResDelta}

theorem Holds.eq {L : ℕ} {r : HighResTime} (hr : Holds L a.value r) (ha : a.Normalised)
    (hnormal : r.tvSubsecond.Normal) : r = a :=
  Normalised.ext ⟨hr.toProper, hnormal⟩ ha hr.value_eq

theorem after_eq {L : ℕ} {r : HighResTime} (he : 0 ≤ e)
    (hL : L < 2 ^ 64) (hLpos : 0 < L) (hr : Holds L (a.value + e) r)
    (hnormal : r.tvSubsecond.Normal) : after a.tvSubsecond e = r.tvSubsecond := by
  have hmag : ((magnitude e).value : ℚ) = e := by rw [magnitude_value, abs_of_nonneg he]
  have hvalue : (r.tvSubsecond.value : ℚ) + r.tvSec =
      a.tvSubsecond.value + (magnitude e).value + a.tvSec := by
    have h := hr.value_eq
    rw [value, value] at h
    rw [hmag]
    linarith
  have hfloor : a.tvSubsecond.value + (magnitude e).value -
      ⌊a.tvSubsecond.value + (magnitude e).value⌋₊ = r.tvSubsecond.value := by
    have hlt : (r.tvSubsecond.value : ℚ) < 1 := by exact_mod_cast hr.lt_one
    have hpos : (0 : ℚ) ≤ a.tvSubsecond.value + (magnitude e).value := by positivity
    have hback : (a.tvSec : ℚ) - 1 < r.tvSec := by linarith
    have hback' : a.tvSec ≤ r.tvSec := Int.sub_one_lt_iff.mp (by exact_mod_cast hback)
    obtain ⟨k, hk⟩ := Int.eq_ofNat_of_zero_le (sub_nonneg.mpr hback')
    have hkcast : (r.tvSec : ℚ) - a.tvSec = k := by exact_mod_cast hk
    have hsum : a.tvSubsecond.value + (magnitude e).value = r.tvSubsecond.value + (k : ℚ≥0) := by
      have hq : ((a.tvSubsecond.value : ℚ) + (magnitude e).value) = r.tvSubsecond.value + k := by
        linarith
      exact_mod_cast hq
    rw [hsum, Nat.floor_add_natCast zero_le, Nat.floor_eq_zero.mpr hr.lt_one, Nat.zero_add,
      add_tsub_cancel_right]
  rw [after, hfloor, Fraction.wrap_of_coprime (q := r.tvSubsecond.value) hnormal.den_pos
    hnormal.coprime rfl]
  have hden := (Nat.le_of_dvd hLpos hr.den_dvd).trans_lt hL
  have hnum : r.tvSubsecond.num < r.tvSubsecond.den := by
    have hlt := hr.lt_one
    rw [Fraction.value, div_lt_one (Nat.cast_pos.mpr hr.den_pos)] at hlt
    exact_mod_cast hlt
  rw [Nat.mod_eq_of_lt (hnum.trans hden), Nat.mod_eq_of_lt hden]

/-- What a delta below zero leaves, if it has been borrowed for and if not. -/
theorem addDelta_down {t : HighResTime} {L : ℕ} (ht : t.Normalised) (he : 0 < e)
    (hden : t.tvSubsecond.den ∣ L) (hden' : e.den ∣ L) (hroom : Room L (magnitude e).value) :
    ∃ r, t.addDelta (-e) = some r ∧
      (BorrowsEnough t.tvSubsecond (magnitude e) →
        Holds L (t.value - e) r ∧ r.tvSubsecond.Normal) ∧
      (¬BorrowsEnough t.tvSubsecond (magnitude e) →
        r.tvSubsecond = unknownSubsecond ∨ ∃ late, 0 < late ∧ Holds L (t.value - e + late) r) := by
  have hneg : -e < 0 := neg_lt_zero.mpr he
  have hden'' : (-e).den ∣ L := by rwa [Rat.neg_den]
  have hroom' : Room L (magnitude (-e)).value := by rwa [magnitude_neg]
  rw [borrowsEnough_iff ht.den_pos ht.lt_one (magnitude_normal e).den_pos]
  by_cases henough : (magnitude e).value ≤
      t.tvSubsecond.value + borrow t.tvSubsecond (magnitude e)
  · obtain ⟨r, hr, hholds, hnormal⟩ := addDelta_enough ht.toProper hneg hden hden'' hroom'
      (by rwa [magnitude_neg])
    rw [← sub_eq_add_neg] at hholds
    exact ⟨r, hr, fun _ => ⟨hholds, hnormal ht.lowest⟩, fun h => absurd henough h⟩
  · obtain ⟨r, hr, hshort⟩ := addDelta_short ht.toProper hneg hden hden'' hroom'
      (by rw [magnitude_neg]; exact not_le.mp henough)
    rw [← sub_eq_add_neg] at hshort
    exact ⟨r, hr, fun h => absurd h henough, fun _ => hshort⟩

theorem borrowsEnough_zero (ss : Subsecond) : BorrowsEnough ss (magnitude 0) := by
  intro hlt
  have hzero : (magnitude 0).value = 0 := by
    rw [Fraction.value, magnitude]
    norm_num
  rw [hzero] at hlt
  exact absurd hlt not_lt_zero

/-- Down, and up again. -/
theorem down_up_iff {L : ℕ} (ha : a.Normalised) (he : 0 ≤ e) (hden : a.tvSubsecond.den ∣ L)
    (hden' : e.den ∣ L) (hroom : Room L (magnitude e).value) :
    (∃ s, a.addDelta (-e) = some s ∧ s.Normalised ∧ s.addDelta e = some a) ↔
      BorrowsEnough a.tvSubsecond (magnitude e) := by
  rcases he.eq_or_lt with rfl | hpos
  · obtain ⟨r, hr, hholds, hnormal⟩ := addDelta_nonneg ha.toProper (le_refl 0) hden hden' hroom
    rw [add_zero] at hholds
    have hsame : a.addDelta 0 = some a := by rw [hr, hholds.eq ha (hnormal ha.lowest)]
    rw [neg_zero]
    exact iff_of_true ⟨a, hsame, ha, hsame⟩ (borrowsEnough_zero _)
  · obtain ⟨s, hs, hexact, hshort⟩ := addDelta_down ha hpos hden hden' hroom
    constructor
    · rintro ⟨s', hs', hnormal, hback⟩
      obtain rfl : s = s' := Option.some.inj (hs.symm.trans hs')
      by_contra hborrow
      rcases hshort hborrow with hunknown | ⟨late, hlate, hholds⟩
      · exact hnormal.known hunknown
      · obtain ⟨r, hr, hup, -⟩ := addDelta_nonneg hholds.toProper he hholds.den_dvd hden' hroom
        obtain rfl : r = a := Option.some.inj (hr.symm.trans hback)
        have hvalue := hup.value_eq
        rw [hholds.value_eq] at hvalue
        linarith
    · intro hborrow
      obtain ⟨hholds, hnormal⟩ := hexact hborrow
      obtain ⟨r, hr, hup, hnormal'⟩ :=
        addDelta_nonneg hholds.toProper he hholds.den_dvd hden' hroom
      rw [hholds.value_eq, sub_add_cancel] at hup
      exact ⟨s, hs, ⟨hholds.toProper, hnormal⟩, by rw [hr, hup.eq ha (hnormal' hnormal)]⟩

/-- Up, and down again. -/
theorem up_down_iff {L : ℕ} (ha : a.Normalised) (he : 0 ≤ e) (hden : a.tvSubsecond.den ∣ L)
    (hden' : e.den ∣ L) (hroom : Room L (magnitude e).value) :
    (∃ s, a.addDelta e = some s ∧ s.Normalised ∧ s.addDelta (-e) = some a) ↔
      BorrowsEnough (after a.tvSubsecond e) (magnitude e) := by
  obtain ⟨s, hs, hup, hnormal⟩ := addDelta_nonneg ha.toProper he hden hden' hroom
  have hsnormal : s.Normalised := ⟨hup.toProper, hnormal ha.lowest⟩
  rw [after_eq he hroom.word hroom.pos hup hsnormal.lowest]
  rcases he.eq_or_lt with rfl | hpos
  · rw [add_zero] at hup
    obtain rfl : s = a := hup.eq ha hsnormal.lowest
    rw [neg_zero]
    exact iff_of_true ⟨s, hs, ha, hs⟩ (borrowsEnough_zero _)
  · obtain ⟨r, hr, hexact, hshort⟩ := addDelta_down hsnormal hpos hup.den_dvd hden' hroom
    rw [hup.value_eq, add_sub_cancel_right] at hexact hshort
    constructor
    · rintro ⟨s', hs', -, hback⟩
      obtain rfl : s = s' := Option.some.inj (hs.symm.trans hs')
      obtain rfl : r = a := Option.some.inj (hr.symm.trans hback)
      by_contra hborrow
      rcases hshort hborrow with hunknown | ⟨late, hlate, hholds⟩
      · exact ha.known hunknown
      · have hvalue := hholds.value_eq
        linarith
    · intro hborrow
      obtain ⟨hholds, hrnormal⟩ := hexact hborrow
      exact ⟨s, hs, hsnormal, by rw [hr, hholds.eq ha hrnormal]⟩

end UpDown

/-! ## Differences -/

theorem minus_spec {a b : HighResTime} {L : ℕ} (ha : a.Normalised) (hb : b.Normalised)
    (hden : a.tvSubsecond.den ∣ L) (hden' : b.tvSubsecond.den ∣ L)
    (hroom : Room L (magnitude (a.value - b.value)).value) :
    a.minus b = some (a.value - b.value) ∧ (a.value - b.value).den ∣ L := by
  have hknown : ¬(a.tvSubsecond = unknownSubsecond ∨ b.tvSubsecond = unknownSubsecond) :=
    not_or.mpr ⟨ha.known, hb.known⟩
  -- what is subtracted from is the larger one, after a second has been borrowed if need be
  obtain ⟨lss, isec, hlss, hpos, hdvd, hle, hsmall, hminus, hsec⟩ :
      ∃ (lss : Subsecond) (isec : Int), lss.Normal ∧ 0 < lss.den ∧ lss.den ∣ L ∧
        b.tvSubsecond.value ≤ lss.value ∧ lss.value ≤ 2 ∧
        a.minus b = toDelta ((lss.sub b.tvSubsecond).value + isec) ∧
        (lss.value : ℚ) + isec = a.value - b.tvSec := by
    by_cases hless : a.tvSubsecond.value < b.tvSubsecond.value
    · have hlcm : a.tvSubsecond.den.lcm (Fraction.ofNat 1 : Subsecond).den = a.tvSubsecond.den :=
        Nat.lcm_one_right _
      have htwo : a.tvSubsecond.value + 1 ≤ 2 := by
        have h := add_le_add_left ha.lt_one.le 1
        rwa [one_add_one_eq_two] at h
      have hthree : a.tvSubsecond.value + 1 ≤ 2 * (magnitude (a.value - b.value)).value + 3 :=
        htwo.trans (le_trans (by norm_num) (le_add_of_nonneg_left zero_le))
      obtain ⟨hsum, hpos, hdvd, hnormal⟩ := Fraction.add_spec (M := 2 ^ 64) (a := a.tvSubsecond)
        (b := .ofNat 1) ha.den_pos Nat.one_pos
        (by rw [hlcm]; exact (Nat.le_of_dvd hroom.pos hden).trans_lt hroom.word)
        (by rw [hlcm, Fraction.value_ofNat, Nat.cast_one]; exact hroom.lt_of_dvd hden hthree)
      rw [Fraction.value_ofNat, Nat.cast_one] at hsum
      rw [hlcm] at hdvd
      refine ⟨_, a.tvSec - b.tvSec - 1, hnormal ha.lowest (Fraction.normal_ofNat 1), hpos,
        hdvd.trans hden, ?_, hsum ▸ htwo, ?_, ?_⟩
      · rw [hsum]
        exact hb.lt_one.le.trans le_add_self
      · rw [minus, if_neg hknown]
        simp only [hless, if_true]
      · rw [hsum, value]
        push_cast
        ring
    · refine ⟨a.tvSubsecond, a.tvSec - b.tvSec, ha.lowest, ha.den_pos, hden, not_lt.mp hless,
        ha.lt_one.le.trans (by norm_num), ?_, ?_⟩
      · rw [minus, if_neg hknown]
        simp only [hless, if_false, sub_zero]
      · rw [value]
        push_cast
        ring
  have hlcm : lss.den.lcm b.tvSubsecond.den ∣ L := Nat.lcm_dvd hdvd hden'
  have hthree : lss.value ≤ 2 * (magnitude (a.value - b.value)).value + 3 :=
    hsmall.trans (le_trans (by norm_num) (le_add_of_nonneg_left zero_le))
  obtain ⟨hsub, hpos', hdvd', -⟩ := Fraction.sub_spec hpos hb.den_pos
    ((Nat.le_of_dvd hroom.pos hlcm).trans_lt hroom.word) (hroom.lt_of_dvd hlcm hthree) hle
  have hvalue : ((lss.sub b.tvSubsecond).value : ℚ) + isec = a.value - b.value := by
    rw [hsub, NNRat.coe_sub hle, value, value]
    rw [value] at hsec
    linarith
  have hdelta : (a.value - b.value).den ∣ L := by
    refine dvd_trans ?_ (hdvd'.trans hlcm)
    have hquot : a.value - b.value =
        (((lss.sub b.tvSubsecond).num + isec * (lss.sub b.tvSubsecond).den : ℤ) : ℚ) /
          ((lss.sub b.tvSubsecond).den : ℤ) := by
      have hne : ((lss.sub b.tvSubsecond).den : ℚ) ≠ 0 := Nat.cast_ne_zero.mpr hpos'.ne'
      rw [← hvalue, Fraction.value, NNRat.cast_div, NNRat.cast_natCast, NNRat.cast_natCast]
      push_cast
      field_simp
    have h := Rat.den_dvd ((lss.sub b.tvSubsecond).num + isec * (lss.sub b.tvSubsecond).den)
      (lss.sub b.tvSubsecond).den
    rw [Rat.divInt_eq_div, ← hquot] at h
    exact_mod_cast h
  rw [hminus, hvalue, toDelta_of_room hdelta hroom]
  exact ⟨rfl, hdelta⟩

theorem difference_iff {a b : HighResTime} {L : ℕ} (ha : a.Normalised) (hb : b.Normalised)
    (hden : a.tvSubsecond.den ∣ L) (hden' : b.tvSubsecond.den ∣ L)
    (hroom : Room L (magnitude (a.value - b.value)).value) :
    (∃ δ, a.minus b = some δ ∧ b.addDelta δ = some a) ↔
      (a.value < b.value → BorrowsEnough b.tvSubsecond (magnitude (a.value - b.value))) := by
  obtain ⟨hminus, hdelta⟩ := minus_spec ha hb hden hden' hroom
  rcases lt_or_ge a.value b.value with hlt | hge
  · have hpos : 0 < b.value - a.value := sub_pos.mpr hlt
    rw [← neg_sub, magnitude_neg] at hroom ⊢
    rw [← neg_sub, Rat.neg_den] at hdelta
    obtain ⟨r, hr, hexact, hshort⟩ := addDelta_down hb hpos hden' hdelta hroom
    rw [sub_sub_cancel] at hexact hshort
    rw [neg_sub] at hr
    constructor
    · rintro ⟨δ, hδ, hback⟩ -
      obtain rfl : a.value - b.value = δ := Option.some.inj (hminus.symm.trans hδ)
      obtain rfl : r = a := Option.some.inj (hr.symm.trans hback)
      by_contra hborrow
      rcases hshort hborrow with hunknown | ⟨late, hlate, hholds⟩
      · exact ha.known hunknown
      · have hvalue := hholds.value_eq
        linarith
    · intro hborrow
      obtain ⟨hholds, hnormal⟩ := hexact (hborrow hlt)
      exact ⟨_, hminus, by rw [hr, hholds.eq ha hnormal]⟩
  · obtain ⟨r, hr, hholds, hnormal⟩ :=
      addDelta_nonneg hb.toProper (sub_nonneg.mpr hge) hden' hdelta hroom
    rw [add_sub_cancel] at hholds
    refine iff_of_true ⟨_, hminus, ?_⟩ fun hlt => absurd hlt (not_lt.mpr hge)
    rw [hr, hholds.eq ha (hnormal hb.lowest)]

/-! ## The laws -/

theorem groupLaws_def {a b : HighResTime} {d : HighResDelta} :
    GroupLaws a b d ↔ (∃ δ, a.minus b = some δ ∧ b.addDelta δ = some a) ∧
      (∃ s, a.addDelta d = some s ∧ s.Normalised ∧ s.subDelta d = some a) ∧
      ∃ s, a.subDelta d = some s ∧ s.Normalised ∧ s.addDelta d = some a :=
  ⟨fun h => ⟨h.difference, h.sum, h.rest⟩, fun h => ⟨h.1, h.2.1, h.2.2⟩⟩

theorem borrowsEnough_of_le {ss δ : Subsecond} (h : δ.value ≤ ss.value) : BorrowsEnough ss δ :=
  fun hlt => absurd h (not_le.mpr hlt)

theorem room_of_abs {L : ℕ} {d : HighResDelta} (hL : 0 < L) (h : (2 * |d| + 4) * L ≤ 2 ^ 64) :
    Room L (magnitude d).value := by
  refine ⟨hL, ?_⟩
  rw [← NNRat.cast_le (K := ℚ)]
  push_cast [magnitude_value]
  exact h

end HighResTime

end Jive5ab.Highrestime
