import Jive5ab.Lib.FractionSum
import Jive5ab.Lib.Rounding
import Mathlib.Data.NNRat.Floor

/-! # High resolution times

`highrestime_type` of `highrestime.cc`: whole seconds and a fraction of one in machine
words, and its sums and differences with exact fractions of any sign. How much has to be
borrowed from the seconds is found in double precision. -/
namespace Jive5ab.Highrestime

open Lib Lib.Rounding

abbrev Subsecond := Fraction (2 ^ 64)

/-- `boost::rational<int64_t>`, in lowest terms. -/
abbrev HighResDelta := ℚ

structure HighResTime where
  tvSec : Int
  tvSubsecond : Subsecond
  deriving DecidableEq

def unknownSubsecond : Subsecond := .ofNat (2 ^ 64 - 1)

/-- A signed overflow is undefined. -/
def toDelta (q : ℚ) : Option HighResDelta :=
  if -2 ^ 63 ≤ q.num ∧ q.num < 2 ^ 63 ∧ q.den < 2 ^ 63 then some q else none

/-- `boost::rational_cast<double>` -/
def rationalCastDouble (q : Subsecond) : ℚ := toDouble (toDouble q.num / toDouble q.den)

/-- The difference of two doubles. -/
def doubleMinus (x y : ℚ) : ℚ := if y ≤ x then toDouble (x - y) else -toDouble (y - x)

namespace HighResTime

def normalize (t : HighResTime) : HighResTime :=
  if t.tvSubsecond = unknownSubsecond then t
  else
    let nsec := t.tvSubsecond.num / t.tvSubsecond.den
    if nsec ≠ 0 then ⟨t.tvSec + nsec, t.tvSubsecond.sub (.ofNat nsec)⟩ else t

/-- `subsecond_type(std::abs(dt.numerator()), std::abs(dt.denominator()))` -/
def magnitude (dt : HighResDelta) : Subsecond := ⟨dt.num.natAbs, dt.den⟩

/-- The seconds that are borrowed for a subtraction. -/
def borrow (ss δ : Subsecond) : ℕ :=
  ⌊doubleMinus (rationalCastDouble ss) (rationalCastDouble δ)⌋.natAbs

/-- `operator+=`; nothing if it throws. -/
def addDelta (t : HighResTime) (dt : HighResDelta) : Option HighResTime :=
  if t.tvSubsecond = unknownSubsecond then none
  else if dt < 0 then
    let nsec := borrow t.tvSubsecond (magnitude dt)
    some (normalize ⟨t.tvSec - nsec, (t.tvSubsecond.add (.ofNat nsec)).sub (magnitude dt)⟩)
  else some (normalize ⟨t.tvSec, t.tvSubsecond.add (magnitude dt)⟩)

/-- `operator-=` -/
def subDelta (t : HighResTime) (dt : HighResDelta) : Option HighResTime :=
  (toDelta (-dt)).bind t.addDelta

/-- `operator-` of two times. -/
def minus (l r : HighResTime) : Option HighResDelta :=
  if l.tvSubsecond = unknownSubsecond ∨ r.tvSubsecond = unknownSubsecond then none
  else
    let less := l.tvSubsecond.value < r.tvSubsecond.value
    let isec := l.tvSec - r.tvSec - if less then 1 else 0
    let lss := (if less then l.tvSubsecond.add (.ofNat 1) else l.tvSubsecond).sub r.tvSubsecond
    toDelta (lss.value + isec)

/-! ## Values -/

def value (t : HighResTime) : ℚ := t.tvSec + t.tvSubsecond.value

/-- Seconds and a fraction of less than one second. -/
structure Proper (t : HighResTime) : Prop where
  den_pos : 0 < t.tvSubsecond.den
  lt_one : t.tvSubsecond.value < 1

/-- As every operation is to leave it, in lowest terms as well. -/
structure Normalised (t : HighResTime) : Prop extends t.Proper where
  lowest : t.tvSubsecond.Normal

theorem Proper.known {t : HighResTime} (h : t.Proper) : t.tvSubsecond ≠ unknownSubsecond := by
  intro heq
  have hlt := h.lt_one
  rw [heq, unknownSubsecond, Fraction.value_ofNat] at hlt
  exact absurd hlt (by norm_num)

/-- Seconds and fraction are those of the value. -/
theorem Normalised.ext {s t : HighResTime} (hs : s.Normalised) (ht : t.Normalised)
    (h : s.value = t.value) : s = t := by
  have hfloor (u : HighResTime) (hu : u.Normalised) : ⌊u.value⌋ = u.tvSec := by
    have hlt : (u.tvSubsecond.value : ℚ) < 1 := by exact_mod_cast hu.lt_one
    have hnonneg : (0 : ℚ) ≤ u.tvSubsecond.value := NNRat.cast_nonneg _
    rw [Int.floor_eq_iff, value]
    constructor <;> linarith
  have hsec : s.tvSec = t.tvSec := by rw [← hfloor s hs, ← hfloor t ht, h]
  have hsub : s.tvSubsecond.value = t.tvSubsecond.value := by
    rw [value, value, hsec] at h
    exact_mod_cast add_left_cancel h
  obtain ⟨sec, ss⟩ := s
  obtain ⟨sec', ss'⟩ := t
  have hss : ss = ss' := hs.lowest.ext ht.lowest hsub
  rw [hss]
  congr 1

theorem magnitude_value (dt : HighResDelta) : ((magnitude dt).value : ℚ) = |dt| := by
  have hden : |(dt.den : ℚ)| = dt.den := Nat.abs_cast dt.den
  rw [Fraction.value, magnitude, NNRat.cast_div, NNRat.cast_natCast, NNRat.cast_natCast,
    Nat.cast_natAbs, Int.cast_abs]
  conv_rhs => rw [← Rat.num_div_den dt, abs_div, hden]

theorem magnitude_normal (dt : HighResDelta) : (magnitude dt).Normal := ⟨dt.den_pos, dt.reduced⟩

/-! ## What an operation leaves -/

theorem normalize_spec {t : HighResTime} (hden : 0 < t.tvSubsecond.den)
    (hword : t.tvSubsecond.den < 2 ^ 64) (hnum : t.tvSubsecond.num < 2 ^ 64)
    (hknown : t.tvSubsecond ≠ unknownSubsecond) :
    t.normalize.Proper ∧ t.normalize.value = t.value ∧
      t.normalize.tvSubsecond.den ∣ t.tvSubsecond.den ∧
      (t.tvSubsecond.Normal → t.normalize.tvSubsecond.Normal) := by
  obtain ⟨sec, ss⟩ := t
  dsimp only at hden hword hnum hknown
  have hdenpos : (0 : ℚ≥0) < ss.den := Nat.cast_pos.mpr hden
  unfold normalize
  rw [if_neg hknown]
  dsimp only
  by_cases hzero : ss.num / ss.den = 0
  · rw [if_neg (not_not.mpr hzero)]
    refine ⟨⟨hden, ?_⟩, rfl, Nat.dvd_refl _, id⟩
    rw [Fraction.value, div_lt_one hdenpos]
    exact_mod_cast (Nat.div_eq_zero_iff_lt hden).mp hzero
  · rw [if_pos hzero]
    have hlcm : ss.den.lcm (Fraction.ofNat (ss.num / ss.den) : Subsecond).den = ss.den :=
      Nat.lcm_one_right ss.den
    have hvalue : ss.value * (ss.den : ℚ≥0) = ss.num := div_mul_cancel₀ _ hdenpos.ne'
    have hle : ((ss.num / ss.den : ℕ) : ℚ≥0) ≤ ss.value := by
      rw [Fraction.value, le_div_iff₀ hdenpos]
      exact_mod_cast Nat.div_mul_le_self ss.num ss.den
    have hlt : ss.value < (ss.num / ss.den : ℕ) + 1 := by
      rw [Fraction.value, div_lt_iff₀ hdenpos]
      have hdiv := Nat.lt_div_mul_add hden (a := ss.num)
      have hsucc : ss.num < (ss.num / ss.den + 1) * ss.den := by rw [Nat.add_mul, one_mul]; exact hdiv
      exact_mod_cast hsucc
    obtain ⟨hsub, hpos, hdvd, hnormal⟩ := Fraction.sub_spec (M := 2 ^ 64) (a := ss)
      (b := .ofNat (ss.num / ss.den)) hden Nat.one_pos (by rw [hlcm]; exact hword)
      (by rw [hlcm, hvalue]; exact_mod_cast hnum) (by rw [Fraction.value_ofNat]; exact hle)
    rw [Fraction.value_ofNat] at hsub
    rw [hlcm] at hdvd
    refine ⟨⟨hpos, ?_⟩, ?_, hdvd, fun h => hnormal h (Fraction.normal_ofNat _)⟩
    · rw [hsub, tsub_lt_iff_left hle]
      exact hlt
    · rw [value, value, hsub, NNRat.coe_sub hle, Int.cast_add, Int.cast_natCast,
        NNRat.cast_natCast]
      ring

/-! ## The borrow -/

theorem rationalCastDouble_bounds {q : Subsecond} (hden : 0 < q.den) :
    (q.value : ℚ) * (1 - 1 / 2 ^ 50) ≤ rationalCastDouble q ∧
      rationalCastDouble q ≤ (q.value : ℚ) * (1 + 1 / 2 ^ 50) := by
  have hvalue : (q.value : ℚ) = q.num / q.den := by
    rw [Fraction.value, NNRat.cast_div, NNRat.cast_natCast, NNRat.cast_natCast]
  rw [hvalue]
  rcases Nat.eq_zero_or_pos q.num with hzero | hpos
  · rw [rationalCastDouble, hzero]
    simp
  · exact toDouble_quotient_bounds (Nat.cast_pos.mpr hpos) (Nat.cast_pos.mpr hden)

/-- No more than twice what is subtracted is borrowed. -/
theorem borrow_le {ss δ : Subsecond} (hss : 0 < ss.den) (hlt : ss.value < 1) (hδ : 0 < δ.den) :
    (borrow ss δ : ℚ≥0) ≤ 2 * δ.value + 1 := by
  obtain ⟨hxlow, hx⟩ := rationalCastDouble_bounds hss
  obtain ⟨hylow, hy⟩ := rationalCastDouble_bounds hδ
  have hlt' : (ss.value : ℚ) < 1 := by exact_mod_cast hlt
  have hnonneg : (0 : ℚ) ≤ δ.value := NNRat.cast_nonneg _
  have hle : ((borrow ss δ : ℕ) : ℚ) ≤ 2 * δ.value + 1 := by
    unfold borrow doubleMinus
    generalize rationalCastDouble ss = x at *
    generalize rationalCastDouble δ = y at *
    have hxpos : 0 ≤ x := le_trans (by positivity) hxlow
    rw [Nat.cast_natAbs, Int.cast_abs, abs_le]
    split
    · rename_i hyx
      have hpos := toDouble_nonneg (sub_nonneg.mpr hyx)
      have hhigh := toDouble_le (sub_nonneg.mpr hyx)
      have hfloor : ⌊toDouble (x - y)⌋ < 2 := Int.floor_lt.mpr (by push_cast; linarith)
      have hfloor' : (0 : Int) ≤ ⌊toDouble (x - y)⌋ := Int.floor_nonneg.mpr hpos
      have hcast : (⌊toDouble (x - y)⌋ : ℚ) ≤ 1 := by exact_mod_cast Int.lt_add_one_iff.mp hfloor
      have hcast' : (0 : ℚ) ≤ ⌊toDouble (x - y)⌋ := by exact_mod_cast hfloor'
      constructor <;> linarith
    · rename_i hyx
      have hxy : 0 ≤ y - x := sub_nonneg.mpr (not_le.mp hyx).le
      have hpos := toDouble_nonneg hxy
      have hhigh := toDouble_le hxy
      have hfloor := Int.floor_le (-toDouble (y - x))
      have hfloor' := Int.lt_floor_add_one (-toDouble (y - x))
      have hsmall : (δ.value : ℚ) * ((1 + 1 / 2 ^ 50) * (1 + 1 / 2 ^ 53)) ≤ δ.value * 2 := by
        gcongr
        norm_num
      have hscaled := mul_le_mul_of_nonneg_right hy (show (0 : ℚ) ≤ 1 + 1 / 2 ^ 53 by norm_num)
      constructor <;> linarith
  exact_mod_cast hle

/-- Rounded to double precision, the difference is not pushed up across an integer. -/
def BorrowsEnough (ss δ : Subsecond) : Prop :=
  ss.value < δ.value →
    ⌊doubleMinus (rationalCastDouble ss) (rationalCastDouble δ)⌋ ≤ ⌊(ss.value : ℚ) - δ.value⌋

theorem borrowsEnough_iff {ss δ : Subsecond} (hss : 0 < ss.den) (hlt : ss.value < 1)
    (hδ : 0 < δ.den) : BorrowsEnough ss δ ↔ δ.value ≤ ss.value + borrow ss δ := by
  obtain ⟨-, hx⟩ := rationalCastDouble_bounds hss
  obtain ⟨hy, -⟩ := rationalCastDouble_bounds hδ
  have hlt' : (ss.value : ℚ) < 1 := by exact_mod_cast hlt
  have hcast : δ.value ≤ ss.value + borrow ss δ ↔
      (δ.value : ℚ) ≤ ss.value + (borrow ss δ : ℕ) := by
    rw [← NNRat.cast_le (K := ℚ), NNRat.cast_add, NNRat.cast_natCast]
  have hcast' : ss.value < δ.value ↔ (ss.value : ℚ) < δ.value := (NNRat.cast_lt (K := ℚ)).symm
  rw [hcast, BorrowsEnough, hcast', borrow, Nat.cast_natAbs, Int.cast_abs]
  generalize hd : doubleMinus (rationalCastDouble ss) (rationalCastDouble δ) = d
  constructor
  · intro h
    rcases le_or_gt (δ.value : ℚ) ss.value with hle | hgt
    · have habs := abs_nonneg (⌊d⌋ : ℚ)
      linarith
    · have hfloor : (⌊d⌋ : ℚ) ≤ ⌊(ss.value : ℚ) - δ.value⌋ := by exact_mod_cast h hgt
      have hexact := Int.floor_le ((ss.value : ℚ) - δ.value)
      have habs := neg_abs_le (⌊d⌋ : ℚ)
      linarith
  · intro h hgt
    rcases le_or_gt ⌊d⌋ 0 with hle | hpos
    · rw [abs_of_nonpos (by exact_mod_cast hle)] at h
      rw [Int.le_floor]
      linarith
    · -- the rounded quotients are too close to one another for a whole second
      exfalso
      have hone : (1 : ℚ) ≤ d := by
        have hfloor : (1 : ℚ) ≤ ⌊d⌋ := by exact_mod_cast hpos
        exact hfloor.trans (Int.floor_le d)
      rw [← hd] at hone
      unfold doubleMinus at hone
      split at hone
      · rename_i hyx
        have hhigh := toDouble_le (sub_nonneg.mpr hyx)
        linarith
      · rename_i hyx
        have hneg := toDouble_nonneg (sub_nonneg.mpr (not_le.mp hyx).le)
        linarith

/-! ## Sums -/

/-- The words have room for twice `δ` and a few seconds over the denominator `L`. -/
structure Room (L : ℕ) (δ : ℚ≥0) : Prop where
  pos : 0 < L
  room : (2 * δ + 4) * L ≤ 2 ^ 64

theorem Room.lt {L : ℕ} {δ v : ℚ≥0} (h : Room L δ) (hv : v ≤ 2 * δ + 3) : v * L < 2 ^ 64 := by
  have hpos : (0 : ℚ≥0) < L := Nat.cast_pos.mpr h.pos
  calc v * L ≤ (2 * δ + 3) * L := by gcongr
    _ < (2 * δ + 4) * L := by
      gcongr
      norm_num
    _ ≤ 2 ^ 64 := h.room

theorem Room.lt_of_dvd {L n : ℕ} {δ v : ℚ≥0} (h : Room L δ) (hn : n ∣ L)
    (hv : v ≤ 2 * δ + 3) : v * n < (2 ^ 64 : ℕ) := by
  have hle : (n : ℚ≥0) ≤ L := by exact_mod_cast Nat.le_of_dvd h.pos hn
  have hlt := h.lt hv
  push_cast
  exact lt_of_le_of_lt (by gcongr) hlt

theorem Room.word {L : ℕ} {δ : ℚ≥0} (h : Room L δ) : L < 2 ^ 64 := by
  have hlt := h.lt (v := 1) (le_trans (by norm_num) (le_add_of_nonneg_left (zero_le (a := 2 * δ))))
  rw [one_mul] at hlt
  exact_mod_cast hlt

/-- `r` is the time `v`, and `L` has room for its denominator. -/
structure Holds (L : ℕ) (v : ℚ) (r : HighResTime) : Prop extends r.Proper where
  value_eq : r.value = v
  den_dvd : r.tvSubsecond.den ∣ L

/-- A numerator that fits, over a denominator that divides `L`. -/
theorem num_lt {L : ℕ} {q : Subsecond} (hL : 0 < L) (hden : 0 < q.den) (hdvd : q.den ∣ L)
    (hv : q.value * L < 2 ^ 64) : q.num < 2 ^ 64 := by
  have hdenpos : (0 : ℚ≥0) < q.den := Nat.cast_pos.mpr hden
  have hvalue : q.value * q.den = q.num := div_mul_cancel₀ _ hdenpos.ne'
  have hle : q.value * q.den ≤ q.value * L := by
    gcongr
    exact_mod_cast Nat.le_of_dvd hL hdvd
  rw [hvalue] at hle
  exact_mod_cast hle.trans_lt hv

/-- What is left after the carry. -/
theorem normalize_holds {L : ℕ} {t : HighResTime} (hL : 0 < L) (hword : L < 2 ^ 64)
    (hden : 0 < t.tvSubsecond.den) (hdvd : t.tvSubsecond.den ∣ L)
    (hv : t.tvSubsecond.value * L < 2 ^ 64) (hknown : t.tvSubsecond ≠ unknownSubsecond) :
    Holds L t.value t.normalize ∧
      (t.tvSubsecond.Normal → t.normalize.tvSubsecond.Normal) := by
  obtain ⟨hproper, hvalue, hdvd', hnormal⟩ := normalize_spec hden
    ((Nat.le_of_dvd hL hdvd).trans_lt hword) (num_lt hL hden hdvd hv) hknown
  exact ⟨⟨hproper, hvalue, hdvd'.trans hdvd⟩, hnormal⟩

theorem Room.known {L : ℕ} {δ : ℚ≥0} (h : Room L δ) {q : Subsecond}
    (hv : q.value ≤ 2 * δ + 2) : q ≠ unknownSubsecond := by
  rintro rfl
  rw [unknownSubsecond, Fraction.value_ofNat] at hv
  have hone : (1 : ℚ≥0) ≤ L := by exact_mod_cast h.pos
  have hle : (2 * δ + 4) * 1 ≤ 2 ^ 64 := le_trans (by gcongr) h.room
  rw [mul_one] at hle
  have hbig : ((2 ^ 64 - 1 : ℕ) : ℚ≥0) + 2 ≤ 2 ^ 64 :=
    calc ((2 ^ 64 - 1 : ℕ) : ℚ≥0) + 2 ≤ 2 * δ + 2 + 2 := by gcongr
      _ = 2 * δ + 4 := by ring
      _ ≤ 2 ^ 64 := hle
  exact absurd hbig (by norm_num)

section Add

variable {t : HighResTime} {dt : HighResDelta} {L : ℕ}

theorem addDelta_nonneg (ht : t.Proper) (hdt : 0 ≤ dt) (hden : t.tvSubsecond.den ∣ L)
    (hden' : dt.den ∣ L) (hroom : Room L (magnitude dt).value) :
    ∃ r, t.addDelta dt = some r ∧ Holds L (t.value + dt) r ∧
      (t.tvSubsecond.Normal → r.tvSubsecond.Normal) := by
  have hlcm : t.tvSubsecond.den.lcm (magnitude dt).den ∣ L := Nat.lcm_dvd hden hden'
  have hle := Nat.le_of_dvd hroom.pos hlcm
  have hsmall : t.tvSubsecond.value + (magnitude dt).value ≤ 2 * (magnitude dt).value + 2 := by
    rw [add_comm, two_mul, add_assoc]
    gcongr
    exact ht.lt_one.le.trans (le_trans (by norm_num) (le_add_of_nonneg_left (zero_le (a := _))))
  have hsmall' := hsmall.trans (add_le_add_right (show (2 : ℚ≥0) ≤ 3 by norm_num) _)
  obtain ⟨hsum, hpos, hdvd, hnormal⟩ := Fraction.add_spec ht.den_pos dt.den_pos
    (hle.trans_lt hroom.word) (hroom.lt_of_dvd hlcm hsmall')
  have hmag : ((magnitude dt).value : ℚ) = dt := by rw [magnitude_value, abs_of_nonneg hdt]
  obtain ⟨hholds, hnormal'⟩ := normalize_holds (t := ⟨t.tvSec, t.tvSubsecond.add (magnitude dt)⟩)
    hroom.pos hroom.word hpos (hdvd.trans hlcm) (by rw [hsum]; exact hroom.lt hsmall')
    (hroom.known (by rw [hsum]; exact hsmall))
  refine ⟨_, ?_, ?_, fun h => hnormal' (hnormal h (magnitude_normal dt))⟩
  · rw [addDelta, if_neg ht.known, if_neg (not_lt.mpr hdt)]
  · convert hholds using 1
    rw [value, value, hsum, NNRat.cast_add, hmag, add_assoc]

/-- The subtraction of a delta, after the borrow. -/
theorem addDelta_neg (ht : t.Proper) (hdt : dt < 0) (hden : t.tvSubsecond.den ∣ L)
    (hroom : Room L (magnitude dt).value) :
    ∃ s : Subsecond, s.value = t.tvSubsecond.value + borrow t.tvSubsecond (magnitude dt) ∧
      0 < s.den ∧ s.den ∣ L ∧ (t.tvSubsecond.Normal → s.Normal) ∧
      s.value ≤ 2 * (magnitude dt).value + 2 ∧
      t.addDelta dt = some (normalize ⟨t.tvSec - borrow t.tvSubsecond (magnitude dt),
        s.sub (magnitude dt)⟩) := by
  have hborrow := borrow_le ht.den_pos ht.lt_one dt.den_pos (δ := magnitude dt)
  have hlcm : t.tvSubsecond.den.lcm
      (Fraction.ofNat (borrow t.tvSubsecond (magnitude dt)) : Subsecond).den = t.tvSubsecond.den :=
    Nat.lcm_one_right _
  have hsmall : t.tvSubsecond.value + borrow t.tvSubsecond (magnitude dt) ≤
      2 * (magnitude dt).value + 2 :=
    calc t.tvSubsecond.value + borrow t.tvSubsecond (magnitude dt)
        ≤ 1 + (2 * (magnitude dt).value + 1) := add_le_add ht.lt_one.le hborrow
      _ = 2 * (magnitude dt).value + 2 := by ring
  have hsmall' := hsmall.trans (add_le_add_right (show (2 : ℚ≥0) ≤ 3 by norm_num) _)
  obtain ⟨hsum, hpos, hdvd, hnormal⟩ := Fraction.add_spec (M := 2 ^ 64) (a := t.tvSubsecond)
    (b := .ofNat (borrow t.tvSubsecond (magnitude dt))) ht.den_pos Nat.one_pos
    (by rw [hlcm]; exact (Nat.le_of_dvd hroom.pos hden).trans_lt hroom.word)
    (by rw [hlcm, Fraction.value_ofNat]; exact hroom.lt_of_dvd hden hsmall')
  rw [Fraction.value_ofNat] at hsum
  rw [hlcm] at hdvd
  refine ⟨_, hsum, hpos, hdvd.trans hden, fun h => hnormal h (Fraction.normal_ofNat _),
    hsum ▸ hsmall, ?_⟩
  rw [addDelta, if_neg ht.known, if_pos hdt]

theorem addDelta_enough (ht : t.Proper) (hdt : dt < 0) (hden : t.tvSubsecond.den ∣ L)
    (hden' : dt.den ∣ L) (hroom : Room L (magnitude dt).value)
    (henough : (magnitude dt).value ≤
      t.tvSubsecond.value + borrow t.tvSubsecond (magnitude dt)) :
    ∃ r, t.addDelta dt = some r ∧ Holds L (t.value + dt) r ∧
      (t.tvSubsecond.Normal → r.tvSubsecond.Normal) := by
  obtain ⟨s, hs, hspos, hsdvd, hsnormal, hsmall, hadd⟩ := addDelta_neg ht hdt hden hroom
  have hsmall' := hsmall.trans (add_le_add_right (show (2 : ℚ≥0) ≤ 3 by norm_num) _)
  have hlcm : s.den.lcm (magnitude dt).den ∣ L := Nat.lcm_dvd hsdvd hden'
  rw [← hs] at henough
  obtain ⟨hsub, hpos, hdvd, hnormal⟩ := Fraction.sub_spec hspos dt.den_pos
    ((Nat.le_of_dvd hroom.pos hlcm).trans_lt hroom.word) (hroom.lt_of_dvd hlcm hsmall') henough
  have hmag : ((magnitude dt).value : ℚ) = -dt := by rw [magnitude_value, abs_of_neg hdt]
  obtain ⟨hholds, hnormal'⟩ := normalize_holds
    (t := ⟨t.tvSec - borrow t.tvSubsecond (magnitude dt), s.sub (magnitude dt)⟩)
    hroom.pos hroom.word hpos (hdvd.trans hlcm)
    (by rw [hsub]; exact hroom.lt (tsub_le_self.trans hsmall'))
    (hroom.known (by rw [hsub]; exact tsub_le_self.trans hsmall))
  refine ⟨_, hadd, ?_, fun h => hnormal' (hnormal (hsnormal h) (magnitude_normal dt))⟩
  convert hholds using 1
  rw [value, value, hsub, NNRat.coe_sub henough, hs, hmag, NNRat.cast_add, NNRat.cast_natCast,
    Int.cast_sub, Int.cast_natCast]
  ring

/-- Where not enough is borrowed the time is a part of the word too late, or unknown. -/
theorem addDelta_short (ht : t.Proper) (hdt : dt < 0) (hden : t.tvSubsecond.den ∣ L)
    (hden' : dt.den ∣ L) (hroom : Room L (magnitude dt).value)
    (hshort : t.tvSubsecond.value + borrow t.tvSubsecond (magnitude dt) <
      (magnitude dt).value) :
    ∃ r, t.addDelta dt = some r ∧ (r.tvSubsecond = unknownSubsecond ∨
      ∃ late, 0 < late ∧ Holds L (t.value + dt + late) r) := by
  obtain ⟨s, hs, hspos, hsdvd, -, hsmall, hadd⟩ := addDelta_neg ht hdt hden hroom
  have hlcm : s.den.lcm (magnitude dt).den ∣ L := Nat.lcm_dvd hsdvd hden'
  have hlcmpos : 0 < s.den.lcm (magnitude dt).den := Nat.lcm_pos hspos dt.den_pos
  rw [← hs] at hshort
  have hle : (magnitude dt).value ≤ 2 * (magnitude dt).value + 3 := by
    rw [two_mul, add_assoc]
    exact le_self_add
  obtain ⟨hsub, hpos, hdvd⟩ := Fraction.sub_underflow hspos dt.den_pos
    ((Nat.le_of_dvd hroom.pos hlcm).trans_lt hroom.word) (hroom.lt_of_dvd hlcm hle) hshort
  refine ⟨_, hadd, ?_⟩
  by_cases hknown : s.sub (magnitude dt) = unknownSubsecond
  · left
    rw [normalize, if_pos hknown]
    exact hknown
  · right
    have hlcmpos' : (0 : ℚ≥0) < (s.den.lcm (magnitude dt).den : ℕ) := Nat.cast_pos.mpr hlcmpos
    have hless : (s.sub (magnitude dt)).value < (2 ^ 64 : ℕ) / (s.den.lcm (magnitude dt).den : ℕ) := by
      by_contra hge
      have hsum := add_lt_add_of_lt_of_le hshort (not_lt.mp hge)
      rw [add_comm _ (s.sub (magnitude dt)).value, ← hsub] at hsum
      exact lt_irrefl _ hsum
    obtain ⟨hholds, -⟩ := normalize_holds
      (t := ⟨t.tvSec - borrow t.tvSubsecond (magnitude dt), s.sub (magnitude dt)⟩)
      hlcmpos ((Nat.le_of_dvd hroom.pos hlcm).trans_lt hroom.word) hpos hdvd
      (by rw [lt_div_iff₀ hlcmpos'] at hless; exact_mod_cast hless) hknown
    refine ⟨((2 ^ 64 : ℕ) : ℚ) / (s.den.lcm (magnitude dt).den : ℕ), ?_, ?_⟩
    · exact div_pos (by norm_num) (Nat.cast_pos.mpr hlcmpos)
    · refine ⟨hholds.toProper, ?_, hholds.den_dvd.trans hlcm⟩
      have hmag : ((magnitude dt).value : ℚ) = -dt := by rw [magnitude_value, abs_of_neg hdt]
      have hcast := congrArg (fun q : ℚ≥0 => (q : ℚ)) hsub
      simp only [NNRat.cast_add, NNRat.cast_div, NNRat.cast_natCast, hs, hmag] at hcast
      rw [hholds.value_eq, value, value, Int.cast_sub, Int.cast_natCast]
      linarith

end Add

end HighResTime

end Jive5ab.Highrestime
