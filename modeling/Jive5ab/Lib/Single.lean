import Mathlib

/-! # Single precision

What a number that is not negative is as a `float`: 24 significant bits, the nearest one, the even
one of two. The number may be irrational; exponents have no limits here. -/
namespace Jive5ab.Lib.Single

variable {R : Type} [Field R] [LinearOrder R] [IsStrictOrderedRing R] [FloorRing R]

def halfEven (x : R) : Int :=
  if x - ⌊x⌋ < 1 / 2 then ⌊x⌋
  else if 1 / 2 < x - ⌊x⌋ then ⌊x⌋ + 1
  else if ⌊x⌋ % 2 = 0 then ⌊x⌋
  else ⌊x⌋ + 1

def toSingle (x : R) : ℚ :=
  halfEven (x / 2 ^ (Int.log 2 x - 23)) * 2 ^ (Int.log 2 x - 23)

/-! ## The nearest integer -/

theorem halfEven_le_of_lt {x : R} {m : Int} (h : x < m + 1 / 2) : halfEven x ≤ m := by
  have hfloor := Int.floor_le x
  have hlt : ⌊x⌋ < m + 1 := by
    rw [Int.floor_lt]
    push_cast
    linarith
  rcases Int.lt_or_le ⌊x⌋ m with hless | hge
  · unfold halfEven
    split
    · omega
    split
    · omega
    split <;> omega
  · obtain heq : ⌊x⌋ = m := by omega
    have hclose : x - ⌊x⌋ < 1 / 2 := by
      rw [heq]
      linarith
    rw [halfEven, if_pos hclose]
    exact hlt |> Int.lt_add_one_iff.mp

/-- Half-way the even one is taken. -/
theorem lt_halfEven_of_le {x : R} {m : Int} (hodd : m % 2 = 1) (h : m + 1 / 2 ≤ x) :
    m < halfEven x := by
  have hhigh := Int.lt_floor_add_one x
  have hge : m ≤ ⌊x⌋ := by
    rw [Int.le_floor]
    linarith
  rcases hge.lt_or_eq with hless | heq
  · unfold halfEven
    split
    · exact hless
    split
    · omega
    split <;> omega
  · have hfar : ¬x - ⌊x⌋ < 1 / 2 := by
      rw [← heq]
      linarith
    rw [halfEven, if_neg hfar]
    split
    · omega
    · rw [if_neg (by omega)]
      omega

/-! ## The nearest number -/

theorem pow_binade (K : Type) [Field K] [CharZero K] (e : Int) (k : ℕ) :
    (2 : K) ^ (e - 23 + k) = 2 ^ k * 2 ^ (e - 23) := by
  rw [zpow_add₀ (by norm_num), zpow_natCast, mul_comm]

theorem pow_binade_low (K : Type) [Field K] [CharZero K] (e : Int) :
    (2 : K) ^ e = 8388608 * 2 ^ (e - 23) := by
  have h := pow_binade K e 23
  rw [Nat.cast_ofNat, sub_add_cancel] at h
  rw [h]
  norm_num

theorem pow_binade_high (K : Type) [Field K] [CharZero K] (e : Int) :
    (2 : K) ^ (e + 1) = 16777216 * 2 ^ (e - 23) := by
  have h := pow_binade K e 24
  rw [Nat.cast_ofNat, show e - 23 + 24 = e + 1 by omega] at h
  rw [h]
  norm_num

/-- The significand before it is rounded. -/
theorem significand_bounds {x : R} (hx : 0 < x) :
    8388608 ≤ x / 2 ^ (Int.log 2 x - 23) ∧ x / 2 ^ (Int.log 2 x - 23) < 16777216 := by
  have hlow := Int.zpow_log_le_self (b := 2) (by decide) hx
  have hhigh := Int.lt_zpow_succ_log_self (b := 2) (by decide) x
  have hulp : (0 : R) < 2 ^ (Int.log 2 x - 23) := zpow_pos two_pos _
  rw [Nat.cast_ofNat, pow_binade_low R] at hlow
  rw [Nat.cast_ofNat, pow_binade_high R] at hhigh
  exact ⟨(le_div_iff₀ hulp).mpr hlow, (div_lt_iff₀ hulp).mpr hhigh⟩

/-- In its binade a number keeps its exponent, or it becomes the next power. -/
theorem toSingle_bounds {x : R} (hx : 0 < x) :
    (2 : ℚ) ^ Int.log 2 x ≤ toSingle x ∧ toSingle x ≤ (2 : ℚ) ^ (Int.log 2 x + 1) := by
  obtain ⟨hlow, hhigh⟩ := significand_bounds hx
  have hulp : (0 : ℚ) < 2 ^ (Int.log 2 x - 23) := zpow_pos two_pos _
  have hfloor : 8388607 < halfEven (x / 2 ^ (Int.log 2 x - 23)) := by
    refine lt_halfEven_of_le (by decide) ?_
    push_cast
    linarith
  have hceil : halfEven (x / 2 ^ (Int.log 2 x - 23)) ≤ 16777216 := by
    refine halfEven_le_of_lt ?_
    push_cast
    linarith
  have hfloor' : (8388608 : ℚ) ≤ halfEven (x / 2 ^ (Int.log 2 x - 23)) := by exact_mod_cast hfloor
  have hceil' : (halfEven (x / 2 ^ (Int.log 2 x - 23)) : ℚ) ≤ 16777216 := by exact_mod_cast hceil
  rw [pow_binade_low ℚ, pow_binade_high ℚ]
  exact ⟨mul_le_mul_of_nonneg_right hfloor' hulp.le, mul_le_mul_of_nonneg_right hceil' hulp.le⟩

@[simp] theorem toSingle_zero : toSingle (0 : R) = 0 := by
  have hzero : halfEven (0 : R) = 0 := by simp [halfEven]
  rw [toSingle, zero_div, hzero, Int.cast_zero, zero_mul]

theorem toSingle_nonneg {x : R} (hx : 0 ≤ x) : 0 ≤ toSingle x := by
  rcases hx.eq_or_lt with rfl | hpos
  · rw [toSingle_zero]
  · exact (zpow_pos two_pos _).le.trans (toSingle_bounds hpos).1

/-! ## Two neighbours

`a` and `a + 1` in units of `2 ^ k` are numbers with 24 significant bits, and the second
one is even: what is half-way between them becomes the second one. -/

section
variable {a k : Int} {x : R}

omit [IsStrictOrderedRing R] in
theorem toSingle_of_binade (h : Int.log 2 x = k + 23) :
    toSingle x = halfEven (x / 2 ^ k) * 2 ^ k := by
  rw [toSingle, h, add_sub_cancel_right]

theorem toSingle_le (hlow : 8388608 ≤ a) (hhigh : a < 16777216) (hx : 0 ≤ x)
    (h : x < (a + 1 / 2) * 2 ^ k) : toSingle x ≤ a * 2 ^ k := by
  have hlow' : (8388608 : ℚ) ≤ a := by exact_mod_cast hlow
  have hhigh' : (a : R) ≤ 16777215 := by exact_mod_cast Int.le_sub_one_of_lt hhigh
  have hulp : (0 : ℚ) < 2 ^ k := zpow_pos two_pos _
  have hulp' : (0 : R) < 2 ^ k := zpow_pos two_pos _
  rcases hx.eq_or_lt with rfl | hpos
  · rw [toSingle_zero]
    exact mul_nonneg (by linarith) hulp.le
  rcases Int.lt_or_le (Int.log 2 x) (k + 23) with hless | hge
  · refine (toSingle_bounds hpos).2.trans ?_
    have hpow : (2 : ℚ) ^ (Int.log 2 x + 1) ≤ 2 ^ (k + 23) :=
      zpow_le_zpow_right₀ one_le_two (by omega)
    rw [pow_binade_low ℚ (k + 23), add_sub_cancel_right] at hpow
    exact hpow.trans (mul_le_mul_of_nonneg_right hlow' hulp.le)
  · have hlog : Int.log 2 x < k + 24 := by
      refine (Int.lt_zpow_iff_log_lt (b := 2) (by decide) hpos).mp ?_
      have hpow := pow_binade_high R (k + 23)
      rw [add_sub_cancel_right, show k + 23 + 1 = k + 24 by omega] at hpow
      rw [Nat.cast_ofNat, hpow]
      exact h.trans (mul_lt_mul_of_pos_right (by linarith) hulp')
    have hround : halfEven (x / 2 ^ k) ≤ a := halfEven_le_of_lt ((div_lt_iff₀ hulp').mpr h)
    rw [toSingle_of_binade (show Int.log 2 x = k + 23 by omega)]
    exact mul_le_mul_of_nonneg_right (by exact_mod_cast hround) hulp.le

theorem le_toSingle (hlow : 8388608 ≤ a) (hhigh : a < 16777216) (hodd : a % 2 = 1)
    (h : (a + 1 / 2) * 2 ^ k ≤ x) : (a + 1) * 2 ^ k ≤ toSingle x := by
  have hlow' : (8388608 : R) ≤ a := by exact_mod_cast hlow
  have hhigh' : (a : ℚ) + 1 ≤ 16777216 := by exact_mod_cast hhigh
  have hulp : (0 : ℚ) < 2 ^ k := zpow_pos two_pos _
  have hulp' : (0 : R) < 2 ^ k := zpow_pos two_pos _
  have hpos : 0 < x := lt_of_lt_of_le (mul_pos (by linarith) hulp') h
  have hlog : k + 23 ≤ Int.log 2 x := by
    refine (Int.zpow_le_iff_le_log (b := 2) (by decide) hpos).mp ?_
    have hpow := pow_binade_low R (k + 23)
    rw [add_sub_cancel_right] at hpow
    rw [Nat.cast_ofNat, hpow]
    exact (mul_le_mul_of_nonneg_right (by linarith) hulp'.le).trans h
  rcases hlog.eq_or_lt with heq | hgt
  · have hround := lt_halfEven_of_le hodd ((le_div_iff₀ hulp').mpr h)
    have hround' : (a : ℚ) + 1 ≤ halfEven (x / 2 ^ k) := by exact_mod_cast hround
    rw [toSingle_of_binade heq.symm]
    exact mul_le_mul_of_nonneg_right hround' hulp.le
  · refine le_trans ?_ (toSingle_bounds hpos).1
    have hpow : (2 : ℚ) ^ (k + 23 + 1) ≤ 2 ^ Int.log 2 x :=
      zpow_le_zpow_right₀ one_le_two (by omega)
    rw [pow_binade_high ℚ (k + 23), add_sub_cancel_right] at hpow
    exact (mul_le_mul_of_nonneg_right hhigh' hulp.le).trans hpow

end

end Jive5ab.Lib.Single
