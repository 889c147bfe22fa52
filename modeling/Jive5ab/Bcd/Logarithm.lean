import Mathlib.Algebra.Order.Ring.Pow
import Mathlib.Analysis.SpecialFunctions.Log.Base
import Jive5ab.Lib.Single

/-! # The logarithm that counts digits

`log10f` is the nearest `float`. It is a power of two for every argument that is close enough to
the power of ten. -/
namespace Jive5ab.Bcd
open Lib.Single

noncomputable def log10f (x : ℚ) : ℚ := toSingle (Real.logb 10 x)

/-! ## Rounded up to a power of two -/

theorem half_step {k : ℕ} :
    (((16777215 : Int) : ℝ) + 1 / 2) * 2 ^ ((k : Int) - 24) = 2 ^ k - 2 ^ k / 33554432 := by
  rw [zpow_sub₀ (by norm_num : (2 : ℝ) ≠ 0), zpow_natCast]
  norm_num
  ring

theorem step_below {k : ℕ} : ((16777215 : Int) : ℚ) * 2 ^ ((k : Int) - 24) < 2 ^ k := by
  have hpos : (0 : ℚ) < 2 ^ k := pow_pos two_pos k
  rw [zpow_sub₀ (by norm_num : (2 : ℚ) ≠ 0), zpow_natCast]
  norm_num
  linarith

theorem step_above {k : ℕ} : (((16777215 : Int) : ℚ) + 1) * 2 ^ ((k : Int) - 24) = 2 ^ k := by
  rw [zpow_sub₀ (by norm_num : (2 : ℚ) ≠ 0), zpow_natCast]
  norm_num
  ring

theorem le_log10f_iff_logb {s : ℚ} (hs : 1 ≤ s) (k : ℕ) :
    2 ^ k ≤ log10f s ↔ (2 : ℝ) ^ k - 2 ^ k / 33554432 ≤ Real.logb 10 s := by
  have hs' : (1 : ℝ) ≤ s := by exact_mod_cast hs
  rw [← half_step, log10f]
  constructor
  · intro hle
    by_contra hlt
    have hlow := toSingle_le (a := 16777215) (k := (k : Int) - 24) (by decide) (by decide)
      (Real.logb_nonneg (by norm_num) hs') (not_le.mp hlt)
    exact absurd (hle.trans hlow) (not_le.mpr step_below)
  · intro hle
    have hhigh := le_toSingle (a := 16777215) (k := (k : Int) - 24) (by decide) (by decide)
      (by decide) hle
    rwa [step_above] at hhigh

/-- How much of a decade is missing decides. -/
theorem le_log10f_iff {s : ℚ} (hs : 1 ≤ s) {k m : ℕ} (hm : 2 ^ k * m = 33554432) :
    2 ^ k ≤ log10f s ↔ ((10 : ℚ) ^ 2 ^ k / s) ^ m ≤ 10 := by
  have hs' : (0 : ℝ) < s := by exact_mod_cast zero_lt_one.trans_le hs
  have hm' : (2 : ℝ) ^ k * m = 33554432 := by exact_mod_cast hm
  have hmpos : (0 : ℝ) < m := by
    by_contra hnot
    have hzero : (m : ℝ) = 0 := le_antisymm (not_lt.mp hnot) (Nat.cast_nonneg m)
    rw [hzero, mul_zero] at hm'
    norm_num at hm'
  have hdecade : (0 : ℝ) < (10 : ℝ) ^ 2 ^ k / s := div_pos (by positivity) hs'
  have hlog : Real.logb 10 (((10 : ℝ) ^ 2 ^ k / s) ^ m) = m * (2 ^ k - Real.logb 10 s) := by
    rw [Real.logb_pow, Real.logb_div (by positivity) hs'.ne', Real.logb_pow,
      Real.logb_self_eq_one (by norm_num), mul_one, Nat.cast_pow, Nat.cast_ofNat]
  have hcast : ((10 : ℚ) ^ 2 ^ k / s) ^ m ≤ 10 ↔ ((10 : ℝ) ^ 2 ^ k / s) ^ m ≤ 10 := by
    exact_mod_cast Iff.rfl
  have hone : ((10 : ℝ) ^ 2 ^ k / s) ^ m ≤ 10 ↔ m * (2 ^ k - Real.logb 10 s) ≤ 1 := by
    rw [← hlog, Real.logb_le_iff_le_rpow (by norm_num) (pow_pos hdecade m), Real.rpow_one]
  rw [le_log10f_iff_logb hs, hcast, hone]
  have hshare : (2 : ℝ) ^ k / 33554432 * m = 1 := by
    rw [div_mul_eq_mul_div, hm']
    norm_num
  constructor
  · intro hle
    have hgap : 2 ^ k - Real.logb 10 s ≤ (2 : ℝ) ^ k / 33554432 := by linarith
    calc m * (2 ^ k - Real.logb 10 s) ≤ m * ((2 : ℝ) ^ k / 33554432) :=
          mul_le_mul_of_nonneg_left hgap hmpos.le
      _ = 1 := by rw [mul_comm, hshare]
  · intro hle
    have hgap : 2 ^ k - Real.logb 10 s ≤ (2 : ℝ) ^ k / 33554432 := by
      refine le_of_mul_le_mul_left ?_ hmpos
      rw [mul_comm (m : ℝ) (2 ^ k / 33554432), hshare]
      exact hle
    linarith

/-! ## Where it happens -/

section
variable {s : ℚ} {k m : ℕ}

/-- Bernoulli's inequality for the parts of the power. -/
theorem log10f_lt {x : ℚ} {parts c : ℕ} (hs : 1 ≤ s) (hm : 2 ^ k * m = 33554432)
    (hparts : m = c * parts) (hx : 0 ≤ x) (hfar : s * (1 + x) ≤ 10 ^ 2 ^ k)
    (hten : 10 < (1 + c * x) ^ parts) : log10f s < 2 ^ k := by
  rw [← not_le, le_log10f_iff hs hm, not_le]
  have hspos : 0 < s := zero_lt_one.trans_le hs
  have hratio : 1 + x ≤ 10 ^ 2 ^ k / s := (le_div_iff₀ hspos).mpr (by linarith)
  have hbernoulli := one_add_mul_le_pow (show (-2 : ℚ) ≤ x by linarith) c
  calc (10 : ℚ) < (1 + c * x) ^ parts := hten
    _ ≤ ((1 + x) ^ c) ^ parts := pow_le_pow_left₀ (by positivity) hbernoulli parts
    _ = (1 + x) ^ m := by rw [← pow_mul, hparts]
    _ ≤ (10 ^ 2 ^ k / s) ^ m := pow_le_pow_left₀ (by positivity) hratio m

theorem le_log10f {x : ℚ} {parts c : ℕ} (hs : 1 ≤ s) (hm : 2 ^ k * m = 33554432)
    (hparts : m = c * parts) (hx : x ≤ 1) (hc : 0 ≤ 1 - c * x)
    (hnear : 10 ^ 2 ^ k * (1 - x) ≤ s) (hten : 1 ≤ 10 * (1 - c * x) ^ parts) :
    2 ^ k ≤ log10f s := by
  rw [le_log10f_iff hs hm]
  have hspos : 0 < s := zero_lt_one.trans_le hs
  have hdecade : (0 : ℚ) < 10 ^ 2 ^ k / s := div_pos (by positivity) hspos
  have hratio : 10 ^ 2 ^ k / s * (1 - x) ≤ 1 := by
    rw [div_mul_eq_mul_div]
    exact (div_le_one hspos).mpr hnear
  have hbernoulli := one_add_mul_le_pow (show (-2 : ℚ) ≤ -x by linarith) c
  have hpower : (1 - c * x) ^ parts ≤ (1 - x) ^ m := by
    rw [hparts, pow_mul]
    refine pow_le_pow_left₀ hc ?_ parts
    calc 1 - c * x = 1 + c * -x := by ring
      _ ≤ (1 + -x) ^ c := hbernoulli
      _ = (1 - x) ^ c := by rw [← sub_eq_add_neg]
  have hprod : (10 ^ 2 ^ k / s) ^ m * (1 - x) ^ m ≤ 1 := by
    rw [← mul_pow]
    exact pow_le_one₀ (mul_nonneg hdecade.le (by linarith)) hratio
  have hpowpos : 0 ≤ (10 ^ 2 ^ k / s) ^ m := pow_nonneg hdecade.le m
  calc (10 ^ 2 ^ k / s) ^ m
      ≤ (10 ^ 2 ^ k / s) ^ m * (10 * (1 - c * x) ^ parts) := le_mul_of_one_le_right hpowpos hten
    _ = 10 * ((10 ^ 2 ^ k / s) ^ m * (1 - c * x) ^ parts) := by ring
    _ ≤ 10 * ((10 ^ 2 ^ k / s) ^ m * (1 - x) ^ m) := by
        have hmul := mul_le_mul_of_nonneg_left hpower hpowpos
        linarith
    _ ≤ 10 := by linarith

end

end Jive5ab.Bcd
