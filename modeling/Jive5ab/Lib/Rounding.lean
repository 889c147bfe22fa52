import Mathlib

/-! # Double precision

Positive numbers as a `double` holds them: 53 significant bits, the nearest one, the
even one of two. Exponents have no limits here. -/
namespace Jive5ab.Lib.Rounding

def roundHalfEven (x : ℚ) : Int :=
  if x - ⌊x⌋ < 1 / 2 then ⌊x⌋
  else if 1 / 2 < x - ⌊x⌋ then ⌊x⌋ + 1
  else if ⌊x⌋ % 2 = 0 then ⌊x⌋
  else ⌊x⌋ + 1

/-- The distance of neighbours around `x`. -/
def ulp (x : ℚ) : ℚ := 2 ^ (Int.log 2 x - 52)

def toDouble (x : ℚ) : ℚ := roundHalfEven (x / ulp x) * ulp x

theorem roundHalfEven_intCast (n : Int) : roundHalfEven n = n := by
  unfold roundHalfEven
  rw [Int.floor_intCast, sub_self, if_pos (by norm_num)]

theorem roundHalfEven_near (x : ℚ) : |(roundHalfEven x : ℚ) - x| ≤ 1 / 2 := by
  have hle : (⌊x⌋ : ℚ) ≤ x := Int.floor_le x
  have hlt : x < ⌊x⌋ + 1 := Int.lt_floor_add_one x
  unfold roundHalfEven
  rw [abs_le]
  split
  · constructor <;> linarith
  split
  · push_cast
    constructor <;> linarith
  split
  · constructor <;> linarith
  · push_cast
    constructor <;> linarith

theorem ulp_pos (x : ℚ) : 0 < ulp x := zpow_pos (by norm_num) _

/-- Half a unit of the last place. -/
theorem ulp_le {x : ℚ} (hx : 0 < x) : ulp x * 2 ^ 52 ≤ x := by
  have hlog := Int.zpow_log_le_self (b := 2) (by decide) hx
  unfold ulp
  rw [zpow_sub₀ (by norm_num)]
  refine le_trans (le_of_eq ?_) hlog
  norm_num

theorem toDouble_near {x : ℚ} (hx : 0 < x) : |toDouble x - x| * 2 ^ 53 ≤ x := by
  have hround := roundHalfEven_near (x / ulp x)
  have hulp := ulp_pos x
  have hscale : toDouble x - x = (roundHalfEven (x / ulp x) - x / ulp x) * ulp x := by
    unfold toDouble
    rw [sub_mul, div_mul_cancel₀ _ hulp.ne']
  rw [hscale, abs_mul, abs_of_pos hulp]
  have hle := ulp_le hx
  calc |(roundHalfEven (x / ulp x) : ℚ) - x / ulp x| * ulp x * 2 ^ 53
      ≤ 1 / 2 * ulp x * 2 ^ 53 := by gcongr
    _ = ulp x * 2 ^ 52 := by ring
    _ ≤ x := hle

/-- Around a number within one part in `2 ^ 53`. -/
theorem toDouble_bounds {x : ℚ} (hx : 0 < x) :
    x * (1 - 1 / 2 ^ 53) ≤ toDouble x ∧ toDouble x ≤ x * (1 + 1 / 2 ^ 53) := by
  have hnear := toDouble_near hx
  have habs : |toDouble x - x| ≤ x * (1 / 2 ^ 53) := by linarith
  obtain ⟨hlow, hhigh⟩ := abs_le.mp habs
  constructor <;> linarith

@[simp] theorem toDouble_zero : toDouble 0 = 0 := by
  unfold toDouble
  rw [zero_div, ← Int.cast_zero, roundHalfEven_intCast, Int.cast_zero, zero_mul]

theorem toDouble_nonneg {x : ℚ} (hx : 0 ≤ x) : 0 ≤ toDouble x := by
  rcases hx.eq_or_lt with rfl | hpos
  · rw [toDouble_zero]
  · exact le_trans (by positivity) (toDouble_bounds hpos).1

theorem toDouble_le {x : ℚ} (hx : 0 ≤ x) : toDouble x ≤ x * (1 + 1 / 2 ^ 53) := by
  rcases hx.eq_or_lt with rfl | hpos
  · rw [toDouble_zero, zero_mul]
  · exact (toDouble_bounds hpos).2

/-- A quotient of which both parts and the result are rounded. -/
theorem toDouble_quotient_bounds {n d : ℚ} (hn : 0 < n) (hd : 0 < d) :
    n / d * (1 - 1 / 2 ^ 50) ≤ toDouble (toDouble n / toDouble d) ∧
      toDouble (toDouble n / toDouble d) ≤ n / d * (1 + 1 / 2 ^ 50) := by
  obtain ⟨hnlow, hnhigh⟩ := toDouble_bounds hn
  obtain ⟨hdlow, hdhigh⟩ := toDouble_bounds hd
  have hnpos : 0 < toDouble n := lt_of_lt_of_le (by positivity) hnlow
  have hdpos : 0 < toDouble d := lt_of_lt_of_le (by positivity) hdlow
  obtain ⟨hlow, hhigh⟩ := toDouble_bounds (div_pos hnpos hdpos)
  have hq : 0 < n / d := div_pos hn hd
  constructor
  · refine le_trans ?_ hlow
    have hquot : n * (1 - 1 / 2 ^ 53) / (d * (1 + 1 / 2 ^ 53)) ≤ toDouble n / toDouble d := by
      gcongr
    rw [mul_div_mul_comm] at hquot
    calc n / d * (1 - 1 / 2 ^ 50)
        ≤ n / d * ((1 - 1 / 2 ^ 53) / (1 + 1 / 2 ^ 53) * (1 - 1 / 2 ^ 53)) := by
          gcongr
          norm_num
      _ = n / d * ((1 - 1 / 2 ^ 53) / (1 + 1 / 2 ^ 53)) * (1 - 1 / 2 ^ 53) := by ring
      _ ≤ toDouble n / toDouble d * (1 - 1 / 2 ^ 53) := by gcongr
  · refine le_trans hhigh ?_
    have hquot : toDouble n / toDouble d ≤ n * (1 + 1 / 2 ^ 53) / (d * (1 - 1 / 2 ^ 53)) := by
      gcongr
    rw [mul_div_mul_comm] at hquot
    calc toDouble n / toDouble d * (1 + 1 / 2 ^ 53)
        ≤ n / d * ((1 + 1 / 2 ^ 53) / (1 - 1 / 2 ^ 53)) * (1 + 1 / 2 ^ 53) := by gcongr
      _ = n / d * ((1 + 1 / 2 ^ 53) / (1 - 1 / 2 ^ 53) * (1 + 1 / 2 ^ 53)) := by ring
      _ ≤ n / d * (1 + 1 / 2 ^ 50) := by
          gcongr
          norm_num

/-- Integers of at most 53 bits. -/
theorem toDouble_natCast {n : Nat} (h : n < 2 ^ 53) : toDouble n = n := by
  rcases Nat.eq_zero_or_pos n with rfl | hpos
  · unfold toDouble
    rw [Nat.cast_zero, zero_div]
    have hzero := roundHalfEven_intCast 0
    rw [Int.cast_zero] at hzero
    rw [hzero, Int.cast_zero, zero_mul]
  · have hlog : Nat.log 2 n < 53 := Nat.log_lt_of_lt_pow hpos.ne' h
    have hwhole : (n : ℚ) / ulp n = ((n * 2 ^ (52 - Nat.log 2 n) : ℕ) : Int) := by
      have hexp : ((Nat.log 2 n : ℕ) : Int) - 52 = -((52 - Nat.log 2 n : ℕ) : Int) := by omega
      unfold ulp
      rw [Int.log_natCast, hexp, zpow_neg, zpow_natCast, div_inv_eq_mul]
      push_cast
      rfl
    unfold toDouble
    rw [hwhole, roundHalfEven_intCast, ← hwhole, div_mul_cancel₀ _ (ulp_pos _).ne']

/-- The quotient of two integers that a `double` holds rounds to the integer part of
the exact one. -/
theorem floor_toDouble_div {n d : Nat} (hn : n < 2 ^ 53) (hd : 0 < d) :
    ⌊toDouble ((n : ℚ) / d)⌋ = ((n / d : ℕ) : Int) := by
  have hdpos : (0 : ℚ) < d := by exact_mod_cast hd
  by_cases hdvd : d ∣ n
  · obtain ⟨q, rfl⟩ := hdvd
    have hq : q < 2 ^ 53 := Nat.lt_of_le_of_lt (Nat.le_mul_of_pos_left q hd) hn
    have hexact : ((d * q : ℕ) : ℚ) / d = (q : ℕ) := by
      push_cast
      exact mul_div_cancel_left₀ _ hdpos.ne'
    rw [hexact, toDouble_natCast hq, Nat.mul_div_cancel_left q hd]
    exact Int.floor_natCast q
  · have hnpos : 0 < n := Nat.pos_of_ne_zero fun h0 => hdvd (h0 ▸ Nat.dvd_zero d)
    have hx : (0 : ℚ) < (n : ℚ) / d := div_pos (by exact_mod_cast hnpos) hdpos
    have hnear : |toDouble ((n : ℚ) / d) - (n : ℚ) / d| * d < 1 := by
      have hclose := mul_le_mul_of_nonneg_right (toDouble_near hx) hdpos.le
      rw [div_mul_cancel₀ _ hdpos.ne'] at hclose
      have hcast : (n : ℚ) < 2 ^ 53 := by exact_mod_cast hn
      nlinarith
    have hsplit : (n : ℚ) = d * (n / d : ℕ) + (n % d : ℕ) := by exact_mod_cast (Nat.div_add_mod n d).symm
    have hrem : 0 < n % d := Nat.pos_of_ne_zero fun h0 => hdvd (Nat.dvd_of_mod_eq_zero h0)
    have hrem1 : (1 : ℚ) ≤ (n % d : ℕ) := by exact_mod_cast hrem
    have hremd : ((n % d : ℕ) : ℚ) + 1 ≤ d := by exact_mod_cast Nat.mod_lt n hd
    have hxd : (n : ℚ) / d * d = n := div_mul_cancel₀ _ hdpos.ne'
    generalize (n : ℚ) / d = x at hnear hxd ⊢
    obtain ⟨hlow, hhigh⟩ : -1 < (toDouble x - x) * d ∧ (toDouble x - x) * d < 1 := by
      rw [← abs_lt, abs_mul, abs_of_pos hdpos]
      exact hnear
    rw [Int.floor_eq_iff, Int.cast_natCast]
    constructor
    · by_contra hbelow
      nlinarith
    · by_contra habove
      nlinarith

end Jive5ab.Lib.Rounding
