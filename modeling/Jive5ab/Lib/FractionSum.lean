import Jive5ab.Lib.Fraction
import Mathlib.RingTheory.Coprime.Lemmas
import Mathlib.Data.Int.GCD
import Mathlib.Tactic.Linarith

/-! # Sums and differences of fractions in machine words

Fractions are added over the least common multiple of their denominators, the numerator
modulo the word, and reduced by what it has in common with the greatest common divisor.
The sum is exact as long as numerator and denominator fit; a difference below zero comes
out a whole word too large. -/
namespace Jive5ab.Lib.Fraction

variable {M : ℕ}

/-- `num` over the common denominator. -/
def reduced (a b : Fraction M) (num : ℕ) : Fraction M :=
  let g := a.den.gcd b.den
  ⟨num / num.gcd g, a.den / g * (b.den / num.gcd g) % M⟩

/-- The numerator of `a` over the common denominator. -/
def scaled (a b : Fraction M) : ℕ := a.num * (b.den / a.den.gcd b.den)

def add (a b : Fraction M) : Fraction M := reduced a b ((scaled a b + scaled b a) % M)

def sub (a b : Fraction M) : Fraction M := reduced a b ((scaled a b + (M - scaled b a % M)) % M)

/-! ## Numerators -/

theorem scaled_value (a b : Fraction M) (ha : 0 < a.den) :
    (scaled a b : ℚ≥0) = a.value * (a.den.lcm b.den : ℕ) := by
  have hane : (a.den : ℚ≥0) ≠ 0 := Nat.cast_ne_zero.mpr ha.ne'
  have hlcm : a.den.lcm b.den = a.den * (b.den / a.den.gcd b.den) :=
    Nat.mul_div_assoc _ (Nat.gcd_dvd_right _ _)
  rw [hlcm, scaled, value, Nat.cast_mul, Nat.cast_mul]
  field_simp

theorem scaled_value' (a b : Fraction M) (hb : 0 < b.den) :
    (scaled b a : ℚ≥0) = b.value * (a.den.lcm b.den : ℕ) := by
  rw [scaled_value b a hb, Nat.lcm_comm]

/-! ## Over a common denominator -/

theorem reduced_spec {a b : Fraction M} (ha : 0 < a.den) (hb : 0 < b.den)
    (hM : a.den.lcm b.den < M) (num : ℕ) :
    (reduced a b num).value = num / (a.den.lcm b.den : ℕ) ∧ 0 < (reduced a b num).den ∧
      (reduced a b num).den ∣ a.den.lcm b.den := by
  have hg : 0 < a.den.gcd b.den := Nat.gcd_pos_of_pos_left _ ha
  have hg' : 0 < num.gcd (a.den.gcd b.den) := Nat.gcd_pos_of_pos_right _ hg
  have hdvd : num.gcd (a.den.gcd b.den) ∣ b.den :=
    (Nat.gcd_dvd_right _ _).trans (Nat.gcd_dvd_right _ _)
  have hlcm : a.den / a.den.gcd b.den * (b.den / num.gcd (a.den.gcd b.den)) *
      num.gcd (a.den.gcd b.den) = a.den.lcm b.den := by
    rw [Nat.mul_assoc, Nat.div_mul_cancel hdvd, Nat.lcm,
      Nat.div_mul_right_comm (Nat.gcd_dvd_left _ _)]
  have hpos : 0 < a.den / a.den.gcd b.den * (b.den / num.gcd (a.den.gcd b.den)) :=
    Nat.mul_pos (Nat.div_pos (Nat.gcd_le_left _ ha) hg) (Nat.div_pos (Nat.le_of_dvd hb hdvd) hg')
  have hle := Nat.le_of_dvd (Nat.lcm_pos ha hb) (Dvd.intro _ hlcm)
  have hden : (reduced a b num).den =
      a.den / a.den.gcd b.den * (b.den / num.gcd (a.den.gcd b.den)) :=
    Nat.mod_eq_of_lt (hle.trans_lt hM)
  refine ⟨?_, hden ▸ hpos, hden ▸ Dvd.intro _ hlcm⟩
  have hne' : ((num.gcd (a.den.gcd b.den) : ℕ) : ℚ≥0) ≠ 0 := Nat.cast_ne_zero.mpr hg'.ne'
  rw [value, hden, ← hlcm, Nat.cast_mul (_ * _) (num.gcd _), ← div_div]
  have hnum : ((reduced a b num).num : ℚ≥0) = num / (num.gcd (a.den.gcd b.den) : ℕ) :=
    Nat.cast_div (Nat.gcd_dvd_left _ _) hne'
  rw [hnum, div_right_comm]

/-- What a numerator that comes from lowest terms has in common with the denominator, it has
in common with the greatest common divisor of the two denominators. -/
theorem reduced_normal {a b : Fraction M} (ha : a.Normal) (hb : b.Normal)
    (hM : a.den.lcm b.den < M) {num : ℕ} {s : ℤ} (hs : IsUnit s)
    (hnum : (num : ℤ) = scaled a b + s * scaled b a) : (reduced a b num).Normal := by
  obtain ⟨-, hpos, -⟩ := reduced_spec ha.den_pos hb.den_pos hM num
  refine ⟨hpos, ?_⟩
  obtain ⟨p, q⟩ := a
  obtain ⟨r, t⟩ := b
  obtain ⟨hq, hpq⟩ := ha
  obtain ⟨ht, hrt⟩ := hb
  dsimp only [scaled] at hq hpq ht hrt hM hnum hpos
  have hg : 0 < q.gcd t := Nat.gcd_pos_of_pos_left _ hq
  have hg' : 0 < num.gcd (q.gcd t) := Nat.gcd_pos_of_pos_right _ hg
  -- the parts of the denominators that they do not share
  have hqt : (q / q.gcd t).Coprime (t / q.gcd t) := Nat.coprime_div_gcd_div_gcd hg
  rw [Nat.gcd_comm t q] at hnum
  push_cast at hnum
  have hnq : num.Coprime (q / q.gcd t) := by
    rw [← Nat.isCoprime_iff_coprime, hnum]
    have hprod : IsCoprime ((p : ℤ) * (t / q.gcd t : ℕ)) (q / q.gcd t : ℕ) :=
      IsCoprime.mul_left
        (Nat.isCoprime_iff_coprime.mpr (hpq.coprime_div_right (Nat.gcd_dvd_left q t)))
        (Nat.isCoprime_iff_coprime.mpr hqt.symm)
    have h := hprod.add_mul_right_left (s * r)
    push_cast at h ⊢
    rwa [mul_assoc s] at h
  have hnt : num.Coprime (t / q.gcd t) := by
    rw [← Nat.isCoprime_iff_coprime, hnum]
    have hprod : IsCoprime (s * ((r : ℤ) * (q / q.gcd t : ℕ))) (t / q.gcd t : ℕ) :=
      (isCoprime_mul_unit_left_left hs _ _).mpr (IsCoprime.mul_left
        (Nat.isCoprime_iff_coprime.mpr (hrt.coprime_div_right (Nat.gcd_dvd_right q t)))
        (Nat.isCoprime_iff_coprime.mpr hqt))
    have h := hprod.add_mul_right_left p
    push_cast at h ⊢
    rwa [add_comm] at h
  have hsplit : t / num.gcd (q.gcd t) = t / q.gcd t * (q.gcd t / num.gcd (q.gcd t)) := by
    rw [Nat.div_mul_div_comm (Nat.gcd_dvd_right q t) (Nat.gcd_dvd_right _ _),
      Nat.mul_comm t, Nat.mul_div_mul_left _ _ hg]
  have hle : q / q.gcd t * (t / num.gcd (q.gcd t)) ≤ q.lcm t := by
    rw [Nat.lcm, ← Nat.div_mul_right_comm (Nat.gcd_dvd_left _ _)]
    exact Nat.mul_le_mul_left _ (Nat.div_le_self t _)
  change (num / num.gcd (q.gcd t)).Coprime (q / q.gcd t * (t / num.gcd (q.gcd t)) % M)
  rw [Nat.mod_eq_of_lt (hle.trans_lt hM), hsplit]
  have hrest : (num / num.gcd (q.gcd t)).Coprime (q.gcd t / num.gcd (q.gcd t)) :=
    Nat.coprime_div_gcd_div_gcd hg'
  have hdvd : num.gcd (q.gcd t) ∣ num := Nat.gcd_dvd_left _ _
  exact (hnq.coprime_div_left hdvd).mul_right ((hnt.coprime_div_left hdvd).mul_right hrest)

/-! ## Sums and differences -/

theorem add_spec {a b : Fraction M} (ha : 0 < a.den) (hb : 0 < b.den)
    (hden : a.den.lcm b.den < M) (hnum : (a.value + b.value) * (a.den.lcm b.den : ℕ) < M) :
    (add a b).value = a.value + b.value ∧ 0 < (add a b).den ∧
      (add a b).den ∣ a.den.lcm b.den ∧ (a.Normal → b.Normal → (add a b).Normal) := by
  have hlcm : ((a.den.lcm b.den : ℕ) : ℚ≥0) ≠ 0 := Nat.cast_ne_zero.mpr (Nat.lcm_pos ha hb).ne'
  have hsum : ((scaled a b + scaled b a : ℕ) : ℚ≥0) =
      (a.value + b.value) * (a.den.lcm b.den : ℕ) := by
    rw [Nat.cast_add, scaled_value a b ha, scaled_value' a b hb, add_mul]
  have hlt : scaled a b + scaled b a < M := by
    rw [← hsum] at hnum
    exact_mod_cast hnum
  have hadd : add a b = reduced a b (scaled a b + scaled b a) := by
    rw [add, Nat.mod_eq_of_lt hlt]
  obtain ⟨hvalue, hpos, hdvd⟩ := reduced_spec ha hb hden (scaled a b + scaled b a)
  rw [hadd]
  refine ⟨?_, hpos, hdvd, fun hna hnb => reduced_normal hna hnb hden isUnit_one (by push_cast; ring)⟩
  rw [hvalue, hsum, mul_div_cancel_right₀ _ hlcm]

theorem sub_spec {a b : Fraction M} (ha : 0 < a.den) (hb : 0 < b.den)
    (hden : a.den.lcm b.den < M) (hnum : a.value * (a.den.lcm b.den : ℕ) < M)
    (hle : b.value ≤ a.value) :
    (sub a b).value = a.value - b.value ∧ 0 < (sub a b).den ∧
      (sub a b).den ∣ a.den.lcm b.den ∧ (a.Normal → b.Normal → (sub a b).Normal) := by
  have hlcm : ((a.den.lcm b.den : ℕ) : ℚ≥0) ≠ 0 := Nat.cast_ne_zero.mpr (Nat.lcm_pos ha hb).ne'
  have hlt : scaled a b < M := by
    rw [← scaled_value a b ha] at hnum
    exact_mod_cast hnum
  have hscaled : scaled b a ≤ scaled a b := by
    have hmul := mul_le_mul_of_nonneg_right hle (zero_le (a := ((a.den.lcm b.den : ℕ) : ℚ≥0)))
    rw [← scaled_value a b ha, ← scaled_value' a b hb] at hmul
    exact_mod_cast hmul
  have hnumerator : (scaled a b + (M - scaled b a % M)) % M = scaled a b - scaled b a := by
    rw [Nat.mod_eq_of_lt (hscaled.trans_lt hlt)]
    have hwrap : scaled a b + (M - scaled b a) = scaled a b - scaled b a + M := by omega
    rw [hwrap, Nat.add_mod_right]
    exact Nat.mod_eq_of_lt (by omega)
  obtain ⟨hvalue, hpos, hdvd⟩ := reduced_spec ha hb hden (scaled a b - scaled b a)
  rw [sub, hnumerator]
  refine ⟨?_, hpos, hdvd, fun hna hnb =>
    reduced_normal hna hnb hden isUnit_neg_one (by push_cast [hscaled]; ring)⟩
  rw [hvalue, Nat.cast_tsub, scaled_value a b ha, scaled_value' a b hb, ← tsub_mul,
    mul_div_cancel_right₀ _ hlcm]

/-- A difference below zero. -/
theorem sub_underflow {a b : Fraction M} (ha : 0 < a.den) (hb : 0 < b.den)
    (hden : a.den.lcm b.den < M) (hnum : b.value * (a.den.lcm b.den : ℕ) < M)
    (hlt : a.value < b.value) :
    (sub a b).value + b.value = a.value + M / (a.den.lcm b.den : ℕ) ∧ 0 < (sub a b).den ∧
      (sub a b).den ∣ a.den.lcm b.den := by
  have hlcm : ((a.den.lcm b.den : ℕ) : ℚ≥0) ≠ 0 := Nat.cast_ne_zero.mpr (Nat.lcm_pos ha hb).ne'
  have hsmall : scaled b a < M := by
    rw [← scaled_value' a b hb] at hnum
    exact_mod_cast hnum
  have hscaled : scaled a b < scaled b a := by
    have hmul := mul_lt_mul_of_pos_right hlt (pos_iff_ne_zero.mpr hlcm)
    rw [← scaled_value a b ha, ← scaled_value' a b hb] at hmul
    exact_mod_cast hmul
  have hnumerator : (scaled a b + (M - scaled b a % M)) % M = scaled a b + (M - scaled b a) := by
    rw [Nat.mod_eq_of_lt hsmall]
    exact Nat.mod_eq_of_lt (by omega)
  obtain ⟨hvalue, hpos, hdvd⟩ := reduced_spec ha hb hden (scaled a b + (M - scaled b a))
  rw [sub, hnumerator]
  refine ⟨?_, hpos, hdvd⟩
  have hsum : ((scaled a b + (M - scaled b a) : ℕ) : ℚ≥0) + scaled b a = scaled a b + M := by
    exact_mod_cast (by omega : scaled a b + (M - scaled b a) + scaled b a = scaled a b + M)
  rw [scaled_value a b ha, scaled_value' a b hb] at hsum
  apply mul_right_cancel₀ hlcm
  rw [hvalue, add_mul, add_mul, div_mul_cancel₀ _ hlcm, div_mul_cancel₀ _ hlcm, hsum]

/-- Lowest terms are unique. -/
theorem Normal.ext {a b : Fraction M} (ha : a.Normal) (hb : b.Normal) (h : a.value = b.value) :
    a = b := by
  obtain ⟨hnum, hden⟩ := ha.num_den
  obtain ⟨hnum', hden'⟩ := hb.num_den
  obtain ⟨n, d⟩ := a
  obtain ⟨m, e⟩ := b
  rw [h] at hnum hden
  congr 1
  · exact hnum.symm.trans hnum'
  · exact hden.symm.trans hden'

end Jive5ab.Lib.Fraction
