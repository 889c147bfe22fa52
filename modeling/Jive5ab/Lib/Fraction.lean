import Mathlib

/-! # Fractions in machine words

Fractions whose two parts are unsigned words, reduced before they are multiplied. As long as
the exact result, in lowest terms, fits the words, it is what comes out; the last sections tell
when a result that has wrapped can pass for the exact one. -/
namespace Jive5ab.Lib

/-- A numerator and a denominator, words modulo `M`. -/
structure Fraction (M : ℕ) where
  num : ℕ
  den : ℕ
deriving DecidableEq

namespace Fraction

variable {M : ℕ}

def value (a : Fraction M) : ℚ≥0 := a.num / a.den

structure Normal (a : Fraction M) : Prop where
  den_pos : 0 < a.den
  coprime : a.num.Coprime a.den

def ofNat (n : ℕ) : Fraction M := ⟨n, 1⟩

/-- From two parts, or nothing if the denominator is zero. -/
def normalize (n d : ℕ) : Option (Fraction M) :=
  if d = 0 then none
  else if n = 0 then some ⟨0, 1⟩
  else some ⟨n / n.gcd d, d / n.gcd d⟩

def mul (a b : Fraction M) : Fraction M :=
  let gcd1 := a.num.gcd b.den
  let gcd2 := b.num.gcd a.den
  ⟨(a.num / gcd1) * (b.num / gcd2) % M, (a.den / gcd2) * (b.den / gcd1) % M⟩

/-- The quotient, or nothing if it is by zero. -/
def div (a b : Fraction M) : Option (Fraction M) :=
  if b.num = 0 then none
  else if a.num = 0 then some a
  else
    let gcd1 := a.num.gcd b.num
    let gcd2 := b.den.gcd a.den
    some ⟨(a.num / gcd1) * (b.den / gcd2) % M, (a.den / gcd2) * (b.num / gcd1) % M⟩

/-- Lowest terms, each part reduced to a word. -/
def wrap (q : ℚ≥0) : Fraction M := ⟨q.num % M, q.den % M⟩

end Fraction

/-- In lowest terms both parts are words. -/
structure InWords (M : ℕ) (q : ℚ≥0) : Prop where
  num : q.num < M
  den : q.den < M

namespace Fraction

variable {M : ℕ}

/-! ## Lowest terms -/

theorem num_den_of_coprime {n d : ℕ} (hd : 0 < d) (h : n.Coprime d) :
    ((n : ℚ≥0) / d).num = n ∧ ((n : ℚ≥0) / d).den = d := by
  have hcast : (((n : ℚ≥0) / d : ℚ≥0) : ℚ) = ((n : ℤ) : ℚ) / ((d : ℤ) : ℚ) := by
    push_cast
    rfl
  constructor
  · have hnum := Rat.num_div_eq_of_coprime (a := (n : ℤ)) (b := (d : ℤ)) (by omega) (by simpa using h)
    rw [← hcast, NNRat.num_coe] at hnum
    exact_mod_cast hnum
  · have hden := Rat.den_div_eq_of_coprime (a := (n : ℤ)) (b := (d : ℤ)) (by omega) (by simpa using h)
    rw [← hcast, NNRat.den_coe] at hden
    exact_mod_cast hden

theorem wrap_of_coprime {q : ℚ≥0} {n d : ℕ} (hd : 0 < d) (h : n.Coprime d) (hq : q = n / d) :
    (wrap q : Fraction M) = ⟨n % M, d % M⟩ := by
  obtain ⟨hnum, hden⟩ := num_den_of_coprime hd h
  rw [wrap, hq, hnum, hden]

theorem Normal.num_den {a : Fraction M} (h : a.Normal) :
    a.value.num = a.num ∧ a.value.den = a.den := num_den_of_coprime h.den_pos h.coprime

theorem normal_ofNat (n : ℕ) : (ofNat n : Fraction M).Normal := ⟨Nat.one_pos, Nat.coprime_one_right n⟩

@[simp] theorem value_ofNat (n : ℕ) : (ofNat n : Fraction M).value = n := by
  simp [value, ofNat]

theorem normalize_spec {n d : ℕ} {a : Fraction M} (h : normalize n d = some a) :
    a.Normal ∧ a.value = n / d ∧ a.num ≤ n ∧ a.den ≤ d := by
  unfold normalize at h
  split_ifs at h with hd hn
  · obtain rfl := Option.some.inj h
    have hd : 0 < d := Nat.pos_of_ne_zero hd
    exact ⟨⟨Nat.one_pos, Nat.coprime_one_right 0⟩, by simp [value, hn], Nat.zero_le n, hd⟩
  · obtain rfl := Option.some.inj h
    have hd : 0 < d := Nat.pos_of_ne_zero hd
    have hg : 0 < n.gcd d := Nat.gcd_pos_of_pos_right n hd
    refine ⟨⟨Nat.div_pos (Nat.gcd_le_right n hd) hg, Nat.coprime_div_gcd_div_gcd hg⟩, ?_,
      Nat.div_le_self n _, Nat.div_le_self d _⟩
    rw [value, Nat.cast_div (Nat.gcd_dvd_left n d) (by positivity),
      Nat.cast_div (Nat.gcd_dvd_right n d) (by positivity), div_div_div_cancel_right₀ (by positivity)]

/-- A denominator does not grow when the fraction is multiplied by a number. -/
theorem den_mul_le (q : ℚ≥0) (n : Nat) : (q * n).den ≤ q.den := by
  have hdvd := Rat.mul_den_dvd (q : ℚ) ((n : ℚ≥0) : ℚ)
  rw [← NNRat.coe_mul, NNRat.den_coe, NNRat.den_coe, NNRat.den_coe, NNRat.den_natCast,
    Nat.mul_one] at hdvd
  exact Nat.le_of_dvd q.den_pos hdvd

/-- The denominator of a quotient comes from what it is divided by. -/
theorem den_div_le (n : Nat) {q : ℚ≥0} (hq : q ≠ 0) : (n / q).den ≤ q.num := by
  have hinv : q⁻¹.den = q.num := NNRat.den_inv_of_ne_zero hq
  rw [div_eq_mul_inv, mul_comm, ← hinv]
  exact den_mul_le q⁻¹ n

/-- A quotient of two words, in lowest terms, has words for its parts. -/
theorem inWords_div {a b : Nat} (hM : 1 < M) (ha : a < M) (hb : b < M) :
    InWords M ((a : ℚ≥0) / b) := by
  rcases Nat.eq_zero_or_pos a with rfl | hapos
  · rw [Nat.cast_zero, zero_div]
    exact ⟨Nat.zero_lt_of_lt hM, hM⟩
  rcases Nat.eq_zero_or_pos b with rfl | hbpos
  · rw [Nat.cast_zero, div_zero]
    exact ⟨Nat.zero_lt_of_lt hM, hM⟩
  have hane : (a : ℚ≥0) ≠ 0 := Nat.cast_ne_zero.mpr hapos.ne'
  have hbne : (b : ℚ≥0) ≠ 0 := Nat.cast_ne_zero.mpr hbpos.ne'
  constructor
  · have hle := den_div_le b hane
    rw [← inv_div, NNRat.den_inv_of_ne_zero (div_ne_zero hane hbne)] at hle
    exact hle.trans_lt ha
  · exact (den_div_le a hbne).trans_lt hb

/-! ## Products and quotients -/

/-- What is multiplied has been reduced crosswise. -/
theorem mul_eq {a b : Fraction M} (ha : a.Normal) (hb : b.Normal) :
    a.mul b = wrap (a.value * b.value) := by
  obtain ⟨n, d⟩ := a
  obtain ⟨m, e⟩ := b
  obtain ⟨hd, hnd⟩ := ha
  obtain ⟨he, hme⟩ := hb
  dsimp only at hd hnd he hme
  have hg : 0 < n.gcd e := Nat.gcd_pos_of_pos_right n he
  have hk : 0 < m.gcd d := Nat.gcd_pos_of_pos_right m hd
  have hcoprime : Nat.Coprime (n / n.gcd e * (m / m.gcd d)) (d / m.gcd d * (e / n.gcd e)) := by
    have hne : (n / n.gcd e).Coprime (e / n.gcd e) := Nat.coprime_div_gcd_div_gcd hg
    have hmd : (m / m.gcd d).Coprime (d / m.gcd d) := Nat.coprime_div_gcd_div_gcd hk
    have hnd' : (n / n.gcd e).Coprime (d / m.gcd d) :=
      (hnd.coprime_div_left (Nat.gcd_dvd_left n e)).coprime_div_right (Nat.gcd_dvd_right m d)
    have hme' : (m / m.gcd d).Coprime (e / n.gcd e) :=
      (hme.coprime_div_left (Nat.gcd_dvd_left m d)).coprime_div_right (Nat.gcd_dvd_right n e)
    exact Nat.Coprime.mul_left (hnd'.mul_right hne) (hmd.mul_right hme')
  have hpos : 0 < d / m.gcd d * (e / n.gcd e) :=
    Nat.mul_pos (Nat.div_pos (Nat.gcd_le_right m hd) hk) (Nat.div_pos (Nat.gcd_le_right n he) hg)
  refine (wrap_of_coprime hpos hcoprime ?_).symm
  have hg' : ((n.gcd e : ℕ) : ℚ≥0) ≠ 0 := by positivity
  have hk' : ((m.gcd d : ℕ) : ℚ≥0) ≠ 0 := by positivity
  rw [Nat.cast_mul, Nat.cast_mul, Nat.cast_div (Nat.gcd_dvd_left n e) hg',
    Nat.cast_div (Nat.gcd_dvd_left m d) hk', Nat.cast_div (Nat.gcd_dvd_right m d) hk',
    Nat.cast_div (Nat.gcd_dvd_right n e) hg']
  simp only [value]
  field_simp

theorem div_eq {a b : Fraction M} (ha : a.Normal) (hb : b.Normal) (hne : b.num ≠ 0)
    (hne' : a.num ≠ 0) : a.div b = some (wrap (a.value / b.value)) := by
  have hinv : (⟨b.den, b.num⟩ : Fraction M).Normal := ⟨Nat.pos_of_ne_zero hne, hb.coprime.symm⟩
  have hval : a.value / b.value = a.value * (⟨b.den, b.num⟩ : Fraction M).value := by
    simp only [value, div_eq_mul_inv, mul_inv, inv_inv]
    ring
  rw [hval, ← mul_eq ha hinv]
  unfold div
  rw [if_neg hne, if_neg hne']
  rfl

theorem ofNat_zero_div {b : Fraction M} (hne : b.num ≠ 0) :
    (ofNat 0 : Fraction M).div b = some (ofNat 0) := by
  unfold div
  rw [if_neg hne]
  exact if_pos rfl

/-! ## Results that fit -/

theorem wrap_zero (hM : 1 < M) : (wrap 0 : Fraction M) = ofNat 0 := by
  rw [wrap, NNRat.num_zero, NNRat.den_zero, Nat.zero_mod, Nat.mod_eq_of_lt hM]
  rfl

theorem wrap_eq {q : ℚ≥0} (h : InWords M q) : (wrap q : Fraction M) = ⟨q.num, q.den⟩ := by
  rw [wrap, Nat.mod_eq_of_lt h.num, Nat.mod_eq_of_lt h.den]

theorem normal_wrap {q : ℚ≥0} (h : InWords M q) : (wrap q : Fraction M).Normal := by
  rw [wrap_eq h]
  exact ⟨q.den_pos, q.coprime_num_den⟩

theorem value_wrap {q : ℚ≥0} (h : InWords M q) : (wrap q : Fraction M).value = q := by
  rw [wrap_eq h]
  exact q.num_div_den

/-! ## Results that have wrapped -/

/-- A numerator that wraps makes the fraction smaller. -/
theorem inWords_of_value_wrap {q v : ℚ≥0} (hM : 0 < M) (hden : q.den < M) (hle : q ≤ v)
    (h : (wrap q : Fraction M).value = v) : InWords M q ∧ q = v := by
  have hpos : (0 : ℚ≥0) < q.den := by exact_mod_cast q.den_pos
  have hval : ((q.num % M : ℕ) : ℚ≥0) / q.den = v := by
    rw [← h, value, wrap, Nat.mod_eq_of_lt hden]
  have hnum : q.num ≤ q.num % M := by
    have hq : (q.num : ℚ≥0) / q.den ≤ ((q.num % M : ℕ) : ℚ≥0) / q.den := by
      rwa [hval, q.num_div_den]
    exact_mod_cast (div_le_div_iff_of_pos_right hpos).mp hq
  have hword : InWords M q := ⟨hnum.trans_lt (Nat.mod_lt _ hM), hden⟩
  exact ⟨hword, (value_wrap hword).symm.trans h⟩

/-- Both sides of a proportion cannot have wrapped, if one has only a small factor besides one
that the other lacks. -/
theorem lt_of_mod_cross {n d t : ℕ} (hcoprime : n.Coprime d) (hd : 0 < d) (ht : 0 < t) (htM : t < M)
    (h : d * t * (n % M) = n * (d * t % M)) : n < M ∧ d * t < M := by
  have hM : 0 < M := ht.trans htM
  have hn := Nat.div_add_mod n M
  have hx := Nat.div_add_mod (d * t) M
  have hquot : d * t * (n / M) = n * (d * t / M) := by
    have hsum : d * t * (M * (n / M) + n % M) = n * (M * (d * t / M) + d * t % M) := by
      rw [hn, hx, Nat.mul_comm]
    rw [Nat.mul_add, Nat.mul_add, h, Nat.add_right_cancel_iff] at hsum
    refine Nat.eq_of_mul_eq_mul_left hM ?_
    calc M * (d * t * (n / M)) = d * t * (M * (n / M)) := by ring
      _ = M * (n * (d * t / M)) := by rw [hsum]; ring
  have hzero : d * t / M = 0 := by
    have hdvd : d ∣ d * t / M :=
      hcoprime.symm.dvd_of_dvd_mul_left ⟨t * (n / M), by rw [← hquot, Nat.mul_assoc]⟩
    have hlt : d * t / M < d := by
      refine Nat.div_lt_of_lt_mul ?_
      rw [Nat.mul_comm M]
      exact Nat.mul_lt_mul_of_pos_left htM hd
    exact Nat.eq_zero_of_dvd_of_lt hdvd hlt
  rw [hzero, Nat.mul_zero] at hquot
  have hzero' : n / M = 0 :=
    (Nat.mul_eq_zero.mp hquot).resolve_left (Nat.mul_pos hd ht).ne'
  exact ⟨(Nat.div_eq_zero_iff_lt hM).mp hzero', (Nat.div_eq_zero_iff_lt hM).mp hzero⟩

/-- A fraction in lowest terms, divided by a number. -/
theorem num_den_div (q : ℚ≥0) {t : ℕ} (ht : 0 < t) :
    (q / t).num = q.num / q.num.gcd t ∧ (q / t).den = q.den * (t / q.num.gcd t) := by
  have hg : 0 < q.num.gcd t := Nat.gcd_pos_of_pos_right _ ht
  have hquo : 0 < t / q.num.gcd t := Nat.div_pos (Nat.gcd_le_right _ ht) hg
  have hcoprime : (q.num / q.num.gcd t).Coprime (q.den * (t / q.num.gcd t)) :=
    (q.coprime_num_den.coprime_div_left (Nat.gcd_dvd_left _ t)).mul_right
      (Nat.coprime_div_gcd_div_gcd hg)
  have hval : q / t =
      ((q.num / q.num.gcd t : ℕ) : ℚ≥0) / ((q.den * (t / q.num.gcd t) : ℕ) : ℚ≥0) := by
    have hg' : ((q.num.gcd t : ℕ) : ℚ≥0) ≠ 0 := by positivity
    have ht' : (t : ℚ≥0) ≠ 0 := by positivity
    have hd' : (q.den : ℚ≥0) ≠ 0 := Nat.cast_ne_zero.mpr q.den_ne_zero
    rw [Nat.cast_mul, Nat.cast_div (Nat.gcd_dvd_left _ t) hg', Nat.cast_div (Nat.gcd_dvd_right _ t) hg']
    calc q / t = q.num / q.den / t := by rw [q.num_div_den]
      _ = _ := by field_simp
  rw [hval]
  exact num_den_of_coprime (Nat.mul_pos q.den_pos hquo) hcoprime

/-- A quotient by a number that is right although its dividend has wrapped, as a proportion. -/
theorem mod_cross_of_value {q : ℚ≥0} {t : ℕ} (hnum : q.num % M ≠ 0)
    (hval : t * (⟨q.num % M / (q.num % M).gcd t % M,
      q.den * (t / (q.num % M).gcd t) % M⟩ : Fraction M).value = q) :
    q.den * (t / (q.num % M).gcd t) * (q.num % M) =
      q.num * (q.den * (t / (q.num % M).gcd t) % M) := by
  have hqnum : q.num ≠ 0 := fun h => hnum (by rw [h, Nat.zero_mod])
  have hq : q ≠ 0 := NNRat.num_ne_zero.mp hqnum
  have hmod : q.num % M / (q.num % M).gcd t % M = q.num % M / (q.num % M).gcd t := by
    rcases Nat.eq_zero_or_pos M with rfl | hM
    · exact Nat.mod_zero _
    · exact Nat.mod_eq_of_lt ((Nat.div_le_self _ _).trans_lt (Nat.mod_lt _ hM))
  rw [value] at hval
  dsimp only at hval
  rw [hmod] at hval
  generalize q.den * (t / (q.num % M).gcd t) % M = x at hval ⊢
  have hx : (x : ℚ≥0) ≠ 0 := by
    rintro h
    rw [h, div_zero, mul_zero] at hval
    exact hq hval.symm
  have hd : (q.den : ℚ≥0) ≠ 0 := Nat.cast_ne_zero.mpr q.den_ne_zero
  have hfrac : (t : ℚ≥0) * ((q.num % M / (q.num % M).gcd t : ℕ) : ℚ≥0) / x = q.num / q.den := by
    rw [mul_div_assoc, hval, q.num_div_den]
  rw [div_eq_div_iff hx hd] at hfrac
  have hnat : t * (q.num % M / (q.num % M).gcd t) * q.den = q.num * x := by exact_mod_cast hfrac
  have hswap : t / (q.num % M).gcd t * (q.num % M) = t * (q.num % M / (q.num % M).gcd t) := by
    rw [← Nat.mul_div_assoc t (Nat.gcd_dvd_left _ t), Nat.div_mul_right_comm (Nat.gcd_dvd_right _ t)]
  rw [Nat.mul_assoc, hswap, ← hnat, Nat.mul_comm]

/-- A numerator that has wrapped is not made good by a division. -/
theorem inWords_of_div_wrap {q : ℚ≥0} {t : ℕ} {x : Fraction M} (hden : q.den < M) (ht : 0 < t)
    (htM : t < M) (hx : (wrap q : Fraction M).div (ofNat t) = some x) (hval : t * x.value = q) :
    InWords M q ∧ InWords M (q / t) := by
  have hM : 0 < M := ht.trans htM
  have hwrap : (wrap q : Fraction M) = ⟨q.num % M, q.den⟩ := by rw [wrap, Nat.mod_eq_of_lt hden]
  rw [hwrap] at hx
  unfold div at hx
  rw [if_neg (show (ofNat t : Fraction M).num ≠ 0 from ht.ne')] at hx
  dsimp only [ofNat] at hx
  by_cases hnum : q.num % M = 0
  · rw [if_pos hnum] at hx
    obtain rfl := Option.some.inj hx
    obtain rfl : q = 0 := by rw [← hval]; simp [value, hnum]
    rw [zero_div]
    exact ⟨⟨hM, hden⟩, ⟨hM, hden⟩⟩
  · rw [if_neg hnum, Nat.gcd_one_left, Nat.div_one, Nat.div_one, Nat.mul_one] at hx
    obtain rfl := Option.some.inj hx
    have hquo : t / (q.num % M).gcd t ≤ t := Nat.div_le_self t _
    have hquoPos : 0 < t / (q.num % M).gcd t :=
      Nat.div_pos (Nat.gcd_le_right _ ht) (Nat.gcd_pos_of_pos_right _ ht)
    obtain ⟨hlt, hlt'⟩ := lt_of_mod_cross q.coprime_num_den q.den_pos hquoPos (by omega)
      (mod_cross_of_value hnum hval)
    rw [Nat.mod_eq_of_lt hlt] at hlt'
    obtain ⟨hn, hd⟩ := num_den_div q ht
    exact ⟨⟨hlt, hden⟩, ⟨hn ▸ (Nat.div_le_self _ _).trans_lt hlt, hd ▸ hlt'⟩⟩

end Fraction

end Jive5ab.Lib
