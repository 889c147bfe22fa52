import Jive5ab.Lib.Crc
import Mathlib.Algebra.CharP.Two
import Mathlib.Algebra.Polynomial.Div
import Mathlib.Algebra.Field.ZMod
import Mathlib.Tactic.Ring
import Mathlib.Tactic.LinearCombination

/-! # Cyclic redundancy checks are remainders

The register of a table driven CRC, as a polynomial over the field of two elements: what is
in it after a message is the message modulo the generator. -/
namespace Jive5ab.Lib.Crc
open Polynomial

/-! ## Bits as coefficients -/

def bit (b : Bool) : ZMod 2 := if b then 1 else 0

theorem bit_xor (a b : Bool) : bit (a ^^ b) = bit a + bit b := by
  cases a <;> cases b <;> decide

/-- The polynomial of `n` bits. -/
noncomputable def polyOf (n : Nat) (f : Nat → Bool) : (ZMod 2)[X] :=
  ∑ i ∈ Finset.range n, C (bit (f i)) * X ^ i

theorem coeff_polyOf (n : Nat) (f : Nat → Bool) (i : Nat) :
    (polyOf n f).coeff i = if i < n then bit (f i) else 0 := by
  rw [polyOf, finsetSum_coeff]
  simp only [coeff_C_mul_X_pow]
  rw [Finset.sum_ite_eq]
  simp only [Finset.mem_range]

theorem polyOf_xor (n : Nat) (f g : Nat → Bool) :
    polyOf n (fun i => f i ^^ g i) = polyOf n f + polyOf n g := by
  ext i
  rw [coeff_add, coeff_polyOf, coeff_polyOf, coeff_polyOf]
  split
  · exact bit_xor _ _
  · exact (add_zero 0).symm

theorem polyOf_congr {n : Nat} {f g : Nat → Bool} (h : ∀ i < n, f i = g i) : polyOf n f = polyOf n g :=
  Finset.sum_congr rfl fun i hi => by rw [h i (Finset.mem_range.mp hi)]

theorem degree_polyOf (n : Nat) (f : Nat → Bool) : (polyOf n f).degree < n := by
  rw [degree_lt_iff_coeff_zero]
  intro i hi
  rw [coeff_polyOf, if_neg (Nat.not_lt.mpr hi)]

theorem polyOf_injective {n : Nat} {f g : Nat → Bool} (h : polyOf n f = polyOf n g) {i : Nat}
    (hi : i < n) : f i = g i := by
  have hcoeff : (polyOf n f).coeff i = (polyOf n g).coeff i := by rw [h]
  rw [coeff_polyOf, coeff_polyOf, if_pos hi, if_pos hi] at hcoeff
  revert hcoeff
  cases f i <;> cases g i <;> decide

/-! ## Register, message and generator -/

variable (width : Nat) (key : BitVec 32)

/-- The bits of the register that count. -/
noncomputable def regPoly (reg : BitVec 32) : (ZMod 2)[X] := polyOf width reg.getLsbD

noncomputable def bytePoly (b : Byte) : (ZMod 2)[X] := polyOf 8 b.getLsbD

/-- The first bit of a message has the highest power. -/
noncomputable def messagePoly (data : List Byte) : (ZMod 2)[X] :=
  data.foldl (fun p b => p * X ^ 8 + bytePoly b) 0

noncomputable def generator : (ZMod 2)[X] := X ^ width + regPoly width key

theorem generator_monic : (generator width key).Monic := monic_X_pow_add (degree_polyOf _ _)

theorem degree_generator : (generator width key).degree = width := by
  rw [generator, degree_add_eq_left_of_degree_lt, degree_X_pow]
  rw [degree_X_pow]
  exact degree_polyOf _ _

variable {width key}

theorem regPoly_xor (a b : BitVec 32) : regPoly width (a ^^^ b) = regPoly width a + regPoly width b := by
  unfold regPoly
  rw [← polyOf_xor]
  exact polyOf_congr fun i _ => BitVec.getLsbD_xor

theorem regPoly_zero (width : Nat) : regPoly width 0 = 0 := by
  ext i
  rw [regPoly, coeff_polyOf, coeff_zero]
  simp [bit]

/-! ## One shift -/

/-- A shift multiplies by `X`, modulo the generator. -/
theorem regPoly_shift (hpos : 0 < width) (hlt : width < 32) (reg : BitVec 32) :
    regPoly width (shift width key reg) =
      X * regPoly width reg + C (bit (reg.getLsbD (width - 1))) * generator width key := by
  have htop : (reg <<< 1).getLsbD width = reg.getLsbD (width - 1) := by
    rw [BitVec.getLsbD_shiftLeft]
    simp [hlt, Nat.not_lt.mpr hpos]
  have hkey : regPoly width (shift width key reg) = regPoly width (reg <<< 1) +
      C (bit (reg.getLsbD (width - 1))) * regPoly width key := by
    rw [shift, htop]
    cases reg.getLsbD (width - 1) with
    | true =>
      rw [if_pos rfl, regPoly_xor]
      simp [bit]
    | false => simp [bit]
  have hshift : regPoly width (reg <<< 1) + C (bit (reg.getLsbD (width - 1))) * X ^ width =
      X * regPoly width reg := by
    ext i
    rw [coeff_add, coeff_C_mul_X_pow, regPoly, coeff_polyOf]
    cases i with
    | zero =>
      have hzero : (reg <<< 1).getLsbD 0 = false := by simp
      rw [coeff_X_mul_zero, if_pos hpos, if_neg (Nat.ne_of_lt hpos), hzero]
      exact add_zero 0
    | succ i =>
      rw [coeff_X_mul, regPoly, coeff_polyOf]
      rcases Nat.lt_trichotomy (i + 1) width with hi | hi | hi
      · have hbit : (reg <<< 1).getLsbD (i + 1) = reg.getLsbD i := by
          rw [BitVec.getLsbD_shiftLeft]
          simp [Nat.lt_trans hi hlt]
        rw [if_pos hi, if_neg (Nat.ne_of_lt hi), if_pos (Nat.lt_of_succ_lt hi), hbit, add_zero]
      · subst hi
        rw [if_neg (Nat.lt_irrefl _), if_pos rfl, if_pos (Nat.lt_succ_self i), zero_add]
        rfl
      · rw [if_neg (Nat.lt_asymm hi), if_neg (Nat.ne_of_gt hi), if_neg (by omega), add_zero]
  have htwo := CharTwo.add_self_eq_zero (C (bit (reg.getLsbD (width - 1))) * X ^ width)
  rw [hkey, generator, ← hshift]
  linear_combination -htwo

variable (key) in
theorem dvd_shifts (hpos : 0 < width) (hlt : width < 32) (n : Nat) (reg : BitVec 32) :
    generator width key ∣ regPoly width (shifts width key n reg) - X ^ n * regPoly width reg := by
  induction n generalizing reg with
  | zero =>
    rw [pow_zero, one_mul, shifts, sub_self]
    exact dvd_zero _
  | succ n ih =>
    obtain ⟨c, hc⟩ := ih (shift width key reg)
    rw [regPoly_shift hpos hlt] at hc
    refine ⟨c + X ^ n * C (bit (reg.getLsbD (width - 1))), ?_⟩
    rw [shifts]
    linear_combination hc

/-! ## A byte -/

variable (key) in
/-- An entry of the table: the byte above the register, modulo the generator. -/
theorem dvd_table (h8 : 8 ≤ width) (hlt : width < 32) (b : Byte) :
    generator width key ∣ regPoly width (table width key b) - X ^ width * bytePoly b := by
  have hplace : regPoly width (b.setWidth 32 <<< (width - 8)) = X ^ (width - 8) * bytePoly b := by
    ext i
    rw [regPoly, coeff_polyOf, coeff_X_pow_mul', bytePoly, coeff_polyOf, BitVec.getLsbD_shiftLeft,
      BitVec.getLsbD_setWidth]
    by_cases hi : i < width
    · by_cases hlow : width - 8 ≤ i
      · rw [if_pos hi, if_pos hlow, if_pos (by omega)]
        simp [Nat.not_lt.mpr hlow, show i < 32 by omega, show i - (width - 8) < 32 by omega]
      · rw [if_pos hi, if_neg hlow]
        simp [Nat.not_le.mp hlow, bit]
    · rw [if_neg hi, if_pos (by omega), if_neg (by omega)]
  have hdvd := dvd_shifts key (Nat.lt_of_lt_of_le (by decide) h8) hlt 8
    (b.setWidth 32 <<< (width - 8))
  rwa [hplace, ← mul_assoc, ← pow_add, Nat.add_sub_cancel' h8] at hdvd

/-- What moves out at the top of the register goes to the table. -/
theorem regPoly_shiftLeft (h8 : 8 ≤ width) (hlt : width + 8 ≤ 32) (reg : BitVec 32) :
    regPoly width (reg <<< 8) + X ^ width * bytePoly ((reg >>> (width - 8)).setWidth 8) =
      X ^ 8 * regPoly width reg := by
  ext i
  rw [coeff_add, coeff_X_pow_mul', coeff_X_pow_mul', regPoly, coeff_polyOf, bytePoly, coeff_polyOf,
    regPoly, coeff_polyOf, BitVec.getLsbD_shiftLeft, BitVec.getLsbD_setWidth,
    BitVec.getLsbD_ushiftRight]
  by_cases hi : i < width
  · rw [if_pos hi, if_neg (Nat.not_le.mpr hi), add_zero]
    by_cases hlow : 8 ≤ i
    · rw [if_pos hlow, if_pos (by omega)]
      simp [Nat.not_lt.mpr hlow, show i < 32 by omega]
    · rw [if_neg hlow]
      simp [Nat.not_le.mp hlow, bit]
  · rw [if_neg hi, if_pos (Nat.not_lt.mp hi), zero_add]
    by_cases htop : i - width < 8
    · have hplace : width - 8 + (i - width) = i - 8 := by omega
      rw [if_pos htop, if_pos (by omega), if_pos (by omega), hplace]
      simp [htop]
    · rw [if_neg htop, if_pos (by omega), if_neg (by omega)]

variable (key) in
theorem dvd_step (h8 : 8 ≤ width) (hlt : width + 8 ≤ 32) (reg : BitVec 32) (b : Byte) :
    generator width key ∣
      regPoly width (step width key reg b) - (regPoly width reg * X ^ 8 + bytePoly b) := by
  have hbyte : regPoly width (b.setWidth 32) = bytePoly b := by
    ext i
    rw [regPoly, coeff_polyOf, bytePoly, coeff_polyOf, BitVec.getLsbD_setWidth]
    by_cases hi : i < 8
    · rw [if_pos hi, if_pos (by omega)]
      simp [show i < 32 by omega]
    · rw [if_neg hi, BitVec.getLsbD_of_ge b i (Nat.not_lt.mp hi)]
      simp [bit]
  obtain ⟨c, hc⟩ := dvd_table key h8 (by omega) ((reg >>> (width - 8)).setWidth 8)
  have hshift := regPoly_shiftLeft h8 hlt reg
  refine ⟨c, ?_⟩
  rw [step, add_eq_xor, regPoly_xor, regPoly_xor, hbyte]
  linear_combination hc + hshift

/-! ## A message -/

theorem dvd_run (h8 : 8 ≤ width) (hlt : width + 8 ≤ 32) (data : List Byte) :
    generator width key ∣ regPoly width (run width key 0 data) - messagePoly data := by
  have hfold : ∀ (data : List Byte) (reg : BitVec 32) (p : (ZMod 2)[X]),
      generator width key ∣ regPoly width reg - p →
      generator width key ∣ regPoly width (run width key reg data) -
        data.foldl (fun p b => p * X ^ 8 + bytePoly b) p := by
    intro data
    induction data with
    | nil => exact fun _ _ h => h
    | cons b data ih =>
      intro reg p h
      refine ih _ _ ?_
      have hstep := dvd_add (dvd_step key h8 hlt reg b) (dvd_mul_of_dvd_left h (X ^ 8))
      have hsum : regPoly width (step width key reg b) - (regPoly width reg * X ^ 8 + bytePoly b) +
          (regPoly width reg - p) * X ^ 8 =
          regPoly width (step width key reg b) - (p * X ^ 8 + bytePoly b) := by ring
      rwa [hsum] at hstep
  refine hfold data 0 0 ?_
  rw [regPoly_zero, sub_zero]
  exact dvd_zero _

/-- The CRC is the remainder of the message. -/
theorem regPoly_crc (h8 : 8 ≤ width) (hlt : width + 8 ≤ 32) (data : List Byte) :
    regPoly width (crc width key data) = messagePoly data %ₘ generator width key := by
  have hmask : regPoly width (crc width key data) = regPoly width (run width key 0 data) := by
    refine polyOf_congr fun i hi => ?_
    have hbit : (BitVec.ofNat 32 (2 ^ width - 1)).getLsbD i = true := by
      rw [BitVec.getLsbD_ofNat, Nat.testBit_two_pow_sub_one]
      simp [hi, show i < 32 by omega]
    rw [crc, BitVec.getLsbD_and, hbit, Bool.and_true]
  have hself : regPoly width (run width key 0 data) %ₘ generator width key =
      regPoly width (run width key 0 data) := by
    rw [modByMonic_eq_self_iff (generator_monic width key), degree_generator]
    exact degree_polyOf _ _
  rw [hmask, ← hself]
  exact modByMonic_eq_of_dvd_sub (generator_monic width key) (dvd_run h8 hlt data)

theorem regPoly_injective {a b : BitVec 32} (ha : a.toNat < 2 ^ width) (hb : b.toNat < 2 ^ width)
    (h : regPoly width a = regPoly width b) : a = b := by
  have hhigh : ∀ {v : BitVec 32} {i : Nat}, v.toNat < 2 ^ width → ¬i < width → v.getLsbD i = false := by
    intro v i hv hi
    exact Nat.testBit_lt_two_pow
      (Nat.lt_of_lt_of_le hv (Nat.pow_le_pow_right Nat.two_pos (Nat.not_lt.mp hi)))
  refine BitVec.eq_of_getLsbD_eq fun i _ => ?_
  by_cases hi : i < width
  · exact polyOf_injective h hi
  · rw [hhigh ha hi, hhigh hb hi]

/-- The message checks exactly when the generator divides it. -/
theorem crc_eq_zero_iff (h8 : 8 ≤ width) (hlt : width + 8 ≤ 32) (data : List Byte) :
    crc width key data = 0 ↔ generator width key ∣ messagePoly data := by
  rw [← modByMonic_eq_zero_iff_dvd (generator_monic width key), ← regPoly_crc h8 hlt]
  constructor
  · intro h
    rw [h, regPoly_zero]
  · intro h
    rw [← regPoly_zero width] at h
    exact regPoly_injective (toNat_crc_lt width key (by omega) data) (Nat.two_pow_pos width) h

/-! ## Room for the CRC -/

theorem messagePoly_append (data : List Byte) (b : Byte) :
    messagePoly (data ++ [b]) = messagePoly data * X ^ 8 + bytePoly b := by
  rw [messagePoly, List.foldl_append]
  rfl

/-- The bits of a message before its last two bytes, and those of the last byte but one that are
above the CRC. -/
noncomputable def payloadPoly (width : Nat) (pre : List Byte) (b : Byte) : (ZMod 2)[X] :=
  messagePoly pre * X ^ (16 - width) + polyOf (16 - width) fun i => b.getLsbD (width - 8 + i)

/-- With zeros in place of the CRC the message is `x ^ width` times those bits. -/
theorem messagePoly_room (h8 : 8 ≤ width) (h16 : width ≤ 16) (pre : List Byte) {b : Byte}
    (hroom : ∀ i < width - 8, b.getLsbD i = false) :
    messagePoly (pre ++ [b, 0]) = payloadPoly width pre b * X ^ width := by
  have hbyte : bytePoly b = X ^ (width - 8) * polyOf (16 - width) fun i => b.getLsbD (width - 8 + i) := by
    ext i
    rw [bytePoly, coeff_polyOf, coeff_X_pow_mul', coeff_polyOf]
    by_cases hi : width - 8 ≤ i
    · rw [if_pos hi, Nat.add_sub_cancel' hi]
      by_cases h8i : i < 8
      · rw [if_pos h8i, if_pos (by omega)]
      · rw [if_neg h8i, if_neg (by omega)]
    · rw [if_neg hi, hroom i (Nat.not_le.mp hi)]
      exact ite_self 0
  have hzero : bytePoly 0 = 0 := by
    ext i
    rw [bytePoly, coeff_polyOf, coeff_zero]
    simp [bit]
  have hsplit : pre ++ [b, 0] = (pre ++ [b]) ++ [0] := by simp
  have hhigh : (X : (ZMod 2)[X]) ^ (16 - width) * X ^ width = X ^ 8 * X ^ 8 := by
    rw [← pow_add, ← pow_add, Nat.sub_add_cancel h16]
  have hlow : (X : (ZMod 2)[X]) ^ (width - 8) * X ^ 8 = X ^ width := by
    rw [← pow_add, Nat.sub_add_cancel h8]
  rw [hsplit, messagePoly_append, messagePoly_append, hzero, hbyte, payloadPoly]
  generalize (polyOf (16 - width) fun i => b.getLsbD (width - 8 + i)) = p
  linear_combination -messagePoly pre * hhigh + p * hlow

/-- The CRC that a format puts into the room is the remainder of the bits before it, times
`x ^ width`. -/
theorem regPoly_crc_room (h8 : 8 ≤ width) (h16 : width ≤ 16) (pre : List Byte) {b : Byte}
    (hroom : ∀ i < width - 8, b.getLsbD i = false) :
    regPoly width (crc width key (pre ++ [b, 0])) =
      (payloadPoly width pre b * X ^ width) %ₘ generator width key := by
  rw [regPoly_crc h8 (by omega), messagePoly_room h8 h16 pre hroom]

/-- With any bits in the room the message checks exactly when they are that remainder. -/
theorem crc_room_eq_zero_iff (h8 : 8 ≤ width) (h16 : width ≤ 16) (pre : List Byte) {b : Byte}
    (hroom : ∀ i < width - 8, b.getLsbD i = false) {c : BitVec 32} (hc : c.toNat < 2 ^ width) :
    crc width key (pre ++ [b ^^^ (c >>> 8).setWidth 8, c.setWidth 8]) = 0 ↔
      regPoly width c = (payloadPoly width pre b * X ^ width) %ₘ generator width key := by
  rw [crc_tail width key h8 h16 hc, ← regPoly_crc_room h8 h16 pre hroom]
  constructor
  · intro h
    rw [BitVec.xor_eq_zero_iff.mp h]
  · intro h
    have heq := regPoly_injective hc (toNat_crc_lt width key (by omega) _) h
    rw [← heq]
    exact BitVec.xor_self

end Jive5ab.Lib.Crc
