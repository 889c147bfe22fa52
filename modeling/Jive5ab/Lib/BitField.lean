import Mathlib

/-! # Bit fields

Runs of bits in a word that are read and written on their own, as the members of
a `struct` with bit widths are. -/
namespace Jive5ab.Lib.BitField

variable {n : Nat}

def get (w : BitVec n) (off len : Nat) : Nat := w.toNat >>> off % 2 ^ len

def mask (off len : Nat) : BitVec n := BitVec.ofNat n (2 ^ len - 1) <<< off

/-- What does not fit is cut off. -/
def set (w : BitVec n) (off len v : Nat) : BitVec n :=
  (w &&& ~~~ mask off len) ||| BitVec.ofNat n (v % 2 ^ len) <<< off

theorem get_lt (w : BitVec n) (off len : Nat) : get w off len < 2 ^ len :=
  Nat.mod_lt _ (Nat.two_pow_pos len)

theorem testBit_get (w : BitVec n) (off len j : Nat) :
    (get w off len).testBit j = (decide (j < len) && w.getLsbD (off + j)) := by
  unfold get
  rw [Nat.testBit_mod_two_pow, Nat.testBit_shiftRight]
  rfl

theorem getLsbD_mask {off len i : Nat} (hi : i < n) :
    (mask off len : BitVec n).getLsbD i = decide (off ≤ i ∧ i < off + len) := by
  unfold mask
  rw [BitVec.getLsbD_shiftLeft, BitVec.getLsbD_ofNat, Nat.testBit_two_pow_sub_one]
  rw [Bool.eq_iff_iff]
  simp only [Bool.and_eq_true, Bool.not_eq_true', decide_eq_true_eq, decide_eq_false_iff_not]
  omega

theorem getLsbD_set (w : BitVec n) (off len v : Nat) {i : Nat} (hi : i < n) :
    (set w off len v).getLsbD i =
      if off ≤ i ∧ i < off + len then v.testBit (i - off) else w.getLsbD i := by
  unfold set
  rw [BitVec.getLsbD_or, BitVec.getLsbD_and, BitVec.getLsbD_not, getLsbD_mask hi,
    BitVec.getLsbD_shiftLeft, BitVec.getLsbD_ofNat, Nat.testBit_mod_two_pow]
  split
  · rename_i hin
    have hlow : ¬ i < off := by omega
    have hlen : i - off < len := by omega
    have hwidth : i - off < n := by omega
    simp [hi, hin, hlow, hlen, hwidth]
  · rename_i hout
    have hno : (decide (off ≤ i ∧ i < off + len)) = false := decide_eq_false hout
    by_cases hlow : i < off
    · simp [hi, hno, hlow]
    · have hlen : ¬ i - off < len := by omega
      simp [hi, hno, hlen]

theorem get_set_self (w : BitVec n) {off len : Nat} (h : off + len ≤ n) (v : Nat) :
    get (set w off len v) off len = v % 2 ^ len := by
  refine Nat.eq_of_testBit_eq fun j => ?_
  rw [testBit_get, Nat.testBit_mod_two_pow]
  by_cases hj : j < len
  · rw [getLsbD_set w off len v (by omega), if_pos (by omega), Nat.add_sub_cancel_left]
  · rw [decide_eq_false hj, Bool.false_and, Bool.false_and]

/-- A field that ends where the other starts, or before. -/
theorem get_set_apart (w : BitVec n) {off len off' len' : Nat} (h : off' + len' ≤ n)
    (hapart : off + len ≤ off' ∨ off' + len' ≤ off) (v : Nat) :
    get (set w off len v) off' len' = get w off' len' := by
  refine Nat.eq_of_testBit_eq fun j => ?_
  rw [testBit_get, testBit_get]
  by_cases hj : j < len'
  · rw [getLsbD_set w off len v (by omega), if_neg (by omega)]
  · rw [decide_eq_false hj, Bool.false_and, Bool.false_and]

/-! ## Fields that are or-ed together -/

theorem get_or (a b : BitVec n) (off len : Nat) :
    get (a ||| b) off len = get a off len ||| get b off len := by
  refine Nat.eq_of_testBit_eq fun j => ?_
  rw [Nat.testBit_or, testBit_get, testBit_get, testBit_get, BitVec.getLsbD_or, Bool.and_or_distrib_left]

theorem get_zero (off len : Nat) : get (0 : BitVec n) off len = 0 := by
  simp [get]

theorem get_ofNat_shiftLeft_self {off len v : Nat} (h : off + len ≤ n) (hv : v < 2 ^ len) :
    get (BitVec.ofNat n v <<< off) off len = v := by
  refine Nat.eq_of_testBit_eq fun j => ?_
  rw [testBit_get, BitVec.getLsbD_shiftLeft, BitVec.getLsbD_ofNat, Nat.add_sub_cancel_left]
  by_cases hj : j < len
  · have hlow : ¬ off + j < off := by omega
    have hwidth : off + j < n := by omega
    have hjn : j < n := by omega
    simp [hj, hlow, hwidth, hjn]
  · rw [decide_eq_false hj, Bool.false_and, Nat.testBit_lt_two_pow]
    exact Nat.lt_of_lt_of_le hv (Nat.pow_le_pow_right (by decide) (Nat.not_lt.mp hj))

theorem get_ofNat_shiftLeft_apart {off len off' len' v : Nat} (hv : v < 2 ^ len)
    (hapart : off + len ≤ off' ∨ off' + len' ≤ off) :
    get (BitVec.ofNat n v <<< off) off' len' = 0 := by
  refine Nat.eq_of_testBit_eq fun j => ?_
  rw [testBit_get, BitVec.getLsbD_shiftLeft, BitVec.getLsbD_ofNat, Nat.zero_testBit]
  by_cases hj : j < len'
  · by_cases hlow : off' + j < off
    · simp [hlow]
    · have hbig : v.testBit (off' + j - off) = false := by
        refine Nat.testBit_lt_two_pow (Nat.lt_of_lt_of_le hv (Nat.pow_le_pow_right (by decide) ?_))
        omega
      simp [hbig]
  · rw [decide_eq_false hj, Bool.false_and]

end Jive5ab.Lib.BitField
