import Mathlib

/-! # `swap_sign_mag`

The bit swapper of `cpp_dechannelizer-64.cc`. The mask of the sign bits is half as wide as a word,
so the upper half of a word is not swapped but shifted. -/
namespace Jive5ab.Dechannelizer

abbrev Word := BitVec 64

def signs : Word := 0x55555555

def mags : Word := ~~~signs

def swapWord (tmp1 : Word) : Word := ((tmp1 &&& signs) <<< 1) ||| ((tmp1 &&& mags) >>> 1)

/-- `while( u64src<u64end )`, with `left` words to go. -/
def swapFrom (src : Nat → Word) : Nat → Nat → (Nat → Word) → Nat → Word
  | 0, _, d0 => d0
  | left + 1, i, d0 => swapFrom src left (i + 1) (Function.update d0 i (swapWord (src i)))

/-- `len` is in bytes, memory is by the word. -/
def swapSignMag (src : Nat → Word) (len : UInt32) (dst0 : Nat → Word) : Nat → Word :=
  swapFrom src (len.toNat / 8) 0 dst0

/-- Every pair of adjacent bits of the first `n` words is exchanged. -/
def Swapped (n : Nat) (src out : Nat → Word) : Prop :=
  ∀ i < n, ∀ b < 64, b % 2 = 0 →
    (out i).getLsbD b = (src i).getLsbD (b + 1) ∧ (out i).getLsbD (b + 1) = (src i).getLsbD b

/-! ## One word -/

theorem signs_getLsbD (i : Nat) : signs.getLsbD i = decide (i < 32 ∧ i % 2 = 0) := by
  by_cases hi : i < 64
  · have hall : ∀ i < 64, signs.getLsbD i = decide (i < 32 ∧ i % 2 = 0) := by decide
    exact hall i hi
  · rw [BitVec.getLsbD_of_ge _ _ (Nat.not_lt.mp hi)]
    exact (decide_eq_false fun h => hi (by omega)).symm

theorem swapWord_getLsbD (w : Word) {i : Nat} (hi : i < 64) :
    (swapWord w).getLsbD i =
      ((decide (0 < i ∧ i ≤ 32 ∧ i % 2 = 1) && w.getLsbD (i - 1)) ||
        (!decide (i < 31 ∧ i % 2 = 1) && w.getLsbD (i + 1))) := by
  have hleft : ((w &&& signs) <<< 1).getLsbD i =
      (decide (0 < i ∧ i ≤ 32 ∧ i % 2 = 1) && w.getLsbD (i - 1)) := by
    rw [BitVec.getLsbD_shiftLeft, BitVec.getLsbD_and, signs_getLsbD]
    rcases Nat.eq_zero_or_pos i with rfl | hpos
    · simp
    · have hplace : decide (i - 1 < 32 ∧ (i - 1) % 2 = 0) = decide (0 < i ∧ i ≤ 32 ∧ i % 2 = 1) :=
        decide_eq_decide.mpr (by omega)
      rw [decide_eq_true hi, decide_eq_false (by omega : ¬i < 1), hplace]
      simp [Bool.and_comm]
  have hright : ((w &&& mags) >>> 1).getLsbD i =
      (!decide (i < 31 ∧ i % 2 = 1) && w.getLsbD (i + 1)) := by
    rw [BitVec.getLsbD_ushiftRight, BitVec.getLsbD_and, mags, BitVec.getLsbD_not, signs_getLsbD,
      Nat.add_comm 1 i]
    by_cases hlast : i + 1 < 64
    · have hplace : decide (i + 1 < 32 ∧ (i + 1) % 2 = 0) = decide (i < 31 ∧ i % 2 = 1) :=
        decide_eq_decide.mpr (by omega)
      rw [decide_eq_true hlast, hplace, Bool.true_and, Bool.and_comm]
    · rw [BitVec.getLsbD_of_ge w _ (Nat.not_lt.mp hlast), Bool.false_and, Bool.and_false]
  rw [swapWord, BitVec.getLsbD_or, hleft, hright]

/-- The upper half is shifted. -/
theorem swapWord_upper (w : Word) {i : Nat} (hi : 32 ≤ i) :
    (swapWord w).getLsbD i = w.getLsbD (i + 1) := by
  by_cases hlt : i < 64
  · rw [swapWord_getLsbD w hlt, decide_eq_false (by omega), decide_eq_false (by omega)]
    simp
  · rw [BitVec.getLsbD_of_ge _ _ (Nat.not_lt.mp hlt), BitVec.getLsbD_of_ge _ _ (by omega)]

theorem swapWord_even (w : Word) {b : Nat} (hb : b < 64) (heven : b % 2 = 0) :
    (swapWord w).getLsbD b = w.getLsbD (b + 1) := by
  rw [swapWord_getLsbD w hb, decide_eq_false (by omega), decide_eq_false (by omega)]
  simp

/-- At bit 31 a bit of the upper half comes in. -/
theorem swapWord_odd (w : Word) {b : Nat} (hb : b < 32) (heven : b % 2 = 0) :
    (swapWord w).getLsbD (b + 1) = (w.getLsbD b || (decide (b = 30) && w.getLsbD (b + 2))) := by
  rw [swapWord_getLsbD w (by omega), decide_eq_true (by omega : 0 < b + 1 ∧ _ ∧ _),
    Nat.add_sub_cancel, Bool.true_and]
  by_cases hlast : b = 30
  · rw [decide_eq_false (by omega), decide_eq_true hlast]
    rfl
  · rw [decide_eq_true (by omega : b + 1 < 31 ∧ _), decide_eq_false hlast]
    rfl

/-- Bits that are the same as those two places on, from some place on, are zero. -/
theorem getLsbD_eq_false_of_chain {w : Word} {r : Nat}
    (h : ∀ i, 32 ≤ i → i < 64 → i % 2 = r → w.getLsbD i = w.getLsbD (i + 2)) {i : Nat}
    (hi : 32 ≤ i) (hr : i % 2 = r) : w.getLsbD i = false := by
  induction hn : 64 - i using Nat.strongRecOn generalizing i with
  | ind n ih =>
    by_cases hlt : i < 64
    · rw [h i hi hlt hr]
      exact ih (64 - (i + 2)) (by omega) (by omega) (by omega) rfl
    · exact BitVec.getLsbD_of_ge _ _ (Nat.not_lt.mp hlt)

/-- The pairs of bits of a word are exchanged if and only if every other bit of the upper half is
zero. -/
theorem swapWord_swaps_iff (w : Word) :
    (∀ b < 64, b % 2 = 0 → (swapWord w).getLsbD b = w.getLsbD (b + 1) ∧
      (swapWord w).getLsbD (b + 1) = w.getLsbD b) ↔
      ∀ i, 32 ≤ i → i % 2 = 0 → w.getLsbD i = false := by
  constructor
  · intro h i hi heven
    refine getLsbD_eq_false_of_chain (fun j hj hlt hr => ?_) hi heven
    rw [← (h j hlt hr).2, swapWord_upper w (by omega)]
  · intro h b hb heven
    refine ⟨swapWord_even w hb heven, ?_⟩
    by_cases hlower : b < 32
    · rw [swapWord_odd w hlower heven]
      by_cases hlast : b = 30
      · rw [h (b + 2) (by omega) (by omega)]
        simp
      · simp [hlast]
    · rw [swapWord_upper w (by omega), h b (by omega) heven, h (b + 2) (by omega) (by omega)]

/-- What is exchanged twice is as it was if and only if the upper half is zero. -/
theorem swapWord_twice_iff {w : Word} (hw : ∀ i, 32 ≤ i → i % 2 = 0 → w.getLsbD i = false) :
    swapWord (swapWord w) = w ↔ ∀ i, 32 ≤ i → w.getLsbD i = false := by
  have htwo {i : Nat} (hi : 32 ≤ i) : (swapWord (swapWord w)).getLsbD i = w.getLsbD (i + 2) := by
    rw [swapWord_upper _ hi, swapWord_upper _ (by omega)]
  constructor
  · intro htwice i hi
    rcases Nat.mod_two_eq_zero_or_one i with heven | hodd
    · exact hw i hi heven
    · refine getLsbD_eq_false_of_chain (fun j hj _ _ => ?_) hi hodd
      rw [← htwo hj, htwice]
  · intro hzero
    have hswap := (swapWord_swaps_iff w).mpr hw
    have hout (i : Nat) (hi : 32 ≤ i) (_ : i % 2 = 0) : (swapWord w).getLsbD i = false := by
      rw [swapWord_upper w hi]
      exact hzero (i + 1) (by omega)
    have hswap' := (swapWord_swaps_iff (swapWord w)).mpr hout
    refine BitVec.eq_of_getLsbD_eq fun i hi => ?_
    rcases Nat.mod_two_eq_zero_or_one i with heven | hodd
    · rw [(hswap' i hi heven).1, (hswap i hi heven).2]
    · obtain ⟨b, rfl⟩ : ∃ b, i = b + 1 := ⟨i - 1, by omega⟩
      rw [(hswap' b (by omega) (by omega)).2, (hswap b (by omega) (by omega)).1]

/-! ## All words -/

theorem swapFrom_apply (src : Nat → Word) (left i : Nat) (d0 : Nat → Word) (j : Nat) :
    swapFrom src left i d0 j =
      if i ≤ j ∧ j < i + left then swapWord (src j) else d0 j := by
  induction left generalizing i d0 with
  | zero => rw [swapFrom, if_neg (by omega)]
  | succ left ih =>
    rw [swapFrom, ih]
    by_cases hj : j = i
    · subst hj
      rw [if_neg (by omega), Function.update_self, if_pos (by omega)]
    · rw [Function.update_of_ne hj]
      by_cases hin : i + 1 ≤ j ∧ j < i + 1 + left
      · rw [if_pos hin, if_pos (by omega)]
      · rw [if_neg hin, if_neg (by omega)]

theorem swapSignMag_apply (src : Nat → Word) (len : UInt32) (dst0 : Nat → Word) {i : Nat}
    (hi : i < len.toNat / 8) : swapSignMag src len dst0 i = swapWord (src i) := by
  rw [swapSignMag, swapFrom_apply, if_pos ⟨Nat.zero_le i, by omega⟩]

/-- Nothing is written behind the last whole word. -/
theorem swapSignMag_behind (src : Nat → Word) (len : UInt32) (dst0 : Nat → Word) {i : Nat}
    (hi : len.toNat / 8 ≤ i) : swapSignMag src len dst0 i = dst0 i := by
  rw [swapSignMag, swapFrom_apply, if_neg (by omega)]

theorem swapped_iff (src dst0 : Nat → Word) (len : UInt32) :
    Swapped (len.toNat / 8) src (swapSignMag src len dst0) ↔
      ∀ n < len.toNat / 8, ∀ i, 32 ≤ i → i % 2 = 0 → (src n).getLsbD i = false := by
  refine forall₂_congr fun n hn => ?_
  rw [swapSignMag_apply src len dst0 hn]
  exact swapWord_swaps_iff (src n)

/-- The bits of every word are exchanged, and exchanged again they are as they were, if and only if
the upper half of every word is zero. -/
theorem swapSignMag_iff (src dst0 dst1 : Nat → Word) (len : UInt32) :
    (Swapped (len.toNat / 8) src (swapSignMag src len dst0) ∧
      ∀ n < len.toNat / 8, swapSignMag (swapSignMag src len dst0) len dst1 n = src n) ↔
      ∀ n < len.toNat / 8, ∀ i, 32 ≤ i → (src n).getLsbD i = false := by
  have htwice {n : Nat} (hn : n < len.toNat / 8) :
      swapSignMag (swapSignMag src len dst0) len dst1 n = swapWord (swapWord (src n)) := by
    rw [swapSignMag_apply _ _ _ hn, swapSignMag_apply _ _ _ hn]
  rw [swapped_iff]
  constructor
  · rintro ⟨hswap, hback⟩ n hn
    exact (swapWord_twice_iff (hswap n hn)).mp ((htwice hn).symm.trans (hback n hn))
  · intro hzero
    have hswap : ∀ n < len.toNat / 8, ∀ i, 32 ≤ i → i % 2 = 0 → (src n).getLsbD i = false :=
      fun n hn i hi _ => hzero n hn i hi
    exact ⟨hswap, fun n hn => (htwice hn).trans ((swapWord_twice_iff (hswap n hn)).mpr (hzero n hn))⟩

/-- Bit 32 of a word comes out at bit 31, and not at bit 33. -/
theorem upper_bit_lost :
    ¬Swapped 1 (fun _ => 0x100000000) (swapSignMag (fun _ => 0x100000000) 8 fun _ => 0) := by
  intro h
  have hpair := (h 0 Nat.one_pos 32 (by decide) rfl).2
  revert hpair
  decide

end Jive5ab.Dechannelizer
