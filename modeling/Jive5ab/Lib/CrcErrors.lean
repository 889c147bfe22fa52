import Jive5ab.Lib.CrcPolynomial

/-! # What a cyclic redundancy check detects

What flipped in a message that still has its CRC is a multiple of the generator. If the generator
ends in 1 then a burst of errors no longer than the register is no such multiple, nor are two errors
closer to each other than the register takes to come back to 1; if it has an even number of terms
then neither is an odd number of errors. -/
namespace Jive5ab.Lib.Crc
open Polynomial

/-! ## The bits of a message -/

/-- The last bit of a message is the first. -/
def messageBit (data : List Byte) (i : Nat) : Bool := (data.reverse.getD (i / 8) 0).getLsbD (i % 8)

/-- The places of the bits that are 1. -/
def setBits (data : List Byte) : Finset Nat :=
  (Finset.range (8 * data.length)).filter fun i => messageBit data i = true

/-- The places at which messages of one length differ. -/
def flips (as bs : List Byte) : Finset Nat := setBits (as.zipWith (· ^^^ ·) bs)

theorem coeff_messagePoly (data : List Byte) (i : Nat) :
    (messagePoly data).coeff i = bit (messageBit data i) := by
  induction data using List.reverseRecOn generalizing i with
  | nil =>
    show (0 : (ZMod 2)[X]).coeff i = _
    simp [messageBit, bit]
  | append_singleton data b ih =>
    rw [messagePoly_append, coeff_add, coeff_mul_X_pow', bytePoly, coeff_polyOf, messageBit,
      List.reverse_append, List.reverse_singleton, List.singleton_append]
    by_cases hi : i < 8
    · rw [if_neg (Nat.not_le.mpr hi), if_pos hi, zero_add, Nat.div_eq_of_lt hi, Nat.mod_eq_of_lt hi]
      rfl
    · have hdiv : i / 8 = (i - 8) / 8 + 1 := by omega
      have hmod : i % 8 = (i - 8) % 8 := by omega
      rw [if_pos (Nat.not_lt.mp hi), if_neg hi, add_zero, ih, hdiv, hmod]
      rfl

theorem messageBit_getElem {data : List Byte} {j : Nat} (hj : j < data.length) (t : Nat) (ht : t < 8) :
    messageBit data (8 * (data.length - 1 - j) + t) = data[j].getLsbD t := by
  have hdiv : (8 * (data.length - 1 - j) + t) / 8 = data.length - 1 - j := by omega
  have hmod : (8 * (data.length - 1 - j) + t) % 8 = t := by omega
  have hplace : data.length - 1 - (data.length - 1 - j) = j := by omega
  rw [messageBit, hdiv, hmod, List.getD_eq_getElem _ _ (by rw [List.length_reverse]; omega),
    List.getElem_reverse]
  simp only [hplace]

/-- Messages of one length are their bits. -/
theorem eq_of_messageBit {as bs : List Byte} (hlen : as.length = bs.length)
    (h : ∀ i, messageBit as i = messageBit bs i) : as = bs := by
  refine List.ext_getElem hlen fun j ha hb => BitVec.eq_of_getLsbD_eq fun t ht => ?_
  rw [← messageBit_getElem ha t ht, ← messageBit_getElem hb t ht, hlen]
  exact h _

theorem messageBit_outside {data : List Byte} {i : Nat} (hi : 8 * data.length ≤ i) :
    messageBit data i = false := by
  rw [messageBit, List.getD_eq_default _ _ (by rw [List.length_reverse]; omega)]
  exact BitVec.getLsbD_zero

theorem mem_setBits {data : List Byte} {i : Nat} : i ∈ setBits data ↔ messageBit data i = true := by
  rw [setBits, Finset.mem_filter, Finset.mem_range]
  refine and_iff_right_of_imp fun h => Nat.lt_of_not_le fun hi => ?_
  rw [messageBit_outside hi] at h
  cases h

theorem messagePoly_eq (data : List Byte) : messagePoly data = ∑ i ∈ setBits data, X ^ i := by
  ext i
  rw [coeff_messagePoly, finsetSum_coeff]
  simp only [coeff_X_pow]
  rw [Finset.sum_ite_eq]
  simp only [mem_setBits]
  rfl

theorem messageBit_xor {as bs : List Byte} (hlen : as.length = bs.length) (i : Nat) :
    messageBit (as.zipWith (· ^^^ ·) bs) i = (messageBit as i ^^ messageBit bs i) := by
  rw [messageBit, messageBit, messageBit, List.reverse_zipWith hlen]
  by_cases hi : i / 8 < as.length
  · have has : i / 8 < as.reverse.length := by rwa [List.length_reverse]
    have hbs : i / 8 < bs.reverse.length := by rwa [List.length_reverse, ← hlen]
    rw [List.getD_eq_getElem _ _ has, List.getD_eq_getElem _ _ hbs, ← BitVec.getLsbD_xor,
      List.getD_eq_getElem _ _ (by rw [List.length_zipWith]; omega), List.getElem_zipWith]
  · have has : as.reverse.length ≤ i / 8 := by rw [List.length_reverse]; omega
    have hbs : bs.reverse.length ≤ i / 8 := by rw [List.length_reverse]; omega
    rw [List.getD_eq_default _ _ has, List.getD_eq_default _ _ hbs,
      List.getD_eq_default _ _ (by rw [List.length_zipWith]; omega)]
    rw [Bool.xor_self]
    exact BitVec.getLsbD_zero

theorem eq_of_flips {as bs : List Byte} (hlen : as.length = bs.length) (h : flips as bs = ∅) :
    as = bs := by
  refine eq_of_messageBit hlen fun i => ?_
  have hbit : ¬messageBit (as.zipWith (· ^^^ ·) bs) i = true := by
    rw [← mem_setBits, ← flips, h]
    exact Finset.notMem_empty i
  rw [messageBit_xor hlen] at hbit
  revert hbit
  cases messageBit as i <;> cases messageBit bs i <;> decide

/-! ## Bursts -/

variable {width : Nat} {key : BitVec 32} {e : List Byte}

theorem coprime_X (hpos : 0 < width) (hkey : key.getLsbD 0 = true) (k : Nat) :
    IsCoprime (generator width key) (X ^ k) := by
  refine IsCoprime.pow_right ⟨1, -(generator width key).divX, ?_⟩
  have hzero : (generator width key).coeff 0 = 1 := by
    rw [generator, coeff_add, coeff_X_pow, if_neg (Nat.ne_of_lt hpos), regPoly, coeff_polyOf,
      if_pos hpos, hkey]
    exact zero_add 1
  have hsplit := divX_mul_X_add (generator width key)
  rw [hzero, C_1] at hsplit
  linear_combination -hsplit

theorem setBits_of_burst (h8 : 8 ≤ width) (hlt : width + 8 ≤ 32) (hkey : key.getLsbD 0 = true)
    (h : crc width key e = 0) (hburst : ∀ i ∈ setBits e, ∀ j ∈ setBits e, j < i + width) :
    setBits e = ∅ := by
  refine Finset.not_nonempty_iff_eq_empty.mp fun hsome => ?_
  obtain ⟨k, hk, hfirst⟩ : ∃ k ∈ setBits e, ∀ i ∈ setBits e, k ≤ i :=
    ⟨_, Finset.min'_mem _ hsome, fun i hi => Finset.min'_le _ i hi⟩
  -- the errors, counted from where they start
  set errors := polyOf width fun i => messageBit e (k + i) with herrors
  have hshift : messagePoly e = X ^ k * errors := by
    ext i
    rw [coeff_messagePoly, coeff_X_pow_mul', herrors, coeff_polyOf]
    by_cases hi : messageBit e i = true
    · have hle := hfirst i (mem_setBits.mpr hi)
      have hend := hburst k hk i (mem_setBits.mpr hi)
      rw [if_pos hle, if_pos (by omega), Nat.add_sub_cancel' hle]
    · rw [Bool.not_eq_true] at hi
      split
      · rename_i hle
        rw [Nat.add_sub_cancel' hle, hi]
        exact (ite_self _).symm
      · rw [hi]
        rfl
  have hdvd : generator width key ∣ errors := by
    refine (coprime_X (by omega) hkey k).dvd_of_dvd_mul_left ?_
    rw [← hshift]
    exact (crc_eq_zero_iff h8 hlt e).mp h
  have hnone : errors = 0 := by
    refine eq_zero_of_dvd_of_degree_lt hdvd ?_
    rw [degree_generator]
    exact degree_polyOf _ _
  have hbit := coeff_messagePoly e k
  rw [hshift, hnone, mul_zero, mem_setBits.mp hk, coeff_zero] at hbit
  exact zero_ne_one hbit

/-! ## Parity -/

theorem eval_polyOf (n : Nat) (f : Nat → Bool) :
    (polyOf n f).eval 1 = (((List.range n).countP f : Nat) : ZMod 2) := by
  induction n with
  | zero => simp [polyOf]
  | succ n ih =>
    rw [polyOf, Finset.sum_range_succ, eval_add, ← polyOf, ih, List.range_succ, List.countP_append,
      Nat.cast_add]
    cases hf : f n <;> simp [bit, hf]

/-- The register has an odd number of terms of the generator, the bit above it is one more. -/
theorem card_setBits_even (h8 : 8 ≤ width) (hlt : width + 8 ≤ 32)
    (hkey : (List.range width).countP key.getLsbD % 2 = 1) (h : crc width key e = 0) :
    (setBits e).card % 2 = 0 := by
  have hroot : (generator width key).eval 1 = 0 := by
    have hodd : (((List.range width).countP key.getLsbD : Nat) : ZMod 2) = 1 := by
      rw [← ZMod.natCast_mod, hkey, Nat.cast_one]
    rw [generator, eval_add, eval_pow, eval_X, one_pow, regPoly, eval_polyOf, hodd]
    exact CharTwo.add_self_eq_zero 1
  obtain ⟨q, hq⟩ := (crc_eq_zero_iff h8 hlt e).mp h
  have hsum := congrArg (eval 1) hq
  rw [eval_mul, hroot, zero_mul, messagePoly_eq, eval_finsetSum] at hsum
  simp only [eval_pow, eval_X, one_pow, Finset.sum_const, nsmul_eq_mul, mul_one] at hsum
  exact Nat.mod_eq_zero_of_dvd ((ZMod.natCast_eq_zero_iff _ 2).mp hsum)

/-! ## Two errors -/

/-- No power of `x` up to the `n`th is 1, times what is in the register. -/
def neverOne (width : Nat) (key : BitVec 32) : Nat → BitVec 32 → Bool
  | 0, _ => true
  | n + 1, reg => (shift width key reg).setWidth width != BitVec.ofNat width 1 &&
      neverOne width key n (shift width key reg)

theorem neverOne_shifts {n d : Nat} {reg : BitVec 32} (h : neverOne width key n reg = true)
    (hpos : 0 < d) (hd : d ≤ n) :
    (shifts width key d reg).setWidth width ≠ BitVec.ofNat width 1 := by
  induction n generalizing d reg with
  | zero => omega
  | succ n ih =>
    obtain ⟨hfirst, hrest⟩ := Bool.and_eq_true_iff.mp h
    cases d with
    | zero => exact absurd hpos (Nat.lt_irrefl 0)
    | succ d =>
      cases d with
      | zero => exact bne_iff_ne.mp hfirst
      | succ d =>
        exact @ih (d + 1) (shift width key reg) hrest (Nat.succ_pos d) (Nat.le_of_succ_le_succ hd)

theorem regPoly_one {width : Nat} (hpos : 0 < width) : regPoly width 1 = 1 := by
  ext i
  rw [regPoly, coeff_polyOf, coeff_one]
  cases i with
  | zero =>
    rw [if_pos hpos, if_pos rfl]
    rfl
  | succ i =>
    rw [if_neg (Nat.succ_ne_zero i)]
    simp [bit]

theorem card_setBits_ne_two (h8 : 8 ≤ width) (hlt : width + 8 ≤ 32) (hkey : key.getLsbD 0 = true)
    {n : Nat} (hn : neverOne width key n 1 = true) (hlen : 8 * e.length ≤ n + 1)
    (h : crc width key e = 0) : (setBits e).card ≠ 2 := by
  intro hcard
  obtain ⟨i, j, hij, hset⟩ : ∃ i j, i < j ∧ setBits e = {i, j} := by
    obtain ⟨i, j, hne, hset⟩ := Finset.card_eq_two.mp hcard
    rcases Nat.lt_or_gt_of_ne hne with hlt | hgt
    · exact ⟨i, j, hlt, hset⟩
    · exact ⟨j, i, hgt, by rw [hset, Finset.pair_comm]⟩
  have hj : j < 8 * e.length := by
    have hmem : j ∈ setBits e := by rw [hset]; simp
    rw [setBits, Finset.mem_filter, Finset.mem_range] at hmem
    exact hmem.1
  have hpoly : messagePoly e = X ^ i * (X ^ (j - i) + 1) := by
    rw [messagePoly_eq, hset, Finset.sum_pair (Nat.ne_of_lt hij), mul_add, mul_one, ← pow_add,
      Nat.add_sub_cancel' (Nat.le_of_lt hij), add_comm]
  have hdvd : generator width key ∣ X ^ (j - i) + 1 := by
    refine (coprime_X (by omega) hkey i).dvd_of_dvd_mul_left ?_
    rw [← hpoly]
    exact (crc_eq_zero_iff h8 hlt e).mp h
  have hone : regPoly width 1 = 1 := regPoly_one (by omega)
  have hback : regPoly width (shifts width key (j - i) 1 ^^^ 1) = regPoly width 0 := by
    have hmultiple : generator width key ∣ regPoly width (shifts width key (j - i) 1 ^^^ 1) := by
      have hsum := dvd_add (dvd_shifts key (by omega) (by omega) (j - i) 1) hdvd
      rwa [hone, mul_one, ← add_assoc, sub_add_cancel, ← hone, ← regPoly_xor] at hsum
    rw [regPoly_zero]
    refine eq_zero_of_dvd_of_degree_lt hmultiple ?_
    rw [degree_generator]
    exact degree_polyOf _ _
  have hshifts : (shifts width key (j - i) 1).setWidth width = BitVec.ofNat width 1 := by
    refine BitVec.eq_of_getLsbD_eq fun t ht => ?_
    have hbit := polyOf_injective hback ht
    rw [BitVec.getLsbD_xor] at hbit
    have hsame : (shifts width key (j - i) 1).getLsbD t = (1#32).getLsbD t := by
      revert hbit
      show (_ ^^ (1#32).getLsbD t) = (0#32).getLsbD t → _
      rw [BitVec.getLsbD_zero]
      exact bne_eq_false_iff_eq.mp
    rw [BitVec.getLsbD_setWidth, hsame, BitVec.getLsbD_one, BitVec.getLsbD_one]
    simp [ht]
    omega
  exact neverOne_shifts hn (by omega) (by omega) hshifts

/-! ## Messages with one CRC -/

/-- Few errors, an odd number of them, or none that is further than the register from another. -/
def Slight (width : Nat) (errors : Finset Nat) : Prop :=
  errors.card ≤ 3 ∨ errors.card % 2 = 1 ∨ ∀ i ∈ errors, ∀ j ∈ errors, j < i + width

instance (width : Nat) (errors : Finset Nat) : Decidable (Slight width errors) :=
  inferInstanceAs (Decidable (_ ∨ _ ∨ _))

/-- What a generator has to be to notice these, in messages of `n + 1` bits. -/
structure Notices (width : Nat) (key : BitVec 32) (n : Nat) : Prop where
  lower : 8 ≤ width
  upper : width + 8 ≤ 32
  low : key.getLsbD 0 = true
  odd : (List.range width).countP key.getLsbD % 2 = 1
  period : neverOne width key n 1 = true

theorem Notices.eq_of_crc_eq {n : Nat} (hg : Notices width key n) {as bs : List Byte}
    (hlen : as.length = bs.length) (hn : 8 * as.length ≤ n + 1)
    (h : crc width key as = crc width key bs) (hslight : Slight width (flips as bs)) : as = bs := by
  have hzero : crc width key (as.zipWith (· ^^^ ·) bs) = 0 := by
    rw [crc_xor width key hlen, h]
    exact BitVec.xor_self
  have heven : (flips as bs).card % 2 = 0 := card_setBits_even hg.lower hg.upper hg.odd hzero
  refine eq_of_flips hlen ?_
  rcases hslight with hfew | hodd | hburst
  · have htwo : (flips as bs).card ≠ 2 := by
      refine card_setBits_ne_two hg.lower hg.upper hg.low hg.period ?_ hzero
      rw [List.length_zipWith]
      omega
    exact Finset.card_eq_zero.mp (by omega)
  · omega
  · exact setBits_of_burst hg.lower hg.upper hg.low hzero hburst

end Jive5ab.Lib.Crc
