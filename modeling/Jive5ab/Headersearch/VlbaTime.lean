import Jive5ab.Headersearch.State
import Jive5ab.Lib.BitField
import Jive5ab.Lib.Crc
import Mathlib.Tactic.IntervalCases
import Mathlib.Tactic.NormNum

/-! # VLBA time codes

Twelve decimal digits: the last three of the day, five of the second, four of its
fraction. VLBA and Mark5B headers keep them in different places. -/
namespace Jive5ab.Headersearch
open Lib Lib.Calendar Vdif

/-! ## Digits in words -/

/-- `word |= ((v / 10^k) % 10) << off`, on an `int`. -/
def bcd (w : BitVec 32) (v : Int) (k off : Nat) : BitVec 32 :=
  w ||| BitVec.ofInt 32 ((v.tdiv (10 ^ k)).tmod 10) <<< off

/-- TMJD + Integer seconds -/
def timeWord (sec mjd : Int) : BitVec 32 :=
  let w := bcd 0 sec 0 0
  let w := bcd w sec 1 4
  let w := bcd w sec 2 8
  let w := bcd w sec 3 12
  let w := bcd w sec 4 16
  let w := bcd w mjd 0 20
  let w := bcd w mjd 1 24
  bcd w mjd 2 28

/-- Fractional seconds, room for the CRC. -/
def fractionWord (dms : Int) : BitVec 32 :=
  let w := bcd 0 dms 0 16
  let w := bcd w dms 1 20
  let w := bcd w dms 2 24
  bcd w dms 3 28

/-- The four decimals of a time, over its numerator and denominator cut to
`unsigned int`. -/
def deciMilliseconds (ss : ℚ≥0) : Nat := rationalCastUnsigned ((ss * 10000 : ℚ≥0) : ℚ)

def nibble (w : BitVec 32) (off : Nat) : Nat := BitField.get w off 4

/-- The bytes of a word on a big-endian machine. -/
def networkBytes (w : BitVec 32) : List Crc.Byte :=
  [24, 16, 8, 0].map fun s => (w >>> s).setWidth 8

def crc16Vlba (data : List Crc.Byte) : BitVec 32 := Crc.crc 16 0x8005 data

section
variable (w : BitVec 32) (v k : Nat) {off off' : Nat}

theorem bcd_eq : bcd w v k off = w ||| BitVec.ofNat 32 (v / 10 ^ k % 10) <<< off := by
  have hdigit : ((v : Int).tdiv (10 ^ k)).tmod 10 = ((v / 10 ^ k % 10 : ℕ) : Int) := by
    norm_cast
  unfold bcd
  rw [hdigit, BitVec.ofInt_natCast]

theorem nibble_bcd_self (hoff : off + 4 ≤ 32) :
    nibble (bcd w v k off) off = nibble w off ||| v / 10 ^ k % 10 := by
  unfold nibble
  rw [bcd_eq, BitField.get_or, BitField.get_ofNat_shiftLeft_self hoff (by omega)]

theorem nibble_bcd_apart (hapart : off + 4 ≤ off' ∨ off' + 4 ≤ off) :
    nibble (bcd w v k off) off' = nibble w off' := by
  have hdigit : v / 10 ^ k % 10 < 2 ^ 4 := by omega
  unfold nibble
  rw [bcd_eq, BitField.get_or, BitField.get_ofNat_shiftLeft_apart hdigit hapart, Nat.or_zero]

end

@[simp] theorem nibble_zero (off : Nat) : nibble 0#32 off = 0 := BitField.get_zero off 4

theorem nibble_timeWord_sec (sec mjd : Nat) {k : Nat} (hk : k < 5) :
    nibble (timeWord sec mjd) (4 * k) = sec / 10 ^ k % 10 := by
  unfold timeWord
  interval_cases k <;> simp [nibble_bcd_self, nibble_bcd_apart]

theorem nibble_timeWord_mjd (sec mjd : Nat) {k : Nat} (hk : k < 3) :
    nibble (timeWord sec mjd) (20 + 4 * k) = mjd / 10 ^ k % 10 := by
  unfold timeWord
  interval_cases k <;> simp [nibble_bcd_self, nibble_bcd_apart]

theorem nibble_fractionWord (dms : Nat) {k : Nat} (hk : k < 4) :
    nibble (fractionWord dms) (16 + 4 * k) = dms / 10 ^ k % 10 := by
  unfold fractionWord
  interval_cases k <;> simp [nibble_bcd_self, nibble_bcd_apart]

/-! ## The CRC behind the fraction -/

/-- The CRC leaves the digits alone. -/
theorem nibble_or_low (w c : BitVec 32) {off : Nat} (hoff : 16 ≤ off) :
    nibble (w ||| (c &&& 0xffff)) off = nibble w off := by
  have hzero : BitField.get (c &&& 0xffff) off 4 = 0 := by
    refine Nat.eq_of_testBit_eq fun j => ?_
    have hlow : (0xffff : BitVec 32).getLsbD (off + j) = false := by
      show Nat.testBit (2 ^ 16 - 1) (off + j) = false
      rw [Nat.testBit_two_pow_sub_one]
      exact decide_eq_false (by omega)
    rw [BitField.testBit_get, Nat.zero_testBit, BitVec.getLsbD_and, hlow, Bool.and_false,
      Bool.and_false]
  unfold nibble
  rw [BitField.get_or, hzero, Nat.or_zero]

theorem networkBytes_or_low {w c : BitVec 32} (hlow : ∀ i < 16, w.getLsbD i = false) :
    networkBytes (w ||| (c &&& 0xffff)) =
      [(w >>> 24).setWidth 8, (w >>> 16).setWidth 8, 0 ^^^ (c >>> 8).setWidth 8, c.setWidth 8] := by
  have hmask : ∀ i, (0xffff : BitVec 32).getLsbD i = decide (i < 16) := fun i => by
    show Nat.testBit (2 ^ 16 - 1) i = _
    rw [Nat.testBit_two_pow_sub_one]
  have hbyte : ∀ s, ((w ||| (c &&& 0xffff)) >>> s).setWidth 8 =
      if 16 ≤ s then (w >>> s).setWidth 8 else
        if s + 8 ≤ 16 then (c >>> s).setWidth 8 else ((w ||| (c &&& 0xffff)) >>> s).setWidth 8 := by
    intro s
    split
    · ext i hi
      rw [BitVec.getElem_setWidth, BitVec.getElem_setWidth, BitVec.getLsbD_ushiftRight,
        BitVec.getLsbD_ushiftRight, BitVec.getLsbD_or, BitVec.getLsbD_and, hmask,
        decide_eq_false (by omega), Bool.and_false, Bool.or_false]
    split
    · ext i hi
      rw [BitVec.getElem_setWidth, BitVec.getElem_setWidth, BitVec.getLsbD_ushiftRight,
        BitVec.getLsbD_ushiftRight, BitVec.getLsbD_or, BitVec.getLsbD_and, hmask, hlow _ (by omega),
        decide_eq_true (by omega), Bool.and_true, Bool.false_or]
    · rfl
  unfold networkBytes
  simp only [List.map_cons, List.map_nil, List.cons.injEq, and_true]
  refine ⟨hbyte 24, hbyte 16, ?_, ?_⟩
  · exact (hbyte 8).trans BitVec.zero_xor.symm
  · refine (hbyte 0).trans ?_
    rw [if_neg (by decide), if_pos (by decide), BitVec.ushiftRight_zero]

/-- What is put in the low half of the last word is added to the CRC. -/
theorem crc16_low {m : List Crc.Byte} {w c : BitVec 32} (hlow : ∀ i < 16, w.getLsbD i = false)
    (hc : c.toNat < 2 ^ 16) :
    crc16Vlba (m ++ networkBytes (w ||| (c &&& 0xffff))) = crc16Vlba (m ++ networkBytes w) ^^^ c := by
  have hzero : networkBytes w = [(w >>> 24).setWidth 8, (w >>> 16).setWidth 8, 0, 0] := by
    have hnone := networkBytes_or_low (c := 0#32) hlow
    rwa [BitVec.zero_and, BitVec.or_zero] at hnone
  have hsplit : ∀ a b c d : Crc.Byte, m ++ [a, b, c, d] = (m ++ [a, b]) ++ [c, d] := by
    intro a b c d
    rw [List.append_assoc]
    rfl
  rw [networkBytes_or_low hlow, hzero, hsplit, hsplit]
  exact Crc.crc_tail 16 0x8005 (Nat.le_add_left 8 8) le_rfl hc

theorem toNat_crc16_lt (data : List Crc.Byte) : (crc16Vlba data).toNat < 2 ^ 16 :=
  Crc.toNat_crc_lt 16 0x8005 (Nat.le_add_left 16 16) data

/-- With its CRC in the low half of its last word a message checks. -/
theorem crc16_own {m : List Crc.Byte} {w : BitVec 32} (hlow : ∀ i < 16, w.getLsbD i = false) :
    crc16Vlba (m ++ networkBytes (w ||| (crc16Vlba (m ++ networkBytes w) &&& 0xffff))) = 0 := by
  rw [crc16_low hlow (toNat_crc16_lt _)]
  exact BitVec.xor_self

theorem getLsbD_bcd (w : BitVec 32) (v : Int) (k : Nat) {off i : Nat} (hi : i < off) :
    (bcd w v k off).getLsbD i = w.getLsbD i := by
  unfold bcd
  rw [BitVec.getLsbD_or, BitVec.getLsbD_shiftLeft, decide_eq_true hi, Bool.not_true, Bool.and_false,
    Bool.false_and, Bool.or_false]

theorem fractionWord_low (dms : Int) {i : Nat} (hi : i < 16) :
    (fractionWord dms).getLsbD i = false := by
  unfold fractionWord
  rw [getLsbD_bcd _ _ _ (by omega), getLsbD_bcd _ _ _ (by omega), getLsbD_bcd _ _ _ (by omega),
    getLsbD_bcd _ _ _ (by omega)]
  exact BitVec.getLsbD_zero

/-! ## The time code -/

/-- The digits of a header, lowest first. -/
structure VlbaDigits where
  j : Fin 3 → Nat
  s : Fin 5 → Nat
  ss : Fin 4 → Nat

section
attribute [local instance] neZero_three

/-- `current_mjd` is the day of the host's clock. -/
def decodeVlbaTimestamp (currentMjd : Int) (ts : VlbaDigits) : HighResTime :=
  let sec := 10000 * ts.s 4 + 1000 * ts.s 3 + 100 * ts.s 2 + 10 * ts.s 1 + ts.s 0
  let nsec := 100000000 * ts.ss 3 + 10000000 * ts.ss 2 + 1000000 * ts.ss 1 + 100000 * ts.ss 0
  let mday : Int := (100 * ts.j 2 + 10 * ts.j 1 + ts.j 0 : ℕ) + currentMjd - currentMjd.tmod 1000
  -- if we end up in the future, dat ain't good
  let mday := if mday > currentMjd then mday - 1000 else mday
  .normalize (mktime ⟨70, 0, mday - 40587 + 1, (sec / 3600 : ℕ), (sec % 3600 / 60 : ℕ),
    (sec % 3600 % 60 : ℕ)⟩) (nsec / 1000000000)

end

def mjdOf (tvSec : Int) : Int := 40587 + tvSec.tdiv 86400

/-- The digits an encoder takes from a time. -/
def VlbaDigits.of (sec mjd dms : Nat) : VlbaDigits where
  j k := mjd / 10 ^ (k : ℕ) % 10
  s k := sec / 10 ^ (k : ℕ) % 10
  ss k := dms / 10 ^ (k : ℕ) % 10

theorem mktime_epoch (mday hour min sec : Int) :
    mktime ⟨70, 0, mday, hour, min, sec⟩ = (mday - 1) * 86400 + hour * 3600 + min * 60 + sec := by
  have hyear : daysBeforeYear (70 + 1900) = 0 := by decide
  have hmon : monthStart (isLeap (70 + 1900)) 0 = 0 := by decide
  unfold mktime
  dsimp only
  rw [hyear, hmon]
  omega

/-- The day is right when it is one of the last thousand. -/
theorem decodeVlba_of {t currentMjd : Int} (h0 : 0 ≤ t) (hle : mjdOf t ≤ currentMjd)
    (hlt : currentMjd < mjdOf t + 1000) (dms : Nat) :
    decodeVlbaTimestamp currentMjd (.of (t.tmod 86400).toNat (mjdOf t).toNat dms) =
      .normalize t ((dms % 10000 : ℕ) / 10000) := by
  obtain ⟨n, rfl⟩ := Int.eq_ofNat_of_zero_le h0
  have hmjd : mjdOf n = ((40587 + n / 86400 : ℕ) : Int) := by
    unfold mjdOf
    rw [Int.tdiv_eq_ediv_of_nonneg h0]
    omega
  have hsec : ((n : Int).tmod 86400).toNat = n % 86400 := by
    rw [Int.tmod_eq_emod_of_nonneg h0]
    omega
  rw [hmjd] at hle hlt ⊢
  have hmod : currentMjd.tmod 1000 = currentMjd % 1000 := Int.tmod_eq_emod_of_nonneg (by omega)
  rw [hsec, Int.toNat_natCast]
  generalize hday : n / 86400 = day at hle hlt ⊢
  generalize hrest : n % 86400 = rest
  have hseconds : 10000 * (rest / 10 ^ 4 % 10) + 1000 * (rest / 10 ^ 3 % 10) +
      100 * (rest / 10 ^ 2 % 10) + 10 * (rest / 10 ^ 1 % 10) + rest / 10 ^ 0 % 10 = rest := by
    have hrest' : rest < 10 ^ (4 + 1) := by omega
    have hfive := Nat.mod_eq_of_lt hrest'
    rw [Nat.mod_pow_succ, ← four_digits] at hfive
    refine Eq.trans ?_ hfive
    ring
  have hdays : ((100 * ((40587 + day) / 10 ^ 2 % 10) + 10 * ((40587 + day) / 10 ^ 1 % 10) +
      (40587 + day) / 10 ^ 0 % 10 : ℕ) : Int) = (40587 + day) % 1000 := by
    rw [three_digits]
    rfl
  have hfraction : ((100000000 * (dms / 10 ^ 3 % 10) + 10000000 * (dms / 10 ^ 2 % 10) +
      1000000 * (dms / 10 ^ 1 % 10) + 100000 * (dms / 10 ^ 0 % 10) : ℕ) : ℚ≥0) / 1000000000 =
        ((dms % 10000 : ℕ) : ℚ≥0) / 10000 := by
    have hnat : 100000000 * (dms / 10 ^ 3 % 10) + 10000000 * (dms / 10 ^ 2 % 10) +
        1000000 * (dms / 10 ^ 1 % 10) + 100000 * (dms / 10 ^ 0 % 10) = dms % 10 ^ 4 * 100000 := by
      rw [← four_digits]
      ring
    rw [hnat]
    push_cast
    rw [div_eq_div_iff (by norm_num) (by norm_num)]
    ring
  have hclock : (n : Int) = day * 86400 + rest := by
    rw [← hday, ← hrest]
    exact_mod_cast (Nat.div_add_mod' n 86400).symm
  have hthree : ((3 : Fin 5) : ℕ) = 3 ∧ ((4 : Fin 5) : ℕ) = 4 ∧ ((3 : Fin 4) : ℕ) = 3 := by decide
  obtain ⟨hs3, hs4, hss3⟩ := hthree
  unfold decodeVlbaTimestamp VlbaDigits.of
  simp only [Fin.val_zero, Fin.val_one, Fin.val_two, hs3, hs4, hss3]
  rw [hmod, hseconds, hdays, hfraction, mktime_epoch, hclock]
  congr 1
  have hrests : ((rest / 3600 : ℕ) : Int) * 3600 + (rest % 3600 / 60 : ℕ) * 60 +
      (rest % 3600 % 60 : ℕ) = rest := by exact_mod_cast clock_seconds rest
  clear hseconds hdays hfraction hclock hday hrest hsec hmjd hmod h0 hs3 hs4 hss3
  generalize ((rest / 3600 : ℕ) : Int) = hours at hrests ⊢
  generalize ((rest % 3600 / 60 : ℕ) : Int) = minutes at hrests ⊢
  generalize ((rest % 3600 % 60 : ℕ) : Int) = seconds at hrests ⊢
  split <;> omega

end Jive5ab.Headersearch
