import Jive5ab.Headersearch.Mark4
import Jive5ab.Headersearch.VlbaTime
import Jive5ab.Lib.CrcPolynomial

/-! # The CRCs of tape headers

The two CRCs, of 12 bits for Mark4 and of 16 bits for VLBA and Mark5B, as polynomial division.
The table does not multiply the message by `x ^ width`: the formats do, when they compute the CRC
of a header with zeros in its place. -/
namespace Jive5ab.Headersearch
open Lib Lib.Crc Polynomial

/-- What a CRC is to the generator: the remainder of the message, which is zero for the multiples of
the generator; over zeros the remainder of the message before them, times `x ^ width`; and with
anything else in the place of these zeros, it is zero for this remainder only. -/
structure Divides (width : Nat) (key : BitVec 32) (crc : List Crc.Byte → BitVec 32) : Prop where
  remainder : ∀ m, (crc m).toNat < 2 ^ width ∧
    regPoly width (crc m) = messagePoly m %ₘ generator width key
  checks : ∀ m, crc m = 0 ↔ generator width key ∣ messagePoly m
  appended : ∀ pre (b : Crc.Byte), (∀ i < width - 8, b.getLsbD i = false) →
    regPoly width (crc (pre ++ [b, 0])) =
      (payloadPoly width pre b * X ^ width) %ₘ generator width key
  received : ∀ pre (b : Crc.Byte), (∀ i < width - 8, b.getLsbD i = false) → ∀ c : BitVec 32,
    c.toNat < 2 ^ width → (crc (pre ++ [b ^^^ (c >>> 8).setWidth 8, c.setWidth 8]) = 0 ↔
      regPoly width c = (payloadPoly width pre b * X ^ width) %ₘ generator width key)

theorem divides_crc {width : Nat} {key : BitVec 32} (h8 : 8 ≤ width) (h16 : width ≤ 16) :
    Divides width key (Crc.crc width key) where
  remainder m := ⟨toNat_crc_lt width key (by omega) m, regPoly_crc h8 (by omega) m⟩
  checks := crc_eq_zero_iff h8 (by omega)
  appended pre _ hroom := regPoly_crc_room h8 h16 pre hroom
  received pre _ hroom _ hc := crc_room_eq_zero_iff h8 h16 pre hroom hc

theorem tapeCrc_divides : Divides 12 0x80f crc12Mark4 ∧ Divides 16 0x8005 crc16Vlba :=
  ⟨divides_crc (by decide) (by decide), divides_crc (by decide) (by decide)⟩

/-- The message of one byte that is 1 is its own remainder; times `x ^ 16` it is not. -/
theorem tapeCrc_not_shifted : crc16Vlba [1] = 1 ∧
    regPoly 16 (crc16Vlba [1]) ≠ (messagePoly [1] * X ^ 16) %ₘ generator 16 0x8005 := by
  have hone : crc16Vlba [1] = 1 := by decide +kernel
  have hshifted : Crc.crc 16 0x8005 ([1] ++ [0, 0]) = 0x8005 := by decide +kernel
  have hpayload : payloadPoly 16 [1] 0 = messagePoly [1] := by
    rw [payloadPoly, Nat.sub_self, pow_zero, mul_one, polyOf, Finset.range_zero, Finset.sum_empty,
      add_zero]
  refine ⟨hone, fun h => ?_⟩
  rw [hone, ← hpayload, ← regPoly_crc_room (by decide) (by decide) [1] (by simp), hshifted] at h
  have heq := regPoly_injective (by decide) (by decide) h
  exact absurd heq (by decide)

end Jive5ab.Headersearch
