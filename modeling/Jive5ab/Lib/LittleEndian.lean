import Mathlib

/-! # Words in memory

A word of `n` bytes as the bytes a little-endian machine stores, and back. -/
namespace Jive5ab.Lib

def toBytes (n : Nat) (v : Nat) : List UInt8 := (List.range n).map fun i => .ofNat (v / 256 ^ i)

def ofBytes : List UInt8 → Nat
  | [] => 0
  | b :: bs => b.toNat + 256 * ofBytes bs

@[simp] theorem length_toBytes (n v : Nat) : (toBytes n v).length = n := by simp [toBytes]

theorem toBytes_succ (n v : Nat) : toBytes (n + 1) v = .ofNat v :: toBytes n (v / 256) := by
  unfold toBytes
  rw [List.range_succ_eq_map, List.map_cons, List.map_map]
  congr 1
  · simp
  · refine List.map_congr_left fun i _ => ?_
    show UInt8.ofNat (v / 256 ^ (i + 1)) = UInt8.ofNat (v / 256 / 256 ^ i)
    rw [Nat.div_div_eq_div_mul, Nat.pow_succ']

theorem ofBytes_toBytes (n v : Nat) : ofBytes (toBytes n v) = v % 256 ^ n := by
  induction n generalizing v with
  | zero => simp [toBytes, ofBytes, Nat.mod_one]
  | succ n ih =>
    have hpow : 256 ^ (n + 1) = 256 * 256 ^ n := Nat.pow_succ'
    rw [toBytes_succ, ofBytes, ih, UInt8.toNat_ofNat', hpow]
    exact Nat.mod_mul.symm

/-- The bytes of the value are those it was made of. -/
theorem ofNat_ofBytes_div (bs : List UInt8) {i : Nat} (hi : i < bs.length) :
    UInt8.ofNat (ofBytes bs / 256 ^ i) = bs[i] := by
  induction bs generalizing i with
  | nil => simp at hi
  | cons b bs ih =>
    have hb := b.toNat_lt
    cases i with
    | zero =>
      rw [Nat.pow_zero, Nat.div_one, ofBytes, List.getElem_cons_zero, ← UInt8.toNat_inj,
        UInt8.toNat_ofNat']
      omega
    | succ i =>
      have hdiv : (b.toNat + 256 * ofBytes bs) / 256 = ofBytes bs := by omega
      rw [ofBytes, Nat.pow_succ', ← Nat.div_div_eq_div_mul, hdiv, List.getElem_cons_succ]
      exact ih _

theorem ofBytes_lt {bs : List UInt8} {n : Nat} (h : bs.length = n) : ofBytes bs < 256 ^ n := by
  subst h
  induction bs with
  | nil => simp [ofBytes]
  | cons b bs ih =>
    have hb := b.toNat_lt
    rw [List.length_cons, Nat.pow_succ', ofBytes]
    omega

end Jive5ab.Lib
