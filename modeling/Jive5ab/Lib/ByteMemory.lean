import Jive5ab.Lib.LittleEndian

/-! # Bytes and words of a memory

A memory by the byte, and the same memory as 64-bit words counted from some address, which need
not be a multiple of eight. -/
namespace Jive5ab.Lib

abbrev ByteMem := Int → UInt8

namespace ByteMem

def wordAt (m : ByteMem) (a : Int) : BitVec 64 :=
  .ofNat 64 (ofBytes ((List.range 8).map fun i : Nat => m (a + i)))

/-- The words from address `a` on, and before it. -/
def words (m : ByteMem) (a : Int) : Int → BitVec 64 := fun j => m.wordAt (a + 8 * j)

def byteOf (w : BitVec 64) (i : Nat) : UInt8 := .ofNat (w.toNat / 256 ^ i)

/-- The bytes of words that are counted from address `a`. -/
def ofWords (w : Int → BitVec 64) (a : Int) : ByteMem :=
  fun x => byteOf (w ((x - a) / 8)) ((x - a) % 8).toNat

theorem wordAt_congr {m m' : ByteMem} {a : Int} (h : ∀ i : Nat, i < 8 → m (a + i) = m' (a + i)) :
    m.wordAt a = m'.wordAt a := by
  unfold wordAt
  congr 2
  exact List.map_congr_left fun i hi => h i (List.mem_range.mp hi)

theorem wordAt_zero {m : ByteMem} {a : Int} (h : ∀ i : Nat, i < 8 → m (a + i) = 0) :
    m.wordAt a = 0 := by
  have hconst : m.wordAt a = wordAt (fun _ => 0) a := wordAt_congr h
  rw [hconst]
  change BitVec.ofNat 64 (ofBytes ((List.range 8).map fun _ => 0)) = 0
  decide

theorem byteOf_wordAt (m : ByteMem) (a : Int) {i : Nat} (hi : i < 8) :
    byteOf (m.wordAt a) i = m (a + i) := by
  have hlt : ofBytes ((List.range 8).map fun i : Nat => m (a + i)) < 256 ^ 8 :=
    ofBytes_lt (by simp)
  have hmod : (256 : Nat) ^ 8 = 2 ^ 64 := by decide
  rw [byteOf, wordAt, BitVec.toNat_ofNat, Nat.mod_eq_of_lt (hmod ▸ hlt), ofNat_ofBytes_div _ (by simpa using hi)]
  simp

theorem ofWords_apply {w w' : Int → BitVec 64} {a x : Int} (h : w ((x - a) / 8) = w' ((x - a) / 8)) :
    ofWords w a x = ofWords w' a x := by
  unfold ofWords
  rw [h]

/-- A word that is not changed has the bytes it had. -/
theorem ofWords_words (m : ByteMem) (a x : Int) : ofWords (m.words a) a x = m x := by
  have hmod : (((x - a) % 8).toNat : Int) = (x - a) % 8 := Int.toNat_of_nonneg (by omega)
  rw [ofWords, words, byteOf_wordAt _ _ (by omega), hmod]
  congr 1
  omega

end ByteMem
end Jive5ab.Lib
