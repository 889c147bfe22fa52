import Jive5ab.Constraints.Soundness
import Jive5ab.Trackmask.SizesBothWays

/-! # Read sizes and write sizes

The sizes in bytes before and after compression, without the 32 bits, and when the
code computes just these. -/
namespace Jive5ab.Constraints
open Trackmask Trackmask.Solution

/-- What is sent when `n` bytes are read, `offset` of them not compressed. -/
def writeBytes (s : Solution) (offset n : Nat) : Nat :=
  if compressing s then 8 * s.compressedWords ((n - offset) / 8) + offset else n

/-- The largest number of bytes that are sent as `n`. -/
def readBytes (s : Solution) (offset n : Nat) : Nat :=
  if compressing s then 8 * s.fittingWords ((n - offset) / 8) + offset else n

theorem fromSolver_of_built {s : Solution}
    (h : s = .empty ∨ ∃ mask, Built mask s ∧ s.complete = true) : FromSolver s := by
  rcases h with rfl | ⟨mask, hs, hc⟩
  · exact .inl rfl
  · exact .inr ⟨mask, hs.solved hc⟩

theorem compressedWords_mono {mask : Word} {s : Solution} (hs : Solved mask s) {k n : Nat}
    (h : k ≤ n) : s.compressedWords k ≤ s.compressedWords n := by
  rw [hs.compressedWords_le_iff]
  exact Nat.le_trans h ((hs.compressedWords_le_iff n _).mp (Nat.le_refl _))

theorem writeBytes_mono {s : Solution} (hs : FromSolver s) (offset : Nat) {k n : Nat} (h : k ≤ n) :
    writeBytes s offset k ≤ writeBytes s offset n := by
  unfold writeBytes
  split
  · rename_i hc
    obtain ⟨mask, hsolved⟩ := hs.solved hc
    have hwords := compressedWords_mono hsolved
      (Nat.div_le_div_right (Nat.sub_le_sub_right h offset) : (k - offset) / 8 ≤ (n - offset) / 8)
    omega
  · exact h

/-- What `compressed_size` computes. -/
theorem compressedSize_eq {s : Solution} (hs : FromSolver s) {n : UInt32}
    (h8 : compressing s = true → n.toNat % 8 = 0) : ∃ r, compressedSize n s = .ok r ∧
      r.toNat = if compressing s then 8 * s.compressedWords (n.toNat / 8) else n.toNat := by
  unfold compressedSize
  split
  · rename_i hc
    obtain ⟨mask, hsolved⟩ := hs.solved hc
    have hn8 : n % 8 = 0 := by
      rw [← UInt32.toNat_inj, UInt32.toNat_mod]
      exact h8 hc
    have hlt := n.toNat_lt
    have hdiv : (n / 8).toNat = n.toNat / 8 := UInt32.toNat_div n 8
    have hle := hsolved.compressedWords_le (n.toNat / 8)
    rw [if_pos hn8, hdiv, hsolved.outputsize_eq, Nat.mod_eq_of_lt (by omega)]
    have hword : (UInt32.ofNat (s.compressedWords (n.toNat / 8))).toNat =
        s.compressedWords (n.toNat / 8) :=
      UInt32.toNat_ofNat_of_lt' (by rw [UInt32.size]; omega)
    refine ⟨_, rfl, ?_⟩
    rw [toNat_mul_eight (by omega), hword, Nat.mul_comm]
  · exact ⟨n, rfl, rfl⟩

end Jive5ab.Constraints
