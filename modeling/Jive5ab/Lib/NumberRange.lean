import Mathlib

/-! # What a sequence of numbers leaves out

Numbers in any order, with the lowest and the highest of them: how many in between never came, and
what a counter of 64 bits makes of it that knows only the two ends and how many came. -/
namespace Jive5ab.Lib

/-- The two ends of the numbers in a list. -/
structure IsRange (l : List Nat) (lo hi : Nat) : Prop where
  lo_mem : lo ∈ l
  hi_mem : hi ∈ l
  lo_le : ∀ x ∈ l, lo ≤ x
  le_hi : ∀ x ∈ l, x ≤ hi

/-- How many from `lo` to `hi` are not in the list. -/
def missing (l : List Nat) (lo hi : Nat) : Nat := (Finset.Icc lo hi \ l.toFinset).card

/-- How many elements are there again. -/
def duplicates (l : List Nat) : Nat := l.length - l.toFinset.card

theorem isRange_singleton (n : Nat) : IsRange [n] n n :=
  ⟨List.mem_singleton_self n, List.mem_singleton_self n, by simp, by simp⟩

variable {l : List Nat} {lo hi : Nat}

theorem IsRange.append (h : IsRange l lo hi) (n : Nat) :
    IsRange (l ++ [n]) (min lo n) (max hi n) where
  lo_mem := by
    rcases Nat.le_total lo n with hle | hle
    · rw [Nat.min_eq_left hle]
      exact List.mem_append_left _ h.lo_mem
    · rw [Nat.min_eq_right hle]
      simp
  hi_mem := by
    rcases Nat.le_total hi n with hle | hle
    · rw [Nat.max_eq_right hle]
      simp
    · rw [Nat.max_eq_left hle]
      exact List.mem_append_left _ h.hi_mem
  lo_le x hx := by
    obtain hx | hx := List.mem_append.mp hx
    · exact Nat.le_trans (Nat.min_le_left _ _) (h.lo_le x hx)
    · rw [List.mem_singleton.mp hx]
      exact Nat.min_le_right _ _
  le_hi x hx := by
    obtain hx | hx := List.mem_append.mp hx
    · exact Nat.le_trans (h.le_hi x hx) (Nat.le_max_left _ _)
    · rw [List.mem_singleton.mp hx]
      exact Nat.le_max_right _ _

theorem IsRange.lo_le_hi (h : IsRange l lo hi) : lo ≤ hi := h.lo_le hi h.hi_mem

theorem IsRange.unique {lo' hi' : Nat} (h : IsRange l lo hi) (h' : IsRange l lo' hi') :
    lo = lo' ∧ hi = hi' :=
  ⟨Nat.le_antisymm (h.lo_le _ h'.lo_mem) (h'.lo_le _ h.lo_mem),
    Nat.le_antisymm (h'.le_hi _ h.hi_mem) (h.le_hi _ h'.hi_mem)⟩

/-- What came and what did not come fill the range. -/
theorem IsRange.missing_add_card (h : IsRange l lo hi) :
    missing l lo hi + l.toFinset.card = hi - lo + 1 := by
  have hsub : l.toFinset ⊆ Finset.Icc lo hi := by
    intro x hx
    have hmem := List.mem_toFinset.mp hx
    exact Finset.mem_Icc.mpr ⟨h.lo_le x hmem, h.le_hi x hmem⟩
  have hle := h.lo_le_hi
  rw [missing, Finset.card_sdiff_add_card_eq_card hsub, Nat.card_Icc]
  omega

theorem IsRange.missing_lt (h : IsRange l lo hi) : missing l lo hi ≤ hi := by
  have hcard : 0 < l.toFinset.card :=
    Finset.card_pos.mpr ⟨lo, List.mem_toFinset.mpr h.lo_mem⟩
  have hsum := h.missing_add_card
  omega

/-- The counter is too low by the number of duplicates. -/
theorem IsRange.counter_eq (h : IsRange l lo hi) :
    UInt64.ofNat hi - UInt64.ofNat lo + 1 - UInt64.ofNat l.length =
      UInt64.ofNat (missing l lo hi) - UInt64.ofNat (duplicates l) := by
  have hsum := h.missing_add_card
  have hle := h.lo_le_hi
  have hdup : l.length = l.toFinset.card + duplicates l := by
    have hcard := List.toFinset_card_le l
    rw [duplicates]
    omega
  have hends : hi + 1 = lo + missing l lo hi + l.toFinset.card := by omega
  have hends64 := congrArg UInt64.ofNat hends
  rw [UInt64.ofNat_add, UInt64.ofNat_add, UInt64.ofNat_add] at hends64
  rw [hdup, UInt64.ofNat_add]
  have hone : UInt64.ofNat 1 = 1 := rfl
  rw [hone] at hends64
  grind

/-- It is right if nothing came twice. -/
theorem IsRange.counter_iff (h : IsRange l lo hi) (hhi : hi < 2 ^ 64) :
    (UInt64.ofNat hi - UInt64.ofNat lo + 1 - UInt64.ofNat l.length).toNat = missing l lo hi ↔
      2 ^ 64 ∣ duplicates l := by
  have hlt : missing l lo hi < 2 ^ 64 := Nat.lt_of_le_of_lt h.missing_lt hhi
  have hmissing : (UInt64.ofNat (missing l lo hi)).toNat = missing l lo hi :=
    UInt64.toNat_ofNat_of_lt' hlt
  rw [h.counter_eq, ← hmissing, UInt64.toNat_inj, hmissing, UInt64.sub_eq_iff_eq_add]
  have hself : UInt64.ofNat (missing l lo hi) =
      UInt64.ofNat (missing l lo hi) + UInt64.ofNat (duplicates l) ↔
        UInt64.ofNat (duplicates l) = 0 := by
    constructor
    · intro heq
      grind
    · intro heq
      rw [heq, UInt64.add_zero]
  rw [hself, ← UInt64.toNat_inj, UInt64.toNat_ofNat', Nat.dvd_iff_mod_eq_zero]
  rfl

end Jive5ab.Lib
