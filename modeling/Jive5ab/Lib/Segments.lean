import Mathlib

/-! # Consecutive segments

Places in segments of given lengths, one after the other: every place below the total is in
exactly one of them. -/
namespace Jive5ab.Lib.Segments

def start (lengths : List Nat) (m : Nat) : Nat := (lengths.take m).sum

/-- Place `n` is the `k`th of segment `m`. -/
def IsAt : List Nat → Nat → Nat → Nat → Prop
  | [], _, _, _ => False
  | length :: _, n, 0, k => n = k ∧ k < length
  | length :: lengths, n, m + 1, k => ∃ rest, n = length + rest ∧ IsAt lengths rest m k

@[simp] theorem start_zero (lengths : List Nat) : start lengths 0 = 0 := rfl

@[simp] theorem start_cons_succ (length : Nat) (lengths : List Nat) (m : Nat) :
    start (length :: lengths) (m + 1) = length + start lengths m := by
  simp [start]

theorem start_le (lengths : List Nat) (m : Nat) : start lengths m ≤ lengths.sum := by
  have happ := congrArg List.sum (List.take_append_drop m lengths)
  rw [List.sum_append] at happ
  unfold start
  omega

theorem isAt_iff {lengths : List Nat} {n m k : Nat} :
    IsAt lengths n m k ↔
      m < lengths.length ∧ k < lengths.getD m 0 ∧ n = start lengths m + k := by
  induction lengths generalizing n m with
  | nil => simp [IsAt]
  | cons length lengths ih =>
    cases m with
    | zero =>
      simp only [IsAt, List.length_cons, List.getD_cons_zero, start_zero]
      omega
    | succ m =>
      simp only [IsAt, ih, List.length_cons, List.getD_cons_succ, start_cons_succ]
      constructor
      · rintro ⟨rest, rfl, hm, hk, rfl⟩
        exact ⟨by omega, hk, by omega⟩
      · rintro ⟨hm, hk, rfl⟩
        exact ⟨start lengths m + k, by omega, by omega, hk, rfl⟩

theorem exists_isAt {lengths : List Nat} {n : Nat} (h : n < lengths.sum) :
    ∃ m k, IsAt lengths n m k := by
  induction lengths generalizing n with
  | nil => simp at h
  | cons length lengths ih =>
    rw [List.sum_cons] at h
    rcases Nat.lt_or_ge n length with hlt | hge
    · exact ⟨0, n, rfl, hlt⟩
    · obtain ⟨m, k, hat⟩ := @ih (n - length) (by omega)
      exact ⟨m + 1, k, n - length, by omega, hat⟩

theorem IsAt.unique {lengths : List Nat} {n m k m' k' : Nat} (h : IsAt lengths n m k)
    (h' : IsAt lengths n m' k') : m = m' ∧ k = k' := by
  induction lengths generalizing n m m' with
  | nil => cases h
  | cons length lengths ih =>
    cases m with
    | zero =>
      obtain ⟨rfl, hlt⟩ := h
      cases m' with
      | zero => exact ⟨rfl, h'.1⟩
      | succ m' =>
        obtain ⟨rest, hrest, -⟩ := h'
        omega
    | succ m =>
      obtain ⟨rest, rfl, hat⟩ := h
      cases m' with
      | zero =>
        obtain ⟨heq, hlt⟩ := h'
        omega
      | succ m' =>
        obtain ⟨rest', heq, hat'⟩ := h'
        obtain rfl : rest = rest' := by omega
        obtain ⟨rfl, rfl⟩ := ih hat hat'
        exact ⟨rfl, rfl⟩

theorem IsAt.lt_sum {lengths : List Nat} {n m k : Nat} (h : IsAt lengths n m k) :
    n < lengths.sum := by
  induction lengths generalizing n m with
  | nil => cases h
  | cons length lengths ih =>
    rw [List.sum_cons]
    cases m with
    | zero =>
      obtain ⟨rfl, hlt⟩ := h
      omega
    | succ m =>
      obtain ⟨rest, rfl, hat⟩ := h
      have hlt := ih hat
      omega

end Jive5ab.Lib.Segments
