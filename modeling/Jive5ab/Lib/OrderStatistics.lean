import Mathlib

/-! # Order statistics

How many elements of a list are above, and how many below, the one at a position of the sorted
list. -/
namespace Jive5ab.Lib

variable {α : Type*} [LinearOrder α]

/-- The element at position `k` of the list, sorted. -/
def orderStatistic (l : List α) (k : Nat) : Option α := (l.insertionSort (· ≤ ·))[k]?

variable {l : List α} {k : Nat} {m : α}

theorem orderStatistic_isSome (h : k < l.length) : ∃ m, orderStatistic l k = some m := by
  have hlen : k < (l.insertionSort (· ≤ ·)).length := by rwa [List.length_insertionSort]
  exact ⟨_, List.getElem?_eq_getElem hlen⟩

/-- What comes before it is not above it, what comes behind is not below. -/
theorem orderStatistic_split (h : orderStatistic l k = some m) :
    ∃ front back, l.Perm (front ++ m :: back) ∧ front.length = k ∧
      (∀ x ∈ front, x ≤ m) ∧ ∀ x ∈ back, m ≤ x := by
  obtain ⟨hk, hm⟩ := List.getElem?_eq_some_iff.mp h
  have hsorted := List.pairwise_insertionSort (· ≤ ·) l
  have hperm := (List.perm_insertionSort (· ≤ ·) l).symm
  generalize l.insertionSort (· ≤ ·) = s at hk hm hsorted hperm
  have hsplit : s = s.take k ++ m :: s.drop (k + 1) := by
    rw [← hm, ← List.drop_eq_getElem_cons hk, List.take_append_drop]
  rw [hsplit, List.pairwise_append] at hsorted
  obtain ⟨-, hback, hfront⟩ := hsorted
  refine ⟨s.take k, s.drop (k + 1), by rwa [← hsplit], ?_, ?_, (List.pairwise_cons.mp hback).1⟩
  · rw [List.length_take]
    omega
  · exact fun x hx => hfront x hx m List.mem_cons_self

/-- Fewer than the rest are above it. -/
theorem countP_above (h : orderStatistic l k = some m) :
    l.countP (fun x => decide (m < x)) + k < l.length := by
  obtain ⟨front, back, hperm, rfl, hfront, -⟩ := orderStatistic_split h
  have hnone : front.countP (fun x => decide (m < x)) = 0 :=
    List.countP_eq_zero.mpr fun x hx => by simpa using hfront x hx
  have hself : (m :: back).countP (fun x => decide (m < x)) = back.countP fun x => decide (m < x) :=
    List.countP_cons_of_neg (by simp)
  have hle := @List.countP_le_length _ (fun x => decide (m < x)) back
  rw [hperm.countP_eq, hperm.length_eq, List.countP_append, hnone, hself,
    List.length_append, List.length_cons]
  omega

/-- No more than come before are below it. -/
theorem countP_below (h : orderStatistic l k = some m) :
    l.countP (fun x => decide (x < m)) ≤ k := by
  obtain ⟨front, back, hperm, rfl, -, hback⟩ := orderStatistic_split h
  have hnone : back.countP (fun x => decide (x < m)) = 0 :=
    List.countP_eq_zero.mpr fun x hx => by simpa using hback x hx
  have hself : (m :: back).countP (fun x => decide (x < m)) = back.countP fun x => decide (x < m) :=
    List.countP_cons_of_neg (by simp)
  rw [hperm.countP_eq, List.countP_append, hself, hnone]
  exact List.countP_le_length

variable {β : Type*} {f : β → α} {w : List β} {p : β → Bool}

/-- More than come behind cannot all be above it. -/
theorem exists_le_orderStatistic (h : orderStatistic (w.map f) k = some m)
    (hp : w.length ≤ w.countP p + k) : ∃ x ∈ w, p x = true ∧ f x ≤ m := by
  by_contra hnone
  have hall : ∀ x ∈ w, p x = true → decide (m < f x) = true := by
    intro x hx hpx
    by_contra hlt
    exact hnone ⟨x, hx, hpx, not_lt.mp (by simpa using hlt)⟩
  have hle := List.countP_mono_left hall
  have habove := countP_above h
  rw [List.countP_map, List.length_map] at habove
  change w.countP (fun x => decide (m < f x)) + k < w.length at habove
  omega

/-- More than come before cannot all be below it. -/
theorem exists_ge_orderStatistic (h : orderStatistic (w.map f) k = some m)
    (hp : k < w.countP p) : ∃ x ∈ w, p x = true ∧ m ≤ f x := by
  by_contra hnone
  have hall : ∀ x ∈ w, p x = true → decide (f x < m) = true := by
    intro x hx hpx
    by_contra hlt
    exact hnone ⟨x, hx, hpx, not_lt.mp (by simpa using hlt)⟩
  have hle := List.countP_mono_left hall
  have hbelow := countP_below h
  rw [List.countP_map] at hbelow
  change w.countP (fun x => decide (f x < m)) ≤ k at hbelow
  omega

end Jive5ab.Lib
