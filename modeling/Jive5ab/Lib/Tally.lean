import Mathlib

/-! # How many threads are in a state

The threads are a type of any size; a tally says that exactly `n` of them have a
status with some property. One thread that changes its status moves a tally by at
most one. -/
namespace Jive5ab.Lib

variable {τ σ : Type*} {st st' : τ → σ} {p p' : σ → Prop} {n m : Nat}

/-- Exactly `n` of the threads have the property. -/
def Tally (st : τ → σ) (p : σ → Prop) (n : Nat) : Prop :=
  ∃ s : Finset τ, (∀ t, t ∈ s ↔ p (st t)) ∧ s.card = n

namespace Tally

theorem zero (h : ∀ t, ¬p (st t)) : Tally st p 0 :=
  ⟨∅, fun t => by simp [h t], rfl⟩

theorem unique (h : Tally st p n) (h' : Tally st p m) : n = m := by
  obtain ⟨s, hs, rfl⟩ := h
  obtain ⟨s', hs', rfl⟩ := h'
  congr 1
  ext t
  rw [hs, hs']

theorem pos_iff (h : Tally st p n) : 0 < n ↔ ∃ t, p (st t) := by
  obtain ⟨s, hs, rfl⟩ := h
  rw [Finset.card_pos]
  constructor
  · rintro ⟨t, ht⟩
    exact ⟨t, (hs t).mp ht⟩
  · rintro ⟨t, ht⟩
    exact ⟨t, (hs t).mpr ht⟩

theorem pos (h : Tally st p n) {t : τ} (ht : p (st t)) : 0 < n := h.pos_iff.mpr ⟨t, ht⟩

theorem none (h : Tally st p 0) (t : τ) : ¬p (st t) := by
  intro ht
  exact absurd (h.pos ht) (Nat.lt_irrefl 0)

theorem congr (h : Tally st p n) (hp : ∀ t, p' (st' t) ↔ p (st t)) : Tally st' p' n := by
  obtain ⟨s, hs, rfl⟩ := h
  exact ⟨s, fun t => by rw [hs, hp], rfl⟩

theorem add [DecidableEq τ] (h : Tally st p n) (h' : Tally st p' m)
    (hdisj : ∀ t, p (st t) → ¬p' (st t)) : Tally st (fun v => p v ∨ p' v) (n + m) := by
  obtain ⟨s, hs, rfl⟩ := h
  obtain ⟨s', hs', rfl⟩ := h'
  refine ⟨s ∪ s', fun t => by simp [hs, hs'], Finset.card_union_of_disjoint ?_⟩
  rw [Finset.disjoint_left]
  intro t ht ht'
  exact hdisj t ((hs t).mp ht) ((hs' t).mp ht')

variable [DecidableEq τ] {t : τ} {v : σ}

theorem gain (h : Tally st p n) (hold : ¬p (st t)) (hnew : p v) :
    Tally (Function.update st t v) p (n + 1) := by
  obtain ⟨s, hs, rfl⟩ := h
  refine ⟨insert t s, fun u => ?_, Finset.card_insert_of_notMem (by simp [hs, hold])⟩
  by_cases hu : u = t
  · subst hu
    simp [hnew]
  · simp [hu, hs]

theorem lose (h : Tally st p (n + 1)) (hold : p (st t)) (hnew : ¬p v) :
    Tally (Function.update st t v) p n := by
  obtain ⟨s, hs, hcard⟩ := h
  have ht : t ∈ s := (hs t).mpr hold
  refine ⟨s.erase t, fun u => ?_, ?_⟩
  · by_cases hu : u = t
    · subst hu
      simp [hnew]
    · simp [hu, hs]
  · rw [Finset.card_erase_of_mem ht, hcard, Nat.add_sub_cancel]

theorem keep (h : Tally st p n) (hv : p v ↔ p (st t)) : Tally (Function.update st t v) p n := by
  refine h.congr fun u => ?_
  by_cases hu : u = t
  · subst hu
    rw [Function.update_self, hv]
  · rw [Function.update_of_ne hu]

end Tally
end Jive5ab.Lib
