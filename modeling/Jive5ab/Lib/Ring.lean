import Mathlib

/-! # Lists in a ring of cells

A list lies in a ring of `c` cells from a position on, one element a cell, modulo
`c`. Positions are not reduced: `c` and `0` name the same cell. Taking off in
front moves the start; appending may overwrite the oldest elements. -/
namespace Jive5ab.Lib.Ring

variable {α : Type*}

def Holds (cell : Nat → Option α) (c start : Nat) (l : List α) : Prop :=
  ∀ (i : Nat) (h : i < l.length), cell ((start + i) % c) = some l[i]

theorem Holds.nil (cell : Nat → Option α) (c start : Nat) : Holds cell c start [] := by
  intro i h
  simp at h

theorem Holds.congr {cell : Nat → Option α} {c start start' : Nat} {l : List α}
    (h : Holds cell c start l) (hs : start' % c = start % c) : Holds cell c start' l := by
  intro i hi
  rw [Nat.add_mod, hs, ← Nat.add_mod]
  exact h i hi

theorem Holds.drop {cell : Nat → Option α} {c start : Nat} {l : List α}
    (h : Holds cell c start l) (n : Nat) : Holds cell c (start + n) (l.drop n) := by
  intro i hi
  rw [List.length_drop] at hi
  rw [List.getElem_drop, Nat.add_assoc]
  exact h (n + i) (by omega)

/-- Less than one revolution apart, two positions are two cells. -/
theorem cell_ne {c start i j : Nat} (hij : i < j) (hj : j < i + c) :
    (start + i) % c ≠ (start + j) % c := by
  intro h
  have hdvd : c ∣ (start + j) - (start + i) := (Nat.modEq_iff_dvd' (by omega)).mp h
  have hle := Nat.le_of_dvd (by omega) hdvd
  omega

/-- `xs` has been written from position `w` on, and nothing else has changed. -/
structure Written (cell cell' : Nat → Option α) (c w : Nat) (xs : List α) : Prop where
  inside : ∀ (i : Nat) (h : i < xs.length), cell' ((w + i) % c) = some xs[i]
  outside : ∀ j, (∀ i < xs.length, j ≠ (w + i) % c) → cell' j = cell j

/-- Written behind the list, the new elements take the place of as many of the
oldest ones as do not fit. -/
theorem Holds.append {cell cell' : Nat → Option α} {c start w : Nat} {l xs : List α}
    (h : Holds cell c start l) (hw : w % c = (start + l.length) % c)
    (hx : Written cell cell' c w xs) {k : Nat} (hk : l.length + xs.length ≤ k + c) :
    Holds cell' c (start + k) ((l ++ xs).drop k) := by
  have hpos (i : Nat) : (w + i) % c = (start + (l.length + i)) % c := by
    rw [Nat.add_mod, hw, ← Nat.add_mod, Nat.add_assoc]
  intro i hi
  rw [List.length_drop, List.length_append] at hi
  rw [List.getElem_drop, Nat.add_assoc]
  by_cases hold : k + i < l.length
  · rw [List.getElem_append_left hold, hx.outside, h (k + i) hold]
    intro j hj
    rw [hpos]
    exact cell_ne (by omega) (by omega)
  · have hsplit : start + (k + i) = start + (l.length + (k + i - l.length)) := by omega
    rw [List.getElem_append_right (by omega), hsplit, ← hpos]
    exact hx.inside (k + i - l.length) (by omega)

/-- Up to the end of the ring, and the rest from its beginning. -/
theorem written_of_split {cell cell' : Nat → Option α} {c w : Nat} {xs : List α} (hw : w ≤ c)
    (hlen : xs.length ≤ c)
    (hcell : ∀ j, cell' j = if j < xs.length - (c - w) then xs[min (c - w) xs.length + j]?
      else if w ≤ j ∧ j < w + min (c - w) xs.length then xs[j - w]? else cell j) :
    Written cell cell' c w xs := by
  constructor
  · intro i hi
    by_cases hend : w + i < c
    · rw [Nat.mod_eq_of_lt hend, hcell, if_neg (by omega), if_pos (by omega),
        Nat.add_sub_cancel_left, List.getElem?_eq_getElem hi]
    · have hwrap : (w + i) % c = w + i - c := by
        rw [Nat.mod_eq_sub_mod (by omega), Nat.mod_eq_of_lt (by omega)]
      have hat : min (c - w) xs.length + (w + i - c) = i := by omega
      rw [hwrap, hcell, if_pos (by omega), hat, List.getElem?_eq_getElem hi]
  · intro j hj
    rw [hcell, if_neg, if_neg]
    · rintro ⟨hle, hlt⟩
      have := hj (j - w) (by omega)
      rw [Nat.add_sub_cancel' hle, Nat.mod_eq_of_lt (by omega)] at this
      exact this rfl
    · intro hlt
      have := hj (c - w + j) (by omega)
      rw [show w + (c - w + j) = c + j by omega, Nat.add_mod_left,
        Nat.mod_eq_of_lt (by omega)] at this
      exact this rfl

end Jive5ab.Lib.Ring
