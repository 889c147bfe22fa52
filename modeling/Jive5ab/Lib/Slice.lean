import Mathlib

/-! # Slices of a list

`n` elements from a position on, as a read of a file or of a stream has them:
a slice past the end is short. -/
namespace Jive5ab.Lib

variable {α : Type*}

def slice (l : List α) (pos n : Nat) : List α := (l.drop pos).take n

@[simp] theorem length_slice (l : List α) (pos n : Nat) :
    (slice l pos n).length = min n (l.length - pos) := by
  simp [slice]

@[simp] theorem slice_zero (l : List α) (pos : Nat) : slice l pos 0 = [] := by simp [slice]

theorem slice_past {l : List α} {pos : Nat} (h : l.length ≤ pos) (n : Nat) : slice l pos n = [] := by
  simp [slice, List.drop_eq_nil_of_le h]

theorem slice_all (l : List α) : slice l 0 l.length = l := by simp [slice]

/-- Two reads in a row are one. -/
theorem slice_append_slice (l : List α) (pos n m : Nat) :
    slice l pos n ++ slice l (pos + n) m = slice l pos (n + m) := by
  rw [slice, slice, slice, List.take_add, List.drop_drop]

theorem slice_slice (l : List α) {pos n pos' n' : Nat} (h : pos' + n' ≤ n) :
    slice (slice l pos n) pos' n' = slice l (pos + pos') n' := by
  have hmin : min n' (n - pos') = n' := by omega
  rw [slice, slice, slice, List.drop_take, List.drop_drop, List.take_take, hmin]

theorem drop_slice (l : List α) (pos n m : Nat) :
    (slice l pos n).drop m = slice l (pos + m) (n - m) := by
  rw [slice, slice, List.drop_take, List.drop_drop]

/-- Inside one part of a concatenation only that part is read. -/
theorem slice_middle (pre c post : List α) {pos n : Nat} (hpre : pre.length ≤ pos)
    (hfit : pos + n ≤ pre.length + c.length) :
    slice (pre ++ (c ++ post)) pos n = slice c (pos - pre.length) n := by
  have hdrop : pos - pre.length ≤ c.length := by omega
  rw [slice, slice, List.drop_append, List.drop_eq_nil_of_le hpre, List.nil_append,
    List.drop_append_of_le_length hdrop, List.take_append_of_le_length]
  rw [List.length_drop]
  omega

/-- The part a position falls in, in a concatenation. -/
theorem slice_flatten {parts : List (List α)} {i pos n : Nat} {c : List α} (hi : parts[i]? = some c)
    (hpos : (parts.take i).flatten.length ≤ pos)
    (hfit : pos + n ≤ (parts.take i).flatten.length + c.length) :
    slice parts.flatten pos n = slice c (pos - (parts.take i).flatten.length) n := by
  obtain ⟨hlt, rfl⟩ := List.getElem?_eq_some_iff.mp hi
  have hsplit : parts.flatten =
      (parts.take i).flatten ++ (parts[i] ++ (parts.drop (i + 1)).flatten) := by
    rw [← List.flatten_cons, ← List.drop_eq_getElem_cons, ← List.flatten_append,
      List.take_append_drop]
  rw [hsplit]
  exact slice_middle _ _ _ hpos hfit

theorem length_take_succ_flatten {parts : List (List α)} {i : Nat} {c : List α}
    (hi : parts[i]? = some c) :
    (parts.take (i + 1)).flatten.length = (parts.take i).flatten.length + c.length := by
  rw [List.take_add_one, hi]
  simp

theorem length_take_flatten_le (parts : List (List α)) (i : Nat) :
    (parts.take i).flatten.length ≤ parts.flatten.length := by
  conv_rhs => rw [← List.take_append_drop i parts, List.flatten_append, List.length_append]
  exact Nat.le_add_right _ _

/-- One element is changed: what comes before and after it stays. -/
theorem flatMap_modify {β : Type*} {l : List α} {i : Nat} {x : α} (hi : l[i]? = some x)
    (f : α → List β) (g : α → α) :
    ∃ pre post, l.flatMap f = pre ++ (f x ++ post) ∧
      (l.modify i g).flatMap f = pre ++ (f (g x) ++ post) := by
  obtain ⟨hlt, rfl⟩ := List.getElem?_eq_some_iff.mp hi
  refine ⟨(l.take i).flatMap f, (l.drop (i + 1)).flatMap f, ?_, ?_⟩
  · rw [← List.flatMap_cons, ← List.drop_eq_getElem_cons, ← List.flatMap_append,
      List.take_append_drop]
  · rw [List.modify_eq_take_cons_drop hlt, List.flatMap_append, List.flatMap_cons]

/-- Concatenated parts of one length: slice `i` is part `i`. -/
theorem slice_flatMap {β : Type*} {l : List α} {f : α → List β} {m i : Nat} {x : α}
    (hm : ∀ y ∈ l, (f y).length = m) (hi : l[i]? = some x) :
    slice (l.flatMap f) (i * m) m = f x := by
  induction l generalizing i with
  | nil => simp at hi
  | cons y l ih =>
    have hy : (f y).length = m := hm y (by simp)
    rw [List.flatMap_cons]
    cases i with
    | zero =>
      obtain rfl : y = x := by simpa using hi
      rw [slice, Nat.zero_mul, List.drop_zero, List.take_append_of_le_length (by omega),
        List.take_of_length_le (by omega)]
    | succ i =>
      have hdrop : (i + 1) * m = (f y).length + i * m := by rw [hy, Nat.succ_mul, Nat.add_comm]
      rw [slice, hdrop, List.drop_length_add_append]
      exact ih (fun z hz => hm z (by simp [hz])) (by simpa using hi)

/-! ## Pieces of one length -/

/-- The whole pieces of `w` elements of a list. -/
def pieces (w : Nat) (l : List α) : List (List α) :=
  (List.range (l.length / w)).map fun i => slice l (i * w) w

@[simp] theorem length_pieces (w : Nat) (l : List α) : (pieces w l).length = l.length / w := by
  simp [pieces]

theorem getElem_pieces {w : Nat} {l : List α} {i : Nat} (hi : i < (pieces w l).length) :
    (pieces w l)[i] = slice l (i * w) w := by
  simp [pieces]

theorem length_of_mem_pieces {w : Nat} {l : List α} {c : List α} (hc : c ∈ pieces w l) :
    c.length = w := by
  obtain ⟨i, hi, rfl⟩ := List.mem_map.mp hc
  have hfit : (i + 1) * w ≤ l.length :=
    Nat.le_trans (Nat.mul_le_mul_right w (List.mem_range.mp hi)) (Nat.div_mul_le_self _ _)
  rw [Nat.succ_mul] at hfit
  rw [length_slice]
  omega

theorem flatten_slices (l : List α) (w n : Nat) :
    ((List.range n).map fun i => slice l (i * w) w).flatten = slice l 0 (n * w) := by
  induction n with
  | zero => simp
  | succ n ih =>
    rw [List.range_succ, List.map_append, List.flatten_append, ih, Nat.succ_mul,
      ← slice_append_slice]
    simp

theorem flatten_pieces {w : Nat} {l : List α} (h : w ∣ l.length) : (pieces w l).flatten = l := by
  rw [pieces, flatten_slices, Nat.div_mul_cancel h, slice_all]

/-- The pieces of a list stay where they are when it grows. -/
theorem map_slice_append (w : Nat) (l r : List α) :
    ((List.range (l.length / w)).map fun i => slice (l ++ r) (i * w) w) =
      (List.range (l.length / w)).map fun i => slice l (i * w) w := by
  refine List.map_congr_left fun i hi => ?_
  have hfit : i * w + w ≤ l.length := by
    rw [← Nat.succ_mul]
    exact Nat.le_trans (Nat.mul_le_mul_right w (List.mem_range.mp hi)) (Nat.div_mul_le_self _ _)
  unfold slice
  rw [List.drop_append_of_le_length (by omega), List.take_append_of_le_length]
  rw [List.length_drop]
  omega

/-- What does not fill a piece is in none. -/
theorem pieces_append_rest {w : Nat} {l r : List α} (hl : w ∣ l.length) (hr : r.length < w) :
    pieces w (l ++ r) = pieces w l := by
  obtain ⟨k, hk⟩ := hl
  have hdiv : (l ++ r).length / w = l.length / w := by
    rw [List.length_append, hk, Nat.mul_add_div (by omega), Nat.div_eq_of_lt hr,
      Nat.mul_div_cancel_left _ (by omega), Nat.add_zero]
  rw [pieces, hdiv, map_slice_append]
  rfl

theorem pieces_append_piece {w : Nat} {l g : List α} (hw : 0 < w) (hl : w ∣ l.length)
    (hg : g.length = w) : pieces w (l ++ g) = pieces w l ++ [g] := by
  have hdiv : (l ++ g).length / w = l.length / w + 1 := by
    rw [List.length_append, hg, Nat.add_div_right _ hw]
  obtain ⟨k, hk⟩ := hl
  have hlast : slice (l ++ g) (l.length / w * w) w = g := by
    rw [hk, Nat.mul_div_cancel_left _ hw, Nat.mul_comm k w, ← hk, slice, List.drop_left,
      List.take_of_length_le (by omega)]
  rw [pieces, hdiv, List.range_succ, List.map_append, List.map_singleton, hlast, map_slice_append]
  rfl

theorem pieces_piece_append {w : Nat} {g : List α} (hw : 0 < w) (hg : g.length = w)
    (l : List α) : pieces w (g ++ l) = g :: pieces w l := by
  have hdiv : (g ++ l).length / w = l.length / w + 1 := by
    rw [List.length_append, hg, Nat.add_comm, Nat.add_div_right _ hw]
  have hfirst : slice (g ++ l) (0 * w) w = g := by
    rw [Nat.zero_mul, slice, List.drop_zero, ← hg, List.take_left]
  rw [pieces, hdiv, List.range_succ_eq_map, List.map_cons, hfirst, List.map_map]
  congr 1
  refine List.map_congr_left fun i _ => ?_
  have hpos : (i + 1) * w = g.length + i * w := by rw [hg, Nat.succ_mul, Nat.add_comm]
  rw [Function.comp_apply, hpos, slice, slice, List.drop_length_add_append]

/-! ## Writing into a list -/

/-- New elements in place of those from a position on. -/
def overwrite (l : List α) (pos : Nat) (new : List α) : List α :=
  l.take pos ++ new ++ l.drop (pos + new.length)

@[simp] theorem length_overwrite {l : List α} {pos : Nat} {new : List α}
    (h : pos + new.length ≤ l.length) : (overwrite l pos new).length = l.length := by
  simp only [overwrite, List.length_append, List.length_take, List.length_drop]
  omega

/-- Right behind what was written before. -/
theorem overwrite_append (written rest new : List α) :
    overwrite (written ++ rest) written.length new = written ++ new ++ rest.drop new.length := by
  rw [overwrite, List.take_left, List.drop_length_add_append]

end Jive5ab.Lib
