import Mathlib

/-! # Splitting a text at a separator

`split` goes from separator to separator, as a loop over positions does. Pieces
that are each followed by the separator come back as they were, and a piece has
no separator in it. -/
namespace Jive5ab.Lib.Split

variable {α : Type} [DecidableEq α]

/-- The pieces between the separators; with `skipempty` those that are empty are left out. -/
def split (c : α) (skipempty : Bool) (str : List α) : List (List α) :=
  let substr := str.takeWhile (· ≠ c)
  let found := if substr.isEmpty && skipempty then [] else [substr]
  match _h : str.dropWhile (· ≠ c) with
  | [] => found
  | _ :: rest => found ++ split c skipempty rest
  termination_by str.length
  decreasing_by
    have hle := (List.dropWhile_suffix (l := str) (· ≠ c)).length_le
    rw [_h, List.length_cons] at hle
    exact hle

/-- Pieces, each followed by the separator. -/
def terminated (c : α) (pieces : List (List α)) : List α := pieces.flatMap (· ++ [c])

/-- What is put where a piece stood. -/
def kept (skipempty : Bool) (piece : List α) : List (List α) :=
  if piece.isEmpty && skipempty then [] else [piece]

omit [DecidableEq α] in
@[simp] theorem terminated_nil (c : α) : terminated c [] = [] := rfl

omit [DecidableEq α] in
@[simp] theorem terminated_cons (c : α) (p : List α) (ps : List (List α)) :
    terminated c (p :: ps) = p ++ c :: terminated c ps := by
  simp [terminated]

omit [DecidableEq α] in
theorem terminated_append (c : α) (ps qs : List (List α)) :
    terminated c (ps ++ qs) = terminated c ps ++ terminated c qs := List.flatMap_append

omit [DecidableEq α] in
theorem kept_of_ne_nil {skipempty : Bool} {p : List α} (h : p ≠ []) : kept skipempty p = [p] := by
  simp [kept, h]

omit [DecidableEq α] in
theorem mem_kept {skipempty : Bool} {p q : List α} (h : q ∈ kept skipempty p) :
    q = p ∧ (skipempty → q ≠ []) := by
  unfold kept at h
  split at h
  · cases h
  · rename_i hkeep
    obtain rfl := List.mem_singleton.mp h
    refine ⟨rfl, fun hskip hnil => hkeep ?_⟩
    rw [hnil, hskip]
    rfl

/-! ## One piece at a time -/

theorem split_last {c : α} {p : List α} (skipempty : Bool) (h : c ∉ p) :
    split c skipempty p = kept skipempty p := by
  have hall : ∀ a ∈ p, decide (a ≠ c) = true := by
    intro a ha
    simpa using fun hac : a = c => h (hac ▸ ha)
  have htake : (p ++ []).takeWhile (· ≠ c) = p := by
    rw [List.takeWhile_append_of_pos hall]
    simp
  have hdrop : (p ++ []).dropWhile (· ≠ c) = [] := by
    rw [List.dropWhile_append_of_pos hall]
    simp
  rw [List.append_nil] at htake hdrop
  rw [split, htake]
  split
  · rfl
  · rename_i heq
    rw [hdrop] at heq
    cases heq

theorem split_cons {c : α} {p : List α} (skipempty : Bool) (rest : List α) (h : c ∉ p) :
    split c skipempty (p ++ c :: rest) = kept skipempty p ++ split c skipempty rest := by
  have hall : ∀ a ∈ p, decide (a ≠ c) = true := by
    intro a ha
    simpa using fun hac : a = c => h (hac ▸ ha)
  have htake : (p ++ c :: rest).takeWhile (· ≠ c) = p := by
    rw [List.takeWhile_append_of_pos hall]
    simp
  have hdrop : (p ++ c :: rest).dropWhile (· ≠ c) = c :: rest := by
    rw [List.dropWhile_append_of_pos hall]
    simp
  rw [split, htake]
  split
  · rename_i heq
    rw [hdrop] at heq
    cases heq
  · rename_i d rest' heq
    rw [hdrop, List.cons.injEq] at heq
    rw [← heq.2, kept]

/-- A text is one last piece, or a piece, a separator and a text. -/
theorem pieces_induction {c : α} {motive : List α → Prop} (last : ∀ p, c ∉ p → motive p)
    (cons : ∀ p rest, c ∉ p → motive rest → motive (p ++ c :: rest)) (str : List α) :
    motive str := by
  by_cases hc : c ∈ str
  · obtain ⟨p, rest, hstr, hp⟩ := List.eq_append_cons_of_mem hc
    have hlt : rest.length < str.length := by
      rw [hstr, List.length_append, List.length_cons]
      omega
    rw [hstr]
    exact cons p rest hp (pieces_induction last cons rest)
  · exact last str hc
  termination_by str.length

/-! ## All pieces -/

theorem mem_split {c : α} {skipempty : Bool} {str p : List α} (h : p ∈ split c skipempty str) :
    c ∉ p ∧ (skipempty → p ≠ []) := by
  induction str using pieces_induction (c := c) with
  | last q hq =>
    rw [split_last skipempty hq] at h
    obtain ⟨rfl, hne⟩ := mem_kept h
    exact ⟨hq, hne⟩
  | cons q rest hq ih =>
    rw [split_cons skipempty rest hq, List.mem_append] at h
    rcases h with h | h
    · obtain ⟨rfl, hne⟩ := mem_kept h
      exact ⟨hq, hne⟩
    · exact ih h

theorem split_terminated {c : α} {ps : List (List α)} (skipempty : Bool) (rest : List α)
    (hne : ∀ p ∈ ps, p ≠ []) (hsep : ∀ p ∈ ps, c ∉ p) :
    split c skipempty (terminated c ps ++ rest) = ps ++ split c skipempty rest := by
  induction ps with
  | nil => rfl
  | cons p ps ih =>
    rw [List.forall_mem_cons] at hne hsep
    rw [terminated_cons, List.append_assoc, List.cons_append, split_cons skipempty _ hsep.1,
      kept_of_ne_nil hne.1, ih hne.2 hsep.2]
    rfl

theorem split_terminated_self {c : α} {ps : List (List α)} (hne : ∀ p ∈ ps, p ≠ [])
    (hsep : ∀ p ∈ ps, c ∉ p) : split c true (terminated c ps) = ps := by
  have h := split_terminated true [] hne hsep
  rw [split_last true List.not_mem_nil] at h
  simpa [kept] using h

omit [DecidableEq α] in
@[simp] theorem kept_false (p : List α) : kept false p = [p] := by
  simp [kept]

theorem split_ne_nil (c : α) (str : List α) : split c false str ≠ [] := by
  induction str using pieces_induction (c := c) with
  | last p hp => simp [split_last false hp]
  | cons p rest hp _ => simp [split_cons false rest hp]

/-- With all pieces kept, a text is its pieces with the separator between them. -/
theorem intercalate_split (c : α) (str : List α) : [c].intercalate (split c false str) = str := by
  induction str using pieces_induction (c := c) with
  | last p hp => simp [split_last false hp]
  | cons p rest hp ih =>
    obtain ⟨q, pieces, hpieces⟩ := List.exists_cons_of_ne_nil (split_ne_nil c rest)
    rw [hpieces] at ih
    rw [split_cons false rest hp, kept_false, hpieces, List.singleton_append,
      List.intercalate_cons_cons, ih]
    simp

/-! ## Lengths -/

omit [DecidableEq α] in
theorem length_terminated (c : α) (ps : List (List α)) :
    (terminated c ps).length = (ps.map fun p => p.length + 1).sum := by
  induction ps with
  | nil => rfl
  | cons p ps ih =>
    rw [terminated_cons, List.length_append, List.length_cons, ih, List.map_cons, List.sum_cons]
    omega

omit [DecidableEq α] in
theorem two_le_length_terminated {c : α} {ps : List (List α)} (hsome : ps ≠ [])
    (hne : ∀ p ∈ ps, p ≠ []) : 2 ≤ (terminated c ps).length := by
  obtain ⟨p, ps, rfl⟩ := List.exists_cons_of_ne_nil hsome
  have hp := List.length_pos_of_ne_nil (hne p List.mem_cons_self)
  rw [terminated_cons, List.length_append, List.length_cons]
  omega

omit [DecidableEq α] in
/-- Some pieces are shorter than all of them by at least one. -/
theorem length_terminated_filter_le (c : α) {p : List α → Bool} {ps : List (List α)}
    (hne : ∀ q ∈ ps, q ≠ []) (hsome : ps.filter (!p ·) ≠ []) :
    (terminated c (ps.filter p)).length + 2 ≤ (terminated c ps).length := by
  have hperm := (List.filter_append_perm p ps).flatMap_right (· ++ [c])
  have hlen : (terminated c (ps.filter p)).length + (terminated c (ps.filter (!p ·))).length =
      (terminated c ps).length := by
    rw [← List.length_append, ← terminated_append]
    exact hperm.length_eq
  have htwo := two_le_length_terminated (c := c) hsome fun q hq => hne q (List.mem_of_mem_filter hq)
  omega

omit [DecidableEq α] in
theorem length_terminated_kept (c : α) (skipempty : Bool) (p : List α) :
    (terminated c (kept skipempty p)).length ≤ p.length + 1 := by
  unfold kept
  split
  · exact Nat.zero_le _
  · simp

/-- Only the last piece may get a separator that it did not have. -/
theorem length_terminated_split (c : α) (skipempty : Bool) (str : List α) :
    (terminated c (split c skipempty str)).length ≤ str.length + 1 := by
  induction str using pieces_induction (c := c) with
  | last p hp =>
    rw [split_last skipempty hp]
    exact length_terminated_kept c skipempty p
  | cons p rest hp ih =>
    have hkept := length_terminated_kept c skipempty p
    rw [split_cons skipempty rest hp, terminated_append, List.length_append, List.length_append,
      List.length_cons]
    omega

end Jive5ab.Lib.Split
