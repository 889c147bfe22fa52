import Mathlib

/-! # Putting a text for a word

Every occurrence of a word in a text replaced, from left to right in one pass, and
the same by searching and replacing until nothing is found. The two agree for a word
without a border as long as the replaced text does not contain the word anew. -/
namespace Jive5ab.Lib.Substitution

variable {α : Type*} [DecidableEq α]

/-- One pass; the number is how many characters of the last occurrence are left. -/
def pass (w st : List α) : Nat → List α → List α
  | _, [] => []
  | k + 1, _ :: s => pass w st k s
  | 0, x :: s =>
    if w.isPrefixOf (x :: s) then st ++ pass w st (w.length - 1) s else x :: pass w st 0 s

def substitute (w st s : List α) : List α := pass w st 0 s

/-- The first occurrence. -/
def find (w : List α) : List α → Option Nat
  | [] => if w.isEmpty then some 0 else none
  | x :: s => if w.isPrefixOf (x :: s) then some 0 else (find w s).map (· + 1)

/-- Search and replace until nothing is found, or as often as the first argument says. -/
def replaceFound (w st : List α) : Nat → List α → List α
  | 0, s => s
  | n + 1, s =>
    match find w s with
    | none => s
    | some p => replaceFound w st n (s.take p ++ st ++ s.drop (p + w.length))

/-- No proper suffix of the word begins it. -/
def Unbordered (w : List α) : Prop := ∀ i < w.length, 0 < i → ¬ w.drop i <+: w

instance (w : List α) : Decidable (Unbordered w) := Nat.decidableBallLT _ _

variable {w st : List α}

/-! ## One pass -/

theorem pass_eq (w st : List α) (k : Nat) (s : List α) :
    pass w st k s = substitute w st (s.drop k) := by
  induction s generalizing k with
  | nil => cases k <;> simp [pass, substitute]
  | cons x s ih =>
    cases k with
    | zero => rfl
    | succ k => rw [pass, ih, List.drop_succ_cons]

@[simp] theorem substitute_nil (w st : List α) : substitute w st [] = [] := rfl

theorem substitute_word (hw : w ≠ []) (s : List α) :
    substitute w st (w ++ s) = st ++ substitute w st s := by
  obtain ⟨x, w', rfl⟩ := List.exists_cons_of_ne_nil hw
  have hpre : (x :: w').isPrefixOf (x :: (w' ++ s)) = true :=
    List.isPrefixOf_iff_prefix.mpr (List.prefix_append _ _)
  rw [List.cons_append, substitute, pass, if_pos hpre, pass_eq, List.length_cons,
    Nat.add_sub_cancel, List.drop_left]

theorem substitute_cons {x : α} {s : List α} (h : ¬ w <+: x :: s) :
    substitute w st (x :: s) = x :: substitute w st s := by
  rw [substitute, pass, if_neg (mt List.isPrefixOf_iff_prefix.mp h), substitute]

/-- Nothing is replaced across or inside the middle part. -/
theorem substitute_append {a m b : List α} (hw : w ≠ [])
    (h : ∀ q, w <+: (a ++ (m ++ b)).drop q → q + w.length ≤ a.length ∨ a.length + m.length ≤ q) :
    substitute w st (a ++ (m ++ b)) = substitute w st a ++ (m ++ substitute w st b) := by
  have hpos : 0 < w.length := List.length_pos_iff.mpr hw
  induction hn : a.length using Nat.strong_induction_on generalizing a with
  | _ n ih =>
    cases a with
    | nil =>
      simp only [List.nil_append, List.length_nil, Nat.zero_add, substitute_nil] at h ⊢
      clear ih
      induction m with
      | nil => rfl
      | cons x m ihm =>
        have hnot : ¬ w <+: x :: (m ++ b) := by
          intro hpre
          rcases h 0 hpre with hle | hle
          · omega
          · simp at hle
        rw [List.cons_append, substitute_cons hnot, ihm, List.cons_append]
        intro q hq
        rcases h (q + 1) hq with hle | hle
        · omega
        · exact .inr (by simpa using hle)
    | cons x a =>
      have hshift (j : Nat) (a' : List α) (ha : x :: a = (x :: a).take j ++ a')
          (hj : j ≤ (x :: a).length) : ∀ q, w <+: (a' ++ (m ++ b)).drop q →
            q + w.length ≤ a'.length ∨ a'.length + m.length ≤ q := by
        intro q hq
        have hlen : a'.length + j = (x :: a).length := by
          rw [ha, List.length_append, List.length_take, Nat.min_eq_left hj, Nat.add_comm]
        have hdrop : (x :: a ++ (m ++ b)).drop (j + q) = (a' ++ (m ++ b)).drop q := by
          rw [ha, List.append_assoc, ← List.drop_drop, List.drop_left' (List.length_take_of_le hj)]
        rcases h (j + q) (hdrop ▸ hq) with hle | hle
        · exact .inl (by omega)
        · exact .inr (by omega)
      by_cases hpre : w <+: x :: a ++ (m ++ b)
      · have hle : w.length ≤ (x :: a).length := by
          rcases h 0 hpre with hle | hle
          · omega
          · simp at hle
        obtain ⟨a', ha⟩ : w <+: x :: a :=
          List.prefix_of_prefix_length_le hpre (List.prefix_append _ _) hle
        have htake : (x :: a).take w.length = w := by rw [← ha, List.take_left]
        have hrest := ih a'.length (by rw [← hn, ← ha, List.length_append]; omega)
          (hshift w.length a' (by rw [htake, ha]) hle) rfl
        rw [← ha, List.append_assoc, substitute_word hw, substitute_word hw, hrest, List.append_assoc]
      · have hnot : ¬ w <+: x :: a := fun hp => hpre (hp.trans (List.prefix_append _ _))
        have hrest := ih a.length (by rw [← hn, List.length_cons]; omega)
          (hshift 1 a rfl (by simp)) rfl
        rw [List.cons_append] at hpre ⊢
        rw [substitute_cons hpre, substitute_cons hnot, hrest, List.cons_append]

/-! ## Words without a border -/

omit [DecidableEq α] in
/-- Two occurrences do not overlap. -/
theorem Unbordered.apart (hw : Unbordered w) {s : List α} {p q : Nat} (hp : w <+: s.drop p)
    (hq : w <+: s.drop q) (hlt : p < q) : p + w.length ≤ q := by
  by_contra hover
  have hdrop : w.drop (q - p) <+: s.drop q := by
    have := hp.drop (q - p)
    rwa [List.drop_drop, Nat.add_sub_cancel' hlt.le] at this
  exact hw (q - p) (by omega) (by omega)
    (List.prefix_of_prefix_length_le hdrop hq (by rw [List.length_drop]; omega))

theorem substitute_append_word (hw : Unbordered w) (hne : w ≠ []) (a b : List α) :
    substitute w st (a ++ (w ++ b)) = substitute w st a ++ (st ++ substitute w st b) := by
  induction hn : a.length using Nat.strong_induction_on generalizing a with
  | _ n ih =>
    have hat : w <+: (a ++ (w ++ b)).drop a.length := by
      rw [List.drop_left]
      exact List.prefix_append _ _
    cases a with
    | nil => exact substitute_word hne b
    | cons x a =>
      by_cases hpre : w <+: x :: a ++ (w ++ b)
      · have hle := hw.apart (p := 0) hpre hat (by simp)
        rw [Nat.zero_add] at hle
        obtain ⟨a', ha⟩ : w <+: x :: a :=
          List.prefix_of_prefix_length_le hpre (List.prefix_append _ _) hle
        have hpos : 0 < w.length := List.length_pos_iff.mpr hne
        have hrest := ih a'.length (by rw [← hn, ← ha, List.length_append]; omega) a' rfl
        rw [← ha, List.append_assoc, substitute_word hne, substitute_word hne, hrest,
          List.append_assoc]
      · have hnot : ¬ w <+: x :: a := fun hp => hpre (hp.trans (List.prefix_append _ _))
        have hrest := ih a.length (by rw [← hn, List.length_cons]; omega) a rfl
        rw [List.cons_append] at hpre ⊢
        rw [substitute_cons hpre, substitute_cons hnot, hrest, List.cons_append]

/-- The end of a word that has been cut off stays. -/
theorem substitute_tail (hw : Unbordered w) (hne : w ≠ []) {j : Nat} (hj : 0 < j) (b : List α) :
    substitute w st (w.drop j ++ b) = w.drop j ++ substitute w st b := by
  have := @substitute_append _ _ w st [] (w.drop j) b hne ?_
  · simpa using this
  intro q hq
  rw [List.nil_append] at hq
  refine .inr (Nat.le_of_not_lt fun hlt => ?_)
  rw [List.length_nil, Nat.zero_add, List.length_drop] at hlt
  rw [List.drop_append_of_le_length (by rw [List.length_drop]; omega), List.drop_drop] at hq
  exact hw (j + q) (by omega) (by omega)
    (List.prefix_of_prefix_length_le (List.prefix_append _ _) hq (by rw [List.length_drop]; omega))

/-- And so does the beginning of one. -/
theorem substitute_head (hw : Unbordered w) (hne : w ≠ []) {i : Nat} (hi : i < w.length)
    (a : List α) : substitute w st (a ++ w.take i) = substitute w st a ++ w.take i := by
  have := @substitute_append _ _ w st a (w.take i) [] hne ?_
  · simpa using this
  intro q hq
  rw [List.append_nil] at hq
  have hlen := hq.length_le
  rw [List.length_drop, List.length_append, List.length_take, Nat.min_eq_left hi.le] at hlen
  refine .inl (Nat.le_of_not_lt fun hlt => ?_)
  have hdrop : w.drop (a.length - q) <+: w.take i := by
    have := hq.drop (a.length - q)
    rwa [List.drop_drop, Nat.add_sub_cancel' (by omega), List.drop_left] at this
  exact hw (a.length - q) (by omega) (by omega) (hdrop.trans (List.take_prefix _ _))

section Overlap

variable {a m b : List α} {q : Nat}

omit [DecidableEq α] in
/-- What of an occurrence lies before the middle part. -/
theorem drop_before (hq : w <+: (a ++ (m ++ b)).drop q) (ha : a.length < q + w.length) :
    a.drop q = w.take (a.length - q) := by
  by_cases hle : q ≤ a.length
  · rw [List.drop_append_of_le_length hle] at hq
    have hpre : a.drop q <+: w := List.prefix_of_prefix_length_le (List.prefix_append _ _) hq
      (by rw [List.length_drop]; omega)
    rw [List.prefix_iff_eq_take.mp hpre, List.length_drop]
  · rw [List.drop_eq_nil_of_le (by omega), Nat.sub_eq_zero_of_le (by omega), List.take_zero]

omit [DecidableEq α] in
/-- And what lies behind it. -/
theorem take_behind (hq : w <+: (a ++ (m ++ b)).drop q) (hb : q < a.length + m.length) :
    b.take (q + w.length - (a.length + m.length)) =
      w.drop (w.length - (q + w.length - (a.length + m.length))) := by
  set e := q + w.length - (a.length + m.length) with he
  by_cases hpos : 0 < e
  · have hdrop := hq.drop (w.length - e)
    have hlen : (a ++ m).length = q + (w.length - e) := by rw [List.length_append]; omega
    rw [List.drop_drop, ← List.append_assoc, ← hlen, List.drop_left] at hdrop
    rw [List.prefix_iff_eq_take.mp hdrop, List.length_drop]
    congr 1
    omega
  · rw [Nat.eq_zero_of_not_pos hpos, List.take_zero, Nat.sub_zero, List.drop_length]

omit [DecidableEq α] in
theorem infix_between (hq : w <+: (a ++ (m ++ b)).drop q) (hb : q < a.length + m.length) :
    w <:+: a.drop q ++ (m ++ b.take (q + w.length - (a.length + m.length))) := by
  set e := q + w.length - (a.length + m.length) with he
  have hblen := hq.length_le
  simp only [List.length_drop, List.length_append] at hblen
  by_cases hle : q ≤ a.length
  · refine (List.prefix_of_prefix_length_le hq ?_ ?_).isInfix
    · rw [List.drop_append_of_le_length hle]
      exact List.prefix_append_right_inj _ |>.mpr
        (List.prefix_append_right_inj _ |>.mpr (List.take_prefix _ _))
    · simp only [List.length_append, List.length_drop, List.length_take]
      omega
  · have hdrop : (a ++ (m ++ b)).drop q = m.drop (q - a.length) ++ b := by
      rw [List.drop_append, List.drop_eq_nil_of_le (by omega), List.nil_append,
        List.drop_append_of_le_length (by omega)]
    rw [hdrop] at hq
    have hpre : w <+: m.drop (q - a.length) ++ b.take e := by
      refine List.prefix_of_prefix_length_le hq
        (List.prefix_append_right_inj _ |>.mpr (List.take_prefix _ _)) ?_
      simp only [List.length_append, List.length_drop, List.length_take]
      omega
    rw [List.drop_eq_nil_of_le (by omega), List.nil_append]
    refine hpre.isInfix.trans (List.IsSuffix.isInfix ⟨m.take (q - a.length), ?_⟩)
    rw [← List.append_assoc, List.take_append_drop]

end Overlap

/-- An occurrence that reaches into the middle part is still there when the parts
around it have been replaced. -/
theorem infix_of_overlap (hw : Unbordered w) (hne : w ≠ []) {a m b : List α} {q : Nat}
    (hq : w <+: (a ++ (m ++ b)).drop q) (ha : a.length < q + w.length)
    (hb : q < a.length + m.length) :
    w <:+: substitute w st a ++ (m ++ substitute w st b) := by
  have hpos : 0 < w.length := List.length_pos_iff.mpr hne
  have hbefore := drop_before hq ha
  have hbehind := take_behind hq hb
  have hbetween := infix_between hq hb
  set e := q + w.length - (a.length + m.length) with he
  have hsa : substitute w st a = substitute w st (a.take q) ++ w.take (a.length - q) := by
    rw [← substitute_head hw hne (by omega), ← hbefore, List.take_append_drop]
  have hsb : substitute w st b = w.drop (w.length - e) ++ substitute w st (b.drop e) := by
    rw [← substitute_tail hw hne (by omega), ← hbehind, List.take_append_drop]
  rw [hbefore, hbehind] at hbetween
  rw [hsa, hsb]
  refine hbetween.trans ⟨substitute w st (a.take q), substitute w st (b.drop e), ?_⟩
  simp only [List.append_assoc]

/-- Without the word in the result, nothing new arises by putting in one text. -/
theorem substitute_replaced (hw : Unbordered w) (hne : w ≠ []) {a b : List α}
    (h : ¬ w <:+: substitute w st (a ++ (w ++ b))) :
    substitute w st (a ++ (st ++ b)) = substitute w st (a ++ (w ++ b)) := by
  rw [substitute_append_word hw hne] at h ⊢
  refine substitute_append hne fun q hq => ?_
  by_contra hover
  exact h (infix_of_overlap hw hne hq (by omega) (by omega))

/-- A text that shares no character with the word. -/
def Inert (w st : List α) : Prop := ∀ x ∈ st, x ∉ w

omit [DecidableEq α] in
theorem Inert.not_overlap {a b : List α} (h : Inert w st) (hne : w ≠ []) (hst : st ≠ []) {q : Nat}
    (hq : w <+: (a ++ (st ++ b)).drop q) : q + w.length ≤ a.length ∨ a.length + st.length ≤ q := by
  have hpos : 0 < st.length := List.length_pos_iff.mpr hst
  have hwpos : 0 < w.length := List.length_pos_iff.mpr hne
  by_contra hover
  obtain ⟨r, hr⟩ := hq
  -- where the occurrence is first in the middle part
  obtain ⟨k, j, hk, hkw, hj⟩ : ∃ k j, q + k = a.length + j ∧ k < w.length ∧ j < st.length :=
    ⟨a.length - q, q - a.length, by omega, by omega, by omega⟩
  have hchar : (a ++ (st ++ b))[q + k]? = some w[k] := by
    rw [← List.getElem?_drop, ← hr, List.getElem?_append_left hkw, List.getElem?_eq_getElem hkw]
  rw [hk, List.getElem?_append_right (Nat.le_add_right _ _), Nat.add_sub_cancel_left,
    List.getElem?_append_left hj, List.getElem?_eq_getElem hj, Option.some.injEq] at hchar
  exact h _ (List.getElem_mem hj) (hchar ▸ List.getElem_mem hkw)

theorem substitute_inert (hne : w ≠ []) {m : List α} (h : Inert w m) (hm : m ≠ []) (a b : List α) :
    substitute w st (a ++ (m ++ b)) = substitute w st a ++ (m ++ substitute w st b) :=
  substitute_append hne fun _ hq => h.not_overlap hne hm hq

omit [DecidableEq α] in
theorem infix_of_drop {s : List α} {q : Nat} (h : w <+: s.drop q) : w <:+: s :=
  h.isInfix.trans (List.drop_suffix q s).isInfix

omit [DecidableEq α] in
theorem exists_of_infix {s : List α} (h : w <:+: s) : ∃ q, w <+: s.drop q := by
  obtain ⟨a, b, rfl⟩ := h
  refine ⟨a.length, b, ?_⟩
  rw [List.append_assoc, List.drop_left]

/-- A word found at the front of the result was there before. -/
theorem prefix_of_substitute {v : List α} (hv : v ≠ []) (hst : st ≠ []) {s : List α}
    (hinert : Inert w st) (h : w <+: substitute v st s) : w <+: s := by
  induction w generalizing s with
  | nil => exact List.nil_prefix
  | cons c w ih =>
    cases s with
    | nil => simp at h
    | cons x s =>
      by_cases hpre : v <+: x :: s
      · obtain ⟨s', hs'⟩ := hpre
        obtain ⟨y, st', rfl⟩ := List.exists_cons_of_ne_nil hst
        rw [← hs', substitute_word hv, List.cons_append, List.cons_prefix_cons] at h
        exact absurd (h.1 ▸ List.mem_cons_self) (hinert y List.mem_cons_self)
      · rw [substitute_cons hpre, List.cons_prefix_cons] at h
        rw [List.cons_prefix_cons]
        exact ⟨h.1, ih (fun y hy hmem => hinert y hy (List.mem_cons_of_mem _ hmem)) h.2⟩

omit [DecidableEq α] in
theorem Inert.infix_behind (h : Inert w st) (hne : w ≠ []) (hst : st ≠ []) {s : List α}
    (hin : w <:+: st ++ s) : w <:+: s := by
  obtain ⟨q, hq⟩ := exists_of_infix hin
  rw [← List.nil_append (st ++ _)] at hq
  have hbehind : st.length ≤ q := by
    have hpos : 0 < w.length := List.length_pos_iff.mpr hne
    rcases h.not_overlap hne hst hq with hle | hle
    · simp only [List.length_nil] at hle
      omega
    · rwa [List.length_nil, Nat.zero_add] at hle
  rw [List.nil_append, List.drop_append, List.drop_eq_nil_of_le hbehind, List.nil_append] at hq
  exact infix_of_drop hq

/-- And so was one found anywhere. -/
theorem infix_of_substitute {v : List α} (hv : v ≠ []) (hne : w ≠ []) (hst : st ≠ [])
    (hinert : Inert w st) {s : List α} (h : w <:+: substitute v st s) : w <:+: s := by
  induction hn : s.length using Nat.strong_induction_on generalizing s with
  | _ n ih =>
    cases s with
    | nil => exact h
    | cons x s =>
      by_cases hpre : v <+: x :: s
      · have hpos : 0 < v.length := List.length_pos_iff.mpr hv
        obtain ⟨s', hs'⟩ := hpre
        rw [← hs', substitute_word hv] at h
        have hrest := ih s'.length (by rw [← hn, ← hs', List.length_append]; omega)
          (hinert.infix_behind hne hst h) rfl
        rw [← hs']
        exact hrest.trans (List.suffix_append _ _).isInfix
      · rw [substitute_cons hpre, List.infix_cons_iff] at h
        rcases h with hfront | hrest
        · rw [← substitute_cons hpre] at hfront
          exact (prefix_of_substitute hv hst hinert hfront).isInfix
        · exact List.infix_cons_iff.mpr (.inr (ih s.length (by rw [← hn, List.length_cons]; omega)
            hrest rfl))

theorem not_infix_substitute (hne : w ≠ []) (hst : st ≠ []) (hinert : Inert w st) (s : List α) :
    ¬ w <:+: substitute w st s := by
  intro h
  induction hn : s.length using Nat.strong_induction_on generalizing s with
  | _ n ih =>
    cases s with
    | nil => exact hne (List.infix_nil.mp h)
    | cons x s =>
      by_cases hpre : w <+: x :: s
      · have hpos : 0 < w.length := List.length_pos_iff.mpr hne
        obtain ⟨s', hs'⟩ := hpre
        rw [← hs', substitute_word hne] at h
        exact ih s'.length (by rw [← hn, ← hs', List.length_append]; omega) s'
          (hinert.infix_behind hne hst h) rfl
      · rw [substitute_cons hpre, List.infix_cons_iff] at h
        rcases h with hfront | hrest
        · rw [← substitute_cons hpre] at hfront
          exact hpre (prefix_of_substitute hne hst hinert hfront)
        · exact ih s.length (by rw [← hn, List.length_cons]; omega) s hrest rfl

/-! ## Searching -/

theorem find_none {s : List α} : find w s = none ↔ ¬ w <:+: s := by
  induction s with
  | nil =>
    rw [List.infix_nil]
    by_cases hw : w = [] <;> simp [find, hw]
  | cons x s ih =>
    rw [List.infix_cons_iff, find]
    by_cases hpre : w <+: x :: s
    · simp [hpre]
    · simp [hpre, ih]

theorem find_some {s : List α} {p : Nat} (h : find w s = some p) :
    w <+: s.drop p ∧ p ≤ s.length := by
  induction s generalizing p with
  | nil =>
    by_cases hw : w = []
    · simp [hw, ← Option.some.inj ((if_pos (by simp [hw])).symm.trans h)]
    · simp [find, hw] at h
  | cons x s ih =>
    rw [find] at h
    split at h
    case isTrue hpre =>
      obtain rfl := Option.some.inj h
      exact ⟨List.isPrefixOf_iff_prefix.mp hpre, Nat.zero_le _⟩
    case isFalse =>
      obtain ⟨p', hp', rfl⟩ := Option.map_eq_some_iff.mp h
      obtain ⟨hat, hle⟩ := ih hp'
      exact ⟨hat, Nat.succ_le_succ hle⟩

omit [DecidableEq α] in
theorem split_at {s : List α} {p : Nat} (h : w <+: s.drop p) :
    s.take p ++ (w ++ s.drop (p + w.length)) = s := by
  have hdrop : w ++ (s.drop p).drop w.length = s.drop p := List.prefix_iff_eq_append.mp h
  rw [← List.drop_drop, hdrop, List.take_append_drop]

/-- Every turn makes the text shorter: there are enough of them. -/
theorem replaceFound_free (hshort : st.length < w.length) {n : Nat} {s : List α}
    (hn : s.length ≤ n) : ¬ w <:+: replaceFound w st n s := by
  induction n generalizing s with
  | zero =>
    intro h
    have hlen := h.length_le
    rw [replaceFound] at hlen
    omega
  | succ n ih =>
    rw [replaceFound]
    split
    case h_1 hnone => exact find_none.mp hnone
    case h_2 p hsome =>
      obtain ⟨hat, -⟩ := find_some hsome
      have hlen := hat.length_le
      rw [List.length_drop] at hlen
      refine ih ?_
      simp only [List.length_append, List.length_take, List.length_drop]
      omega

theorem substitute_of_free {s : List α} (h : ¬ w <:+: s) : substitute w st s = s := by
  induction s with
  | nil => rfl
  | cons x s ih =>
    rw [List.infix_cons_iff, not_or] at h
    rw [substitute_cons h.1, ih h.2]

/-- Searching again and again finds what one pass finds, if one pass leaves nothing. -/
theorem replaceFound_eq (hw : Unbordered w) (hshort : st.length < w.length) {n : Nat} {s : List α}
    (hn : s.length ≤ n) (h : ¬ w <:+: substitute w st s) :
    replaceFound w st n s = substitute w st s := by
  have hne : w ≠ [] := List.ne_nil_of_length_pos (by omega)
  induction n generalizing s with
  | zero =>
    rw [List.eq_nil_of_length_eq_zero (by omega : s.length = 0)]
    rfl
  | succ n ih =>
    rw [replaceFound]
    split
    case h_1 hnone => exact (substitute_of_free (find_none.mp hnone)).symm
    case h_2 p hsome =>
      obtain ⟨hat, -⟩ := find_some hsome
      have hsplit := split_at hat
      have hlen := hat.length_le
      rw [List.length_drop] at hlen
      have hsame : substitute w st (s.take p ++ (st ++ s.drop (p + w.length))) =
          substitute w st s := by
        rw [substitute_replaced hw hne (by rwa [hsplit]), hsplit]
      have hfuel : (s.take p ++ (st ++ s.drop (p + w.length))).length ≤ n := by
        simp only [List.length_append, List.length_take, List.length_drop]
        omega
      rw [List.append_assoc, ih hfuel (hsame ▸ h), hsame]

/-- A replacement that is not at an occurrence shows in the result. -/
theorem substitute_misplaced (hw : Unbordered w) (hne : w ≠ []) {c : α} {st : List α}
    (hinert : Inert w (c :: st)) {s : List α} {p : Nat} (hle : p ≤ s.length)
    (hc : c ∉ (s.drop p).take w.length) (hnot : ¬ w <+: s.drop p) :
    substitute w (c :: st) (s.take p ++ (c :: st ++ s.drop (p + w.length))) ≠
      substitute w (c :: st) s := by
  have hpos : 0 < w.length := List.length_pos_iff.mpr hne
  rw [substitute_inert hne hinert (List.cons_ne_nil _ _)]
  intro heq
  by_cases hover : ∃ q < p, w <+: s.drop q ∧ p < q + w.length
  · -- in the middle of one: its first character is not put in
    obtain ⟨q, hq, hat, hlt⟩ := hover
    have hpart : (s.drop q).take (p - q) = w.take (p - q) := by
      rw [List.prefix_iff_eq_take.mp hat, List.take_take, Nat.min_eq_left (by omega)]
    have htake : s.take p = s.take q ++ w.take (p - q) := by
      rw [← hpart, ← List.take_add, Nat.add_sub_cancel' hq.le]
    have hs : substitute w (c :: st) s =
        substitute w (c :: st) (s.take q) ++ (c :: st ++ substitute w (c :: st) (s.drop (q + w.length))) := by
      rw [← substitute_append_word hw hne, split_at hat]
    rw [hs, htake, substitute_head hw hne (by omega), List.append_assoc] at heq
    have hrest := List.append_cancel_left heq
    obtain ⟨y, w', hy⟩ := List.exists_cons_of_ne_nil hne
    rw [hy, show p - q = (p - q - 1) + 1 by omega, List.take_succ_cons, List.cons_append] at hrest
    exact hinert c List.mem_cons_self (by rw [hy, (List.cons.inj hrest).1]; exact List.mem_cons_self)
  · -- between them: the character there is not one that is put in
    have hs : substitute w (c :: st) s =
        substitute w (c :: st) (s.take p) ++ substitute w (c :: st) (s.drop p) := by
      have := @substitute_append _ _ w (c :: st) (s.take p) [] (s.drop p) hne ?_
      · simpa using this
      intro q hq
      rw [List.nil_append, List.take_append_drop] at hq
      rw [List.length_take_of_le hle, List.length_nil, Nat.add_zero]
      by_contra hno
      exact hover ⟨q, by omega, hq, by omega⟩
    rw [hs] at heq
    have hrest := List.append_cancel_left heq
    cases hr : s.drop p with
    | nil => simp [hr] at hrest
    | cons x r =>
      rw [hr] at hrest hnot hc
      rw [substitute_cons hnot, List.cons_append] at hrest
      rw [show w.length = (w.length - 1) + 1 by omega, List.take_succ_cons, (List.cons.inj hrest).1] at hc
      exact hc List.mem_cons_self

end Jive5ab.Lib.Substitution
