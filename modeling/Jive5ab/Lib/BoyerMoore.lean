import Mathlib.Logic.Function.Basic
import Jive5ab.Lib.Occurrences

/-! # Boyer-Moore search

The tables for the last occurrences of characters and for the suffixes of the needle, and the
search that they drive. What it finds is the first occurrence. -/
namespace Jive5ab.Lib.BoyerMoore

variable {α : Type} [DecidableEq α]

/-! ## Tables -/

def prepareBadcharacter (needle : Nat → α) (m : Nat) : α → Nat :=
  (List.range (m - 1)).foldl (fun result i => Function.update result (needle i) (m - i - 1))
    fun _ => m

/-- `while( g>=0 && n[g]==n[g+shift] ) --g`, with `g` one higher. -/
def matchBack (needle : Nat → α) (shift : Nat) : Nat → Nat
  | 0 => 0
  | g + 1 => if needle g = needle (g + shift) then matchBack needle shift g else g + 1

/-- The variables of the loop in `suffixes`, with `g` one higher. -/
structure Suffixes where
  f : Nat
  g : Nat
  result : Nat → Nat

def suffixesStep (needle : Nat → α) (m : Nat) (s : Suffixes) (i : Nat) : Suffixes :=
  if s.g ≤ i ∧ s.result (i + (m - 1 - s.f)) < i + 1 - s.g then
    { s with result := Function.update s.result i (s.result (i + (m - 1 - s.f))) }
  else
    let g := matchBack needle (m - 1 - i) (min s.g (i + 1))
    ⟨i, g, Function.update s.result i (i + 1 - g)⟩

def suffixes (needle : Nat → α) (m : Nat) : Nat → Nat :=
  ((List.range (m - 1)).reverse.foldl (suffixesStep needle m)
    ⟨m - 1, m, Function.update (fun _ => 0) (m - 1) m⟩).result

/-- `for( ; j<d; ++j) if( result[j]==n_len ) result[j] = d` -/
def fill (m d j : Nat) (result : Nat → Nat) : Nat → Nat :=
  (List.range' j (d - j)).foldl
    (fun result k => if result k = m then Function.update result k d else result) result

/-- One step of the loop over the prefixes that are suffixes, with `i` one higher. -/
def bordersStep (suff : Nat → Nat) (m : Nat) (s : Nat × (Nat → Nat)) (i : Nat) :
    Nat × (Nat → Nat) :=
  if i = 0 ∨ suff (i - 1) = i then (max s.1 (m - i), fill m (m - i) s.1 s.2) else s

def borders (suff : Nat → Nat) (m : Nat) : Nat → Nat :=
  ((List.range (m + 1)).reverse.foldl (bordersStep suff m) (0, fun _ => m)).2

def prepareGoodsuffix (needle : Nat → α) (m : Nat) : Nat → Nat :=
  let suff := suffixes needle m
  (List.range (m - 1)).foldl (fun result i => Function.update result (m - 1 - suff i) (m - 1 - i))
    (borders suff m)

/-! ## The search -/

/-- `for( i=m-1; i>=0 && needle[i]==haystack[i+j]; --i)`: where they differ. -/
def compareBack (needle haystack : Nat → α) (j : Nat) : Nat → Option Nat
  | 0 => none
  | i + 1 => if needle i = haystack (i + j) then compareBack needle haystack j i else some i

/-- `max(goodsuffix[i], badcharacter[c]-m+1+i)`; where the second is negative the first is not. -/
def shift (needle : Nat → α) (m i : Nat) (c : α) : Nat :=
  max (prepareGoodsuffix needle m i) (prepareBadcharacter needle m c + 1 + i - m)

def searchFrom (needle : Nat → α) (m : Nat) (haystack : Nat → α) (n : Nat) : Nat → Nat → Option Nat
  | 0, _ => none
  | fuel + 1, j =>
    if j + m ≤ n then
      match compareBack needle haystack j m with
      | none => some j
      | some i => searchFrom needle m haystack n fuel (j + shift needle m i (haystack (i + j)))
    else none

def search (needle : Nat → α) (m : Nat) (haystack : Nat → α) (n : Nat) : Option Nat :=
  if n = 0 ∨ m = 0 ∨ n < m then none else searchFrom needle m haystack n (n + 1) 0

/-! ## Suffixes -/

omit [DecidableEq α] in
/-- `v` characters up to `i` are those at the end of the needle, and no more. -/
structure IsSuffix (needle : Nat → α) (m i v : Nat) : Prop where
  le : v ≤ i + 1
  eq : ∀ t < v, needle (i - t) = needle (m - 1 - t)
  ne : v < i + 1 → needle (i - v) ≠ needle (m - 1 - v)

theorem matchBack_spec (needle : Nat → α) (shift g : Nat) :
    matchBack needle shift g ≤ g ∧
      (∀ t, matchBack needle shift g ≤ t → t < g → needle t = needle (t + shift)) ∧
      ∀ k, matchBack needle shift g = k + 1 → needle k ≠ needle (k + shift) := by
  induction g with
  | zero =>
    exact ⟨Nat.le_refl _, fun t _ ht => absurd ht (Nat.not_lt_zero t), fun k hk => nomatch hk⟩
  | succ g ih =>
    unfold matchBack
    split
    · rename_i heq
      obtain ⟨hle, hmatch, hne⟩ := ih
      refine ⟨by omega, fun t hge hlt => ?_, hne⟩
      obtain hlt | rfl : t < g ∨ t = g := by omega
      · exact hmatch t hge hlt
      · exact heq
    · rename_i hne
      refine ⟨Nat.le_refl _, fun t hge hlt => by omega, fun k hk => ?_⟩
      obtain rfl : g = k := Nat.succ.inj hk
      exact hne

/-- What the loop knows when it has come down to `k`: between `g` and `f` is a copy of the end of
the needle. -/
structure SuffixesInv (needle : Nat → α) (m k : Nat) (s : Suffixes) : Prop where
  suffix : ∀ i, k ≤ i → i < m → IsSuffix needle m i (s.result i)
  f_ge : k ≤ s.f
  f_lt : s.f < m
  copy : ∀ t, s.g ≤ t → t ≤ s.f → needle t = needle (t + (m - 1 - s.f))
  init : s.f = m - 1 → s.g = m

theorem suffixesStep_inv {needle : Nat → α} {m i : Nat} {s : Suffixes} (hi : i + 1 < m)
    (h : SuffixesInv needle m (i + 1) s) : SuffixesInv needle m i (suffixesStep needle m s i) := by
  have hold (result : Nat → Nat) (v : Nat) (hresult : result = Function.update s.result i v)
      (hv : IsSuffix needle m i v) : ∀ k, i ≤ k → k < m → IsSuffix needle m k (result k) := by
    intro k hik hkm
    obtain rfl | hne := eq_or_ne k i
    · rw [hresult, Function.update_self]
      exact hv
    · rw [hresult, Function.update_of_ne hne]
      exact h.suffix k (by omega) hkm
  have hf := h.f_ge
  have hfm := h.f_lt
  unfold suffixesStep
  split
  · -- the copy of the end of the needle reaches further than the suffix
    rename_i hcond
    obtain ⟨hg, hlt⟩ := hcond
    have hinit : s.f ≠ m - 1 := fun hlast => by
      have := h.init hlast
      omega
    have hmirror := h.suffix (i + (m - 1 - s.f)) (by omega) (by omega)
    refine ⟨hold _ _ rfl ⟨by omega, fun t ht => ?_, fun _ => ?_⟩, by dsimp only; omega, hfm, h.copy,
      h.init⟩
    · rw [h.copy (i - t) (by omega) (by omega), ← hmirror.eq t ht]
      congr 1
      omega
    · rw [h.copy (i - s.result (i + (m - 1 - s.f))) (by omega) (by omega)]
      have hne := hmirror.ne (by omega)
      have hplace : i - s.result (i + (m - 1 - s.f)) + (m - 1 - s.f) =
          i + (m - 1 - s.f) - s.result (i + (m - 1 - s.f)) := by omega
      rw [hplace]
      exact hne
  · rename_i hcond
    obtain ⟨hle, hmatch, hne⟩ := matchBack_spec needle (m - 1 - i) (min s.g (i + 1))
    -- where the search for a mismatch starts, a copy is already known
    have hknown : ∀ t, min s.g (i + 1) ≤ t → t ≤ i → needle t = needle (t + (m - 1 - i)) := by
      intro t hge hti
      have hg : s.g ≤ i := by omega
      have hinit : s.f ≠ m - 1 := fun hlast => by
        have := h.init hlast
        omega
      have hlong : i + 1 - s.g ≤ s.result (i + (m - 1 - s.f)) := by omega
      have hmirror := h.suffix (i + (m - 1 - s.f)) (by omega) (by omega)
      rw [h.copy t (by omega) (by omega)]
      have heq := hmirror.eq (i - t) (by omega)
      have hplace : i + (m - 1 - s.f) - (i - t) = t + (m - 1 - s.f) := by omega
      have hplace' : m - 1 - (i - t) = t + (m - 1 - i) := by omega
      rwa [hplace, hplace'] at heq
    generalize matchBack needle (m - 1 - i) (min s.g (i + 1)) = g at hle hmatch hne
    have hcopy : ∀ t, g ≤ t → t ≤ i → needle t = needle (t + (m - 1 - i)) := by
      intro t hge hti
      by_cases hlt : t < min s.g (i + 1)
      · exact hmatch t hge hlt
      · exact hknown t (by omega) hti
    refine ⟨hold _ _ rfl ⟨by omega, fun t ht => ?_, fun hlt => ?_⟩, Nat.le_refl _,
      by dsimp only; omega, hcopy, fun hlast => ?_⟩
    · rw [hcopy (i - t) (by omega) (by omega)]
      congr 1
      omega
    · obtain ⟨k, rfl⟩ : ∃ k, g = k + 1 := ⟨g - 1, by omega⟩
      have hdiffer := hne k rfl
      have hplace : i - (i + 1 - (k + 1)) = k := by omega
      have hplace' : m - 1 - (i + 1 - (k + 1)) = k + (m - 1 - i) := by omega
      rw [hplace, hplace']
      exact hdiffer
    · have hlast : i = m - 1 := hlast
      omega

theorem suffixes_inv {needle : Nat → α} {m k : Nat} {s : Suffixes} (hk : k < m)
    (h : SuffixesInv needle m k s) :
    SuffixesInv needle m 0 ((List.range k).reverse.foldl (suffixesStep needle m) s) := by
  induction k generalizing s with
  | zero => exact h
  | succ k ih =>
    rw [List.range_succ, List.reverse_append, List.reverse_singleton, List.singleton_append,
      List.foldl_cons]
    exact ih (by omega) (suffixesStep_inv hk h)

/-- Each entry of the table is the suffix that ends there. -/
theorem suffixes_spec (needle : Nat → α) {m i : Nat} (hi : i < m) :
    IsSuffix needle m i (suffixes needle m i) := by
  have hinit : SuffixesInv needle m (m - 1)
      ⟨m - 1, m, Function.update (fun _ => 0) (m - 1) m⟩ := by
    refine ⟨fun k hk hkm => ?_, Nat.le_refl _, by dsimp only; omega, fun t hge hle => ?_,
      fun _ => rfl⟩
    · obtain rfl : k = m - 1 := by omega
      dsimp only
      rw [Function.update_self]
      exact ⟨by omega, fun t _ => rfl, fun hlt => by omega⟩
    · have hge : m ≤ t := hge
      have hle : t ≤ m - 1 := hle
      omega
  exact (suffixes_inv (by omega) hinit).suffix i (Nat.zero_le i) hi

/-! ## Good suffixes -/

omit [DecidableEq α] in
/-- The needle agrees with itself, moved on by `d`. -/
def Period (needle : Nat → α) (m d : Nat) : Prop := ∀ t, t + d < m → needle t = needle (t + d)

omit [DecidableEq α] in
theorem period_iff {needle : Nat → α} {m i v : Nat} (him : i < m) (h : IsSuffix needle m i v) :
    v = i + 1 ↔ Period needle m (m - 1 - i) := by
  constructor
  · rintro rfl t ht
    have heq := h.eq (i - t) (by omega)
    have hplace : i - (i - t) = t := by omega
    have hplace' : m - 1 - (i - t) = t + (m - 1 - i) := by omega
    rwa [hplace, hplace'] at heq
  · intro hperiod
    by_contra hne
    have hlt : v < i + 1 := Nat.lt_of_le_of_ne h.le hne
    refine h.ne hlt ?_
    rw [hperiod (i - v) (by omega)]
    congr 1
    omega

theorem fill_apply (m d j : Nat) (result : Nat → Nat) (k : Nat) :
    fill m d j result k = if j ≤ k ∧ k < d ∧ result k = m then d else result k := by
  unfold fill
  generalize hn : d - j = n
  induction n generalizing j result with
  | zero => rw [List.range'_zero, List.foldl_nil, if_neg (by omega)]
  | succ n ih =>
    rw [List.range'_succ, List.foldl_cons, ih _ _ (by omega)]
    by_cases hk : k = j
    · subst hk
      rw [if_neg (by omega)]
      by_cases hm : result k = m
      · rw [if_pos hm, Function.update_self, if_pos ⟨Nat.le_refl k, by omega, hm⟩]
      · rw [if_neg hm, if_neg fun h => hm h.2.2]
    · have hother : (if result j = m then Function.update result j d else result) k = result k := by
        split
        · exact Function.update_of_ne hk _ _
        · rfl
      rw [hother]
      grind

/-- What the loop over the periods knows when it has come down to `k`: the entries below `j` do not
shift over a period, and the others are not set. -/
structure BordersInv (needle : Nat → α) (m k : Nat) (s : Nat × (Nat → Nat)) : Prop where
  unset : ∀ a, s.1 ≤ a → s.2 a = m
  set : ∀ a < s.1, ∀ d, a < d → Period needle m d → s.2 a ≤ d
  pos : ∀ a, 0 < s.2 a
  done : ∀ d ≤ m - k, Period needle m d → d ≤ s.1

omit [DecidableEq α] in
theorem bordersStep_inv {needle : Nat → α} {suff : Nat → Nat} {m i : Nat} {s : Nat × (Nat → Nat)}
    (hi : i ≤ m) (hsuff : i = 0 ∨ suff (i - 1) = i ↔ Period needle m (m - i))
    (h : BordersInv needle m (i + 1) s) : BordersInv needle m i (bordersStep suff m s i) := by
  unfold bordersStep
  split
  · rename_i hperiod
    refine ⟨fun a ha => ?_, fun a ha d had hd => ?_, fun a => ?_, fun d hdm hd => ?_⟩
    · dsimp only at ha ⊢
      rw [fill_apply, if_neg (by omega)]
      exact h.unset a (by omega)
    · dsimp only at ha ⊢
      rw [fill_apply]
      split
      · rename_i hset
        by_contra hlt
        have := h.done d (by omega) hd
        omega
      · rename_i hset
        refine h.set a ?_ d had hd
        by_contra hge
        exact hset ⟨by omega, by omega, h.unset a (by omega)⟩
    · dsimp only
      rw [fill_apply]
      split
      · omega
      · exact h.pos a
    · dsimp only
      have := h.done d
      by_cases hle : d ≤ m - (i + 1)
      · have := this hle hd
        omega
      · omega
  · rename_i hperiod
    refine ⟨h.unset, h.set, h.pos, fun d hdm hd => ?_⟩
    by_cases hle : d ≤ m - (i + 1)
    · exact h.done d hle hd
    · have hlast : d = m - i := by omega
      exact absurd (hsuff.mpr (hlast ▸ hd)) hperiod

/-- No entry shifts over a period of the needle. -/
theorem borders_spec {needle : Nat → α} {suff : Nat → Nat} {m : Nat} (hm : 0 < m)
    (hsuff : ∀ i < m, IsSuffix needle m i (suff i)) (a : Nat) :
    0 < borders suff m a ∧ (a < m → ∀ d, a < d → Period needle m d → borders suff m a ≤ d) := by
  have hiff (i : Nat) (hi : i ≤ m) : i = 0 ∨ suff (i - 1) = i ↔ Period needle m (m - i) := by
    cases i with
    | zero => exact iff_of_true (.inl rfl) fun t ht => by omega
    | succ i =>
      have hperiod := period_iff (by omega) (hsuff i (by omega))
      have hplace : m - 1 - i = m - (i + 1) := by omega
      rw [hplace] at hperiod
      simpa using hperiod
  have hrun (k : Nat) (hk : k ≤ m + 1) (s : Nat × (Nat → Nat)) (hs : BordersInv needle m k s) :
      BordersInv needle m 0 ((List.range k).reverse.foldl (bordersStep suff m) s) := by
    induction k generalizing s with
    | zero => exact hs
    | succ k ih =>
      rw [List.range_succ, List.reverse_append, List.reverse_singleton, List.singleton_append,
        List.foldl_cons]
      exact ih (by omega) _ (bordersStep_inv (by omega) (hiff k (by omega)) hs)
  have hinit : BordersInv needle m (m + 1) (0, fun _ => m) :=
    ⟨fun a _ => rfl, fun a ha => absurd ha (Nat.not_lt_zero a), fun a => hm, fun d hd _ => by omega⟩
  have hinv := hrun (m + 1) (Nat.le_refl _) _ hinit
  have hall : m ≤ ((List.range (m + 1)).reverse.foldl (bordersStep suff m) (0, fun _ => m)).1 :=
    hinv.done m (by omega) fun t ht => by omega
  exact ⟨hinv.pos a, fun ha => hinv.set a (by omega)⟩

/-- A shift by `d` after a mismatch at `a`: what has been compared agrees again, and what did not
agree has changed. -/
structure Compatible (needle : Nat → α) (m a d : Nat) : Prop where
  eq : ∀ t, a < t → t < m → d ≤ t → needle (t - d) = needle t
  ne : d ≤ a → needle (a - d) ≠ needle a

omit [DecidableEq α] in
/-- A shift within the compared part is to another occurrence of the suffix. -/
theorem Compatible.suffix {needle : Nat → α} {m a d v : Nat} (h : Compatible needle m a d)
    (ham : a < m) (hda : d ≤ a) (hv : IsSuffix needle m (m - 1 - d) v) : v = m - 1 - a := by
  have hmismatch : needle (m - 1 - d - (m - 1 - a)) ≠ needle (m - 1 - (m - 1 - a)) := by
    have hplace : m - 1 - d - (m - 1 - a) = a - d := by omega
    have hplace' : m - 1 - (m - 1 - a) = a := by omega
    rw [hplace, hplace']
    exact h.ne hda
  by_contra hne
  obtain hlt | hgt := Nat.lt_or_gt_of_ne hne
  · refine hv.ne (by omega) ?_
    have heq := h.eq (m - 1 - v) (by omega) (by omega) (by omega)
    have hplace : m - 1 - v - d = m - 1 - d - v := by omega
    rwa [hplace] at heq
  · exact hmismatch (hv.eq (m - 1 - a) hgt)

/-- What the last loop knows after `k` suffixes. -/
structure GoodsuffixInv (needle : Nat → α) (m k : Nat) (result : Nat → Nat) : Prop where
  pos : ∀ a, 0 < result a
  suffix : ∀ i < k, result (m - 1 - suffixes needle m i) ≤ m - 1 - i
  period : ∀ a < m, ∀ d, a < d → Period needle m d → result a ≤ d

theorem goodsuffixStep_inv {needle : Nat → α} {m k : Nat} {result : Nat → Nat} (hk : k + 1 < m)
    (h : GoodsuffixInv needle m k result) : GoodsuffixInv needle m (k + 1)
      (Function.update result (m - 1 - suffixes needle m k) (m - 1 - k)) := by
  have hle := (suffixes_spec needle (show k < m by omega)).le
  refine ⟨fun a => ?_, fun i hi => ?_, fun a ha d had hd => ?_⟩
  · rw [Function.update_apply]
    split
    · omega
    · exact h.pos a
  · rw [Function.update_apply]
    split
    · omega
    · rename_i hne
      have hik : i ≠ k := fun hik => hne (hik ▸ rfl)
      exact h.suffix i (by omega)
  · rw [Function.update_apply]
    split
    · omega
    · exact h.period a ha d had hd

theorem prepareGoodsuffix_inv (needle : Nat → α) {m : Nat} (hm : 0 < m) :
    GoodsuffixInv needle m (m - 1) (prepareGoodsuffix needle m) := by
  have hinit : GoodsuffixInv needle m 0 (borders (suffixes needle m) m) := by
    have hspec := borders_spec hm fun i hi => suffixes_spec needle hi
    exact ⟨fun a => (hspec a).1, fun i hi => absurd hi (Nat.not_lt_zero i),
      fun a ha => (hspec a).2 ha⟩
  have hrun (k : Nat) (hk : k < m) : GoodsuffixInv needle m k ((List.range k).foldl
      (fun result i => Function.update result (m - 1 - suffixes needle m i) (m - 1 - i))
      (borders (suffixes needle m) m)) := by
    induction k with
    | zero => exact hinit
    | succ k ih =>
      rw [List.range_succ, List.foldl_append, List.foldl_cons, List.foldl_nil]
      exact goodsuffixStep_inv hk (ih (by omega))
  exact hrun (m - 1) (by omega)

/-- The table for good suffixes never shifts over a shift that is compatible. -/
theorem prepareGoodsuffix_le {needle : Nat → α} {m a d : Nat} (ham : a < m) (hd : 0 < d)
    (h : Compatible needle m a d) : prepareGoodsuffix needle m a ≤ d := by
  have hinv := prepareGoodsuffix_inv needle (show 0 < m by omega)
  by_cases hda : d ≤ a
  · have hsuffix := h.suffix ham hda (suffixes_spec needle (show m - 1 - d < m by omega))
    have hle := hinv.suffix (m - 1 - d) (by omega)
    have hplace : m - 1 - (m - 1 - a) = a := by omega
    rw [hsuffix, hplace] at hle
    omega
  · refine hinv.period a ham d (by omega) fun t ht => ?_
    have heq := h.eq (t + d) (by omega) ht (by omega)
    rwa [Nat.add_sub_cancel] at heq

/-! ## Bad characters -/

theorem prepareBadcharacter_le (needle : Nat → α) (m : Nat) (c : α) :
    prepareBadcharacter needle m c ≤ m ∧
      ∀ i < m - 1, needle i = c → prepareBadcharacter needle m c ≤ m - 1 - i := by
  have hrun (k : Nat) :
      let result := (List.range k).foldl
        (fun result i => Function.update result (needle i) (m - i - 1)) fun _ => m
      result c ≤ m ∧ ∀ i < k, needle i = c → result c ≤ m - 1 - i := by
    induction k with
    | zero => exact ⟨Nat.le_refl m, fun i hi => absurd hi (Nat.not_lt_zero i)⟩
    | succ k ih =>
      obtain ⟨hle, hmatch⟩ := ih
      dsimp only
      rw [List.range_succ, List.foldl_append, List.foldl_cons, List.foldl_nil,
        Function.update_apply]
      split
      · exact ⟨by omega, fun i hi _ => by omega⟩
      · rename_i hne
        refine ⟨hle, fun i hi hc => ?_⟩
        have hik : i ≠ k := fun hik => hne (by rw [← hc, hik])
        exact hmatch i (by omega) hc
  exact hrun (m - 1)

/-! ## What is found -/

theorem compareBack_none {needle haystack : Nat → α} {j k : Nat}
    (h : compareBack needle haystack j k = none) : ∀ t < k, needle t = haystack (t + j) := by
  induction k with
  | zero => exact fun t ht => absurd ht (Nat.not_lt_zero t)
  | succ k ih =>
    unfold compareBack at h
    split at h
    · rename_i heq
      intro t ht
      obtain hlt | rfl : t < k ∨ t = k := by omega
      · exact ih h t hlt
      · exact heq
    · cases h

theorem compareBack_some {needle haystack : Nat → α} {j k i : Nat}
    (h : compareBack needle haystack j k = some i) :
    i < k ∧ needle i ≠ haystack (i + j) ∧
      ∀ t, i < t → t < k → needle t = haystack (t + j) := by
  induction k with
  | zero => cases h
  | succ k ih =>
    unfold compareBack at h
    split at h
    · rename_i heq
      obtain ⟨hik, hne, hmatch⟩ := ih h
      refine ⟨by omega, hne, fun t hit ht => ?_⟩
      obtain hlt | rfl : t < k ∨ t = k := by omega
      · exact hmatch t hit hlt
      · exact heq
    · rename_i hne
      obtain rfl := Option.some.inj h
      exact ⟨Nat.lt_succ_self _, hne, fun t hkt ht => by omega⟩

/-- No shift goes over an occurrence. -/
theorem shift_le {needle haystack : Nat → α} {m i j p : Nat} (him : i < m)
    (hne : needle i ≠ haystack (i + j))
    (hmatch : ∀ t, i < t → t < m → needle t = haystack (t + j)) (hjp : j < p)
    (hp : Occurs needle m haystack p) :
    j + shift needle m i (haystack (i + j)) ≤ p := by
  have hmoved : ∀ t, t < m → p - j ≤ t → needle (t - (p - j)) = haystack (t + j) := by
    intro t ht hd
    rw [← hp (t - (p - j)) (by omega)]
    congr 1
    omega
  have hgood : prepareGoodsuffix needle m i ≤ p - j := by
    refine prepareGoodsuffix_le him (by omega) ⟨fun t hit ht hd => ?_, fun hd => ?_⟩
    · rw [hmoved t ht hd, hmatch t hit ht]
    · rw [hmoved i him hd]
      exact hne.symm
  have hbad : prepareBadcharacter needle m (haystack (i + j)) + 1 + i - m ≤ p - j := by
    obtain ⟨hle, hlast⟩ := prepareBadcharacter_le needle m (haystack (i + j))
    by_cases hd : p - j ≤ i
    · have := hlast (i - (p - j)) (by omega) (hmoved i him hd)
      omega
    · omega
  unfold shift
  omega

theorem searchFrom_spec (needle haystack : Nat → α) (m : Nat) {n fuel j : Nat}
    (hfuel : n < fuel + j) :
    match searchFrom needle m haystack n fuel j with
    | some p => FirstFrom needle m haystack n j p
    | none => ∀ p, j ≤ p → p + m ≤ n → ¬Occurs needle m haystack p := by
  induction fuel generalizing j with
  | zero => exact fun p hj hp => by omega
  | succ fuel ih =>
    unfold searchFrom
    by_cases hjm : j + m ≤ n
    · rw [if_pos hjm]
      cases hcompare : compareBack needle haystack j m with
      | none =>
        refine ⟨Nat.le_refl j, hjm, fun t ht => ?_, fun q hjq hqj => by omega⟩
        rw [Nat.add_comm, compareBack_none hcompare t ht]
      | some i =>
        obtain ⟨him, hne, hmatch⟩ := compareBack_some hcompare
        have hpos : 0 < shift needle m i (haystack (i + j)) :=
          Nat.lt_of_lt_of_le ((prepareGoodsuffix_inv needle (by omega)).pos i) (Nat.le_max_left _ _)
        have hskip (q : Nat) (hjq : j ≤ q) (hq : Occurs needle m haystack q) :
            j + shift needle m i (haystack (i + j)) ≤ q := by
          obtain rfl | hlt := Nat.eq_or_lt_of_le hjq
          · exact absurd (by rw [Nat.add_comm, hq i him]) hne
          · exact shift_le him hne hmatch hlt hq
        dsimp only
        generalize hnext : j + shift needle m i (haystack (i + j)) = next at hskip
        have hrest := @ih next (by omega)
        cases hfound : searchFrom needle m haystack n fuel next with
        | some p =>
          rw [hfound] at hrest
          refine ⟨by have := hrest.ge; omega, hrest.le, hrest.occurs, fun q hjq hqp hq => ?_⟩
          exact hrest.first q (hskip q hjq hq) hqp hq
        | none =>
          rw [hfound] at hrest
          exact fun p hjp hp hocc => hrest p (hskip p hjp hocc) hp hocc
    · rw [if_neg hjm]
      exact fun p hjp hp => by omega

/-- The first occurrence of a needle that is not empty, if there is one. -/
theorem search_spec {needle haystack : Nat → α} {m n : Nat} (hm : 0 < m) :
    match search needle m haystack n with
    | some p => FirstFrom needle m haystack n 0 p
    | none => ∀ p, p + m ≤ n → ¬Occurs needle m haystack p := by
  unfold search
  by_cases hempty : n = 0 ∨ m = 0 ∨ n < m
  · rw [if_pos hempty]
    exact fun p hp => by omega
  · rw [if_neg hempty]
    have hspec := searchFrom_spec needle haystack m (show n < n + 1 + 0 by omega)
    cases hfound : searchFrom needle m haystack n (n + 1) 0 with
    | some p =>
      rw [hfound] at hspec
      exact hspec
    | none =>
      rw [hfound] at hspec
      exact fun p hp => hspec p (Nat.zero_le p) hp

end Jive5ab.Lib.BoyerMoore
