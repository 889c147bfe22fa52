import Mathlib
import Std.Data.TreeMap.Lemmas
import Std.Data.TreeSet.Lemmas

/-! # Ordered maps and sets under lawful keys

`Std.TreeMap` states its lookup laws up to the comparison; with a lawful order
on the keys they are laws about equality of keys. Erasing the keys of a list,
one after the other, is looked up the same way. -/
namespace Jive5ab.Lib.OrdMap
open Std

variable {κ β : Type} [Ord κ] [TransOrd κ] [LawfulEqOrd κ]

theorem mem_insert_iff (s : TreeSet κ) (k a : κ) : a ∈ s.insert k ↔ k = a ∨ a ∈ s := by
  simp [TreeSet.mem_insert]

theorem mem_erase_iff (s : TreeSet κ) (k a : κ) : a ∈ s.erase k ↔ k ≠ a ∧ a ∈ s := by
  simp [TreeSet.mem_erase]

theorem mem_insertAll (ks : List κ) (s : TreeSet κ) (a : κ) :
    a ∈ ks.foldl (fun s k => s.insert k) s ↔ a ∈ ks ∨ a ∈ s := by
  induction ks generalizing s with
  | nil => simp
  | cons k ks ih =>
    simp only [List.foldl_cons, ih, mem_insert_iff, List.mem_cons]
    constructor
    · rintro (hks | rfl | hs)
      · exact .inl (.inr hks)
      · exact .inl (.inl rfl)
      · exact .inr hs
    · rintro ((rfl | hks) | hs)
      · exact .inr (.inl rfl)
      · exact .inl hks
      · exact .inr (.inr hs)

theorem mem_eraseAll (ks : List κ) (s : TreeSet κ) (a : κ) :
    a ∈ ks.foldl (fun s k => s.erase k) s ↔ a ∉ ks ∧ a ∈ s := by
  induction ks generalizing s with
  | nil => simp
  | cons k ks ih =>
    simp only [List.foldl_cons, ih, mem_erase_iff, List.mem_cons, not_or]
    constructor
    · rintro ⟨hks, hk, hs⟩; exact ⟨⟨Ne.symm hk, hks⟩, hs⟩
    · rintro ⟨⟨hk, hks⟩, hs⟩; exact ⟨hks, Ne.symm hk, hs⟩

variable [DecidableEq κ]

theorem lookup_insert (m : TreeMap κ β) (k a : κ) (v : β) :
    (m.insert k v)[a]? = if k = a then some v else m[a]? := by
  simp [TreeMap.getElem?_insert]

theorem lookup_erase (m : TreeMap κ β) (k a : κ) :
    (m.erase k)[a]? = if k = a then none else m[a]? := by
  simp [TreeMap.getElem?_erase]

theorem lookup_eraseAll (ks : List κ) (m : TreeMap κ β) (a : κ) :
    (ks.foldl (fun m k => m.erase k) m)[a]? = if a ∈ ks then none else m[a]? := by
  induction ks generalizing m with
  | nil => simp
  | cons k ks ih =>
    simp only [List.foldl_cons, ih, lookup_erase, List.mem_cons]
    by_cases hk : k = a
    · simp [hk]
    · simp [hk, Ne.symm hk]

omit [Ord κ] [TransOrd κ] [LawfulEqOrd κ] in
theorem filter_of_mem {l : List (κ × β)} (hdistinct : l.Pairwise fun a b => a.1 ≠ b.1) {k : κ} {v : β}
    (hmem : (k, v) ∈ l) : l.filter (fun e => e.1 = k) = [(k, v)] := by
  induction hdistinct with
  | nil => cases hmem
  | @cons a l ha _ ih =>
    rcases List.mem_cons.mp hmem with rfl | hmem
    · have hrest : l.filter (fun e => e.1 = k) = [] := by
        rw [List.filter_eq_nil_iff]
        intro b hb
        simpa using Ne.symm (ha b hb)
      rw [List.filter_cons_of_pos (by simp), hrest]
    · rw [List.filter_cons_of_neg (by simpa using ha _ hmem), ih hmem]

/-- In the list of a map a key stands once, if it is there. -/
theorem filter_toList (m : TreeMap κ β) (k : κ) :
    m.toList.filter (fun e => e.1 = k) = (m[k]?).toList.map fun v => (k, v) := by
  have hdistinct : m.toList.Pairwise fun a b => a.1 ≠ b.1 := by
    refine (TreeMap.distinct_keys_toList (t := m)).imp fun h heq => h ?_
    rw [heq]
    exact compare_self
  have hmem (v : β) : (k, v) ∈ m.toList ↔ m[k]? = some v := TreeMap.mem_toList_iff_getElem?_eq_some
  cases hk : m[k]? with
  | none =>
    rw [Option.toList_none, List.map_nil, List.filter_eq_nil_iff]
    intro e he
    simp only [decide_eq_true_eq]
    rintro rfl
    rw [(hmem e.2).mp he] at hk
    cases hk
  | some v => exact filter_of_mem hdistinct ((hmem v).mpr hk)

/-- The entries of a map, put into a map again. -/
theorem lookup_ofList_toList (m : TreeMap κ β) (k : κ) : (TreeMap.ofList m.toList)[k]? = m[k]? := by
  cases hk : m[k]? with
  | none =>
    refine TreeMap.getElem?_ofList_of_contains_eq_false ?_
    rw [List.contains_eq_mem, decide_eq_false_iff_not]
    intro hmem
    obtain ⟨e, he, rfl⟩ := List.mem_map.mp hmem
    rw [TreeMap.mem_toList_iff_getElem?_eq_some.mp he] at hk
    cases hk
  | some v =>
    exact TreeMap.getElem?_ofList_of_mem compare_self TreeMap.distinct_keys_toList
      (TreeMap.mem_toList_iff_getElem?_eq_some.mpr hk)

end Jive5ab.Lib.OrdMap
