import Mathlib.Data.List.GetD
import Jive5ab.Lib.BoyerMoore

/-! # `boyer_moore`

The searcher as an object: what it is built from, what it throws, and every byte of the haystack
that it reads. -/
namespace Jive5ab.Headersearch.SyncwordSearch
open Lib

abbrev Byte := BitVec 8

def intMax : Nat := 2 ^ 31 - 1

inductive Failure
  | needleLongerThanIntMax
  | haystackLongerThanIntMax
  | outOfBounds (i : Nat)
  | hangs
  deriving DecidableEq

/-- `boyer_moore`, with its jump tables. -/
structure BoyerMoore where
  needle : List Byte
  badcharacter : Byte → Nat
  goodsuffix : Nat → Nat

def charAt (l : List Byte) : Nat → Byte := fun i => l.getD i 0

def BoyerMoore.make (pat : List Byte) : Except Failure BoyerMoore :=
  if intMax ≤ pat.length then .error .needleLongerThanIntMax
  else .ok {
    needle := pat
    badcharacter := BoyerMoore.prepareBadcharacter (charAt pat) pat.length
    goodsuffix := BoyerMoore.prepareGoodsuffix (charAt pat) pat.length }

/-! ## The search -/

def read (haystack : List Byte) (i : Nat) : Except Failure Byte :=
  match haystack[i]? with
  | some c => .ok c
  | none => .error (.outOfBounds i)

namespace BoyerMoore

variable (bm : BoyerMoore)

/-- `for( i=m-1; i>=0 && needle[i]==haystack[i+j]; --i)`: where they differ, and what is there. -/
def compare (haystack : List Byte) (j : Nat) : Nat → Except Failure (Option (Nat × Byte))
  | 0 => .ok none
  | i + 1 =>
    match read haystack (i + j) with
    | .error e => .error e
    | .ok c => if charAt bm.needle i = c then compare haystack j i else .ok (some (i, c))

/-- `std::max(goodsuffix[i], badcharacter[c]-m+1+i)` -/
def shift (i : Nat) (c : Byte) : Int :=
  max (bm.goodsuffix i : Int) (bm.badcharacter c - bm.needle.length + 1 + i)

def searchFrom (haystack : List Byte) : Nat → Nat → Except Failure (Option Nat)
  | 0, _ => .error .hangs
  | fuel + 1, j =>
    if j + bm.needle.length ≤ haystack.length then
      match bm.compare haystack j bm.needle.length with
      | .error e => .error e
      | .ok none => .ok (some j)
      | .ok (some (i, c)) => searchFrom haystack fuel (j + bm.shift i c).toNat
    else .ok none

/-- `operator()` -/
def search (haystack : List Byte) : Except Failure (Option Nat) :=
  if intMax ≤ haystack.length then .error .haystackLongerThanIntMax
  else if haystack.length = 0 then .ok none
  else if bm.needle.length = 0 then .ok none
  else if haystack.length < bm.needle.length then .ok none
  else bm.searchFrom haystack (haystack.length + 1) 0

end BoyerMoore

/-! ## What is read -/

theorem read_ok {haystack : List Byte} {i : Nat} (h : i < haystack.length) :
    read haystack i = .ok (charAt haystack i) := by
  unfold read charAt
  rw [List.getElem?_eq_getElem h, List.getD_eq_getElem _ _ h]

/-- Nothing outside the haystack is read. -/
theorem compare_eq (bm : BoyerMoore) {haystack : List Byte} {j k : Nat}
    (h : k + j ≤ haystack.length) :
    bm.compare haystack j k =
      .ok ((Lib.BoyerMoore.compareBack (charAt bm.needle) (charAt haystack) j k).map
        fun i => (i, charAt haystack (i + j))) := by
  induction k with
  | zero => rfl
  | succ k ih =>
    unfold BoyerMoore.compare Lib.BoyerMoore.compareBack
    rw [read_ok (by omega), ih (by omega)]
    dsimp only
    split <;> rfl

/-! ## Shifts -/

theorem make_ok {pat : List Byte} (h : pat.length < intMax) :
    BoyerMoore.make pat = .ok {
      needle := pat
      badcharacter := Lib.BoyerMoore.prepareBadcharacter (charAt pat) pat.length
      goodsuffix := Lib.BoyerMoore.prepareGoodsuffix (charAt pat) pat.length } := by
  unfold BoyerMoore.make
  rw [if_neg (Nat.not_le.mpr h)]

theorem make_eq {pat : List Byte} {bm : BoyerMoore} (h : BoyerMoore.make pat = .ok bm) :
    bm.needle = pat ∧ bm.badcharacter = Lib.BoyerMoore.prepareBadcharacter (charAt pat) pat.length ∧
      bm.goodsuffix = Lib.BoyerMoore.prepareGoodsuffix (charAt pat) pat.length := by
  unfold BoyerMoore.make at h
  split at h
  · cases h
  · cases h
    exact ⟨rfl, rfl, rfl⟩

/-- Where the second of the two is negative the first is not. -/
theorem shift_eq {pat : List Byte} {bm : BoyerMoore} (h : BoyerMoore.make pat = .ok bm) (i : Nat)
    (c : Byte) : bm.shift i c = Lib.BoyerMoore.shift (charAt pat) pat.length i c := by
  obtain ⟨hneedle, hbad, hgood⟩ := make_eq h
  unfold BoyerMoore.shift Lib.BoyerMoore.shift
  rw [hneedle, hbad, hgood]
  omega

theorem one_le_shift {pat : List Byte} {bm : BoyerMoore} (h : BoyerMoore.make pat = .ok bm)
    (hne : pat ≠ []) (i : Nat) (c : Byte) : 1 ≤ bm.shift i c := by
  have hpos := (Lib.BoyerMoore.prepareGoodsuffix_inv (charAt pat)
    (List.length_pos_iff.mpr hne)).pos i
  have hle := Nat.le_max_left (Lib.BoyerMoore.prepareGoodsuffix (charAt pat) pat.length i)
    (Lib.BoyerMoore.prepareBadcharacter (charAt pat) pat.length c + 1 + i - pat.length)
  rw [shift_eq h]
  unfold Lib.BoyerMoore.shift
  omega

/-! ## What is found -/

/-- As every shift is one at least, the search gets to the end. -/
theorem searchFrom_eq {pat haystack : List Byte} {bm : BoyerMoore} (h : BoyerMoore.make pat = .ok bm)
    (hne : pat ≠ []) {fuel j : Nat} (hfuel : haystack.length ≤ fuel + j) :
    bm.searchFrom haystack (fuel + 1) j =
      .ok (Lib.BoyerMoore.searchFrom (charAt pat) pat.length (charAt haystack) haystack.length
        (fuel + 1) j) := by
  have hneedle := (make_eq h).1
  have hpos : 0 < pat.length := List.length_pos_iff.mpr hne
  induction fuel generalizing j with
  | zero =>
    unfold BoyerMoore.searchFrom Lib.BoyerMoore.searchFrom
    rw [hneedle, if_neg (by omega), if_neg (by omega)]
  | succ fuel ih =>
    unfold BoyerMoore.searchFrom Lib.BoyerMoore.searchFrom
    rw [hneedle]
    by_cases hfit : j + pat.length ≤ haystack.length
    · rw [if_pos hfit, if_pos hfit, compare_eq bm (by omega), hneedle]
      cases hcompare : Lib.BoyerMoore.compareBack (charAt pat) (charAt haystack) j pat.length with
      | none => rfl
      | some i =>
        have hshift := one_le_shift h hne i (charAt haystack (i + j))
        dsimp only [Option.map_some]
        rw [shift_eq h] at hshift ⊢
        rw [← ih (by omega)]
        rfl
    · rw [if_neg hfit, if_neg hfit]

theorem search_eq {pat haystack : List Byte} {bm : BoyerMoore} (h : BoyerMoore.make pat = .ok bm)
    (hne : pat ≠ []) (hlen : haystack.length < intMax) :
    bm.search haystack =
      .ok (Lib.BoyerMoore.search (charAt pat) pat.length (charAt haystack) haystack.length) := by
  have hneedle := (make_eq h).1
  unfold BoyerMoore.search Lib.BoyerMoore.search
  rw [if_neg (Nat.not_le.mpr hlen), hneedle]
  by_cases hempty : haystack.length = 0
  · rw [if_pos hempty, if_pos (.inl hempty)]
  by_cases hnone : pat.length = 0
  · rw [if_neg hempty, if_pos hnone, if_pos (.inr (.inl hnone))]
  by_cases hshort : haystack.length < pat.length
  · rw [if_neg hempty, if_neg hnone, if_pos hshort, if_pos (.inr (.inr hshort))]
  · rw [if_neg hempty, if_neg hnone, if_neg hshort, if_neg (by omega),
      searchFrom_eq h hne (Nat.le_add_right _ _)]

/-- The first occurrence is found, or that there is none, without a read outside the haystack; and
it comes to an end, as every shift is one at least. -/
def Finds (pat haystack : List Byte) : Prop :=
  ∃ bm, BoyerMoore.make pat = .ok bm ∧ (∀ i c, 1 ≤ bm.shift i c) ∧
    match bm.search haystack with
    | .error _ => False
    | .ok none => ∀ p, p + pat.length ≤ haystack.length → ¬pat <+: haystack.drop p
    | .ok (some p) => pat <+: haystack.drop p ∧
        ∀ q < p, ¬pat <+: haystack.drop q

theorem isPrefix_drop_iff {pat haystack : List Byte} {p : Nat} (hne : pat ≠ []) :
    pat <+: haystack.drop p ↔
      p + pat.length ≤ haystack.length ∧ Occurs (charAt pat) pat.length (charAt haystack) p := by
  have hpos := List.length_pos_iff.mpr hne
  constructor
  · intro h
    have hle := h.length_le
    rw [List.length_drop] at hle
    refine ⟨by omega, fun t ht => ?_⟩
    have hget := h.getElem ht
    rw [List.getElem_drop] at hget
    unfold charAt
    rw [List.getD_eq_getElem _ _ (by omega), List.getD_eq_getElem _ _ ht, hget]
  · rintro ⟨hle, hocc⟩
    refine List.prefix_iff_getElem.mpr ⟨by rw [List.length_drop]; omega, fun t ht => ?_⟩
    have hchar := hocc t ht
    unfold charAt at hchar
    rw [List.getD_eq_getElem _ _ (by omega), List.getD_eq_getElem _ _ ht] at hchar
    rw [List.getElem_drop, hchar]

theorem finds_of_lt {pat haystack : List Byte} (hne : pat ≠ []) (hpat : pat.length < intMax)
    (hhaystack : haystack.length < intMax) : Finds pat haystack := by
  have hmake := make_ok hpat
  have hspec := @Lib.BoyerMoore.search_spec Byte _ (charAt pat) (charAt haystack) pat.length
    haystack.length (List.length_pos_iff.mpr hne)
  refine ⟨_, hmake, fun i c => one_le_shift hmake hne i c, ?_⟩
  rw [search_eq hmake hne hhaystack]
  split
  · contradiction
  · rename_i hsearch
    rw [Except.ok.inj hsearch] at hspec
    exact fun p hp h => hspec p hp ((isPrefix_drop_iff hne).mp h).2
  · rename_i p hsearch
    rw [Except.ok.inj hsearch] at hspec
    refine ⟨(isPrefix_drop_iff hne).mpr ⟨hspec.le, hspec.occurs⟩, fun q hq h => ?_⟩
    exact hspec.first q (Nat.zero_le q) hq ((isPrefix_drop_iff hne).mp h).2

/-- What is too long for an `int` is refused. -/
theorem finds_or_throws {pat haystack : List Byte} (hne : pat ≠ []) :
    (pat.length < intMax → haystack.length < intMax → Finds pat haystack) ∧
      (intMax ≤ pat.length → BoyerMoore.make pat = .error .needleLongerThanIntMax) ∧
      ∀ bm, BoyerMoore.make pat = .ok bm → intMax ≤ haystack.length →
        bm.search haystack = .error .haystackLongerThanIntMax := by
  refine ⟨finds_of_lt hne, fun hlong => ?_, fun bm _ hlong => ?_⟩
  · unfold BoyerMoore.make
    rw [if_pos hlong]
  · unfold BoyerMoore.search
    rw [if_pos hlong]

theorem finds_or_throws_period :
    ([1, 2, 1] : List Byte) ≠ [] ∧ Finds [1, 2, 1] [1, 2, 2, 1, 2, 1, 2, 1] ∧
      (BoyerMoore.make [1, 2, 1]).bind (·.search [1, 2, 2, 1, 2, 1, 2, 1]) = .ok (some 3) :=
  ⟨by decide, (finds_or_throws (by decide)).1 (by decide) (by decide), by decide +kernel⟩

theorem not_finds_of_long {pat haystack : List Byte} (h : intMax ≤ haystack.length) :
    ¬Finds pat haystack := by
  rintro ⟨bm, -, -, hfinds⟩
  unfold BoyerMoore.search at hfinds
  rw [if_pos h] at hfinds
  exact hfinds

theorem long_haystack_refused : ¬Finds [0] (List.replicate intMax 0) :=
  not_finds_of_long (Nat.le_of_eq List.length_replicate.symm)

end Jive5ab.Headersearch.SyncwordSearch
