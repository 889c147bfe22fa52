import Mathlib.Data.List.Infix
import Jive5ab.Rsync.KvMap

/-! # Maps as headers, and headers as maps

What `toBinary` and `fromBinary` do on any map and any bytes, and what `read_itcp_header` and the
`itcp` branch of the network reader take off a connection. -/
namespace Jive5ab.Rsync
open Std Lib Lib.Split

/-! ## The network reader -/

def KvMap.addId (idValues : KvMap) (identifier : Text) : Option KvMap :=
  (find separator identifier).map fun i =>
    idValues.insert (identifier.take i) (identifier.drop (i + separator.length))

/-- The network reader leaves the last two identifiers out, and skips none. -/
def idValues (bin : Text) : Option KvMap :=
  let identifiers := split nul false bin
  (identifiers.take (identifiers.length - 2)).foldlM KvMap.addId ∅

/-! ## The round trip -/

/-- The header is taken off the connection, no more and no less, and has the pairs of the map. -/
def RoundTrip (kv : KvMap) (stream : Text) : Prop :=
  ∃ bin kv', readItcpHeader 0 (kv.toBinary ++ stream) = some (bin, stream) ∧ bin = kv.toBinary ∧
    fromBinary bin = some kv' ∧ kv'.toList = kv.toList

/-- An exception, or a map that comes back from its own bytes. -/
def ParsesBack (bin : Text) : Prop :=
  fromBinary bin = none ∨ ∃ kv kv', fromBinary bin = some kv ∧ kv.Proper ∧
    fromBinary kv.toBinary = some kv' ∧ kv'.toList = kv.toList

/-! ## Maps -/

theorem toList_ofList (kv : KvMap) : (TreeMap.ofList kv.toList : KvMap).toList = kv.toList := by
  refine TreeMap.equiv_iff_toList_eq.mp (TreeMap.Equiv.of_forall_constGet?_eq fun k => ?_)
  cases hk : kv[k]? with
  | some v =>
    exact TreeMap.getElem?_ofList_of_mem Std.ReflCmp.compare_self TreeMap.distinct_keys_toList
      (TreeMap.mem_toList_iff_getElem?_eq_some.mpr hk)
  | none =>
    refine TreeMap.getElem?_ofList_of_contains_eq_false ?_
    rw [List.contains_eq_mem, decide_eq_false_iff_not]
    intro hmem
    obtain ⟨e, he, rfl⟩ := List.mem_map.mp hmem
    rw [TreeMap.mem_toList_iff_getElem?_eq_some.mp he] at hk
    cases hk

theorem proper_insert {kv : KvMap} {key value : Text} (h : kv.Proper) (hnew : Proper key value) :
    KvMap.Proper (kv.insert key value) := by
  intro e he
  have hget := TreeMap.mem_toList_iff_getElem?_eq_some.mp he
  rw [TreeMap.getElem?_insert] at hget
  split at hget
  · rename_i hkey
    have hk : key = e.1 := Std.LawfulEqCmp.eq_of_compare hkey
    have hv : value = e.2 := Option.some.inj hget
    exact hk ▸ hv ▸ hnew
  · exact h e (TreeMap.mem_toList_iff_getElem?_eq_some.mpr hget)

/-! ## Any bytes -/

/-- The first separator of a line, and what stands before it. -/
theorem find_some {s : Text} {i : Nat} (h : find separator s = some i) :
    i ≤ s.length ∧ ¬separator <:+: s.take i := by
  induction s generalizing i with
  | nil => cases h
  | cons c s ih =>
    rw [find] at h
    split at h
    · cases h
      exact ⟨Nat.zero_le _, by simp [separator, text]⟩
    · rename_i hno
      obtain ⟨i', hi', rfl⟩ := Option.map_eq_some_iff.mp h
      obtain ⟨hle, hnone⟩ := ih hi'
      refine ⟨Nat.succ_le_succ hle, ?_⟩
      rw [List.take_succ_cons, List.infix_cons_iff, not_or]
      refine ⟨fun hprefix => hno ?_, hnone⟩
      rw [List.isPrefixOf_iff_prefix]
      exact hprefix.trans (List.cons_prefix_cons.mpr ⟨rfl, List.take_prefix i' s⟩)

theorem addLine_proper {kv kv' : KvMap} {line : Text} (hline : nul ∉ line) (h : kv.Proper)
    (hadd : kv.addLine line = some kv') : kv'.Proper := by
  unfold KvMap.addLine at hadd
  split at hadd
  · cases hadd
    exact h
  · obtain ⟨i, hi, rfl⟩ := Option.map_eq_some_iff.mp hadd
    exact proper_insert h ⟨fun hmem => hline (List.mem_of_mem_take hmem), (find_some hi).2,
      fun hmem => hline (List.mem_of_mem_drop hmem)⟩

theorem foldlM_proper {lines : List Text} (hlines : ∀ l ∈ lines, nul ∉ l) {kv kv' : KvMap}
    (h : kv.Proper) (hadd : lines.foldlM KvMap.addLine kv = some kv') : kv'.Proper := by
  induction lines generalizing kv with
  | nil =>
    cases hadd
    exact h
  | cons l lines ih =>
    rw [List.forall_mem_cons] at hlines
    rw [List.foldlM_cons] at hadd
    obtain ⟨kv₁, hkv₁, hadd⟩ := Option.bind_eq_some_iff.mp hadd
    exact ih hlines.2 (addLine_proper hlines.1 h hkv₁) hadd

/-- Whatever the bytes are, the format can hold the map that comes out. -/
theorem fromBinary_proper {bin : Text} {kv : KvMap} (h : fromBinary bin = some kv) : kv.Proper := by
  refine foldlM_proper (fun l hl => (mem_split hl).1) ?_ h
  intro e he
  have hempty : (∅ : KvMap).toList = [] := by simp [← List.isEmpty_iff]
  rw [hempty] at he
  cases he

/-- Only bytes that are all zero have no pairs. -/
theorem isEmpty_foldlM {lines : List Text} {kv kv' : KvMap}
    (h : lines.foldlM KvMap.addLine kv = some kv') :
    kv'.isEmpty = true ↔ kv.isEmpty = true ∧ ∀ l ∈ lines, l = [] := by
  induction lines generalizing kv with
  | nil =>
    cases h
    simp
  | cons l lines ih =>
    rw [List.foldlM_cons] at h
    obtain ⟨kv₁, hkv₁, h⟩ := Option.bind_eq_some_iff.mp h
    rw [ih h, List.forall_mem_cons, ← and_assoc]
    refine and_congr_left' ?_
    unfold KvMap.addLine at hkv₁
    split at hkv₁
    · rename_i hl
      cases hkv₁
      simp [List.isEmpty_iff.mp hl]
    · rename_i hl
      obtain ⟨i, -, rfl⟩ := Option.map_eq_some_iff.mp hkv₁
      rw [TreeMap.isEmpty_insert]
      simpa using fun _ => hl

theorem foldlM_nil {lines : List Text} (h : ∀ l ∈ lines, l = []) (kv : KvMap) :
    lines.foldlM KvMap.addLine kv = some kv := by
  induction lines with
  | nil => rfl
  | cons l lines ih =>
    rw [List.forall_mem_cons] at h
    rw [List.foldlM_cons, h.1]
    exact ih h.2

theorem split_all_nil {bin : Text} : (∀ l ∈ split nul false bin, l = []) ↔ ∀ c ∈ bin, c = nul := by
  have hpiece {p : Text} (hp : nul ∉ p) : p = [] ↔ ∀ c ∈ p, c = nul := by
    constructor
    · rintro rfl c hc
      cases hc
    · intro hall
      rw [List.eq_nil_iff_forall_not_mem]
      exact fun c hc => hp (hall c hc ▸ hc)
  have hkept (p : Text) : kept false p = [p] := by simp [kept]
  induction bin using pieces_induction (c := nul) with
  | last p hp => rw [split_last false hp, hkept, List.forall_mem_singleton, hpiece hp]
  | cons p rest hp ih =>
    rw [split_cons false rest hp, hkept, List.singleton_append, List.forall_mem_cons, hpiece hp,
      List.forall_mem_append, List.forall_mem_cons]
    exact and_congr_right' (ih.trans (and_iff_right rfl).symm)

theorem fromBinary_isEmpty {bin : Text} {kv : KvMap} (h : fromBinary bin = some kv) :
    kv.isEmpty = true ↔ ∀ c ∈ bin, c = nul := by
  rw [isEmpty_foldlM h, split_all_nil]
  simp

/-! ## What the connection gives -/

theorem readItcpHeader_ne_nil {z : Nat} {stream bin rest : Text}
    (h : readItcpHeader z stream = some (bin, rest)) : bin ≠ [] := by
  rintro rfl
  cases stream with
  | nil => cases h
  | cons c stream =>
    rw [readItcpHeader] at h
    generalize (if c = nul then z + 1 else 0) = k at h
    split at h
    · obtain ⟨r, -, hr⟩ := Option.map_eq_some_iff.mp h
      cases hr
    · cases h

/-- The header of no pairs is one zero byte, and two are waited for. -/
theorem not_roundTrip_empty {kv : KvMap} (h : kv.isEmpty = true) (stream : Text) :
    ¬RoundTrip kv stream := by
  rintro ⟨bin, kv', hread, rfl, -⟩
  have hbin : kv.toBinary = [nul] := by
    rw [KvMap.toBinary, KvMap.lines, List.isEmpty_iff.mp (TreeMap.isEmpty_toList.trans h)]
    rfl
  rw [hbin, List.singleton_append, readItcpHeader, if_pos rfl, if_pos (by decide)] at hread
  obtain ⟨⟨rest, stream'⟩, hrest, heq⟩ := Option.map_eq_some_iff.mp hread
  rw [Prod.mk.injEq, List.cons.injEq] at heq
  exact readItcpHeader_ne_nil hrest heq.1.2

theorem roundTrip_some {kv : KvMap} (hsome : kv.isEmpty = false) (h : kv.Proper) (stream : Text) :
    RoundTrip kv stream :=
  ⟨_, _, readItcpHeader_toBinary hsome h stream, rfl, fromBinary_toBinary h, toList_ofList kv⟩

theorem addId_line (kv : KvMap) {l : Text} (h : l ≠ []) : kv.addId l = kv.addLine l := by
  rw [KvMap.addLine, if_neg (by simpa using h)]
  rfl

/-- The network reader finds the same pairs. -/
theorem idValues_toBinary {kv : KvMap} (h : kv.Proper) :
    ∃ kv', idValues kv.toBinary = some kv' ∧ kv'.toList = kv.toList := by
  refine ⟨.ofList kv.toList, ?_, toList_ofList kv⟩
  have hlines {lines : List Text} (hne : ∀ l ∈ lines, l ≠ []) (m : KvMap) :
      lines.foldlM KvMap.addId m = lines.foldlM KvMap.addLine m := by
    induction lines generalizing m with
    | nil => rfl
    | cons l lines ih =>
      rw [List.forall_mem_cons] at hne
      rw [List.foldlM_cons, List.foldlM_cons, addId_line m hne.1]
      exact bind_congr fun m' => ih hne.2 m'
  have htake : (kv.lines ++ [[], []]).take ((kv.lines ++ [[], []]).length - 2) = kv.lines := by
    rw [List.length_append, List.length_cons, List.length_singleton, Nat.add_sub_cancel,
      List.take_left]
  rw [idValues, split_toBinary h, htake, hlines fun l hl => (line_of_mem h hl).1, KvMap.lines, foldlM_addLine h]
  rfl

/-- A map that the format can hold. -/
structure Metadata where
  kv : KvMap
  proper : kv.Proper

theorem header_iff (m : Metadata) (stream bin : Text) :
    (RoundTrip m.kv stream ↔ m.kv.isEmpty = false) ∧ ParsesBack bin ∧
      ((∀ kv, fromBinary bin = some kv → ∀ stream, RoundTrip kv stream) ↔ ∃ c ∈ bin, c ≠ nul) := by
  refine ⟨⟨fun h => ?_, fun h => roundTrip_some h m.proper stream⟩, ?_,
    ⟨fun h => ?_, fun h kv hkv stream => ?_⟩⟩
  · rw [← Bool.not_eq_true]
    exact fun hempty => not_roundTrip_empty hempty stream h
  · cases hbin : fromBinary bin with
    | none => exact .inl hbin
    | some kv =>
      have hproper := fromBinary_proper hbin
      exact .inr ⟨kv, _, hbin, hproper, fromBinary_toBinary hproper, toList_ofList kv⟩
  · by_contra hall
    have hnul : ∀ c ∈ bin, c = nul := by
      intro c hc
      by_contra hne
      exact hall ⟨c, hc, hne⟩
    have hbin : fromBinary bin = some ∅ := foldlM_nil (split_all_nil.mpr hnul) ∅
    exact not_roundTrip_empty ((fromBinary_isEmpty hbin).mpr hnul) [] (h ∅ hbin [])
  · obtain ⟨c, hc, hne⟩ := h
    refine roundTrip_some ?_ (fromBinary_proper hkv) stream
    rw [← Bool.not_eq_true, fromBinary_isEmpty hkv]
    exact fun hall => hne (hall c hc)

/-- The first byte of the data behind it is taken for the end of the header. -/
theorem empty_map_takes_data :
    readItcpHeader 0 (KvMap.toBinary ∅ ++ [0, 65]) = some ([0, 0], [65]) ∧
      ¬RoundTrip ∅ [0, 65] := by
  refine ⟨by decide +kernel, ?_⟩
  rintro ⟨bin, kv', hread, rfl, -⟩
  have htwo : readItcpHeader 0 (KvMap.toBinary ∅ ++ [0, 65]) = some ([0, 0], [65]) := by
    decide +kernel
  rw [htwo] at hread
  cases hread

end Jive5ab.Rsync
