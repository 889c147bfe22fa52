import Jive5ab.Lib.Substitution
import Mathlib.Data.List.Perm.Subperm
import Mathlib.Tactic.IntervalCases

/-! # Names of data streams

`replace_fields` of `mk6info.cc`: the placeholders for the thread and for the
station in the name pattern of a data stream. The place of the first one of either
kind is looked up before anything has been replaced. -/
namespace Jive5ab.Mk6

open Lib.Substitution

abbrev Text := List Char

/-- The address of a sender, in network byte order. -/
structure SockAddr where
  addr : UInt32
  port : UInt16
  deriving DecidableEq

/-- `noSender` -/
def SockAddr.none : SockAddr := ⟨0, 0⟩

/-- The station is a number and, in the same two bytes, a code. -/
structure VdifKey where
  stationId : UInt16
  threadId : UInt16
  origin : SockAddr
  deriving DecidableEq

namespace VdifKey

/-- On a little endian machine `station_code[0]` is the low byte. -/
def stationCode0 (key : VdifKey) : UInt8 := key.stationId.toUInt8

def stationCode1 (key : VdifKey) : UInt8 := (key.stationId >>> 8).toUInt8

end VdifKey

/-- In the C locale. -/
def isprint (c : UInt8) : Bool := 0x20 ≤ c && c ≤ 0x7e

def VdifKey.printableStation (key : VdifKey) : Bool :=
  isprint key.stationCode1 && (if key.stationCode0 ≠ 0 then isprint key.stationCode0 else true)

/-- `oss << key.thread_id` -/
def VdifKey.thread (key : VdifKey) : Text := Nat.toDigits 10 key.threadId.toNat

/-- The code, or `std::setw(4) << std::hex << key.station_id`. -/
def VdifKey.station (key : VdifKey) : Text :=
  if key.printableStation then
    [Char.ofNat key.stationCode1.toNat, Char.ofNat key.stationCode0.toNat]
  else (Nat.toDigits 16 key.stationId.toNat).leftpad 4 ' '

def threadField : Text := ['{', 't', 'h', 'r', 'e', 'a', 'd', '}']

def stationField : Text := ['{', 's', 't', 'a', 't', 'i', 'o', 'n', '}']

/-- `std::string::replace(pos, n, str)`; `none` is `std::out_of_range`. -/
def replace (s : Text) (pos n : Nat) (str : Text) : Option Text :=
  if s.length < pos then none else some (s.take pos ++ str ++ s.drop (pos + n))

/-- The `do` loop of either kind: at the given place first, then wherever the
field is found. -/
def replaceAll (field str : Text) (ptr : Nat) (inputcp : Text) : Option Text := do
  let inputcp ← replace inputcp ptr field.length str
  some (replaceFound field str inputcp.length inputcp)

def replaceFields (input : Text) (key : VdifKey) : Option Text := do
  let threadptr := find threadField input
  let stationptr := find stationField input
  if threadptr.isNone ∧ stationptr.isNone then some input
  else
    let inputcp ← match threadptr with
      | some ptr => replaceAll threadField key.thread ptr input
      | none => some input
    match stationptr with
    | some ptr => replaceAll stationField key.station ptr inputcp
    | none => some inputcp

/-! ## What it is for -/

/-- One pass over the pattern; the number is what is left of the last placeholder. -/
def expandFrom (thread station : Text) : Nat → Text → Text
  | _, [] => []
  | k + 1, _ :: s => expandFrom thread station k s
  | 0, x :: s =>
    if threadField.isPrefixOf (x :: s) then thread ++ expandFrom thread station 7 s
    else if stationField.isPrefixOf (x :: s) then station ++ expandFrom thread station 8 s
    else x :: expandFrom thread station 0 s

/-- Every placeholder replaced, every other character as it is. -/
def expand (pattern : Text) (key : VdifKey) : Text := expandFrom key.thread key.station 0 pattern

def Right (pattern : Text) (key : VdifKey) : Prop :=
  replaceFields pattern key = some (expand pattern key)

instance (pattern : Text) (key : VdifKey) : Decidable (Right pattern key) :=
  inferInstanceAs (Decidable (_ = _))

/-- With its threads replaced the pattern has a station where it had its first one
before: none of them comes before it, or the shift ends on another station. -/
def InPlace (pattern : Text) (key : VdifKey) : Prop :=
  ∀ ptr, find stationField pattern = some ptr →
    stationField <+: (substitute threadField key.thread pattern).drop ptr

/-- No station arises out of what has been put in and what was around it. -/
def Settled (pattern : Text) (key : VdifKey) : Prop :=
  stationField <:+: pattern → ¬ stationField <:+: expand pattern key

/-! ## Words and what is put in for them -/

theorem threadField_unbordered : Unbordered threadField := by decide

theorem stationField_unbordered : Unbordered stationField := by decide

theorem threadField_ne : threadField ≠ [] := List.cons_ne_nil _ _

theorem stationField_ne : stationField ≠ [] := List.cons_ne_nil _ _

theorem thread_ne (key : VdifKey) : key.thread ≠ [] := Nat.toDigits_ne_nil

/-- Digits only. -/
theorem thread_inert (key : VdifKey) {field : Text} (hfield : field.all fun c => !c.isDigit) :
    Inert field key.thread := by
  intro c hc hmem
  have hdigit := Nat.isDigit_of_mem_toDigits (by decide) (by decide) hc
  have hnot := List.all_eq_true.mp hfield c hmem
  rw [hdigit] at hnot
  exact Bool.false_ne_true hnot

theorem thread_short (key : VdifKey) : key.thread.length < threadField.length := by
  have hlt : key.threadId.toNat < 10 ^ 5 := (UInt16.toNat_lt key.threadId).trans (by decide)
  have hle := (Nat.length_toDigits_le_iff (b := 10) (n := key.threadId.toNat) (k := 5) (by decide)
    (by decide)).mpr hlt
  exact Nat.lt_of_le_of_lt hle (by decide)

theorem station_short (key : VdifKey) : key.station.length < stationField.length := by
  rw [VdifKey.station]
  split
  case isTrue => exact (by decide : 2 < stationField.length)
  case isFalse =>
    have hlt : key.stationId.toNat < 16 ^ 4 := UInt16.toNat_lt key.stationId
    have hle := (Nat.length_toDigits_le_iff (b := 16) (n := key.stationId.toNat) (k := 4) (by decide)
      (by decide)).mpr hlt
    rw [List.length_leftpad, Nat.max_eq_left hle]
    decide

/-! ## One kind after the other -/

theorem expandFrom_eq (thread station : Text) (k : Nat) (s : Text) :
    expandFrom thread station k s = expandFrom thread station 0 (s.drop k) := by
  induction s generalizing k with
  | nil => cases k <;> simp [expandFrom]
  | cons x s ih =>
    cases k with
    | zero => rfl
    | succ k => rw [expandFrom, ih, List.drop_succ_cons]

theorem expandFrom_thread (thread station s : Text) :
    expandFrom thread station 0 (threadField ++ s) = thread ++ expandFrom thread station 0 s := by
  have hpre : threadField.isPrefixOf (threadField ++ s) = true :=
    List.isPrefixOf_iff_prefix.mpr (List.prefix_append _ _)
  change (if threadField.isPrefixOf (threadField ++ s) then _ else _) = _
  rw [if_pos hpre, expandFrom_eq]
  rfl

theorem expandFrom_station (thread station s : Text) :
    expandFrom thread station 0 (stationField ++ s) = station ++ expandFrom thread station 0 s := by
  have hpre : stationField.isPrefixOf (stationField ++ s) = true :=
    List.isPrefixOf_iff_prefix.mpr (List.prefix_append _ _)
  change (if threadField.isPrefixOf (stationField ++ s) then _
    else if stationField.isPrefixOf (stationField ++ s) then _ else _) = _
  have hnot : ¬ threadField.isPrefixOf (stationField ++ s) = true := Bool.false_ne_true
  rw [if_neg hnot, if_pos hpre, expandFrom_eq]
  rfl

theorem expandFrom_cons {thread station s : Text} {x : Char} (ht : ¬ threadField <+: x :: s)
    (hs : ¬ stationField <+: x :: s) :
    expandFrom thread station 0 (x :: s) = x :: expandFrom thread station 0 s := by
  rw [expandFrom, if_neg (mt List.isPrefixOf_iff_prefix.mp ht),
    if_neg (mt List.isPrefixOf_iff_prefix.mp hs)]

/-- A thread does not begin inside a station. -/
theorem thread_not_in_station {s : Text} {q : Nat}
    (hq : threadField <+: (stationField ++ s).drop q) : stationField.length ≤ q := by
  by_contra hlt
  rw [List.drop_append_of_le_length (Nat.le_of_not_le hlt)] at hq
  have hlt' : q < 9 := Nat.not_le.mp hlt
  clear hlt
  interval_cases q <;> simp [threadField, stationField] at hq

theorem substitute_station (thread s : Text) : substitute threadField thread (stationField ++ s) =
    stationField ++ substitute threadField thread s := by
  have := @substitute_append _ _ threadField thread [] stationField s threadField_ne ?_
  · simpa using this
  intro q hq
  rw [List.nil_append] at hq
  rw [List.length_nil, Nat.zero_add]
  exact .inr (thread_not_in_station hq)

/-- First every thread, then every station. -/
theorem expand_eq (pattern : Text) (key : VdifKey) : expand pattern key =
    substitute stationField key.station (substitute threadField key.thread pattern) := by
  have hinert : Inert stationField key.thread := thread_inert key (by decide)
  rw [expand]
  induction hn : pattern.length using Nat.strong_induction_on generalizing pattern with
  | _ n ih =>
    have hless (field rest : Text) (hpos : 0 < field.length) (h : field ++ rest = pattern) :
        rest.length < n := by
      rw [← hn, ← h, List.length_append]
      omega
    cases hp : pattern with
    | nil => rfl
    | cons x s =>
      rw [← hp]
      by_cases ht : threadField <+: pattern
      · obtain ⟨rest, hrest⟩ := ht
        have hsub := @substitute_inert _ _ _ key.station stationField_ne _ hinert (thread_ne key) []
          (substitute threadField key.thread rest)
        rw [List.nil_append, substitute_nil, List.nil_append] at hsub
        rw [← hrest, expandFrom_thread, substitute_word threadField_ne, hsub,
          ih _ (hless _ rest (by decide) hrest) rest rfl]
      by_cases hs : stationField <+: pattern
      · obtain ⟨rest, hrest⟩ := hs
        rw [← hrest, expandFrom_station, substitute_station, substitute_word stationField_ne,
          ih _ (hless _ rest (by decide) hrest) rest rfl]
      · have hfront : ¬ stationField <+: x :: substitute threadField key.thread s := by
          rw [hp] at ht hs
          rw [← substitute_cons ht]
          exact fun h => hs (prefix_of_substitute threadField_ne (thread_ne key) hinert h)
        rw [hp] at ht hs
        rw [hp, expandFrom_cons ht hs, substitute_cons ht, substitute_cons hfront,
          ih _ (hless [x] s Nat.zero_lt_one hp.symm) s rfl]

/-! ## The two loops -/

/-- Any place to begin with is fine if the text is one pass away from it. -/
theorem replaceAll_eq {field str s : Text} {ptr : Nat} (hfield : Unbordered field)
    (hshort : str.length < field.length) (hat : field <+: s.drop ptr) (hle : ptr ≤ s.length)
    (h : ¬ field <:+: substitute field str s) :
    replaceAll field str ptr s = some (substitute field str s) := by
  have hne : field ≠ [] := List.ne_nil_of_length_pos (by omega)
  have hsplit := split_at hat
  have hsame : substitute field str (s.take ptr ++ (str ++ s.drop (ptr + field.length))) =
      substitute field str s := by
    rw [substitute_replaced hfield hne (by rwa [hsplit]), hsplit]
  rw [replaceAll, replace, if_neg (Nat.not_lt.mpr hle)]
  change some (replaceFound _ _ _ _) = _
  rw [List.append_assoc, replaceFound_eq hfield hshort (le_refl _) (hsame ▸ h), hsame]

theorem replaceAll_free {field str s t : Text} {ptr : Nat} (hshort : str.length < field.length)
    (h : replaceAll field str ptr s = some t) : ¬ field <:+: t := by
  obtain ⟨s', -, ht⟩ := Option.bind_eq_some_iff.mp h
  obtain rfl := Option.some.inj ht
  exact replaceFound_free hshort (le_refl _)

theorem replaceAll_thread {pattern : Text} {ptr : Nat} (key : VdifKey)
    (h : find threadField pattern = some ptr) : replaceAll threadField key.thread ptr pattern =
      some (substitute threadField key.thread pattern) := by
  obtain ⟨hat, hle⟩ := find_some h
  exact replaceAll_eq threadField_unbordered (thread_short key) hat hle
    (not_infix_substitute threadField_ne (thread_ne key) (thread_inert key (by decide)) pattern)

/-- The threads are replaced in any case; the stations from the place in the pattern on. -/
theorem replaceFields_eq (pattern : Text) (key : VdifKey) : replaceFields pattern key =
    match find stationField pattern with
    | some ptr => replaceAll stationField key.station ptr (substitute threadField key.thread pattern)
    | none => some (substitute threadField key.thread pattern) := by
  rw [replaceFields]
  cases ht : find threadField pattern with
  | none =>
    have hsame : substitute threadField key.thread pattern = pattern :=
      substitute_of_free (find_none.mp ht)
    cases hs : find stationField pattern <;> simp [hsame]
  | some p =>
    cases hs : find stationField pattern <;> simp [replaceAll_thread key ht]

/-! ## Which patterns it expands -/

theorem station_not_made {pattern : Text} (key : VdifKey)
    (h : ¬ stationField <:+: pattern) :
    ¬ stationField <:+: substitute threadField key.thread pattern :=
  fun hin => h (infix_of_substitute threadField_ne stationField_ne (thread_ne key)
    (thread_inert key (by decide)) hin)

theorem right_iff_of_inPlace {pattern : Text} {key : VdifKey} (h : InPlace pattern key) :
    Right pattern key ↔ Settled pattern key := by
  rw [Right, Settled, replaceFields_eq]
  cases hs : find stationField pattern with
  | none =>
    have hnot := find_none.mp hs
    refine iff_of_true ?_ fun hin => absurd hin hnot
    rw [expand_eq, substitute_of_free (station_not_made key hnot)]
  | some ptr =>
    have hin : stationField <:+: pattern := infix_of_drop (find_some hs).1
    have hat := h ptr hs
    have hle : ptr ≤ (substitute threadField key.thread pattern).length := by
      have hlen := hat.length_le
      rw [List.length_drop] at hlen
      exact Nat.le_of_lt (Nat.lt_of_sub_pos (Nat.lt_of_lt_of_le (by decide) hlen))
    rw [expand_eq]
    exact ⟨fun hright _ => replaceAll_free (station_short key) hright,
      fun hfree => replaceAll_eq stationField_unbordered (station_short key) hat hle (hfree hin)⟩

/-- A station does not begin inside a thread. -/
theorem station_not_in_thread {rest : Text} {i : Nat} (hi : 0 < i) (hlt : i < threadField.length) :
    ¬ threadField.drop i <+: stationField ++ rest := by
  have hlt' : i < 8 := hlt
  clear hlt
  interval_cases i <;> simp [threadField, stationField]

/-- The stations are in place if no thread comes before the first of them. -/
theorem inPlace_of_station_first {pattern : Text} {key : VdifKey} {ptr : Nat}
    (hptr : find stationField pattern = some ptr) (h : ¬ threadField <:+: pattern.take ptr) :
    InPlace pattern key := by
  intro p hp
  obtain rfl := Option.some.inj (hptr.symm.trans hp)
  obtain ⟨hat, hle⟩ := find_some hptr
  have hsplit := split_at hat
  have hlen : (pattern.take ptr).length = ptr := List.length_take_of_le hle
  have hsub := @substitute_append _ _ threadField key.thread (pattern.take ptr) stationField
    (pattern.drop (ptr + stationField.length)) threadField_ne ?_
  · rw [hsplit, substitute_of_free h] at hsub
    rw [hsub, List.drop_left' hlen]
    exact List.prefix_append _ _
  intro q hq
  by_contra hover
  rw [hlen] at hover
  by_cases hbefore : q < ptr
  · have hdrop := hq.drop (ptr - q)
    rw [List.drop_drop, Nat.add_sub_cancel' hbefore.le, List.drop_left' hlen] at hdrop
    exact station_not_in_thread (by omega) (by omega) hdrop
  · rw [List.drop_append, List.drop_eq_nil_of_le (by omega), List.nil_append, hlen] at hq
    exact absurd (thread_not_in_station hq) (by omega)

/-- Some digit is not among any nine characters. -/
theorem exists_digit {l : Text} (hl : l.length ≤ 9) : ∃ d < 10, Nat.digitChar d ∉ l := by
  by_contra hall
  push Not at hall
  have hsub : (List.range 10).map Nat.digitChar ⊆ l := by
    intro c hc
    obtain ⟨d, hd, rfl⟩ := List.mem_map.mp hc
    exact hall d (List.mem_range.mp hd)
  have hnodup : ((List.range 10).map Nat.digitChar).Nodup := by decide
  have hlen := (List.subperm_of_subset hnodup hsub).length_le
  rw [List.length_map, List.length_range] at hlen
  omega

/-- A station of which both characters are the digit. -/
def digitStation (d : Nat) : UInt16 := .ofNat ((48 + d) * 0x101)

theorem station_digit {d : Nat} (hd : d < 10) (thread : UInt16) (origin : SockAddr) :
    VdifKey.station ⟨digitStation d, thread, origin⟩ = [Nat.digitChar d, Nat.digitChar d] := by
  have hall : ∀ d < 10, VdifKey.station ⟨digitStation d, 0, .none⟩ =
      [Nat.digitChar d, Nat.digitChar d] := by decide
  exact hall d hd

theorem digit_inert {d : Nat} (hd : d < 10) :
    Inert stationField [Nat.digitChar d, Nat.digitChar d] := by
  intro c hc
  obtain rfl : c = Nat.digitChar d := by simpa using hc
  interval_cases d <;> decide

/-- Out of place, a station code that does not occur there tells. -/
theorem exists_not_right {pattern : Text} {thread : UInt16} {origin : SockAddr}
    (h : ¬ InPlace pattern ⟨0, thread, origin⟩) :
    ∃ station : UInt16, ¬ Right pattern ⟨station, thread, origin⟩ := by
  rw [InPlace] at h
  push Not at h
  obtain ⟨ptr, hptr, hnot⟩ := h
  set s := substitute threadField (VdifKey.thread ⟨0, thread, origin⟩) pattern with hsdef
  obtain ⟨d, hd, hfresh⟩ := exists_digit (l := (s.drop ptr).take stationField.length)
    (List.length_take_le _ _)
  have hstation := station_digit hd thread origin
  have hinert := digit_inert hd
  refine ⟨digitStation d, fun hright => ?_⟩
  rw [Right, replaceFields_eq, hptr, expand_eq, hstation] at hright
  change replaceAll _ _ _ s = some (substitute _ _ s) at hright
  rw [replaceAll, replace] at hright
  split at hright
  case isTrue => cases hright
  case isFalse hle =>
    have hfree := not_infix_substitute (s := s.take ptr ++ [Nat.digitChar d, Nat.digitChar d] ++
      s.drop (ptr + stationField.length)) stationField_ne (List.cons_ne_nil _ _) hinert
    have heq := Option.some.inj hright
    have hshort : [Nat.digitChar d, Nat.digitChar d].length < stationField.length :=
      (by decide : 2 < 9)
    rw [replaceFound_eq stationField_unbordered hshort (le_refl _) hfree, List.append_assoc] at heq
    exact substitute_misplaced stationField_unbordered stationField_ne hinert (Nat.not_lt.mp hle)
      hfresh hnot heq

/-- For a pattern and a thread: every station comes out right if and only if the
stations are in place and none arises anew. In place, it is so station by station. -/
theorem replaceFields_iff (pattern : Text) (thread : UInt16) (origin : SockAddr) :
    ((∀ station, Right pattern ⟨station, thread, origin⟩) ↔
      InPlace pattern ⟨0, thread, origin⟩ ∧ ∀ station, Settled pattern ⟨station, thread, origin⟩) ∧
    (InPlace pattern ⟨0, thread, origin⟩ → ∀ station,
      (Right pattern ⟨station, thread, origin⟩ ↔ Settled pattern ⟨station, thread, origin⟩)) := by
  have hplace (h : InPlace pattern ⟨0, thread, origin⟩) (station : UInt16) :
      Right pattern ⟨station, thread, origin⟩ ↔ Settled pattern ⟨station, thread, origin⟩ :=
    right_iff_of_inPlace h
  refine ⟨⟨fun h => ?_, fun ⟨hin, hset⟩ station => (hplace hin station).mpr (hset station)⟩, hplace⟩
  have hin : InPlace pattern ⟨0, thread, origin⟩ := by
    by_contra hnot
    obtain ⟨station, hwrong⟩ := exists_not_right hnot
    exact hwrong (h station)
  exact ⟨hin, fun station => (hplace hin station).mp (h station)⟩

/-- `{thread}{station}` for thread 1 of station `Ef`: the shift is seven characters. -/
theorem replaceFields_thread_first : ¬ Right (threadField ++ stationField) ⟨0x4566, 1, .none⟩ := by
  decide

end Jive5ab.Mk6
