import Jive5ab.Lib.Split

/-! # Ranges of unsigned integers

`parseUIntRange` of `stringutil.cc`, with `sscanf` as it reads a `%u`. -/
namespace Jive5ab.Stringutil
open Lib.Split

/-! ## Scanning -/

def isSpace (c : Char) : Bool := c == ' ' || (9 ≤ c.toNat && c.toNat ≤ 13)

def isSign (c : Char) : Bool := c == '-' || c == '+'

/-- What `strtoul` makes of the digits, in 64 bits and no more, and what is kept of it. -/
def storedUnsigned (negative : Bool) (n : Nat) : UInt32 :=
  .ofNat (if 2 ^ 64 ≤ n then 2 ^ 64 - 1 else if negative then 2 ^ 64 - n else n)

/-- `%u`, and the text behind it. -/
def scanUnsigned (s : List Char) : Option (UInt32 × List Char) :=
  let s := s.dropWhile isSpace
  let unsigned := if s.head?.any isSign then s.tail else s
  let digits := unsigned.takeWhile Char.isDigit
  if digits.isEmpty then none
  else some (storedUnsigned (s.head? == some '-') (Nat.ofDigitChars 10 digits 0),
    unsigned.dropWhile Char.isDigit)

/-- `%u-%u`, only if both are there. -/
def scanTwo (s : List Char) : Option (UInt32 × UInt32) :=
  match scanUnsigned s with
  | some (start, '-' :: rest) => (scanUnsigned rest).map fun r => (start, r.1)
  | _ => none

/-! ## The code -/

/-- The start and the end that are taken from a part, if it is not skipped. -/
def scanRange (part : List Char) : Option (UInt32 × UInt32) :=
  match scanTwo part with
  | some r => some r
  | none => (scanUnsigned part).map fun r => (r.1, r.1)

/-- `for(unsigned int n=start; n<=end; n++)`, if it ends within the fuel. -/
def expand (stop : UInt32) : Nat → UInt32 → Option (List UInt32)
  | 0, _ => none
  | fuel + 1, n => if n ≤ stop then (expand stop fuel (n + 1)).map (n :: ·) else some []

def parseUIntRange (fuel : Nat) (s : List Char) (sep : Char) : Option (List UInt32) :=
  (((split sep false s).filterMap scanRange).mapM fun r => expand r.2 fuel r.1).map List.flatten

/-! ## What is stated -/

/-- The numbers from the start to the end. -/
def between (start stop : Nat) : List UInt32 :=
  (List.range' start (stop + 1 - start)).map UInt32.ofNat

def numbers (s : List Char) (sep : Char) : List UInt32 :=
  ((split sep false s).filterMap scanRange).flatMap fun r => between r.1.toNat r.2.toNat

/-- Digits that state a number. -/
structure Numeral (digits : List Char) (n : UInt32) : Prop where
  ne_nil : digits ≠ []
  isDigit : ∀ c ∈ digits, c.isDigit = true
  value : Nat.ofDigitChars 10 digits 0 = n.toNat

/-- A part that states a number or a range. -/
inductive States : List Char → UInt32 × UInt32 → Prop
  | single {digits : List Char} {n : UInt32} (h : Numeral digits n) : States digits (n, n)
  | range {first last : List Char} {start stop : UInt32} (hstart : Numeral first start)
    (hstop : Numeral last stop) : States (first ++ '-' :: last) (start, stop)

/-- What is not a digit ends a number. -/
theorem scanUnsigned_append {digits : List Char} {n : UInt32} (h : Numeral digits n)
    {rest : List Char} (hrest : ∀ c ∈ rest.head?, c.isDigit = false) :
    scanUnsigned (digits ++ rest) = some (n, rest) := by
  obtain ⟨c, cs, rfl⟩ := List.exists_cons_of_ne_nil h.ne_nil
  have hc := h.isDigit c List.mem_cons_self
  have hcode : 48 ≤ c.toNat ∧ c.toNat ≤ 57 := Char.isDigit_iff_toNat.mp hc
  have hspace : isSpace c = false := by
    have hne : c ≠ ' ' := by
      rintro rfl
      exact absurd hcode (by decide)
    have hcontrol : 9 ≤ c.toNat → 13 < c.toNat := by omega
    simpa [isSpace, hne] using hcontrol
  have hminus : c ≠ '-' := by
    rintro rfl
    exact absurd hcode (by decide)
  have hplus : c ≠ '+' := by
    rintro rfl
    exact absurd hcode (by decide)
  have hend : rest.takeWhile Char.isDigit = [] ∧ rest.dropWhile Char.isDigit = rest := by
    cases rest with
    | nil => exact ⟨rfl, rfl⟩
    | cons d ds =>
      have hd := hrest d rfl
      exact ⟨by rw [List.takeWhile_cons_of_neg (by simp [hd])],
        by rw [List.dropWhile_cons_of_neg (by simp [hd])]⟩
  have htake : (c :: cs ++ rest).takeWhile Char.isDigit = c :: cs := by
    rw [List.takeWhile_append_of_pos h.isDigit, hend.1, List.append_nil]
  have hdrop : (c :: cs ++ rest).dropWhile Char.isDigit = rest := by
    rw [List.dropWhile_append_of_pos h.isDigit, hend.2]
  have hstored : storedUnsigned false (Nat.ofDigitChars 10 (c :: cs) 0) = n := by
    have hlt := n.toNat_lt
    rw [storedUnsigned, h.value, if_neg (by omega), if_neg Bool.false_ne_true]
    exact UInt32.ofNat_toNat
  have hsign : (c :: cs ++ rest).head?.any isSign = false := by
    simp [isSign, hminus, hplus]
  have hneg : ((c :: cs ++ rest).head? == some '-') = false := by
    simp [hminus]
  have hstart : (c :: cs ++ rest).dropWhile isSpace = c :: cs ++ rest :=
    List.dropWhile_cons_of_neg (by simp [hspace])
  unfold scanUnsigned
  rw [hstart]
  dsimp only
  rw [hsign, if_neg Bool.false_ne_true, htake, hdrop, hneg, hstored]
  rfl

theorem scanUnsigned_numeral {digits : List Char} {n : UInt32} (h : Numeral digits n) :
    scanUnsigned digits = some (n, []) := by
  have hscan : scanUnsigned (digits ++ []) = some (n, []) :=
    scanUnsigned_append h fun c hc => by cases hc
  rwa [List.append_nil] at hscan

/-- What is stated is what is taken. -/
theorem scanRange_of_states {part : List Char} {r : UInt32 × UInt32} (h : States part r) :
    scanRange part = some r := by
  cases h with
  | single h =>
    have hscan := scanUnsigned_numeral h
    have htwo : scanTwo part = none := by rw [scanTwo, hscan]
    rw [scanRange, htwo, hscan]
    rfl
  | @range first last start stop hstart hstop =>
    have hscan : scanUnsigned (first ++ '-' :: last) = some (start, '-' :: last) :=
      scanUnsigned_append hstart fun c hc => by
        obtain rfl := Option.mem_some.mp hc
        rfl
    have htwo : scanTwo (first ++ '-' :: last) = some (start, stop) := by
      simp only [scanTwo, hscan, scanUnsigned_numeral hstop, Option.map_some]
    rw [scanRange, htwo]

/-! ## The loop -/

/-- Where the end is the largest number, every number is up to it. -/
theorem expand_diverges {stop : UInt32} (h : stop = 0xffffffff) (fuel : Nat) (n : UInt32) :
    expand stop fuel n = none := by
  induction fuel generalizing n with
  | zero => rfl
  | succ fuel ih =>
    have hle : n ≤ stop := by
      rw [UInt32.le_iff_toNat_le, h]
      have := n.toNat_lt
      change n.toNat ≤ 4294967295
      omega
    rw [expand, if_pos hle, ih]
    rfl

theorem expand_eq {stop : UInt32} (h : stop ≠ 0xffffffff) {fuel : Nat} {n : UInt32}
    (hfuel : stop.toNat + 1 - n.toNat < fuel) :
    expand stop fuel n = some (between n.toNat stop.toNat) := by
  induction fuel generalizing n with
  | zero => exact absurd hfuel (Nat.not_lt_zero _)
  | succ fuel ih =>
    have hmax : stop.toNat < 4294967295 := by
      have hlt := stop.toNat_lt
      have hne : stop.toNat ≠ 4294967295 := fun heq => h (UInt32.toNat_inj.mp heq)
      omega
    unfold expand
    split
    · rename_i hle
      rw [UInt32.le_iff_toNat_le] at hle
      have hnext : (n + 1).toNat = n.toNat + 1 := by
        rw [UInt32.toNat_add]
        exact Nat.mod_eq_of_lt (show n.toNat + 1 < 2 ^ 32 by omega)
      have hsize : stop.toNat + 1 - n.toNat = (stop.toNat + 1 - (n.toNat + 1)) + 1 := by omega
      have hself : UInt32.ofNat n.toNat = n := UInt32.ofNat_toNat
      rw [ih (by omega), hnext, between, between, hsize, List.range'_succ, List.map_cons, hself]
      rfl
    · rename_i hlt
      rw [UInt32.le_iff_toNat_le] at hlt
      have hsize : stop.toNat + 1 - n.toNat = 0 := by omega
      rw [between, hsize]
      rfl

/-! ## All parts -/

theorem mapM_expand_eq {ranges : List (UInt32 × UInt32)} (h : ∀ r ∈ ranges, r.2 ≠ 0xffffffff)
    {fuel : Nat} (hfuel : 2 ^ 32 < fuel) :
    (ranges.mapM fun r => expand r.2 fuel r.1).map List.flatten =
      some (ranges.flatMap fun r => between r.1.toNat r.2.toNat) := by
  induction ranges with
  | nil => rfl
  | cons r ranges ih =>
    rw [List.forall_mem_cons] at h
    have hlt := r.2.toNat_lt
    have hfirst := @expand_eq r.2 h.1 fuel r.1 (by omega)
    obtain ⟨rest, hrest, hflat⟩ := Option.map_eq_some_iff.mp (ih h.2)
    rw [List.mapM_cons, hfirst, hrest, List.flatMap_cons, ← hflat]
    rfl

theorem mapM_expand_diverges {ranges : List (UInt32 × UInt32)} {r : UInt32 × UInt32}
    (hr : r ∈ ranges) (h : r.2 = 0xffffffff) (fuel : Nat) :
    (ranges.mapM fun r => expand r.2 fuel r.1) = none := by
  induction ranges with
  | nil => cases hr
  | cons q ranges ih =>
    rw [List.mapM_cons]
    rcases List.mem_cons.mp hr with rfl | hr
    · rw [expand_diverges h]
      rfl
    · rw [ih hr]
      cases expand q.2 fuel q.1 <;> rfl

/-- The numbers that are stated are returned if and only if no range goes up to the largest
unsigned number. -/
theorem parseUIntRange_iff (s : List Char) (sep : Char) :
    (∀ part ∈ split sep false s, ∀ r, States part r → scanRange part = some r) ∧
      ((∃ fuel, parseUIntRange fuel s sep = some (numbers s sep)) ↔
        ∀ part ∈ split sep false s, ∀ r, scanRange part = some r → r.2 ≠ 0xffffffff) := by
  refine ⟨fun _ _ _ h => scanRange_of_states h, ?_⟩
  constructor
  · rintro ⟨fuel, hparse⟩ part hpart r hr hmax
    have hmem : r ∈ (split sep false s).filterMap scanRange :=
      List.mem_filterMap.mpr ⟨part, hpart, hr⟩
    rw [parseUIntRange, mapM_expand_diverges hmem hmax] at hparse
    cases hparse
  · intro h
    refine ⟨2 ^ 32 + 1, mapM_expand_eq (fun r hr => ?_) (Nat.lt_succ_self _)⟩
    obtain ⟨part, hpart, hscan⟩ := List.mem_filterMap.mp hr
    exact h part hpart r hscan

/-- From the last number but one up to the last there is no end. -/
theorem last_number_diverges :
    States "4294967294-4294967295".toList (4294967294, 4294967295) ∧
      ∀ fuel, parseUIntRange fuel "4294967294-4294967295".toList ',' = none := by
  have hstates : States ("4294967294".toList ++ '-' :: "4294967295".toList)
      (4294967294, 4294967295) :=
    .range ⟨by decide, List.all_eq_true.mp (by decide), by decide⟩
      ⟨by decide, List.all_eq_true.mp (by decide), by decide⟩
  refine ⟨hstates, fun fuel => ?_⟩
  have hsplit : split ',' false "4294967294-4294967295".toList =
      ["4294967294-4294967295".toList] := split_last false (by decide +kernel)
  have hscan := scanRange_of_states hstates
  have hmem : ((4294967294, 4294967295) : UInt32 × UInt32) ∈
      (split ',' false "4294967294-4294967295".toList).filterMap scanRange := by
    rw [hsplit]
    exact List.mem_filterMap.mpr ⟨_, List.mem_singleton_self _, hscan⟩
  rw [parseUIntRange, mapM_expand_diverges hmem rfl]
  rfl

end Jive5ab.Stringutil
