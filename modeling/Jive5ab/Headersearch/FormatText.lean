import Jive5ab.Headersearch.Construct
import Jive5ab.Lib.Ere

/-! # Formats from their text

`text2headersearch` and the parsers that it tries, one after another. -/
namespace Jive5ab.Headersearch
open Lib Ere

/-! ## Matches -/

/-- What each group of a match has matched, nothing if it took no part. -/
abbrev Groups := Nat → Text

/-- `Regular_Expression::matches` with `REG_EXTENDED|REG_ICASE`: in small letters, all of it. -/
def rxMatches (pattern s : Text) : Option Groups :=
  (compile (pattern.map Char.toLower)).bind fun r =>
    let lower := s.map Char.toLower
    ((List.range (s.length + 1)).findSome? fun i => (r.run (Cursor.start lower i)).head?).map
      fun k n => (k.groups.lookup n).getD []

def decimal (digits : Text) : Nat := Nat.ofDigitChars 10 digits 0

/-- `sscanf` with `%u`: the number that is read stops at the largest of 64 bits, and 32 of its
bits are kept. -/
def scanUnsigned (digits : Text) : Nat :=
  if decimal digits < 2 ^ 64 then decimal digits % 2 ^ 32 else 2 ^ 32 - 1

/-- The two numbers of a rate, `/1` if it has only one. -/
def rateParts (rate : Text) : Nat × Nat :=
  match rate.dropWhile (· ≠ '/') with
  | [] => (decimal rate, 1)
  | _ :: den => (decimal (rate.takeWhile (· ≠ '/')), decimal den)

/-- `operator>>` of a `boost::rational`. -/
def readRate (rate : Text) : Except FormatError Samplerate :=
  let (n, d) := rateParts rate
  if n < 2 ^ 64 ∧ d < 2 ^ 64 then orBadRational (Fraction.normalize n d)
  else .error (.runtime "Badly formed rational")

/-! ## The parsers -/

abbrev Parse := Text → Except FormatError (Option HeadersearchType)

def pNone : Parse := fun s =>
  .ok ((rxMatches "^none$".toList s).map fun _ => .none)

/-- `(rateMbps * 1000000) / nTrk` -/
def trackRate (rateMbps : Samplerate) (nTrk : Nat) : Except FormatError Samplerate :=
  orBadRational ((rateMbps.mul (.ofNat 1000000)).div (.ofNat nTrk))

def rxMark5B : Text := "^Mark5B-([0-9]+(/[0-9]+)?)-([0-9]+)-([0-9]+)(/[0-9]+)?$".toList

def pMark5B : Parse := fun s =>
  match rxMatches rxMark5B s with
  | none => .ok none
  | some mr => do
    let rateMbps ← readRate (mr 1)
    let nChan := scanUnsigned (mr 3)
    let bitspSample := scanUnsigned (mr 4)
    let nTrk := nChan * bitspSample % 2 ^ 32
    if nTrk = 0 then return none
    let rateMbps ← trackRate rateMbps nTrk
    some <$> HeadersearchType.make .mark5b nTrk rateMbps 0

/-- The `{0,2}` after a set is here the set twice, each time with a question mark. -/
def rxVDIFu : Text := "^VDIF[LC]?[LC]?-[0-9]+-[0-9]+-[0-9]+(/[0-9]+)?$".toList

def pVDIFUnsupported : Parse := fun s =>
  match rxMatches rxVDIFu s with
  | none => .ok none
  | some _ => .error (.headersearch
      ("\"VDIF(LC)-*-*-*[/*]\" format not supported; it lacks the VDIF framesize. Try " ++
        "VDIF(LC)_<payload size>-*-*-*[/*] (note the '_' and the extra parameter)."))

def rxVDIF : Text :=
  "^(VDIF[LC]?[LC]?)_([0-9]+)-([0-9]+(/[0-9]+)?)-([0-9]+)-([0-9]+)(/[0-9]+)?$".toList

/-- `vdif_fmt_map`: what is legacy and what is complex. -/
def vdifFmt : Bool → Bool → FormatType
  | false, false => .vdif
  | true, false => .vdifLegacy
  | false, true => .vdifComplex
  | true, true => .vdifLegacyComplex

def pVDIF : Parse := fun s =>
  match rxMatches rxVDIF s with
  | none => .ok none
  | some mr => do
    let vdifPayload := scanUnsigned (mr 2)
    let vdifName := mr 1
    let vdifLegacy := decide ('l' ∈ vdifName)
    let vdifComplex := decide ('c' ∈ vdifName)
    let rateMbps ← readRate (mr 3)
    let nChan := scanUnsigned (mr 5)
    let bitspSample := scanUnsigned (mr 6)
    let nTrk := nChan * bitspSample * (if vdifComplex then 2 else 1) % 2 ^ 32
    if nTrk = 0 then return none
    let rateMbps ← trackRate rateMbps nTrk
    some <$> HeadersearchType.make (vdifFmt vdifLegacy vdifComplex) nTrk rateMbps vdifPayload

/-- The formats with a fan mode. -/
def pFanned (fmt : FormatType) (rx : Text) : Parse := fun s =>
  match rxMatches rx s with
  | none => .ok none
  | some mr => do
    let trkIn := scanUnsigned (mr 1)
    let trkOut := scanUnsigned (mr 2)
    let rateMbps := scanUnsigned (mr 3)
    let nChan := scanUnsigned (mr 4)
    let bitspSample := scanUnsigned (mr 5)
    ezassert (trkIn ≤ trkOut) s!"We do not support fan-in ({trkIn}:{trkOut})"
    if trkIn = 0 then return none
    let trkOut := nChan * bitspSample * trkOut % 2 ^ 32 / trkIn
    if trkOut = 0 then return none
    let rateMbps := rateMbps * 1000000 % 2 ^ 32 / trkOut
    some <$> HeadersearchType.make fmt trkOut (.ofNat rateMbps) 0

def rxVLBA : Text := "^VLBA([0-9])_([0-9])-([0-9]+)-([0-9]+)-([0-9]+)(/[0-9]+)?$".toList

def pVLBA : Parse := pFanned .vlba rxVLBA

def rxMKIV : Text := "^MKIV([0-9])_([0-9])-([0-9]+)-([0-9]+)-([0-9]+)(/[0-9]+)?$".toList

def pMKIV : Parse := pFanned .mark4 rxMKIV

def formats : List Parse := [pNone, pVDIFUnsupported, pMark5B, pVDIF, pVLBA, pMKIV]

/-- The first that makes something of it. -/
def firstOf : List Parse → Parse
  | [], _ => .ok none
  | f :: fs, s => do
    match ← f s with
    | some rv => return some rv
    | none => firstOf fs s

/-- `c_str()`: up to the first zero. -/
def cStr (s : Text) : Text := s.takeWhile (· ≠ '\x00')

def text2headersearch : Parse := fun s => firstOf formats (cStr s)

/-! ## Matched groups -/

theorem rxMatches_group {pattern s : Text} {mr : Groups} {n : Nat} {rs : List Ere}
    (h : rxMatches pattern s = some mr)
    (hrs : (compile (pattern.map Char.toLower)).map (groupsOf n) = some rs) :
    mr n = [] ∨ IsMatch rs (mr n) := by
  unfold rxMatches at h
  obtain ⟨r, hr, hmatch⟩ := Option.bind_eq_some_iff.mp h
  obtain ⟨k, hk, rfl⟩ := Option.map_eq_some_iff.mp hmatch
  obtain ⟨i, -, hrun⟩ := List.exists_of_findSome?_eq_some hk
  obtain rfl : groupsOf n r = rs := by simpa [hr] using hrs
  change (k.groups.lookup n).getD [] = [] ∨ IsMatch (groupsOf n r) ((k.groups.lookup n).getD [])
  cases hlookup : k.groups.lookup n with
  | none => exact .inl rfl
  | some u =>
    right
    have hmem : (n, u) ∈ k.groups := by
      obtain ⟨before, after, hgroups, -⟩ := List.lookup_eq_some_iff.mp hlookup
      simp [hgroups]
    obtain hstart | hgroup := run_groups (List.mem_of_mem_head? hrun) (n, u) hmem
    · cases hstart
    · exact hgroup rfl

/-- `[0-9]`, as it compiles. -/
def digitEre : Ere := seq [.set false [('0', '9'), ('9', '9')]]

/-- The number of a single digit. -/
theorem decimal_le_of_digit {u : Text} (h : IsMatch [digitEre] u) : decimal u ≤ 9 := by
  obtain ⟨r, hr, k, k', hk', rfl⟩ := h
  obtain rfl := List.mem_singleton.mp hr
  rw [digitEre, run_seq_one] at hk'
  obtain ⟨c, rest, -, hc, rfl⟩ := mem_one.mp hk'
  have hle : c.val ≤ '9'.val := by
    simp only [inRanges, List.any_cons, List.any_nil, Bool.or_false, bne_iff_ne, ne_eq,
      Bool.not_eq_false, Bool.or_eq_true, Bool.and_eq_true, decide_eq_true_eq] at hc
    exact hc.elim And.right And.right
  have hnat : c.toNat ≤ 57 := UInt32.le_iff_toNat_le.mp hle
  have hzero : '0'.toNat = 48 := by decide
  simp only [Cursor.moved, List.drop_left]
  rw [decimal, Nat.ofDigitChars_cons, Nat.ofDigitChars_nil, hzero]
  omega

/-- A fan mode is given by two digits. -/
theorem decimal_fan_le {rx s : Text} {mr : Groups} {n : Nat} (h : rxMatches rx s = some mr)
    (hrx : rx = rxVLBA ∨ rx = rxMKIV) (hn : n = 1 ∨ n = 2) : decimal (mr n) ≤ 9 := by
  have hgroups : (compile (rx.map Char.toLower)).map (groupsOf n) =
      some [digitEre] := by
    obtain rfl | rfl := hrx <;> obtain rfl | rfl := hn <;> decide
  obtain hnil | hmatch := rxMatches_group h hgroups
  · rw [hnil]
    decide
  · exact decimal_le_of_digit hmatch

/-! ## The parser that succeeds -/

theorem firstOf_ok {fs : List Parse} {s : Text} {h : HeadersearchType}
    (hs : firstOf fs s = .ok (some h)) : ∃ f ∈ fs, f s = .ok (some h) := by
  induction fs with
  | nil => cases hs
  | cons f fs ih =>
    rw [firstOf] at hs
    cases hf : f s with
    | error e =>
      rw [hf] at hs
      cases hs
    | ok r =>
      rw [hf] at hs
      cases r with
      | some rv =>
        cases hs
        exact ⟨f, by simp, hf⟩
      | none =>
        obtain ⟨g, hg, hgs⟩ := ih hs
        exact ⟨g, by simp [hg], hgs⟩

end Jive5ab.Headersearch
