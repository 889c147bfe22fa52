import Jive5ab.Lib.OrdMap
import Jive5ab.Lib.Split
import Std.Data.TreeMap.Lemmas

/-! # Meta-data headers

A header is a list of `key: value` pairs, each followed by a NUL byte, with one
more NUL at its end. `readItcpHeader` takes one off a connection byte by byte;
what `toBinary` wrote is read back, whatever comes behind it. -/
namespace Jive5ab.Rsync
open Std Lib Lib.Split

/-- A `std::string`: bytes in any encoding. -/
abbrev Text := List UInt8

def text (s : String) : Text := s.toList.map Char.toUInt8

/-- The size of a string is a `size_t`. -/
def size (s : Text) : Nat := s.length % 2 ^ 64

/-! ## Numbers -/

/-- `os << n` -/
def decimal (n : Nat) : Text := (Nat.toDigits 10 n).map Char.toUInt8

def isSpace (c : UInt8) : Bool := c == 32 || (9 ≤ c && c ≤ 13)

def isDigit (c : UInt8) : Bool := 48 ≤ c && c ≤ 57

def digitsValue (digits : Text) : Nat := digits.foldl (fun n c => 10 * n + (c.toNat - 48)) 0

/-- `sscanf` with `SCNu32`. The number is taken as one of 64 bits, at most the
largest of them, and its lower 32 bits are stored. -/
def scanU32 (s : Text) : Option Nat :=
  let s := s.dropWhile isSpace
  let signed := s.head? = some 45 ∨ s.head? = some 43
  let digits := (if signed then s.tail else s).takeWhile isDigit
  if digits.isEmpty then none
  else
    let n := digitsValue digits
    let n := if 2 ^ 64 ≤ n then 2 ^ 64 - 1 else if s.head? = some 45 then 2 ^ 64 - n else n
    some (n % 2 ^ 32)

theorem toNat_toUInt8_of_isDigit {c : Char} (h : c.isDigit) : c.toUInt8.toNat = c.toNat := by
  have hrange : 48 ≤ c.toNat ∧ c.toNat ≤ 57 := Char.isDigit_iff_toNat.mp h
  exact Nat.mod_eq_of_lt (by omega : c.toNat < 2 ^ 8)

theorem isDigit_of_mem_decimal {n : Nat} {c : UInt8} (h : c ∈ decimal n) : isDigit c := by
  obtain ⟨d, hd, rfl⟩ := List.mem_map.mp h
  have hdigit := Nat.isDigit_of_mem_toDigits (by decide) (by decide) hd
  have hrange : 48 ≤ d.toNat ∧ d.toNat ≤ 57 := Char.isDigit_iff_toNat.mp hdigit
  have htoNat := toNat_toUInt8_of_isDigit hdigit
  simp only [isDigit, Bool.and_eq_true, decide_eq_true_eq, UInt8.le_iff_toNat_le, htoNat]
  exact hrange

theorem digitsValue_decimal (n : Nat) : digitsValue (decimal n) = n := by
  have hfold (l : List Char) (h : ∀ c ∈ l, c.isDigit) (init : Nat) :
      (l.map Char.toUInt8).foldl (fun n c => 10 * n + (c.toNat - 48)) init =
        Nat.ofDigitChars 10 l init := by
    induction l generalizing init with
    | nil => rw [Nat.ofDigitChars_nil]; rfl
    | cons c l ih =>
      rw [List.forall_mem_cons] at h
      rw [List.map_cons, List.foldl_cons, ih h.2, toNat_toUInt8_of_isDigit h.1,
        Nat.ofDigitChars_cons]
      rfl
  have hdigits (c : Char) (hc : c ∈ Nat.toDigits 10 n) : c.isDigit :=
    Nat.isDigit_of_mem_toDigits (by decide) (by decide) hc
  exact (hfold _ hdigits 0).trans Nat.ofDigitChars_ten_toDigits

theorem isDigit_separate {c : UInt8} (h : isDigit c) : isSpace c = false ∧ c ≠ 45 ∧ c ≠ 43 := by
  simp only [isDigit, Bool.and_eq_true, decide_eq_true_eq, UInt8.le_iff_toNat_le,
    UInt8.reduceToNat] at h
  simp only [isSpace, Bool.or_eq_false_iff, beq_eq_false_iff_ne, Bool.and_eq_false_iff,
    decide_eq_false_iff_not, ne_eq, ← UInt8.toNat_inj, UInt8.le_iff_toNat_le, UInt8.reduceToNat]
  omega

/-- What was written as a number is read as one, up to the width. -/
theorem scanU32_decimal {n : Nat} (h : n < 2 ^ 64) : scanU32 (decimal n) = some (n % 2 ^ 32) := by
  have hdecimal : decimal n ≠ [] := List.map_eq_nil_iff.not.mpr Nat.toDigits_ne_nil
  obtain ⟨c, cs, hcs⟩ := List.exists_cons_of_ne_nil hdecimal
  have hall : ∀ d ∈ decimal n, isDigit d := fun d hd => isDigit_of_mem_decimal hd
  have hc : isDigit c := hall c (by rw [hcs]; exact List.mem_cons_self)
  obtain ⟨hspace, hminus, hplus⟩ := isDigit_separate hc
  have hdrop : (decimal n).dropWhile isSpace = decimal n := by
    rw [hcs, List.dropWhile_cons_of_neg (by simp [hspace])]
  have htake : (decimal n ++ []).takeWhile isDigit = decimal n := by
    rw [List.takeWhile_append_of_pos hall]
    simp
  rw [List.append_nil] at htake
  have hhead : (decimal n).head? = some c := by rw [hcs]; rfl
  have hne : (decimal n).isEmpty = false := by rw [hcs]; rfl
  have hwidth : ¬18446744073709551616 ≤ n := Nat.not_le.mpr h
  simp [scanU32, hdrop, hhead, hminus, hplus, htake, hne, digitsValue_decimal, hwidth]

/-! ## The map -/

def nul : UInt8 := 0

def separator : Text := text ": "

abbrev KvMap := TreeMap Text Text

/-- `insert`: a key that is there keeps its value. -/
def KvMap.set (kv : KvMap) (key value : Text) : KvMap := kv.insertIfNew key value

def KvMap.lines (kv : KvMap) : List Text := kv.toList.map fun e => e.1 ++ separator ++ e.2

def KvMap.toBinary (kv : KvMap) : Text := terminated nul kv.lines ++ [nul]

/-- The position of the first occurrence. -/
def find (pat : Text) : Text → Option Nat
  | [] => if pat.isEmpty then some 0 else none
  | c :: cs => if pat.isPrefixOf (c :: cs) then some 0 else (find pat cs).map (· + 1)

def KvMap.addLine (kv : KvMap) (line : Text) : Option KvMap :=
  if line.isEmpty then some kv
  else (find separator line).map fun i =>
    kv.insert (line.take i) (line.drop (i + separator.length))

def fromBinary (bin : Text) : Option KvMap := (split nul false bin).foldlM KvMap.addLine ∅

/-- A byte at a time, until two of them in a row were zero. -/
def readItcpHeader (numZeroBytes : Nat) : Text → Option (Text × Text)
  | [] => none
  | c :: stream =>
    let numZeroBytes := if c = nul then numZeroBytes + 1 else 0
    if numZeroBytes < 2 then (readItcpHeader numZeroBytes stream).map fun r => (c :: r.1, r.2)
    else some ([c], stream)

/-- The header at the front of a stream, and what is behind it. -/
def readKvMap (stream : Text) : Option (KvMap × Text) := do
  let (bin, stream) ← readItcpHeader 0 stream
  let kv ← fromBinary bin
  return (kv, stream)

/-! ## What is written is read -/

/-- A pair that keeps the format: no NULs, and a key in which the separator cannot begin. -/
structure WellFormed (key value : Text) : Prop where
  key_nul : nul ∉ key
  key_colon : 58 ∉ key
  value_nul : nul ∉ value

/-- A pair that the format can hold. -/
structure Proper (key value : Text) : Prop where
  key_nul : nul ∉ key
  key_separator : ¬separator <:+: key
  value_nul : nul ∉ value

theorem WellFormed.proper {key value : Text} (h : WellFormed key value) : Proper key value :=
  ⟨h.key_nul, fun hsub => h.key_colon (hsub.subset (by decide)), h.value_nul⟩

/-- The separator does not begin at the end of a key: it has no two equal bytes. -/
theorem find_separator {key : Text} (value : Text) (h : ¬separator <:+: key) :
    find separator (key ++ separator ++ value) = some key.length := by
  induction key with
  | nil => rfl
  | cons c key ih =>
    have hno : separator.isPrefixOf (c :: key ++ separator ++ value) = false := by
      by_contra hprefix
      rw [Bool.not_eq_false, List.isPrefixOf_iff_prefix] at hprefix
      cases key with
      | nil => exact absurd (List.cons_prefix_cons.mp (List.cons_prefix_cons.mp hprefix).2).1 (by decide)
      | cons d key =>
        obtain ⟨rfl, htail⟩ := List.cons_prefix_cons.mp hprefix
        obtain ⟨rfl, -⟩ := List.cons_prefix_cons.mp htail
        exact h (List.prefix_append separator key).isInfix
    rw [List.cons_append, List.cons_append] at hno ⊢
    rw [find, hno, ih fun hsub => h (List.infix_cons hsub)]
    rfl

theorem addLine_pair (kv : KvMap) {key value : Text} (h : Proper key value) :
    kv.addLine (key ++ separator ++ value) = some (kv.insert key value) := by
  have hne : (key ++ separator ++ value).isEmpty = false := by simp [separator, text]
  rw [KvMap.addLine, hne, if_neg Bool.false_ne_true, find_separator value h.key_separator,
    Option.map_some, ← List.length_append, List.drop_left, List.append_assoc, List.take_left]

theorem nul_notMem_line {key value : Text} (h : Proper key value) :
    nul ∉ key ++ separator ++ value := by
  have hsep : nul ∉ separator := by decide
  simp [h.key_nul, h.value_nul, hsep]

theorem foldlM_addLine {l : List (Text × Text)} (h : ∀ e ∈ l, Proper e.1 e.2) (kv : KvMap) :
    (l.map fun e => e.1 ++ separator ++ e.2).foldlM KvMap.addLine kv = some (kv.insertMany l) := by
  induction l generalizing kv with
  | nil => rfl
  | cons e l ih =>
    rw [List.forall_mem_cons] at h
    rw [List.map_cons, List.foldlM_cons, addLine_pair kv h.1, TreeMap.insertMany_cons]
    exact ih h.2 _

/-- All pairs keep the format. -/
def KvMap.WellFormed (kv : KvMap) : Prop := ∀ e ∈ kv.toList, Rsync.WellFormed e.1 e.2

/-- The format can hold all pairs. -/
def KvMap.Proper (kv : KvMap) : Prop := ∀ e ∈ kv.toList, Rsync.Proper e.1 e.2

theorem KvMap.WellFormed.proper {kv : KvMap} (h : kv.WellFormed) : kv.Proper :=
  fun e he => (h e he).proper

theorem line_of_mem {kv : KvMap} (h : kv.Proper) {l : Text} (hl : l ∈ kv.lines) :
    l ≠ [] ∧ nul ∉ l := by
  obtain ⟨e, he, rfl⟩ := List.mem_map.mp hl
  exact ⟨by simp [separator, text], nul_notMem_line (h e he)⟩

theorem split_toBinary {kv : KvMap} (h : kv.Proper) :
    split nul false kv.toBinary = kv.lines ++ [[], []] := by
  have hend : split nul false [nul] = [[], []] := by decide +kernel
  rw [KvMap.toBinary, split_terminated false _ (fun l hl => (line_of_mem h hl).1)
    (fun l hl => (line_of_mem h hl).2), hend]

theorem fromBinary_toBinary {kv : KvMap} (h : kv.Proper) :
    fromBinary kv.toBinary = some (.ofList kv.toList) := by
  rw [fromBinary, split_toBinary h, List.foldlM_append, KvMap.lines, foldlM_addLine h]
  rfl

/-- The loop goes on past a text without NULs. -/
theorem readItcpHeader_append {p : Text} (hne : p ≠ []) (hnul : nul ∉ p) {z : Nat} (stream : Text) :
    readItcpHeader z (p ++ stream) = (readItcpHeader 0 stream).map fun r => (p ++ r.1, r.2) := by
  induction p generalizing z with
  | nil => exact absurd rfl hne
  | cons c p ih =>
    rw [List.mem_cons, not_or] at hnul
    rw [List.cons_append, readItcpHeader, if_neg (Ne.symm hnul.1), if_pos (by decide)]
    rcases p.eq_nil_or_concat with rfl | ⟨_, _, rfl⟩
    · rfl
    · rw [ih (by simp) hnul.2, Option.map_map]
      rfl

/-- Lines that are not empty, and the end of the header after them. -/
theorem readItcpHeader_terminated {lines : List Text} (hline : ∀ l ∈ lines, l ≠ [] ∧ nul ∉ l)
    {z : Nat} (hz : z = 1 ∨ lines ≠ []) (stream : Text) :
    readItcpHeader z (terminated nul lines ++ nul :: stream) =
      some (terminated nul lines ++ [nul], stream) := by
  induction lines generalizing z with
  | nil =>
    obtain rfl : z = 1 := hz.resolve_right fun h => h rfl
    rfl
  | cons l lines ih =>
    rw [List.forall_mem_cons] at hline
    rw [terminated_cons, List.append_assoc, List.cons_append,
      readItcpHeader_append hline.1.1 hline.1.2, readItcpHeader, if_pos rfl, if_pos (by decide),
      ih hline.2 (.inl rfl)]
    simp

theorem readItcpHeader_toBinary {kv : KvMap} (hsome : kv.isEmpty = false) (h : kv.Proper)
    (stream : Text) : readItcpHeader 0 (kv.toBinary ++ stream) = some (kv.toBinary, stream) := by
  have hlines : kv.lines ≠ [] := by
    rw [KvMap.lines, ne_eq, List.map_eq_nil_iff, ← List.isEmpty_iff, TreeMap.isEmpty_toList, hsome]
    exact Bool.false_ne_true
  rw [KvMap.toBinary, List.append_assoc, List.singleton_append]
  exact readItcpHeader_terminated (fun l hl => line_of_mem h hl) (.inr hlines) stream

/-- A header that has a pair in it is read back, and nothing behind it is. -/
theorem readKvMap_toBinary {kv : KvMap} (hsome : kv.isEmpty = false) (h : kv.Proper)
    (stream : Text) : readKvMap (kv.toBinary ++ stream) = some (.ofList kv.toList, stream) := by
  simp only [readKvMap, readItcpHeader_toBinary hsome h, fromBinary_toBinary h,
    Option.bind_eq_bind, Option.bind_some, Option.pure_def]

end Jive5ab.Rsync
