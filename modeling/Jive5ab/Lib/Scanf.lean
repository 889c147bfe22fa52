import Mathlib

/-! # Numbers that are scanned

`%d` and `%lf` of `sscanf`, in the C locale. A floating point number is its exact value: it is not
rounded, and it does not overflow. -/
namespace Jive5ab.Lib.Scanf

/-! ## Characters -/

def isSpace (c : Char) : Bool := c == ' ' || (9 ≤ c.toNat && c.toNat ≤ 13)

def isSign (c : Char) : Bool := c == '-' || c == '+'

def isHexDigit (c : Char) : Bool := c.isDigit || "abcdef".toList.contains c.toLower

def digitValue (c : Char) : Nat := if c.isDigit then c.toNat - 48 else c.toLower.toNat - 87

def ofDigits (base : Nat) (digits : List Char) : Nat :=
  digits.foldl (fun n c => base * n + digitValue c) 0

/-- Whether there is a minus, and what is behind the sign. -/
def takeSign (s : List Char) : Bool × List Char :=
  if s.head?.any isSign then (s.head? == some '-', s.tail) else (false, s)

/-! ## Integers -/

def signed (negative : Bool) (n : Nat) : Int := if negative then -n else n

/-- What `strtol` makes of a number, in 64 bits and no more, and what is kept of it. -/
def storedInt (n : Int) : Int := Int.bmod (max (-2 ^ 63) (min n (2 ^ 63 - 1))) (2 ^ 32)

/-- `%d`, and the text behind it. -/
def scanInt (s : List Char) : Option (Int × List Char) :=
  let (negative, s) := takeSign (s.dropWhile isSpace)
  let digits := s.takeWhile Char.isDigit
  if digits.isEmpty then none
  else some (storedInt (signed negative (ofDigits 10 digits)), s.dropWhile Char.isDigit)

/-! ## Floating point numbers -/

inductive Double where
  | finite (value : ℚ)
  | infinite (negative : Bool)
  | nan
  deriving DecidableEq

def Double.signed (negative : Bool) : Double → Double
  | finite value => finite (if negative then -value else value)
  | infinite _ => infinite negative
  | nan => nan

/-- Digits with at most one point among them. -/
def scanMantissa (base : Nat) (isDigit : Char → Bool) (s : List Char) : Option (ℚ × List Char) :=
  let whole := s.takeWhile isDigit
  let s := s.dropWhile isDigit
  let fraction := if s.head? = some '.' then s.tail.takeWhile isDigit else []
  let s := if s.head? = some '.' then s.tail.dropWhile isDigit else s
  if whole.isEmpty ∧ fraction.isEmpty then none
  else some (ofDigits base (whole ++ fraction) / base ^ fraction.length, s)

/-- A marker without digits behind it is an error. -/
def scanExponent (marker : Char) (s : List Char) : Option (Int × List Char) :=
  if s.head?.any (·.toLower = marker) then
    let (negative, s) := takeSign s.tail
    let digits := s.takeWhile Char.isDigit
    if digits.isEmpty then none
    else some (Scanf.signed negative (ofDigits 10 digits), s.dropWhile Char.isDigit)
  else some (0, s)

def scanNumber (base : Nat) (isDigit : Char → Bool) (marker : Char) (radix : ℚ) (s : List Char) :
    Option (Double × List Char) := do
  let (mantissa, s) ← scanMantissa base isDigit s
  let (exponent, s) ← scanExponent marker s
  return (.finite (mantissa * radix ^ exponent), s)

/-- How much of a word there is, in any case of the letters. -/
def common (word s : List Char) : Nat :=
  ((word.zip (s.map Char.toLower)).takeWhile fun p => p.1 = p.2).length

/-- `inf` or `infinity`, and nothing in between. -/
def scanInfinity (s : List Char) : Option (Double × List Char) :=
  let n := common "infinity".toList s
  if n = 3 ∨ n = 8 then some (.infinite false, s.drop n) else none

def scanNan (s : List Char) : Option (Double × List Char) :=
  if common "nan".toList s = 3 then
    let s := s.drop 3
    if s.head? = some '(' then
      let rest := s.tail.dropWhile fun c => c.isAlphanum || c == '_'
      if rest.head? = some ')' then some (.nan, rest.tail) else none
    else some (.nan, s)
  else none

def scanMagnitude (s : List Char) : Option (Double × List Char) :=
  if s.head?.any (·.toLower = 'i') then scanInfinity s
  else if s.head?.any (·.toLower = 'n') then scanNan s
  else if s.head? = some '0' ∧ s.tail.head?.any (·.toLower = 'x') then
    scanNumber 16 isHexDigit 'p' 2 (s.drop 2)
  else scanNumber 10 Char.isDigit 'e' 10 s

/-- `%lf`, and the text behind it. -/
def scanDouble (s : List Char) : Option (Double × List Char) :=
  let (negative, s) := takeSign (s.dropWhile isSpace)
  (scanMagnitude s).map fun r => (r.1.signed negative, r.2)

/-! ## Plain numbers -/

structure Numeral (digits : List Char) : Prop where
  ne_nil : digits ≠ []
  isDigit : ∀ c ∈ digits, c.isDigit = true

/-- Digits, and digits behind a point, at least one of them. -/
inductive Decimal : List Char → ℚ → Prop
  | whole {digits : List Char} (h : Numeral digits) : Decimal digits (ofDigits 10 digits)
  | fraction {whole fraction : List Char} (h : Numeral (whole ++ fraction)) :
    Decimal (whole ++ '.' :: fraction) (ofDigits 10 (whole ++ fraction) / 10 ^ fraction.length)

theorem not_special_of_isDigit {c : Char} (h : c.isDigit = true) :
    isSpace c = false ∧ isSign c = false := by
  have hrange : 48 ≤ c.toNat ∧ c.toNat ≤ 57 := Char.isDigit_iff_toNat.mp h
  have hne (d : Char) (hd : d.toNat < 48) : (c == d) = false := by
    rw [beq_eq_false_iff_ne]
    rintro rfl
    omega
  unfold isSpace isSign
  rw [hne ' ' (by decide), hne '-' (by decide), hne '+' (by decide)]
  refine ⟨?_, rfl⟩
  simp only [Bool.false_or, Bool.and_eq_false_iff, decide_eq_false_iff_not]
  omega

/-- A text that begins with a digit or a point has no spaces or sign to skip. -/
theorem takeSign_plain {c : Char} {s : List Char} (hspace : isSpace c = false)
    (hsign : isSign c = false) :
    takeSign ((c :: s).dropWhile isSpace) = (false, c :: s) := by
  rw [List.dropWhile_cons_of_neg (by simp [hspace])]
  unfold takeSign
  rw [if_neg (by simp [hsign])]

theorem span_digits {isDigit : Char → Bool} {digits rest : List Char}
    (hdigits : ∀ c ∈ digits, isDigit c = true) (hrest : ∀ c ∈ rest.head?, isDigit c = false) :
    (digits ++ rest).takeWhile isDigit = digits ∧ (digits ++ rest).dropWhile isDigit = rest := by
  rw [List.takeWhile_append_of_pos hdigits, List.dropWhile_append_of_pos hdigits]
  cases rest with
  | nil => simp
  | cons c rest =>
    have hc : ¬isDigit c = true := by simp [hrest c rfl]
    rw [List.takeWhile_cons_of_neg hc, List.dropWhile_cons_of_neg hc, List.append_nil]
    exact ⟨rfl, rfl⟩

theorem scanInt_numeral {digits : List Char} (rest : List Char) (h : Numeral digits)
    (hrest : ∀ c ∈ rest.head?, c.isDigit = false) :
    scanInt (digits ++ rest) = some (storedInt (ofDigits 10 digits), rest) := by
  obtain ⟨htake, hdrop⟩ := span_digits h.isDigit hrest
  obtain ⟨c, tail, rfl⟩ := List.exists_cons_of_ne_nil h.ne_nil
  obtain ⟨hspace, hsign⟩ := not_special_of_isDigit (h.isDigit c List.mem_cons_self)
  unfold scanInt
  rw [List.cons_append, takeSign_plain hspace hsign]
  dsimp only
  rw [← List.cons_append, htake, hdrop]
  rfl

/-- What `%d` passes over. -/
theorem scanInt_front {s rest : List Char} {v : Int} (h : scanInt s = some (v, rest)) :
    ∃ front, s = front ++ rest ∧
      ∀ c ∈ front, isSpace c = true ∨ isSign c = true ∨ c.isDigit = true := by
  have hsign (t : List Char) : ∃ sign, t = sign ++ (takeSign t).2 ∧ ∀ c ∈ sign, isSign c = true := by
    unfold takeSign
    split
    · rename_i hhead
      cases t with
      | nil => cases hhead
      | cons c t => exact ⟨[c], rfl, by simpa using hhead⟩
    · exact ⟨[], rfl, by simp⟩
  unfold scanInt at h
  dsimp only at h
  obtain ⟨sign, hs, hsigns⟩ := hsign (s.dropWhile isSpace)
  generalize (takeSign (s.dropWhile isSpace)).2 = t at h hs
  split at h
  · cases h
  · have hrest := congrArg Prod.snd (Option.some.inj h)
    dsimp only at hrest
    refine ⟨s.takeWhile isSpace ++ sign ++ t.takeWhile Char.isDigit, ?_, ?_⟩
    · rw [List.append_assoc, ← hrest, List.takeWhile_append_dropWhile, List.append_assoc, ← hs,
        List.takeWhile_append_dropWhile]
    · intro c hc
      rcases List.mem_append.mp hc with hc | hc
      · rcases List.mem_append.mp hc with hc | hc
        · exact .inl (List.mem_takeWhile_imp hc)
        · exact .inr (.inl (hsigns c hc))
      · exact .inr (.inr (List.mem_takeWhile_imp hc))

/-- What ends a plain number. -/
structure Ends (c : Char) : Prop where
  digit : c.isDigit = false
  point : c ≠ '.'
  marker : c.toLower ≠ 'e'
  hex : c.toLower ≠ 'x'

theorem scanMantissa_decimal {digits : List Char} (rest : List Char) {q : ℚ} {c : Char} (h : Decimal digits q)
    (hc : Ends c) :
    scanMantissa 10 Char.isDigit (digits ++ c :: rest) = some (q, c :: rest) := by
  have hend : ∀ x ∈ (c :: rest).head?, x.isDigit = false := by
    rintro x ⟨⟩
    exact hc.digit
  cases h with
  | whole h =>
    obtain ⟨htake, hdrop⟩ := span_digits h.isDigit hend
    have hnot : ¬(c :: rest).head? = some '.' := by simpa using hc.point
    unfold scanMantissa
    simp only [htake, hdrop, if_neg hnot, List.append_nil, List.length_nil, pow_zero, div_one]
    rw [if_neg (by simpa using h.ne_nil)]
  | @fraction whole fraction h =>
    have hwhole : ∀ x ∈ whole, x.isDigit = true := fun x hx =>
      h.isDigit x (List.mem_append_left _ hx)
    have hfraction : ∀ x ∈ fraction, x.isDigit = true := fun x hx =>
      h.isDigit x (List.mem_append_right _ hx)
    have hpoint : ∀ x ∈ ('.' :: (fraction ++ c :: rest)).head?, x.isDigit = false := by
      rintro x ⟨⟩
      rfl
    obtain ⟨htake, hdrop⟩ := span_digits hwhole hpoint
    obtain ⟨htake', hdrop'⟩ := span_digits hfraction hend
    unfold scanMantissa
    rw [List.append_assoc, List.cons_append]
    simp only [htake, hdrop, List.head?_cons, ↓reduceIte, List.tail_cons, htake', hdrop']
    rw [if_neg (by simpa using h.ne_nil)]
    norm_num

theorem Decimal.chars {digits : List Char} {q : ℚ} (h : Decimal digits q) :
    digits ≠ [] ∧ ∀ c ∈ digits, c.isDigit = true ∨ c = '.' := by
  cases h with
  | whole h => exact ⟨h.ne_nil, fun c hc => .inl (h.isDigit c hc)⟩
  | @fraction whole fraction h =>
    refine ⟨by simp, fun c hc => ?_⟩
    rcases List.mem_append.mp hc with hc | hc
    · exact .inl (h.isDigit c (List.mem_append_left _ hc))
    · rcases List.mem_cons.mp hc with rfl | hc
      · exact .inr rfl
      · exact .inl (h.isDigit c (List.mem_append_right _ hc))

theorem toLower_of_isDigit {c : Char} (h : c.isDigit = true) : c.toLower = c := by
  have hrange : 48 ≤ c.toNat ∧ c.toNat ≤ 57 := Char.isDigit_iff_toNat.mp h
  unfold Char.toLower
  rw [dif_neg]
  rintro ⟨hlow, -⟩
  have hval : 65 ≤ c.toNat := hlow
  omega

/-- No letter begins or ends a decimal, and none stands in it. -/
theorem not_letter {c d : Char} (h : c.isDigit = true ∨ c = '.') (hd : 57 < d.toNat) :
    c.toLower ≠ d := by
  rcases h with hdigit | rfl
  · rw [toLower_of_isDigit hdigit]
    rintro rfl
    have hrange : 48 ≤ c.toNat ∧ c.toNat ≤ 57 := Char.isDigit_iff_toNat.mp hdigit
    omega
  · rintro rfl
    exact absurd hd (by decide)

/-- Up to its end a decimal is a number with no exponent. -/
theorem scanMagnitude_decimal {digits : List Char} (rest : List Char) {q : ℚ} {c : Char} (h : Decimal digits q)
    (hc : Ends c) : scanMagnitude (digits ++ c :: rest) = some (.finite q, c :: rest) := by
  have hmantissa := scanMantissa_decimal rest h hc
  obtain ⟨hne, hchars⟩ := h.chars
  obtain ⟨x, tail, rfl⟩ := List.exists_cons_of_ne_nil hne
  have hx := hchars x List.mem_cons_self
  have hhex : ¬(some x = some '0' ∧ (tail ++ c :: rest).head?.any (·.toLower = 'x')) := by
    rintro ⟨-, hany⟩
    cases tail with
    | nil => exact hc.hex (by simpa using hany)
    | cons y tail =>
      exact not_letter (hchars y (by simp)) (show 57 < 'x'.toNat by decide) (by simpa using hany)
  have hi := not_letter hx (show 57 < 'i'.toNat by decide)
  have hn := not_letter hx (show 57 < 'n'.toNat by decide)
  unfold scanMagnitude
  rw [List.cons_append, List.head?_cons, List.tail_cons, if_neg (by simpa using hi),
    if_neg (by simpa using hn), if_neg hhex, ← List.cons_append]
  unfold scanNumber scanExponent
  rw [hmantissa]
  simp [hc.marker]

theorem scanDouble_decimal {digits rest : List Char} {q : ℚ} {c : Char} (h : Decimal digits q)
    (hc : Ends c) : scanDouble (digits ++ c :: rest) = some (.finite q, c :: rest) := by
  have hmagnitude := scanMagnitude_decimal rest h hc
  obtain ⟨hne, hchars⟩ := h.chars
  obtain ⟨x, tail, rfl⟩ := List.exists_cons_of_ne_nil hne
  have hplain : isSpace x = false ∧ isSign x = false := by
    rcases hchars x List.mem_cons_self with hdigit | rfl
    · exact not_special_of_isDigit hdigit
    · exact ⟨rfl, rfl⟩
  unfold scanDouble
  rw [List.cons_append, takeSign_plain hplain.1 hplain.2]
  dsimp only
  rw [← List.cons_append, hmagnitude]
  rfl

/-- Of a decimal, `%d` takes what is before the point. -/
theorem scanInt_decimal {digits rest after : List Char} {q : ℚ} {c sep : Char} {v : Int}
    (h : Decimal digits q) (hc : Ends c)
    (hscan : scanInt (digits ++ c :: rest) = some (v, sep :: after)) : sep = '.' ∨ sep = c := by
  cases h with
  | whole h =>
    rw [scanInt_numeral _ h (by rintro x ⟨⟩; exact hc.digit)] at hscan
    cases hscan
    exact .inr rfl
  | @fraction whole fraction h =>
    rw [List.append_assoc, List.cons_append] at hscan
    by_cases hwhole : whole = []
    · subst hwhole
      cases hscan
    · have hnumeral : Numeral whole :=
        ⟨hwhole, fun x hx => h.isDigit x (List.mem_append_left _ hx)⟩
      rw [scanInt_numeral _ hnumeral (by rintro x ⟨⟩; rfl)] at hscan
      cases hscan
      exact .inl rfl

end Jive5ab.Lib.Scanf
