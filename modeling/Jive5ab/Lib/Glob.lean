import Jive5ab.Lib.Split
import Mathlib.Data.Bool.Basic

/-! # Shell patterns

`fnmatch` with `FNM_PATHNAME`, in the POSIX locale: a slash is matched by a slash only. A bracket
expression that is not closed before the next slash is an ordinary bracket, and a backslash with
nothing behind it matches nothing. -/
namespace Jive5ab.Lib.Glob
open Split

/-! ## Bracket expressions -/

def classOf (name : String) : Option (Char → Bool) :=
  let printable (c : Char) : Bool := 32 ≤ c.toNat && c.toNat < 127
  match name with
  | "alpha" => some Char.isAlpha
  | "digit" => some Char.isDigit
  | "alnum" => some Char.isAlphanum
  | "upper" => some Char.isUpper
  | "lower" => some Char.isLower
  | "xdigit" => some fun c => c.isDigit || "abcdefABCDEF".toList.contains c
  | "blank" => some fun c => c == ' ' || c == '\t'
  | "space" => some fun c => c == ' ' || (9 ≤ c.toNat && c.toNat ≤ 13)
  | "print" => some printable
  | "graph" => some fun c => printable c && c != ' '
  | "punct" => some fun c => printable c && c != ' ' && !c.isAlphanum
  | "cntrl" => some fun c => c.toNat < 32 || c.toNat == 127
  | _ => none

/-- What has its own brackets. -/
def readClass : List Char → Option ((Char → Bool) × List Char)
  | '[' :: ':' :: text =>
    match text.dropWhile Char.isAlpha with
    | ':' :: ']' :: rest => (classOf (String.ofList (text.takeWhile Char.isAlpha))).map (·, rest)
    | _ => none
  | '[' :: '.' :: c :: '.' :: ']' :: rest => if c = '/' then none else some ((· == c), rest)
  | '[' :: '=' :: c :: '=' :: ']' :: rest => if c = '/' then none else some ((· == c), rest)
  | _ => none

def readChar : List Char → Option (Char × List Char)
  | '\\' :: c :: rest => if c = '/' then none else some (c, rest)
  | c :: rest => if c = '/' ∨ c = '\\' then none else some (c, rest)
  | [] => none

/-- A class, a range or a character. -/
def readItem (text : List Char) : Option ((Char → Bool) × List Char) :=
  match readClass text with
  | some item => some item
  | none =>
    match readChar text with
    | none => none
    | some (c, '-' :: ']' :: rest) => some ((· == c), '-' :: ']' :: rest)
    | some (c, '-' :: rest) =>
      (readChar rest).map fun (d, rest) => (fun a => c.val ≤ a.val && a.val ≤ d.val, rest)
    | some (c, rest) => some ((· == c), rest)

/-- Up to the bracket that closes the expression, which is not its first character. -/
def readItems : Nat → Bool → (Char → Bool) → List Char → Option ((Char → Bool) × List Char)
  | 0, _, _, _ => none
  | n + 1, first, items, text =>
    if !first && text.head? == some ']' then some (items, text.tail)
    else
      match readItem text with
      | none => none
      | some (item, rest) => readItems n false (fun c => items c || item c) rest

def readBracket (text : List Char) : Option ((Char → Bool) × List Char) :=
  let negated := text.head? == some '!' || text.head? == some '^'
  (readItems text.length true (fun _ => false) (if negated then text.tail else text)).map
    fun (items, rest) => (fun c => items c != negated, rest)

/-! ## Matching -/

inductive Token
  | chr (c : Char)
  | any
  | star
  | set (items : Char → Bool)

def nextToken : List Char → Option (Token × List Char)
  | [] => none
  | c :: rest =>
    if c = '*' then some (.star, rest)
    else if c = '?' then some (.any, rest)
    else if c = '\\' then
      match rest with
      | [] => none
      | d :: rest => some (.chr d, rest)
    else if c = '[' then
      match readBracket rest with
      | some (items, rest) => some (.set items, rest)
      | none => some (.chr '[', rest)
    else some (.chr c, rest)

def tokens : Nat → List Char → Option (List Token)
  | _, [] => some []
  | 0, _ => none
  | n + 1, pattern =>
    match nextToken pattern with
    | none => none
    | some (t, rest) => (tokens n rest).map (t :: ·)

/-- The rests of a text behind characters that are no slash. -/
def restsInPiece : List Char → List (List Char)
  | [] => [[]]
  | c :: text => (c :: text) :: if c = '/' then [] else restsInPiece text

def matchTokens : List Token → List Char → Bool
  | [], text => text.isEmpty
  | .star :: ts, text => (restsInPiece text).any (matchTokens ts)
  | _ :: _, [] => false
  | .chr c :: ts, d :: text => c == d && matchTokens ts text
  | .any :: ts, d :: text => d != '/' && matchTokens ts text
  | .set items :: ts, d :: text => d != '/' && items d && matchTokens ts text

def fnmatch (pattern text : List Char) : Bool :=
  (tokens pattern.length pattern).any (matchTokens · text)

example : fnmatch "/mnt/[[:alpha:]e-g]*/?".toList "/mnt/disk0/7".toList = true := by decide

example : fnmatch "/mnt/*".toList "/mnt/disk0/7".toList = false := by decide

/-! ## What is read has no slash -/

def Consumes (text rest : List Char) : Prop := ∃ u, text = u ++ rest ∧ '/' ∉ u

theorem Consumes.refl (text : List Char) : Consumes text text := ⟨[], rfl, List.not_mem_nil⟩

theorem Consumes.cons {c : Char} {text rest : List Char} (hc : c ≠ '/') (h : Consumes text rest) :
    Consumes (c :: text) rest := by
  obtain ⟨u, rfl, hu⟩ := h
  exact ⟨c :: u, rfl, by simp [hc.symm, hu]⟩

theorem Consumes.trans {text mid rest : List Char} (h : Consumes text mid)
    (h' : Consumes mid rest) : Consumes text rest := by
  obtain ⟨u, rfl, hu⟩ := h
  obtain ⟨v, rfl, hv⟩ := h'
  exact ⟨u ++ v, (List.append_assoc u v rest).symm, by simp [hu, hv]⟩

theorem consumes_dropWhile_isAlpha (text : List Char) :
    Consumes text (text.dropWhile Char.isAlpha) := by
  refine ⟨text.takeWhile Char.isAlpha, List.takeWhile_append_dropWhile.symm, fun hmem => ?_⟩
  have halpha := List.all_eq_true.mp List.all_takeWhile '/' hmem
  revert halpha
  decide

theorem readClass_consumes {text rest : List Char} {items : Char → Bool}
    (h : readClass text = some (items, rest)) : Consumes text rest := by
  unfold readClass at h
  split at h
  next text =>
    split at h
    next rest' hdrop =>
      obtain ⟨p, -, heq⟩ := Option.map_eq_some_iff.mp h
      obtain rfl : rest' = rest := congrArg Prod.snd heq
      have hname := consumes_dropWhile_isAlpha text
      rw [hdrop] at hname
      have hend : Consumes (':' :: ']' :: rest') rest' :=
        .cons (by decide) (.cons (by decide) (.refl _))
      exact .cons (by decide) (.cons (by decide) (hname.trans hend))
    · cases h
  next c rest' =>
    split at h
    · cases h
    next hc =>
      obtain rfl : rest' = rest := congrArg Prod.snd (Option.some.inj h)
      exact .cons (by decide) (.cons (by decide) (.cons hc (.cons (by decide) (.cons (by decide)
        (.refl _)))))
  next c rest' =>
    split at h
    · cases h
    next hc =>
      obtain rfl : rest' = rest := congrArg Prod.snd (Option.some.inj h)
      exact .cons (by decide) (.cons (by decide) (.cons hc (.cons (by decide) (.cons (by decide)
        (.refl _)))))
  · cases h

theorem readChar_consumes {text rest : List Char} {c : Char} (h : readChar text = some (c, rest)) :
    Consumes text rest := by
  unfold readChar at h
  split at h
  next d rest' =>
    split at h
    · cases h
    next hd =>
      obtain rfl : rest' = rest := congrArg Prod.snd (Option.some.inj h)
      exact .cons (by decide) (.cons hd (.refl _))
  next d rest' _ =>
    split at h
    · cases h
    next hd =>
      obtain rfl : rest' = rest := congrArg Prod.snd (Option.some.inj h)
      exact .cons (not_or.mp hd).1 (.refl _)
  · cases h

theorem readItem_consumes {text rest : List Char} {item : Char → Bool}
    (h : readItem text = some (item, rest)) : Consumes text rest := by
  unfold readItem at h
  split at h
  next hclass =>
    cases h
    exact readClass_consumes hclass
  · split at h
    · cases h
    next hchar =>
      cases h
      exact readChar_consumes hchar
    next hchar =>
      obtain ⟨⟨d, rest''⟩, hread, heq⟩ := Option.map_eq_some_iff.mp h
      obtain rfl : rest'' = rest := congrArg Prod.snd heq
      have hdash (rest : List Char) : Consumes ('-' :: rest) rest := .cons (by decide) (.refl _)
      exact ((readChar_consumes hchar).trans (hdash _)).trans (readChar_consumes hread)
    next hchar =>
      cases h
      exact readChar_consumes hchar

theorem readItems_consumes {n : Nat} {first : Bool} {items items' : Char → Bool}
    {text rest : List Char} (h : readItems n first items text = some (items', rest)) :
    Consumes text rest := by
  induction n generalizing first items text with
  | zero => cases h
  | succ n ih =>
    unfold readItems at h
    split at h
    next hclose =>
      obtain ⟨-, hhead⟩ := Bool.and_eq_true_iff.mp hclose
      cases text with
      | nil => cases hhead
      | cons c text =>
        obtain rfl : c = ']' := by simpa using hhead
        cases h
        exact .cons (by decide) (.refl _)
    · split at h
      · cases h
      next hitem => exact (readItem_consumes hitem).trans (ih h)

theorem readBracket_consumes {text rest : List Char} {items : Char → Bool}
    (h : readBracket text = some (items, rest)) : Consumes text rest := by
  unfold readBracket at h
  obtain ⟨⟨items', rest'⟩, hread, heq⟩ := Option.map_eq_some_iff.mp h
  obtain rfl : rest' = rest := congrArg Prod.snd heq
  split at hread
  next hneg =>
    cases text with
    | nil => simp at hneg
    | cons c text =>
      have hc : c ≠ '/' := by
        rintro rfl
        simp at hneg
      exact .cons hc (readItems_consumes hread)
  · exact readItems_consumes hread

/-! ## Slashes and pieces -/

/-- A pattern and a text with the same slashes, and in between nothing or something of the text
for something of the pattern. -/
inductive Aligned : List Char → List Char → Prop
  | nil : Aligned [] []
  | slash {lead p t : List Char} (hlead : '/' ∉ lead) (h : Aligned p t) :
      Aligned (lead ++ '/' :: p) ('/' :: t)
  | piece {u v p t : List Char} (hne : u ≠ []) (hu : '/' ∉ u) (hv : '/' ∉ v) (h : Aligned p t) :
      Aligned (u ++ p) (v ++ t)

/-- A token that is no slash, or a slash with the backslash before it, if there is one. -/
theorem nextToken_reads {p rest : List Char} {tok : Token} (h : nextToken p = some (tok, rest)) :
    (tok = .chr '/' ∧ ∃ lead, p = lead ++ '/' :: rest ∧ '/' ∉ lead) ∨
      (tok ≠ .chr '/' ∧ ∃ u, p = u ++ rest ∧ u ≠ [] ∧ '/' ∉ u) := by
  have hchr (c : Char) (lead : List Char) (hlead : '/' ∉ lead) :
      (Token.chr c = .chr '/' ∧ ∃ lead', lead ++ c :: rest = lead' ++ '/' :: rest ∧ '/' ∉ lead') ∨
        (Token.chr c ≠ .chr '/' ∧
          ∃ u, lead ++ c :: rest = u ++ rest ∧ u ≠ [] ∧ '/' ∉ u) := by
    by_cases hc : c = '/'
    · exact .inl ⟨by rw [hc], lead, by rw [hc], hlead⟩
    · refine .inr ⟨fun heq => hc (Token.chr.inj heq), lead ++ [c], by simp, by simp, ?_⟩
      simp [hlead, Ne.symm hc]
  cases p with
  | nil => cases h
  | cons c p =>
    simp only [nextToken] at h
    split at h
    next hc =>
      cases h
      exact .inr ⟨nofun, [c], rfl, by simp, by rw [hc]; decide⟩
    split at h
    next hc =>
      cases h
      exact .inr ⟨nofun, [c], rfl, by simp, by rw [hc]; decide⟩
    split at h
    next hc =>
      split at h
      · cases h
      next d rest' =>
        cases h
        exact hchr d [c] (by rw [hc]; decide)
    split at h
    next hc =>
      split at h
      next hread =>
        cases h
        obtain ⟨u, rfl, hu⟩ := readBracket_consumes hread
        exact .inr ⟨nofun, c :: u, rfl, by simp, by rw [hc]; simp [hu]⟩
      · cases h
        rw [hc]
        exact hchr '[' [] List.not_mem_nil
    · cases h
      exact hchr c [] List.not_mem_nil

theorem mem_restsInPiece {text rest : List Char} (h : rest ∈ restsInPiece text) :
    Consumes text rest := by
  induction text with
  | nil =>
    rw [List.mem_singleton.mp h]
    exact .refl _
  | cons c text ih =>
    rcases List.mem_cons.mp h with rfl | h
    · exact .refl _
    · split at h
      · cases h
      next hc => exact (ih h).cons hc

theorem matchTokens_piece {tok : Token} {ts : List Token} {text : List Char}
    (htok : tok ≠ .chr '/') (h : matchTokens (tok :: ts) text = true) :
    ∃ rest, Consumes text rest ∧ matchTokens ts rest = true := by
  cases tok with
  | star =>
    obtain ⟨rest, hmem, hrest⟩ := List.any_eq_true.mp (by simpa only [matchTokens] using h)
    exact ⟨rest, mem_restsInPiece hmem, hrest⟩
  | chr c =>
    cases text with
    | nil => cases h
    | cons d text =>
      obtain ⟨hc, hrest⟩ := Bool.and_eq_true_iff.mp h
      obtain rfl : c = d := beq_iff_eq.mp hc
      exact ⟨text, .cons (fun hslash => htok (by rw [hslash])) (.refl _), hrest⟩
  | any =>
    cases text with
    | nil => cases h
    | cons d text =>
      obtain ⟨hd, hrest⟩ := Bool.and_eq_true_iff.mp h
      exact ⟨text, .cons (by simpa using hd) (.refl _), hrest⟩
  | set items =>
    cases text with
    | nil => cases h
    | cons d text =>
      obtain ⟨hd, hrest⟩ := Bool.and_eq_true_iff.mp h
      exact ⟨text, .cons (by simpa using (Bool.and_eq_true_iff.mp hd).1) (.refl _), hrest⟩

theorem aligned_of_tokens {n : Nat} {p text : List Char} {ts : List Token}
    (h : tokens n p = some ts) (hmatch : matchTokens ts text = true) : Aligned p text := by
  induction n generalizing p ts text with
  | zero =>
    cases p with
    | nil =>
      cases h
      obtain rfl : text = [] := List.isEmpty_iff.mp hmatch
      exact .nil
    | cons c p => cases h
  | succ n ih =>
    cases p with
    | nil =>
      cases h
      obtain rfl : text = [] := List.isEmpty_iff.mp hmatch
      exact .nil
    | cons c p =>
      unfold tokens at h
      split at h
      · cases h
      next tok rest hnext =>
        obtain ⟨ts', hts, rfl⟩ := Option.map_eq_some_iff.mp h
        rcases nextToken_reads hnext with ⟨rfl, lead, hp, hlead⟩ | ⟨htok, u, hp, hne, hu⟩
        · cases text with
          | nil => cases hmatch
          | cons d text =>
            obtain ⟨hd, hrest⟩ := Bool.and_eq_true_iff.mp hmatch
            obtain rfl : '/' = d := beq_iff_eq.mp hd
            rw [hp]
            exact .slash hlead (ih hts hrest)
        · obtain ⟨rest', ⟨v, rfl, hv⟩, hrest⟩ := matchTokens_piece htok hmatch
          rw [hp]
          exact .piece hne hu hv (ih hts hrest)

theorem aligned_of_fnmatch {p text : List Char} (h : fnmatch p text = true) : Aligned p text := by
  obtain ⟨ts, hts, hmatch⟩ := (Option.any_eq_true _ _).mp h
  exact aligned_of_tokens hts hmatch

theorem Aligned.count_eq {p t : List Char} (h : Aligned p t) : t.count '/' = p.count '/' := by
  induction h with
  | nil => rfl
  | slash hlead _ ih => simp [List.count_eq_zero_of_not_mem hlead, ih]
  | piece _ hu hv _ ih =>
    rw [List.count_append, List.count_append, List.count_eq_zero_of_not_mem hu,
      List.count_eq_zero_of_not_mem hv, ih]

/-- The pieces of a text of which the first may have begun before it. -/
def pieceCount : Bool → List Char → Nat
  | begun, [] => begun.toNat
  | begun, c :: text => if c = '/' then begun.toNat + pieceCount false text else pieceCount true text

@[simp] theorem pieceCount_slash (begun : Bool) (text : List Char) :
    pieceCount begun ('/' :: text) = begun.toNat + pieceCount false text := rfl

theorem pieceCount_append {u : List Char} (hu : '/' ∉ u) (begun : Bool) (text : List Char) :
    pieceCount begun (u ++ text) = pieceCount (begun || !u.isEmpty) text := by
  induction u generalizing begun with
  | nil => simp
  | cons c u ih =>
    rw [List.mem_cons, not_or] at hu
    rw [List.cons_append, pieceCount, if_neg (Ne.symm hu.1), ih hu.2]
    simp

theorem Aligned.pieceCount_le {p t : List Char} (h : Aligned p t) {begun begun' : Bool}
    (hle : begun ≤ begun') : pieceCount begun t ≤ pieceCount begun' p := by
  induction h generalizing begun begun' with
  | nil => exact Bool.toNat_le_toNat hle
  | slash hlead _ ih =>
    rw [pieceCount_append hlead, pieceCount_slash, pieceCount_slash]
    refine Nat.add_le_add (Bool.toNat_le_toNat (le_trans hle ?_)) (ih le_rfl)
    exact Bool.left_le_or _ _
  | @piece u _ _ _ hne hu hv _ ih =>
    have hone : (!u.isEmpty) = true := by simpa using hne
    rw [pieceCount_append hu, pieceCount_append hv, hone, Bool.or_true]
    exact ih (Bool.le_true _)

theorem length_split (text : List Char) :
    (split '/' true text).length = pieceCount false text := by
  induction text using pieces_induction (c := '/') with
  | last p hp =>
    have hcount := pieceCount_append hp false []
    rw [List.append_nil] at hcount
    rw [split_last true hp, hcount]
    cases p <;> rfl
  | cons p rest hp ih =>
    rw [split_cons true rest hp, List.length_append, ih, pieceCount_append hp, pieceCount_slash]
    cases p <;> rfl

/-- A text has no more pieces than a pattern that it matches. -/
theorem length_split_le {p text : List Char} (h : fnmatch p text = true) :
    (split '/' true text).length ≤ (split '/' true p).length := by
  rw [length_split, length_split]
  exact (aligned_of_fnmatch h).pieceCount_le le_rfl

/-! ## What stands for itself -/

def specials : List Char := ['*', '?', '[', '\\']

theorem nextToken_ordinary {c : Char} (hc : c ∉ specials) (rest : List Char) :
    nextToken (c :: rest) = some (.chr c, rest) := by
  simp only [specials, List.mem_cons, List.not_mem_nil, or_false, not_or] at hc
  simp [nextToken, hc]

theorem tokens_ordinary {lit : List Char} (hlit : ∀ c ∈ lit, c ∉ specials) (n : Nat)
    (p : List Char) :
    tokens (lit.length + n) (lit ++ p) = (tokens n p).map (lit.map .chr ++ ·) := by
  induction lit with
  | nil => simp
  | cons c lit ih =>
    rw [List.forall_mem_cons] at hlit
    have hlen : (c :: lit).length + n = lit.length + n + 1 := by
      rw [List.length_cons]
      omega
    rw [hlen, List.cons_append, tokens, nextToken_ordinary hlit.1]
    · simp only [ih hlit.2, Option.map_map]
      rfl
    · exact List.cons_ne_nil c (lit ++ p)

theorem matchTokens_ordinary {lit : List Char} {ts : List Token} {text : List Char}
    (h : matchTokens (lit.map .chr ++ ts) text = true) :
    ∃ rest, text = lit ++ rest ∧ matchTokens ts rest = true := by
  induction lit generalizing text with
  | nil => exact ⟨text, rfl, h⟩
  | cons c lit ih =>
    cases text with
    | nil => cases h
    | cons d text =>
      obtain ⟨hc, hrest⟩ := Bool.and_eq_true_iff.mp h
      obtain rfl : c = d := beq_iff_eq.mp hc
      obtain ⟨rest, rfl, hmatch⟩ := ih hrest
      exact ⟨rest, rfl, hmatch⟩

theorem fnmatch_ordinary {lit p text : List Char} (hlit : ∀ c ∈ lit, c ∉ specials)
    (h : fnmatch (lit ++ p) text = true) :
    ∃ rest, text = lit ++ rest ∧ fnmatch p rest = true := by
  unfold fnmatch at h
  rw [List.length_append, tokens_ordinary hlit] at h
  obtain ⟨ts, hts, hmatch⟩ := (Option.any_eq_true _ _).mp h
  obtain ⟨ts', hts', rfl⟩ := Option.map_eq_some_iff.mp hts
  obtain ⟨rest, rfl, hrest⟩ := matchTokens_ordinary hmatch
  exact ⟨rest, rfl, (Option.any_eq_true _ _).mpr ⟨ts', hts', hrest⟩⟩

end Jive5ab.Lib.Glob
