import Mathlib

/-! # POSIX extended regular expressions

Expressions with groups and back-references, all the ways in which one matches from a position on,
and the compiler from the text of a pattern. A pattern that POSIX leaves undefined, an operator
without an operand say, does not compile; of the intervals there is the exact one, and in brackets
there are no classes. -/
namespace Jive5ab.Lib

abbrev Text := List Char

inductive Ere where
  | empty
  | chr (c : Char)
  | any
  | set (negated : Bool) (ranges : List (Char × Char))
  | bol
  | eol
  | cat (r s : Ere)
  | alt (r s : Ere)
  | star (r : Ere)
  | group (n : Nat) (r : Ere)
  | backref (n : Nat)
deriving DecidableEq

namespace Ere

def opt (r : Ere) : Ere := .alt r .empty

def plus (r : Ere) : Ere := .cat r (.star r)

def seq (rs : List Ere) : Ere := rs.foldr .cat .empty

def repeated (r : Ere) (n : Nat) : Ere := seq (List.replicate n r)

/-! ## Matching -/

/-- A position in a text, with what each group has matched. -/
structure Cursor where
  before : Text
  rest : Text
  groups : List (Nat × Text)
deriving DecidableEq

def Cursor.start (text : Text) (i : Nat) : Cursor := ⟨text.take i, text.drop i, []⟩

/-- One character. -/
def one (p : Char → Bool) (k : Cursor) : List Cursor :=
  match k.rest with
  | c :: rest => if p c then [{ k with before := k.before ++ [c], rest := rest }] else []
  | [] => []

/-- At most `n` times. -/
def upTo (f : Cursor → List Cursor) : Nat → Cursor → List Cursor
  | 0, k => [k]
  | n + 1, k => k :: (f k).flatMap (upTo f n)

def inRanges (ranges : List (Char × Char)) (c : Char) : Bool :=
  ranges.any fun r => r.1.val ≤ c.val && c.val ≤ r.2.val

/-- Where a match that begins at `k` can end. -/
def run : Ere → Cursor → List Cursor
  | .empty, k => [k]
  | .chr c, k => one (· == c) k
  | .any, k => one (fun _ => true) k
  | .set negated ranges, k => one (fun c => inRanges ranges c != negated) k
  | .bol, k => if k.before.isEmpty then [k] else []
  | .eol, k => if k.rest.isEmpty then [k] else []
  | .cat r s, k => (run r k).flatMap (run s)
  | .alt r s, k => run r k ++ run s k
  | .star r, k => upTo (run r) k.rest.length k
  | .group n r, k => (run r k).map fun k' =>
      { k' with groups := (n, k'.before.drop k.before.length) :: k'.groups }
  | .backref n, k =>
    match k.groups.lookup n with
    | none => []
    | some u =>
      if u.isPrefixOf k.rest then [{ k with before := k.before ++ u, rest := k.rest.drop u.length }]
      else []

/-- `regexec`: a match somewhere in the text. -/
def found (r : Ere) (text : Text) : Bool :=
  (List.range (text.length + 1)).any fun i => !(r.run (Cursor.start text i)).isEmpty

/-- The longest of the first matches. -/
def regexec (r : Ere) (text : Text) : Option Cursor :=
  (List.range (text.length + 1)).findSome? fun i =>
    (r.run (Cursor.start text i)).argmax fun k => k.before.length

/-! ## The compiler -/

/-- What the next character belongs to. -/
inductive Mode where
  | normal
  | escape
  | bracket
  | first (negated : Bool)
  | inside (negated : Bool) (ranges : List (Char × Char)) (last : Char)
  | dash (negated : Bool) (ranges : List (Char × Char)) (last : Char)
  | interval (digits : Text)
deriving DecidableEq

/-- A group that is open: the alternatives that are complete, and the current one. -/
structure Frame where
  number : Nat
  alternatives : List Ere
  branch : List Ere
deriving DecidableEq

structure Compiler where
  mode : Mode
  frames : List Frame
  current : Frame
  groups : Nat
deriving DecidableEq

def Compiler.init : Compiler := ⟨.normal, [], ⟨0, [], []⟩, 0⟩

def Frame.close (f : Frame) : Ere := f.alternatives.foldr .alt (seq f.branch)

def Compiler.emit (k : Compiler) (r : Ere) : Compiler :=
  { k with mode := .normal, current := { k.current with branch := k.current.branch ++ [r] } }

/-- An operator on the last atom. -/
def Compiler.apply (k : Compiler) (f : Ere → Ere) : Option Compiler :=
  match k.current.branch.getLast? with
  | none => none
  | some r => some { k with
      mode := .normal, current := { k.current with branch := k.current.branch.dropLast ++ [f r] } }

/-- Letters, digits and the underscore, which a backslash does not make literal. -/
def isWord (c : Char) : Bool := c.isAlphanum || c == '_'

def digitsValue (digits : Text) : Option Nat :=
  if digits ≠ [] ∧ digits.all Char.isDigit then some (Nat.ofDigitChars 10 digits 0) else none

def Compiler.step (k : Compiler) (c : Char) : Option Compiler :=
  match k.mode with
  | .normal =>
    if c = '(' then some { k with
      frames := k.current :: k.frames, current := ⟨k.groups + 1, [], []⟩, groups := k.groups + 1 }
    else if c = ')' then
      match k.frames with
      | [] => none
      | f :: fs =>
        some ({ k with frames := fs, current := f }.emit (.group k.current.number k.current.close))
    else if c = '|' then some { k with current := { k.current with
      alternatives := k.current.alternatives ++ [seq k.current.branch], branch := [] } }
    else if c = '*' then k.apply .star
    else if c = '+' then k.apply plus
    else if c = '?' then k.apply opt
    else if c = '\x7b' then some { k with mode := .interval [] }
    else if c = '[' then some { k with mode := .bracket }
    else if c = '\\' then some { k with mode := .escape }
    else if c = '.' then some (k.emit .any)
    else if c = '^' then some (k.emit .bol)
    else if c = '$' then some (k.emit .eol)
    else some (k.emit (.chr c))
  | .escape =>
    if c.isDigit && c != '0' then
      if c.toNat - '0'.toNat ≤ k.groups then some (k.emit (.backref (c.toNat - '0'.toNat))) else none
    else if isWord c then none
    else some (k.emit (.chr c))
  | .bracket =>
    if c = '^' then some { k with mode := .first true }
    else if c = '[' then none
    else some { k with mode := .inside false [] c }
  | .first negated =>
    if c = '[' then none else some { k with mode := .inside negated [] c }
  | .inside negated ranges last =>
    if c = ']' then some (k.emit (.set negated (ranges ++ [(last, last)])))
    else if c = '[' then none
    else if c = '-' then some { k with mode := .dash negated ranges last }
    else some { k with mode := .inside negated (ranges ++ [(last, last)]) c }
  | .dash negated ranges last =>
    if c = ']' then some (k.emit (.set negated (ranges ++ [(last, last), ('-', '-')])))
    else if c = '[' then none
    else some { k with mode := .inside negated (ranges ++ [(last, c)]) c }
  | .interval digits =>
    if c = '\x7d' then (digitsValue digits).bind fun n => k.apply (repeated · n)
    else some { k with mode := .interval (digits ++ [c]) }

/-- `regcomp` with `REG_EXTENDED`. -/
def compile (pattern : Text) : Option Ere :=
  (pattern.foldlM Compiler.step Compiler.init).bind fun k =>
    if k.mode = .normal ∧ k.frames = [] then some k.current.close else none

/-! ## What matches -/

def Cursor.moved (k : Cursor) (u rest : Text) : Cursor :=
  { k with before := k.before ++ u, rest := rest }

theorem Cursor.moved_moved (k : Cursor) (u v rest rest' : Text) :
    (k.moved u rest).moved v rest' = k.moved (u ++ v) rest' := by
  simp [Cursor.moved]

theorem Cursor.moved_nil (k : Cursor) : k.moved [] k.rest = k := by
  simp [Cursor.moved]

theorem mem_one {p : Char → Bool} {k k' : Cursor} :
    k' ∈ one p k ↔ ∃ c rest, k.rest = c :: rest ∧ p c = true ∧ k' = k.moved [c] rest := by
  unfold one
  cases k.rest with
  | nil => simp
  | cons c rest =>
    by_cases hp : p c = true
    · simp [hp, Cursor.moved]
    · simp [hp]

theorem run_empty : run .empty = fun k => [k] := rfl

theorem run_bol_at (k : Cursor) : run .bol k = if k.before.isEmpty then [k] else [] := rfl

theorem run_backref_at (n : Nat) (k : Cursor) : run (.backref n) k =
    match k.groups.lookup n with
    | none => []
    | some u =>
      if u.isPrefixOf k.rest then [{ k with before := k.before ++ u, rest := k.rest.drop u.length }]
      else [] := rfl

theorem mem_run_cons {r : Ere} {rs : List Ere} {k k' : Cursor} :
    k' ∈ run (seq (r :: rs)) k ↔ ∃ m ∈ run r k, k' ∈ run (seq rs) m := by
  change k' ∈ (run r k).flatMap (run (seq rs)) ↔ _
  rw [List.mem_flatMap]

theorem mem_run_append {rs rs' : List Ere} {k k' : Cursor} :
    k' ∈ run (seq (rs ++ rs')) k ↔ ∃ m ∈ run (seq rs) k, k' ∈ run (seq rs') m := by
  induction rs generalizing k with
  | nil => simp [seq, run_empty]
  | cons r rs ih =>
    rw [List.cons_append, mem_run_cons]
    simp only [ih, mem_run_cons]
    constructor
    · rintro ⟨m, hm, n, hn, hk⟩
      exact ⟨n, ⟨m, hm, hn⟩, hk⟩
    · rintro ⟨n, ⟨m, hm, hn⟩, hk⟩
      exact ⟨m, hm, n, hn, hk⟩

/-- A set without intervals. -/
theorem inRanges_singles {cs : Text} {c : Char} :
    inRanges (cs.map fun a => (a, a)) c = true ↔ c ∈ cs := by
  have hsame (a : Char) : (a.val ≤ c.val && c.val ≤ a.val) = true ↔ a = c := by
    rw [Bool.and_eq_true, decide_eq_true_eq, decide_eq_true_eq, Char.ext_iff]
    exact ⟨fun h => UInt32.le_antisymm h.1 h.2, fun h => ⟨UInt32.le_of_eq h, UInt32.le_of_eq h.symm⟩⟩
  simp only [inRanges, List.any_map, List.any_eq_true, Function.comp_apply, hsame,
    exists_eq_right]

theorem run_seq_one (r : Ere) (k : Cursor) : run (seq [r]) k = run r k := by
  change (run r k).flatMap (run .empty) = run r k
  simp [run_empty]

/-- The expressions for one character, and the characters of each. -/
def accepts : Ere → Option (Char → Bool)
  | .chr c => some (· == c)
  | .any => some fun _ => true
  | .set negated ranges => some fun c => inRanges ranges c != negated
  | _ => none

theorem run_accepts {r : Ere} {p : Char → Bool} (h : r.accepts = some p) (k : Cursor) :
    run r k = one p k := by
  cases r with
  | chr c => cases h; rfl
  | any => cases h; rfl
  | set negated ranges => cases h; rfl
  | _ => cases h

/-- A character for each expression. -/
def Spells : List Ere → Text → Prop
  | [], [] => True
  | r :: rs, c :: u => (∃ p, accepts r = some p ∧ p c = true) ∧ Spells rs u
  | _, _ => False

theorem mem_run_spelled {rs : List Ere} (hrs : ∀ r ∈ rs, r.accepts.isSome = true) {k k' : Cursor} :
    k' ∈ run (seq rs) k ↔ ∃ u rest, k.rest = u ++ rest ∧ Spells rs u ∧ k' = k.moved u rest := by
  induction rs generalizing k with
  | nil =>
    simp only [seq, List.foldr_nil, run_empty, List.mem_singleton]
    constructor
    · rintro rfl
      exact ⟨[], k'.rest, rfl, trivial, k'.moved_nil.symm⟩
    · rintro ⟨u, rest, hrest, hu, rfl⟩
      cases u with
      | nil =>
        obtain rfl : k.rest = rest := hrest
        exact k.moved_nil
      | cons c u => cases hu
  | cons r rs ih =>
    obtain ⟨p, hp⟩ := Option.isSome_iff_exists.mp (hrs r (by simp))
    rw [mem_run_cons, run_accepts hp]
    simp only [mem_one, ih fun r hr => hrs r (by simp [hr])]
    constructor
    · rintro ⟨m, ⟨c, rest, hrest, hc, rfl⟩, u, rest', hu, hspells, rfl⟩
      have hu : rest = u ++ rest' := hu
      refine ⟨c :: u, rest', by rw [hrest, hu]; rfl, ⟨⟨p, hp, hc⟩, hspells⟩, ?_⟩
      rw [Cursor.moved_moved]
      rfl
    · rintro ⟨u, rest, hrest, hspells, rfl⟩
      cases u with
      | nil => cases hspells
      | cons c u =>
        obtain ⟨⟨q, hq, hc⟩, hspells⟩ := hspells
        obtain rfl : p = q := Option.some.inj (hp.symm.trans hq)
        refine ⟨k.moved [c] (u ++ rest), ⟨c, u ++ rest, hrest, hc, rfl⟩, u, rest, rfl, hspells, ?_⟩
        rw [Cursor.moved_moved]
        rfl

theorem accepts_of_mem_chrs {u : Text} {r : Ere} (hr : r ∈ u.map chr) :
    r.accepts.isSome = true := by
  obtain ⟨c, -, rfl⟩ := List.mem_map.mp hr
  rfl

theorem spells_chr {u v : Text} : Spells (u.map .chr) v ↔ v = u := by
  induction u generalizing v with
  | nil => cases v <;> simp [Spells]
  | cons c u ih =>
    cases v with
    | nil => simp [Spells]
    | cons d v =>
      have hone : (∃ p, (chr c).accepts = some p ∧ p d = true) ↔ d = c := by
        constructor
        · rintro ⟨p, hp, hd⟩
          cases hp
          exact beq_iff_eq.mp hd
        · rintro rfl
          exact ⟨_, rfl, beq_self_eq_true d⟩
      rw [List.map_cons, Spells, hone, ih, List.cons.injEq]

theorem spells_replicate {r : Ere} {p : Char → Bool} (hp : r.accepts = some p) {n : Nat} {u : Text} :
    Spells (List.replicate n r) u ↔ u.length = n ∧ ∀ c ∈ u, p c = true := by
  induction n generalizing u with
  | zero => cases u <;> simp [Spells]
  | succ n ih =>
    cases u with
    | nil => simp [Spells, List.replicate_succ]
    | cons c u =>
      simp only [Spells, List.replicate_succ, ih, hp, Option.some.injEq, exists_eq_left',
        List.length_cons, List.mem_cons, forall_eq_or_imp, Nat.add_right_cancel_iff]
      exact ⟨fun h => ⟨h.2.1, h.1, h.2.2⟩, fun h => ⟨h.2.1, h.1, h.2.2⟩⟩

theorem mem_upTo {r : Ere} {p : Char → Bool} (hp : r.accepts = some p) {n : Nat} {k k' : Cursor}
    (hn : k.rest.length ≤ n) : k' ∈ upTo (run r) n k ↔
      ∃ u rest, k.rest = u ++ rest ∧ (∀ c ∈ u, p c = true) ∧ k' = k.moved u rest := by
  induction n generalizing k with
  | zero =>
    have hnil : k.rest = [] := List.length_eq_zero_iff.mp (by omega)
    simp only [upTo, List.mem_singleton]
    constructor
    · rintro rfl
      exact ⟨[], k'.rest, rfl, by simp, k'.moved_nil.symm⟩
    · rintro ⟨u, rest, hrest, -, rfl⟩
      obtain ⟨rfl, rfl⟩ := List.append_eq_nil_iff.mp (hrest.symm.trans hnil)
      have hstay := k.moved_nil
      rwa [hnil] at hstay
  | succ n ih =>
    simp only [upTo, List.mem_cons, List.mem_flatMap, run_accepts hp, mem_one]
    constructor
    · rintro (rfl | ⟨m, ⟨c, rest, hrest, hc, rfl⟩, hk⟩)
      · exact ⟨[], k'.rest, rfl, by simp, k'.moved_nil.symm⟩
      · have hlen : (k.moved [c] rest).rest.length ≤ n := by
          have := congrArg List.length hrest
          simp only [List.length_cons] at this
          simp only [Cursor.moved]
          omega
        obtain ⟨u, rest', hu, hall, rfl⟩ := (ih hlen).mp hk
        have hu : rest = u ++ rest' := hu
        refine ⟨c :: u, rest', by rw [hrest, hu]; rfl, by simp [hc]; exact hall, ?_⟩
        rw [Cursor.moved_moved]
        rfl
    · rintro ⟨u, rest, hrest, hall, rfl⟩
      cases u with
      | nil =>
        obtain rfl : k.rest = rest := hrest
        exact .inl k.moved_nil
      | cons c u =>
        right
        refine ⟨k.moved [c] (u ++ rest), ⟨c, u ++ rest, hrest, hall c (by simp), rfl⟩, ?_⟩
        have hlen : (k.moved [c] (u ++ rest)).rest.length ≤ n := by
          have := congrArg List.length hrest
          simp only [List.cons_append, List.length_cons] at this
          simp only [Cursor.moved]
          omega
        refine (ih hlen).mpr ⟨u, rest, rfl, fun d hd => hall d (by simp [hd]), ?_⟩
        rw [Cursor.moved_moved]
        rfl

theorem mem_run_star {r : Ere} {p : Char → Bool} (hp : r.accepts = some p) {k k' : Cursor} :
    k' ∈ run (.star r) k ↔
      ∃ u rest, k.rest = u ++ rest ∧ (∀ c ∈ u, p c = true) ∧ k' = k.moved u rest :=
  mem_upTo hp (Nat.le_refl _)

theorem mem_run_opt {r : Ere} {k k' : Cursor} : k' ∈ run (opt r) k ↔ k' ∈ run r k ∨ k' = k := by
  simp [opt, run]

theorem mem_run_plus {r : Ere} {p : Char → Bool} (hp : r.accepts = some p) {k k' : Cursor} :
    k' ∈ run (plus r) k ↔ ∃ u rest,
      k.rest = u ++ rest ∧ u ≠ [] ∧ (∀ c ∈ u, p c = true) ∧ k' = k.moved u rest := by
  change k' ∈ (run r k).flatMap (run (.star r)) ↔ _
  simp only [List.mem_flatMap, run_accepts hp, mem_one, mem_run_star hp]
  constructor
  · rintro ⟨m, ⟨c, rest, hrest, hc, rfl⟩, u, rest', hu, hall, rfl⟩
    have hu : rest = u ++ rest' := hu
    refine ⟨c :: u, rest', by rw [hrest, hu]; rfl, by simp, by simp [hc]; exact hall, ?_⟩
    rw [Cursor.moved_moved]
    rfl
  · rintro ⟨u, rest, hrest, hne, hall, rfl⟩
    obtain ⟨c, u, rfl⟩ := List.exists_cons_of_ne_nil hne
    refine ⟨k.moved [c] (u ++ rest), ⟨c, u ++ rest, hrest, hall c (by simp), rfl⟩, u, rest, rfl,
      fun d hd => hall d (by simp [hd]), ?_⟩
    rw [Cursor.moved_moved]
    rfl

theorem mem_run_eol {k k' : Cursor} : k' ∈ run .eol k ↔ k.rest = [] ∧ k' = k := by
  change k' ∈ (if k.rest.isEmpty then [k] else []) ↔ _
  cases k.rest with
  | nil => simp
  | cons c rest => simp

theorem mem_run_chr {c : Char} {k k' : Cursor} :
    k' ∈ run (.chr c) k ↔ ∃ rest, k.rest = c :: rest ∧ k' = k.moved [c] rest := by
  change k' ∈ one (· == c) k ↔ _
  rw [mem_one]
  simp only [beq_iff_eq]
  constructor
  · rintro ⟨d, rest, hrest, rfl, rfl⟩
    exact ⟨rest, hrest, rfl⟩
  · rintro ⟨rest, hrest, rfl⟩
    exact ⟨c, rest, hrest, rfl, rfl⟩

def Cursor.bound (k : Cursor) (n : Nat) (u : Text) : Cursor := { k with groups := (n, u) :: k.groups }

theorem mem_run_group {n : Nat} {r : Ere} {k k' : Cursor} :
    k' ∈ run (.group n r) k ↔
      ∃ m ∈ run r k, k' = m.bound n (m.before.drop k.before.length) := by
  change k' ∈ (run r k).map _ ↔ _
  rw [List.mem_map]
  simp only [eq_comm, Cursor.bound]

theorem mem_run_backref {n : Nat} {k k' : Cursor} {u : Text} (hu : k.groups.lookup n = some u) :
    k' ∈ run (.backref n) k ↔ ∃ rest, k.rest = u ++ rest ∧ k' = k.moved u rest := by
  rw [run_backref_at, hu]
  simp only
  by_cases hpre : u <+: k.rest
  · obtain ⟨rest, hrest⟩ := hpre
    rw [if_pos (List.isPrefixOf_iff_prefix.mpr ⟨rest, hrest⟩), List.mem_singleton, ← hrest]
    simp only [List.drop_left, List.append_cancel_left_eq, exists_eq_left']
    rfl
  · rw [if_neg fun h => hpre (List.isPrefixOf_iff_prefix.mp h)]
    simp only [List.not_mem_nil, false_iff]
    rintro ⟨rest, hrest, -⟩
    exact hpre ⟨rest, hrest.symm⟩

theorem one_text {p : Char → Bool} {k k' : Cursor} (h : k' ∈ one p k) :
    k'.before ++ k'.rest = k.before ++ k.rest := by
  obtain ⟨c, rest, hrest, -, rfl⟩ := mem_one.mp h
  simp [Cursor.moved, hrest]

theorem upTo_text {f : Cursor → List Cursor}
    (hf : ∀ k k', k' ∈ f k → k'.before ++ k'.rest = k.before ++ k.rest) {n : Nat} {k k' : Cursor}
    (h : k' ∈ upTo f n k) : k'.before ++ k'.rest = k.before ++ k.rest := by
  induction n generalizing k with
  | zero => rw [List.mem_singleton.mp h]
  | succ n ih =>
    obtain rfl | ⟨m, hm, hk'⟩ := by simpa only [upTo, List.mem_cons, List.mem_flatMap] using h
    · rfl
    · exact (ih hk').trans (hf k m hm)

/-- A cursor stays on its text. -/
theorem run_text {r : Ere} {k k' : Cursor} (h : k' ∈ run r k) :
    k'.before ++ k'.rest = k.before ++ k.rest := by
  induction r generalizing k k' with
  | empty => rw [List.mem_singleton.mp h]
  | chr c => exact one_text h
  | any => exact one_text h
  | set negated ranges => exact one_text h
  | bol =>
    rw [run_bol_at] at h
    split at h
    · rw [List.mem_singleton.mp h]
    · cases h
  | eol => rw [(mem_run_eol.mp h).2]
  | cat r s ihr ihs =>
    obtain ⟨m, hm, hk'⟩ := List.mem_flatMap.mp h
    exact (ihs hk').trans (ihr hm)
  | alt r s ihr ihs =>
    obtain hr | hs := List.mem_append.mp h
    · exact ihr hr
    · exact ihs hs
  | star r ih => exact upTo_text (fun k k' hk' => ih hk') h
  | group n r ih =>
    obtain ⟨m, hm, hk'⟩ := mem_run_group.mp h
    rw [hk']
    change m.before ++ m.rest = k.before ++ k.rest
    exact ih hm
  | backref n =>
    rw [run_backref_at] at h
    split at h
    · cases h
    · rename_i u hu
      split at h
      · rename_i hpre
        obtain ⟨rest, hrest⟩ := List.isPrefixOf_iff_prefix.mp hpre
        rw [List.mem_singleton.mp h, ← hrest]
        simp
      · cases h

/-- What a group of this number stands around. -/
def groupsOf (n : Nat) : Ere → List Ere
  | .cat r s => groupsOf n r ++ groupsOf n s
  | .alt r s => groupsOf n r ++ groupsOf n s
  | .star r => groupsOf n r
  | .group m r => if m = n then r :: groupsOf n r else groupsOf n r
  | _ => []

theorem upTo_groups {f : Cursor → List Cursor} {P : Nat × Text → Prop}
    (hf : ∀ k k', k' ∈ f k → ∀ g ∈ k'.groups, g ∈ k.groups ∨ P g) {n : Nat} {k k' : Cursor}
    (h : k' ∈ upTo f n k) : ∀ g ∈ k'.groups, g ∈ k.groups ∨ P g := by
  intro g hg
  induction n generalizing k with
  | zero =>
    rw [List.mem_singleton.mp h] at hg
    exact .inl hg
  | succ n ih =>
    obtain rfl | ⟨m, hm, hk'⟩ := by simpa only [upTo, List.mem_cons, List.mem_flatMap] using h
    · exact .inl hg
    · obtain hmem | hp := ih hk'
      · exact hf k m hm g hmem
      · exact .inr hp

/-- A match of one of the expressions. -/
def IsMatch (rs : List Ere) (u : Text) : Prop :=
  ∃ r ∈ rs, ∃ k, ∃ k' ∈ run r k, u = k'.before.drop k.before.length

theorem IsMatch.mono {rs rs' : List Ere} {u : Text} (hsub : rs ⊆ rs') (h : IsMatch rs u) :
    IsMatch rs' u := by
  obtain ⟨r, hr, hmatch⟩ := h
  exact ⟨r, hsub hr, hmatch⟩

theorem one_groups {p : Char → Bool} {k k' : Cursor} (h : k' ∈ one p k) : k'.groups = k.groups := by
  obtain ⟨c, rest, -, -, rfl⟩ := mem_one.mp h
  rfl

/-- What a group has matched is a match of what the group stands around. -/
theorem run_groups {r : Ere} {n : Nat} {k k' : Cursor} (h : k' ∈ run r k) :
    ∀ g ∈ k'.groups, g ∈ k.groups ∨ (g.1 = n → IsMatch (groupsOf n r) g.2) := by
  induction r generalizing k k' with
  | empty =>
    rw [List.mem_singleton.mp h]
    exact fun g hg => .inl hg
  | chr c =>
    rw [one_groups h]
    exact fun g hg => .inl hg
  | any =>
    rw [one_groups h]
    exact fun g hg => .inl hg
  | set negated ranges =>
    rw [one_groups h]
    exact fun g hg => .inl hg
  | bol =>
    rw [run_bol_at] at h
    split at h
    · rw [List.mem_singleton.mp h]
      exact fun g hg => .inl hg
    · cases h
  | eol =>
    rw [(mem_run_eol.mp h).2]
    exact fun g hg => .inl hg
  | cat r s ihr ihs =>
    intro g hg
    obtain ⟨m, hm, hk'⟩ := List.mem_flatMap.mp h
    obtain hmem | hs := ihs hk' g hg
    · obtain hmem | hr := ihr hm g hmem
      · exact .inl hmem
      · exact .inr fun hn => (hr hn).mono (List.subset_append_left _ _)
    · exact .inr fun hn => (hs hn).mono (List.subset_append_right _ _)
  | alt r s ihr ihs =>
    intro g hg
    obtain hr | hs := List.mem_append.mp h
    · exact (ihr hr g hg).imp_right fun hr hn => (hr hn).mono (List.subset_append_left _ _)
    · exact (ihs hs g hg).imp_right fun hs hn => (hs hn).mono (List.subset_append_right _ _)
  | star r ih => exact upTo_groups (fun k k' hk' => ih hk') h
  | group m r ih =>
    intro g hg
    obtain ⟨k'', hk'', rfl⟩ := mem_run_group.mp h
    obtain rfl | hg := List.mem_cons.mp hg
    · refine .inr fun hn => ⟨r, ?_, k, k'', hk'', rfl⟩
      rw [groupsOf, if_pos hn]
      exact List.mem_cons_self
    · refine (ih hk'' g hg).imp_right fun hr hn => (hr hn).mono ?_
      rw [groupsOf]
      split
      · exact List.subset_cons_self _ _
      · exact fun _ => id
  | backref m =>
    rw [run_backref_at] at h
    split at h
    · cases h
    · split at h
      · rw [List.mem_singleton.mp h]
        exact fun g hg => .inl hg
      · cases h

/-- A pattern that is anchored at the start. -/
theorem run_bol (rs : List Ere) {text : Text} {i : Nat} (hi : i ≤ text.length) :
    run (seq (.bol :: rs)) (Cursor.start text i) =
      if i = 0 then run (seq rs) ⟨[], text, []⟩ else [] := by
  change (run .bol (Cursor.start text i)).flatMap (run (seq rs)) = _
  cases i with
  | zero => simp [run_bol_at, Cursor.start]
  | succ i =>
    have hne : (text.take (i + 1)).isEmpty = false := by
      cases text with
      | nil => simp at hi
      | cons c text => rfl
    have hbol : run .bol (Cursor.start text (i + 1)) = [] := by
      rw [run_bol_at, Cursor.start, hne]
      rfl
    rw [hbol, if_neg (by omega)]
    rfl

theorem found_bol {rs : List Ere} {text : Text} :
    found (seq (.bol :: rs)) text = true ↔ ∃ k', k' ∈ run (seq rs) ⟨[], text, []⟩ := by
  rw [found, List.any_eq_true]
  constructor
  · rintro ⟨i, hi, hmatch⟩
    rw [run_bol rs (Nat.le_of_lt_succ (List.mem_range.mp hi))] at hmatch
    split at hmatch
    · exact List.exists_mem_of_ne_nil _ (by simpa using hmatch)
    · simp at hmatch
  · rintro ⟨k', hk'⟩
    refine ⟨0, by simp, ?_⟩
    rw [run_bol rs (Nat.zero_le _), if_pos rfl]
    have hne := List.ne_nil_of_mem hk'
    simpa using hne

theorem regexec_none {r : Ere} {text : Text} (h : regexec r text = none) :
    found r text = false := by
  rw [regexec, List.findSome?_eq_none_iff] at h
  rw [found, List.any_eq_false]
  intro i hi
  rw [List.argmax_eq_none.mp (h i hi)]
  simp

theorem regexec_some {r : Ere} {text : Text} {k : Cursor} (h : regexec r text = some k) :
    ∃ i ≤ text.length, k ∈ run r (Cursor.start text i) := by
  obtain ⟨i, hi, hk⟩ := List.exists_of_findSome?_eq_some h
  exact ⟨i, Nat.le_of_lt_succ (List.mem_range.mp hi), List.argmax_mem hk⟩

/-! ## What compiles -/

def operators : Text := ['(', ')', '|', '*', '+', '?', '\x7b', '[', '\\', '.', '^', '$']

/-- What the pattern of one character stands for. -/
def atom (c : Char) : Ere := if c = '.' then .any else .chr c

def Compiler.emits (k : Compiler) (rs : List Ere) : Compiler :=
  { k with current := { k.current with branch := k.current.branch ++ rs } }

@[simp] theorem Compiler.emits_nil (k : Compiler) : k.emits [] = k := by
  simp [Compiler.emits]

@[simp] theorem Compiler.emits_emits (k : Compiler) (rs rs' : List Ere) :
    (k.emits rs).emits rs' = k.emits (rs ++ rs') := by
  simp [Compiler.emits]

@[simp] theorem Compiler.emits_mode (k : Compiler) (rs : List Ere) : (k.emits rs).mode = k.mode := rfl

theorem Compiler.emit_eq {k : Compiler} (h : k.mode = .normal) (r : Ere) : k.emit r = k.emits [r] := by
  obtain ⟨mode, frames, current, groups⟩ := k
  obtain rfl : mode = .normal := h
  rfl

theorem Compiler.apply_emits {k : Compiler} (h : k.mode = .normal) (rs : List Ere) (r : Ere)
    (f : Ere → Ere) : (k.emits (rs ++ [r])).apply f = some (k.emits (rs ++ [f r])) := by
  obtain ⟨mode, frames, current, groups⟩ := k
  obtain rfl : mode = .normal := h
  simp [Compiler.apply, Compiler.emits, List.getLast?_append]

theorem step_atom {k : Compiler} (h : k.mode = .normal) {c : Char}
    (hc : c ∈ operators → c = '.') : k.step c = some (k.emits [atom c]) := by
  rw [← Compiler.emit_eq h]
  simp only [operators, List.mem_cons, List.not_mem_nil, or_false] at hc
  simp only [Compiler.step, h, atom]
  grind

/-- A text without operators, dots apart. -/
theorem foldlM_atoms {k : Compiler} (h : k.mode = .normal) {u : Text}
    (hu : ∀ c ∈ u, c ∈ operators → c = '.') :
    u.foldlM Compiler.step k = some (k.emits (u.map atom)) := by
  induction u generalizing k with
  | nil => simp
  | cons c u ih =>
    rw [List.foldlM_cons, step_atom h (hu c (by simp))]
    change u.foldlM Compiler.step (k.emits [atom c]) = _
    rw [@ih (k.emits [atom c]) h fun d hd => hu d (by simp [hd])]
    simp

theorem step_escaped {k : Compiler} (h : k.mode = .normal) {c : Char} (hc : isWord c = false) :
    ['\\', c].foldlM Compiler.step k = some (k.emits [.chr c]) := by
  have hdigit : c.isDigit = false := by
    simp only [isWord, Char.isAlphanum, Bool.or_eq_false_iff] at hc
    exact hc.1.2
  obtain ⟨mode, frames, current, groups⟩ := k
  obtain rfl : mode = .normal := h
  simp [Compiler.step, hc, hdigit, Compiler.emit, Compiler.emits]

end Ere

end Jive5ab.Lib
