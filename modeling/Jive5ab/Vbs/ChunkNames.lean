import Mathlib.Data.List.TakeWhile
import Jive5ab.Lib.Ere

/-! # The names of the chunks

`VBSNamer` gives each chunk its name, and `scanChunkFinder` finds the chunks of a recording by two
regular expressions that are made from its name. -/
namespace Jive5ab.Vbs.ChunkNames
open Lib Ere

/-! ## The namer -/

/-- `format("%08u", n)` -/
def format08 (n : UInt32) : Text :=
  let digits := Nat.toDigits 10 n.toNat
  List.replicate (8 - digits.length) '0' ++ digits

def ds : Text := ['_', 'd', 's']

inductive SuffixSource where
  | noSuffix
  | dataStreamSuffix (streamid2name : UInt32 → Text)
  | netPortSuffix (suffixmap : UInt32 → Option Text)

def SuffixSource.call (tag : UInt32) : SuffixSource → Except String (Option Text)
  | .noSuffix => .ok none
  | .dataStreamSuffix streamid2name =>
    if streamid2name tag = [] then .error s!"No suffix found for data stream#{tag}\n"
    else .ok (some (streamid2name tag))
  | .netPortSuffix suffixmap =>
    match suffixmap tag with
    | none => .error s!"Failure trying to find net_port suffix for stream#{tag}"
    | some suffix => .ok (some suffix)

/-- The suffix is what a source gives after its `_ds`. -/
def withSuffix (recname : Text) : Option Text → Text
  | none => recname
  | some suffix => recname ++ ds ++ suffix

structure BsnEntry where
  blockSeqNr : UInt32
  baseName : Text

structure VbsNamer where
  suffixSource : SuffixSource
  recname : Text
  bsnMap : UInt32 → Option BsnEntry

/-- `VBSNamer::operator()` on an item with this tag: the name of the file, and its number. -/
def VbsNamer.call (namer : VbsNamer) (tag : UInt32) : Except String ((Text × UInt32) × VbsNamer) := do
  let entry ← match namer.bsnMap tag with
    | some entry => pure entry
    | none => do
      let suffix ← namer.suffixSource.call tag
      let name := withSuffix namer.recname suffix
      pure ⟨0, name ++ ['/'] ++ name ++ ['.']⟩
  let bsnMap t := if t = tag then some { entry with blockSeqNr := entry.blockSeqNr + 1 }
    else namer.bsnMap t
  return ((entry.baseName ++ format08 entry.blockSeqNr, entry.blockSeqNr),
    { namer with bsnMap := bsnMap })

def VbsNamer.start (suffixSource : SuffixSource) (recname : Text) : VbsNamer :=
  ⟨suffixSource, recname, fun _ => none⟩

/-- The items of a recording, one after another. -/
def VbsNamer.calls (namer : VbsNamer) : List UInt32 → Except String (List (Text × UInt32) × VbsNamer)
  | [] => .ok ([], namer)
  | tag :: tags => do
    let (file, namer) ← namer.call tag
    let (files, namer) ← namer.calls tags
    return (file :: files, namer)

/-! ## The finder -/

def alphanumStr : Text := "_abcdefghijklmnopqrstuvwxyzABCDEFGHIJKLMNOPQRSTUVWXYZ01234567890".toList

def escape (s : Text) : Text := s.flatMap fun c => if c ∈ alphanumStr then [c] else ['\\', c]

/-- `name.find("_ds")!=string::npos` -/
def namesStream (name : Text) : Bool := decide (ds <:+: name)

/-- Any suffix, if the name is not that of one stream. -/
def streamPattern (name : Text) : Text :=
  if namesStream name then [] else "(_ds[^_\\.]+)?".toList

def recordingPattern (recname : Text) : Text :=
  '^' :: (escape recname ++ (streamPattern recname ++ ['$']))

def scanChunkPattern (scan : Text) : Text :=
  "^.*/(".toList ++ (scan ++ (streamPattern scan ++ ")/\\1\\.[0-9]\x7b8\x7d$".toList))

/-- A pattern that does not compile throws. -/
def matches? (pattern text : Text) : Bool := (compile pattern).any fun r => r.found text

def isRecording (recname entry : Text) : Bool := matches? (recordingPattern recname) entry

def isScanChunk (scan path : Text) : Bool := matches? (scanChunkPattern scan) path

/-- The directory of a file that is in a directory of the mountpoint, and the file. -/
def placed (path : Text) : Option (Text × List Text) :=
  match path.dropWhile (· ≠ '/') with
  | [] => none
  | _ :: file => if '/' ∈ file then none else some (path.takeWhile (· ≠ '/'), [file])

/-- What `opendir` sees, where these are the paths of the regular files on a mountpoint. -/
def listing (paths : List Text) : List (Text × List Text) := paths.filterMap placed

/-- The paths on a mountpoint, given its directories and the regular files in each. -/
def scanChunkFinder (mountpoint scan : Text) (dirs : List (Text × List Text)) : List Text :=
  (dirs.filter fun d => isRecording scan d.1).flatMap fun d =>
    (d.2.map fun file => mountpoint ++ '/' :: (d.1 ++ '/' :: file)).filter (isScanChunk scan)

/-! ## What the two expressions are -/

/-- One character or more, none of which is a `_`, a backslash or a dot. -/
def suffixEre : Ere :=
  seq [.chr '_', .chr 'd', .chr 's',
    plus (.set true [('_', '_'), ('\\', '\\'), ('.', '.')])]

def streamAtoms (n : Nat) (name : Text) : List Ere :=
  if namesStream name then [] else [opt (.group n suffixEre)]

theorem alphanumStr_eq : alphanumStr =
    ['_', 'a', 'b', 'c', 'd', 'e', 'f', 'g', 'h', 'i', 'j', 'k', 'l', 'm', 'n', 'o', 'p', 'q', 'r',
      's', 't', 'u', 'v', 'w', 'x', 'y', 'z', 'A', 'B', 'C', 'D', 'E', 'F', 'G', 'H', 'I', 'J', 'K',
      'L', 'M', 'N', 'O', 'P', 'Q', 'R', 'S', 'T', 'U', 'V', 'W', 'X', 'Y', 'Z', '0', '1', '2', '3',
      '4', '5', '6', '7', '8', '9', '0'] :=
  String.toList_ofList

theorem map_toNat_alphanumStr : alphanumStr.map Char.toNat =
    [95] ++ List.range' 97 26 ++ List.range' 65 26 ++ List.range' 48 10 ++ [48] := by
  rw [alphanumStr_eq]
  rfl

theorem mem_alphanumStr {c : Char} (h : isWord c = true) : c ∈ alphanumStr := by
  have hcode : c.toNat ∈ alphanumStr.map Char.toNat := by
    rw [map_toNat_alphanumStr]
    simp only [List.mem_append, List.mem_range'_1, List.mem_singleton]
    obtain halnum | rfl : c.isAlphanum = true ∨ c = '_' := by
      simpa only [isWord, Bool.or_eq_true, beq_iff_eq] using h
    · simp only [Char.isAlphanum, Char.isAlpha, Char.isUpper, Char.isLower, Char.isDigit,
        Bool.or_eq_true, Bool.and_eq_true, decide_eq_true_eq, UInt32.le_iff_toNat_le] at halnum
      simp only [Char.toNat]
      grind
    · decide
  obtain ⟨d, hd, hcd⟩ := List.mem_map.mp hcode
  rwa [← Char.toNat_inj.mp hcd]

theorem foldlM_escape {k : Compiler} (h : k.mode = .normal) (name : Text) :
    (escape name).foldlM Compiler.step k = some (k.emits (name.map .chr)) := by
  induction name generalizing k with
  | nil => simp [escape]
  | cons c name ih =>
    have hone : (if c ∈ alphanumStr then [c] else ['\\', c]).foldlM Compiler.step k =
        some (k.emits [.chr c]) := by
      by_cases hc : c ∈ alphanumStr
      · have hplain : c ∉ operators ∧ c ≠ '.' := by
          have hall : alphanumStr.all fun c => decide (c ∉ operators ∧ c ≠ '.') := by
            rw [alphanumStr_eq]
            decide
          exact of_decide_eq_true (List.all_eq_true.mp hall c hc)
        rw [if_pos hc, List.foldlM_cons, step_atom h fun hop => absurd hop hplain.1, atom,
          if_neg hplain.2]
        rfl
      · rw [if_neg hc]
        exact step_escaped h (Bool.eq_false_iff.mpr (mt mem_alphanumStr hc))
    rw [escape, List.flatMap_cons, List.foldlM_append, hone]
    change (escape name).foldlM Compiler.step (k.emits [.chr c]) = _
    rw [@ih (k.emits [.chr c]) h]
    simp

theorem foldlM_streamPattern (frames : List Frame) (f : Frame) (g : Nat) (name : Text) :
    (streamPattern name).foldlM Compiler.step ⟨.normal, frames, f, g⟩ =
      some ({ (⟨.normal, frames, f, g⟩ : Compiler) with
        groups := if namesStream name then g else g + 1 }.emits (streamAtoms (g + 1) name)) := by
  cases hname : namesStream name with
  | true => simp [streamPattern, streamAtoms, hname]
  | false =>
    have hsplit : streamPattern name = "(_ds[^_\\.]+)".toList ++ ['?'] := by
      rw [streamPattern, hname]
      rfl
    have hgroup : "(_ds[^_\\.]+)".toList.foldlM Compiler.step ⟨.normal, frames, f, g⟩ =
        some ((⟨.normal, frames, f, g + 1⟩ : Compiler).emits ([] ++ [.group (g + 1) suffixEre])) := rfl
    have hopt := @Compiler.apply_emits ⟨.normal, frames, f, g + 1⟩ rfl []
      (.group (g + 1) suffixEre) opt
    rw [hsplit, List.foldlM_append, hgroup, streamAtoms, hname]
    exact (Option.bind_fun_some _).trans hopt

theorem compile_recordingPattern (recname : Text) :
    compile (recordingPattern recname) =
      some (seq (.bol :: (recname.map .chr ++ (streamAtoms 1 recname ++ [.eol])))) := by
  have hfold : (recordingPattern recname).foldlM Compiler.step .init =
      some ⟨.normal, [], ⟨0, [], [.bol] ++ recname.map .chr ++ streamAtoms 1 recname ++ [.eol]⟩,
        if namesStream recname then 0 else 1⟩ := by
    change (escape recname ++ (streamPattern recname ++ ['$'])).foldlM Compiler.step
      ⟨.normal, [], ⟨0, [], [.bol]⟩, 0⟩ = _
    rw [List.foldlM_append, foldlM_escape rfl]
    change (streamPattern recname ++ ['$']).foldlM Compiler.step
      ⟨.normal, [], ⟨0, [], [.bol] ++ recname.map .chr⟩, 0⟩ = _
    rw [List.foldlM_append, foldlM_streamPattern]
    rfl
  rw [compile, hfold]
  simp [Frame.close]

def digit : Ere := .set false [('0', '9'), ('9', '9')]

/-- After the group of the scan, its text again, a dot and the digits. -/
def scanTail : List Ere := [.chr '/', .backref 1, .chr '.', repeated digit 8, .eol]

/-- In a group, the name of the scan is what its characters make of it. -/
theorem compile_scanChunkPattern_of_fold {scan : Text} {rs : List Ere}
    (hscan : scan.foldlM Compiler.step
        ⟨.normal, [⟨0, [], [.bol, .star .any, .chr '/']⟩], ⟨1, [], []⟩, 1⟩ =
      some ⟨.normal, [⟨0, [], [.bol, .star .any, .chr '/']⟩], ⟨1, [], rs⟩, 1⟩) :
    compile (scanChunkPattern scan) =
      some (seq (.bol :: .star .any :: .chr '/' ::
        .group 1 (seq (rs ++ streamAtoms 2 scan)) :: scanTail)) := by
  have hfold : (scanChunkPattern scan).foldlM Compiler.step .init =
      some ⟨.normal, [], ⟨0, [], .bol :: .star .any :: .chr '/' ::
        .group 1 (seq (rs ++ streamAtoms 2 scan)) :: scanTail⟩,
        if namesStream scan then 1 else 2⟩ := by
    rw [scanChunkPattern, List.foldlM_append]
    change (scan ++ (streamPattern scan ++ ")/\\1\\.[0-9]\x7b8\x7d$".toList)).foldlM Compiler.step
      ⟨.normal, [⟨0, [], [.bol, .star .any, .chr '/']⟩], ⟨1, [], []⟩, 1⟩ = _
    rw [List.foldlM_append, hscan]
    change (streamPattern scan ++ ")/\\1\\.[0-9]\x7b8\x7d$".toList).foldlM Compiler.step
      ⟨.normal, [⟨0, [], [.bol, .star .any, .chr '/']⟩], ⟨1, [], rs⟩, 1⟩ = _
    rw [List.foldlM_append, foldlM_streamPattern]
    cases namesStream scan with
    | true => rfl
    | false => rfl
  rw [compile, hfold]
  simp [Frame.close]

theorem compile_scanChunkPattern {scan : Text} (hscan : ∀ c ∈ scan, c ∈ operators → c = '.') :
    compile (scanChunkPattern scan) =
      some (seq (.bol :: .star .any :: .chr '/' ::
        .group 1 (seq (scan.map atom ++ streamAtoms 2 scan)) :: scanTail)) :=
  compile_scanChunkPattern_of_fold (foldlM_atoms rfl hscan)

/-! ## What they match -/

/-- The suffixes that the finder looks for. -/
def Good (s : Text) : Prop := s ≠ [] ∧ '_' ∉ s ∧ '\\' ∉ s ∧ '.' ∉ s

instance (s : Text) : Decidable (Good s) := inferInstanceAs (Decidable (_ ∧ _))

/-- The directories that a search for `scan` goes into. -/
def Covers (scan name : Text) : Prop :=
  name = scan ∨ namesStream scan = false ∧ ∃ s, Good s ∧ name = scan ++ ds ++ s

theorem mem_run_suffixEre {k k' : Cursor} : k' ∈ run suffixEre k ↔
    ∃ s rest, k.rest = ds ++ s ++ rest ∧ Good s ∧ k' = k.moved (ds ++ s) rest := by
  have hset : (Ere.set true [('_', '_'), ('\\', '\\'), ('.', '.')]).accepts =
      some fun c => inRanges [('_', '_'), ('\\', '\\'), ('.', '.')] c != true := rfl
  have hgood (c : Char) : (inRanges [('_', '_'), ('\\', '\\'), ('.', '.')] c != true) = true ↔
      c ≠ '_' ∧ c ≠ '\\' ∧ c ≠ '.' := by
    have hin := @inRanges_singles ['_', '\\', '.'] c
    simp only [List.map_cons, List.map_nil] at hin
    rw [bne_iff_ne, ne_eq, hin]
    simp
  have hds : ∀ r ∈ ds.map Ere.chr, r.accepts.isSome = true := fun r hr => accepts_of_mem_chrs hr
  change k' ∈ run (seq (ds.map .chr ++ [plus _])) k ↔ _
  rw [mem_run_append]
  simp only [mem_run_spelled hds, spells_chr, run_seq_one, mem_run_plus hset, hgood]
  constructor
  · rintro ⟨m, ⟨u, rest, hrest, rfl, rfl⟩, s, rest', hs, hne, hall, rfl⟩
    have hs : rest = s ++ rest' := hs
    refine ⟨s, rest', by rw [hrest, hs, List.append_assoc],
      ⟨hne, fun h => (hall _ h).1 rfl, fun h => (hall _ h).2.1 rfl, fun h => (hall _ h).2.2 rfl⟩, ?_⟩
    rw [Cursor.moved_moved]
  · rintro ⟨s, rest, hrest, ⟨hne, h1, h2, h3⟩, rfl⟩
    refine ⟨k.moved ds (s ++ rest), ⟨ds, s ++ rest, by rw [hrest, List.append_assoc], rfl, rfl⟩,
      s, rest, rfl, hne, fun c hc => ⟨?_, ?_, ?_⟩, (Cursor.moved_moved ..).symm⟩
    · rintro rfl
      exact h1 hc
    · rintro rfl
      exact h2 hc
    · rintro rfl
      exact h3 hc

theorem mem_run_streamAtoms {n : Nat} {name : Text} {k k' : Cursor} :
    k' ∈ run (seq (streamAtoms n name)) k ↔ k' = k ∨ namesStream name = false ∧
      ∃ s rest, k.rest = ds ++ s ++ rest ∧ Good s ∧
        k' = (k.moved (ds ++ s) rest).bound n (ds ++ s) := by
  cases hname : namesStream name with
  | true => simp [streamAtoms, hname, seq, run]
  | false =>
    rw [streamAtoms, hname]
    simp only [Bool.false_eq_true, if_false, run_seq_one, mem_run_opt, mem_run_group,
      mem_run_suffixEre, true_and]
    constructor
    · rintro (⟨m, ⟨s, rest, hrest, hs, rfl⟩, rfl⟩ | rfl)
      · refine .inr ⟨s, rest, hrest, hs, ?_⟩
        simp [Cursor.moved]
      · exact .inl rfl
    · rintro (rfl | ⟨s, rest, hrest, hs, rfl⟩)
      · exact .inr rfl
      · refine .inl ⟨_, ⟨s, rest, hrest, hs, rfl⟩, ?_⟩
        simp [Cursor.moved]

theorem isRecording_iff (recname entry : Text) :
    isRecording recname entry = true ↔ Covers recname entry := by
  have hchr : ∀ r ∈ recname.map Ere.chr, r.accepts.isSome = true :=
    fun r hr => accepts_of_mem_chrs hr
  rw [isRecording, matches?, compile_recordingPattern]
  simp only [Option.any_some, found_bol, mem_run_append, mem_run_spelled hchr, spells_chr,
    mem_run_streamAtoms, run_seq_one, mem_run_eol]
  constructor
  · rintro ⟨k', m, ⟨u, rest, hrest, rfl, rfl⟩, m', hm', hend, rfl⟩
    have hentry : entry = u ++ rest := hrest
    obtain rfl | ⟨hname, s, rest', hs, hgood, rfl⟩ := hm'
    · obtain rfl : rest = [] := hend
      exact .inl (by simpa using hentry)
    · obtain rfl : rest' = [] := hend
      have hs : rest = ds ++ s ++ [] := hs
      exact .inr ⟨hname, s, hgood, by rw [hentry, hs]; simp⟩
  · rintro (rfl | ⟨hname, s, hgood, rfl⟩)
    · exact ⟨_, _, ⟨entry, [], by simp, rfl, rfl⟩, _, .inl rfl, rfl, rfl⟩
    · exact ⟨_, _, ⟨recname, ds ++ s, by simp, rfl, rfl⟩, _,
        .inr ⟨hname, s, [], by simp [Cursor.moved], hgood, rfl⟩, rfl, rfl⟩

theorem accepts_atom (c : Char) : ∃ p, (atom c).accepts = some p ∧ p c = true := by
  unfold atom
  split
  · exact ⟨_, rfl, rfl⟩
  · exact ⟨_, rfl, beq_self_eq_true c⟩

theorem spells_atoms (u : Text) : Spells (u.map atom) u := by
  induction u with
  | nil => trivial
  | cons c u ih => exact ⟨accepts_atom c, ih⟩

/-- The group of the scan takes a name that it covers. -/
theorem run_scan {scan name : Text} (hname : Covers scan name) (before rest : Text) :
    ∃ groups, ⟨before ++ name, rest, (1, name) :: groups⟩ ∈
      run (.group 1 (seq (scan.map atom ++ streamAtoms 2 scan))) ⟨before, name ++ rest, []⟩ := by
  have hatom : ∀ r ∈ scan.map atom, r.accepts.isSome = true := by
    intro r hr
    obtain ⟨c, -, rfl⟩ := List.mem_map.mp hr
    exact Option.isSome_iff_exists.mpr ⟨_, (accepts_atom c).choose_spec.1⟩
  obtain ⟨m, hm, hbefore, hrest⟩ : ∃ m ∈ run (seq (scan.map atom ++ streamAtoms 2 scan))
      ⟨before, name ++ rest, []⟩, m.before = before ++ name ∧ m.rest = rest := by
    simp only [mem_run_append, mem_run_spelled hatom, mem_run_streamAtoms]
    obtain rfl | ⟨hds, s, hgood, rfl⟩ := hname
    · exact ⟨_, ⟨_, ⟨name, rest, rfl, spells_atoms name, rfl⟩, .inl rfl⟩, rfl, rfl⟩
    · refine ⟨_, ⟨_, ⟨scan, ds ++ s ++ rest, by simp, spells_atoms scan, rfl⟩,
        .inr ⟨hds, s, rest, rfl, hgood, rfl⟩⟩, ?_, rfl⟩
      simp [Cursor.bound, Cursor.moved]
  refine ⟨m.groups, mem_run_group.mpr ⟨m, hm, ?_⟩⟩
  simp [Cursor.bound, hbefore, ← hrest]

theorem accepts_digit : digit.accepts = some fun c => inRanges [('0', '9'), ('9', '9')] c != false :=
  rfl

theorem mem_run_digits {k k' : Cursor} : k' ∈ run (repeated digit 8) k ↔ ∃ u rest,
    k.rest = u ++ rest ∧ (u.length = 8 ∧ ∀ c ∈ u, c.isDigit = true) ∧ k' = k.moved u rest := by
  have hdigit : ∀ r ∈ List.replicate 8 digit, r.accepts.isSome = true := by
    intro r hr
    rw [List.eq_of_mem_replicate hr]
    rfl
  have hrange (c : Char) :
      (inRanges [('0', '9'), ('9', '9')] c != false) = true ↔ c.isDigit = true := by
    have hnine (h : '9'.val ≤ c.val) : '0'.val ≤ c.val := UInt32.le_trans (by decide) h
    simp only [inRanges, List.any_cons, List.any_nil, Bool.or_false, Bool.bne_false, Bool.or_eq_true,
      Bool.and_eq_true, decide_eq_true_eq, Char.isDigit]
    exact ⟨fun h => h.elim id fun h => ⟨hnine h.1, h.2⟩, Or.inl⟩
  rw [repeated, mem_run_spelled hdigit]
  simp only [spells_replicate accepts_digit, hrange]

theorem isScanChunk_covered {scan name : Text} (hscan : ∀ c ∈ scan, c ∈ operators → c = '.')
    (hname : Covers scan name) {digits : Text} (hlen : digits.length = 8)
    (hdigits : ∀ c ∈ digits, c.isDigit = true) (mountpoint : Text) :
    isScanChunk scan (mountpoint ++ '/' :: (name ++ '/' :: (name ++ '.' :: digits))) = true := by
  obtain ⟨groups, hgroup⟩ := run_scan hname (mountpoint ++ ['/']) ('/' :: (name ++ '.' :: digits))
  rw [isScanChunk, matches?, compile_scanChunkPattern hscan, Option.any_some, found_bol]
  have hstar : (Cursor.mk [] (mountpoint ++ '/' :: (name ++ '/' :: (name ++ '.' :: digits))) []).moved
      mountpoint ('/' :: (name ++ '/' :: (name ++ '.' :: digits))) ∈ run (.star .any) _ :=
    (@mem_run_star .any _ rfl _ _).mpr ⟨mountpoint, _, rfl, fun _ _ => rfl, rfl⟩
  refine ⟨_, mem_run_cons.mpr ⟨_, hstar, mem_run_cons.mpr ⟨_, mem_run_chr.mpr ⟨_, rfl, rfl⟩,
    mem_run_cons.mpr ⟨_, hgroup, mem_run_cons.mpr ⟨_, mem_run_chr.mpr ⟨_, rfl, rfl⟩,
    mem_run_cons.mpr ⟨_, (mem_run_backref rfl).mpr ⟨_, rfl, rfl⟩,
    mem_run_cons.mpr ⟨_, mem_run_chr.mpr ⟨_, rfl, rfl⟩,
    mem_run_cons.mpr ⟨_, mem_run_digits.mpr ⟨digits, [], by simp [Cursor.moved], ⟨hlen, hdigits⟩, rfl⟩,
    mem_run_cons.mpr ⟨_, mem_run_eol.mpr ⟨rfl, rfl⟩, List.mem_singleton_self _⟩⟩⟩⟩⟩⟩⟩⟩⟩

theorem isScanChunk_digits {scan path : Text} (hscan : ∀ c ∈ scan, c ∈ operators → c = '.')
    (h : isScanChunk scan path = true) : ∃ front digits : Text,
      path = front ++ '.' :: digits ∧ digits.length = 8 := by
  rw [isScanChunk, matches?, compile_scanChunkPattern hscan, Option.any_some, found_bol] at h
  obtain ⟨k, hk⟩ := h
  have hsplit : seq (.star .any :: .chr '/' :: .group 1 (seq (scan.map atom ++ streamAtoms 2 scan)) ::
      scanTail) = seq ([.star .any, .chr '/', .group 1 (seq (scan.map atom ++ streamAtoms 2 scan)),
      .chr '/', .backref 1] ++ [.chr '.', repeated digit 8, .eol]) := rfl
  rw [hsplit, mem_run_append] at hk
  obtain ⟨m, hm, hk⟩ := hk
  simp only [mem_run_cons, mem_run_chr, mem_run_digits, run_seq_one, mem_run_eol] at hk
  obtain ⟨-, ⟨rest, hdot, rfl⟩, -, ⟨digits, rest', hdigits, ⟨hlen, -⟩, rfl⟩, hend, -⟩ := hk
  obtain rfl : rest' = [] := hend
  have hdigits : rest = digits ++ [] := hdigits
  have htext : m.before ++ m.rest = path := run_text hm
  rw [hdot, hdigits, List.append_nil] at htext
  exact ⟨m.before, digits, htext.symm, hlen⟩

/-! ## What the namer forms -/

structure Chunk where
  recname : Text
  suffix : Option Text
  blockSeqNr : UInt32

def Chunk.name (c : Chunk) : Text := withSuffix c.recname c.suffix

def Chunk.file (c : Chunk) : Text := c.name ++ '.' :: format08 c.blockSeqNr

def Chunk.path (c : Chunk) : Text := c.name ++ '/' :: c.file

/-- Every base name is made from the recording and the suffix of its tag. -/
def VbsNamer.Named (namer : VbsNamer) : Prop :=
  ∀ tag entry, namer.bsnMap tag = some entry → ∃ suffix, namer.suffixSource.call tag = .ok suffix ∧
    entry.baseName = withSuffix namer.recname suffix ++
      ['/'] ++ withSuffix namer.recname suffix ++ ['.']

theorem call_spec {namer namer' : VbsNamer} {tag nr : UInt32} {path : Text} (hnamed : namer.Named)
    (hcall : namer.call tag = .ok ((path, nr), namer')) :
    ∃ suffix, namer.suffixSource.call tag = .ok suffix ∧
      path = (Chunk.mk namer.recname suffix nr).path ∧
      nr = ((namer.bsnMap tag).map BsnEntry.blockSeqNr).getD 0 ∧
      namer'.suffixSource = namer.suffixSource ∧ namer'.recname = namer.recname ∧
      namer'.bsnMap tag = some ⟨nr + 1, withSuffix namer.recname suffix ++
        ['/'] ++ withSuffix namer.recname suffix ++ ['.']⟩ ∧
      ∀ t, t ≠ tag → namer'.bsnMap t = namer.bsnMap t := by
  unfold VbsNamer.call at hcall
  cases hentry : namer.bsnMap tag with
  | some entry =>
    obtain ⟨suffix, hsuffix, hbase⟩ := hnamed tag entry hentry
    rw [hentry] at hcall
    cases hcall
    refine ⟨suffix, hsuffix, ?_, rfl, rfl, rfl, ?_, fun t ht => if_neg ht⟩
    · simp [hbase, Chunk.path, Chunk.file, Chunk.name]
    · simp only [if_pos, ← hbase]
  | none =>
    rw [hentry] at hcall
    cases hsuffix : namer.suffixSource.call tag with
    | error e =>
      rw [hsuffix] at hcall
      cases hcall
    | ok suffix =>
      rw [hsuffix] at hcall
      cases hcall
      refine ⟨suffix, rfl, ?_, rfl, rfl, rfl, ?_, fun t ht => if_neg ht⟩
      · simp [Chunk.path, Chunk.file, Chunk.name]
      · simp

theorem Named.call {namer namer' : VbsNamer} {tag nr : UInt32} {path : Text} (hnamed : namer.Named)
    (hcall : namer.call tag = .ok ((path, nr), namer')) : namer'.Named := by
  obtain ⟨suffix, hsuffix, -, -, hsource, hrecname, hself, hother⟩ := call_spec hnamed hcall
  intro t entry hentry
  rw [hsource, hrecname]
  by_cases ht : t = tag
  · subst ht
    obtain rfl := Option.some.inj (hself.symm.trans hentry)
    exact ⟨suffix, hsuffix, rfl⟩
  · exact hnamed t entry ((hother t ht).symm.trans hentry)

theorem calls_cons {namer namer' : VbsNamer} {tag : UInt32} {tags : List UInt32}
    {files : List (Text × UInt32)} (h : namer.calls (tag :: tags) = .ok (files, namer')) :
    ∃ file mid rest, namer.call tag = .ok (file, mid) ∧ mid.calls tags = .ok (rest, namer') ∧
      files = file :: rest := by
  simp only [VbsNamer.calls, bind, Except.bind] at h
  cases hcall : namer.call tag with
  | error e =>
    rw [hcall] at h
    cases h
  | ok done =>
    obtain ⟨file, mid⟩ := done
    rw [hcall] at h
    cases hrest : mid.calls tags with
    | error e =>
      simp only [hrest] at h
      cases h
    | ok done =>
      obtain ⟨rest, last⟩ := done
      simp only [hrest, pure, Except.pure, Except.ok.injEq, Prod.mk.injEq] at h
      obtain ⟨rfl, rfl⟩ := h
      exact ⟨file, mid, rest, rfl, hrest, rfl⟩

/-- The files of a run are chunks of the recording. -/
theorem calls_files {namer namer' : VbsNamer} (hnamed : namer.Named) {tags : List UInt32}
    {files : List (Text × UInt32)} (h : namer.calls tags = .ok (files, namer')) :
    ∀ file ∈ files, ∃ tag ∈ tags, ∃ suffix, namer.suffixSource.call tag = .ok suffix ∧
      file.1 = (Chunk.mk namer.recname suffix file.2).path := by
  induction tags generalizing namer files with
  | nil =>
    cases h
    simp
  | cons tag tags ih =>
    obtain ⟨⟨path, nr⟩, mid, rest, hcall, hrest, rfl⟩ := calls_cons h
    obtain ⟨suffix, hsuffix, hpath, -, hsource, hrecname, -, -⟩ := call_spec hnamed hcall
    intro file hfile
    obtain rfl | hfile := List.mem_cons.mp hfile
    · exact ⟨tag, by simp, suffix, hsuffix, hpath⟩
    · obtain ⟨t, ht, later⟩ := ih (Named.call hnamed hcall) hrest file hfile
      rw [hsource, hrecname] at later
      exact ⟨t, by simp [ht], later⟩

theorem call_ok {namer : VbsNamer} {tag : UInt32} {suffix : Option Text}
    (hsuffix : namer.suffixSource.call tag = .ok suffix) : ∃ file namer',
      namer.call tag = .ok (file, namer') := by
  unfold VbsNamer.call
  cases namer.bsnMap tag with
  | some entry => exact ⟨_, _, rfl⟩
  | none =>
    rw [hsuffix]
    exact ⟨_, _, rfl⟩

/-- The numbers of one stream go up by one. -/
theorem calls_replicate {namer : VbsNamer} (hnamed : namer.Named) {tag : UInt32}
    {suffix : Option Text} (hsuffix : namer.suffixSource.call tag = .ok suffix) (n : Nat) :
    ∃ files namer', namer.calls (List.replicate (n + 1) tag) = .ok (files, namer') ∧
      ∃ file ∈ files, file.2 = ((namer.bsnMap tag).map BsnEntry.blockSeqNr).getD 0 + .ofNat n := by
  induction n generalizing namer with
  | zero =>
    obtain ⟨⟨path, nr⟩, namer', hcall⟩ := call_ok hsuffix
    obtain ⟨-, -, -, hnr, -⟩ := call_spec hnamed hcall
    refine ⟨[(path, nr)], namer', ?_, (path, nr), by simp, ?_⟩
    · rw [List.replicate_one, VbsNamer.calls, hcall]
      rfl
    · rw [hnr]
      exact (UInt32.add_zero _).symm
  | succ n ih =>
    obtain ⟨⟨path, nr⟩, mid, hcall⟩ := call_ok hsuffix
    obtain ⟨_, -, -, hnr, hsource, -, hself, -⟩ := call_spec hnamed hcall
    obtain ⟨files, namer', hrest, file, hfile, hlast⟩ :=
      ih (Named.call hnamed hcall) (hsource ▸ hsuffix)
    refine ⟨(path, nr) :: files, namer', ?_, file, by simp [hfile], ?_⟩
    · rw [List.replicate_succ, VbsNamer.calls, hcall]
      simp only [bind, Except.bind, hrest]
      rfl
    · rw [hlast, hself, ← hnr]
      simp only [Option.map_some, Option.getD_some]
      rw [UInt32.ofNat_add, UInt32.add_comm (UInt32.ofNat n), UInt32.add_assoc]
      rfl

/-- What a recording writes. -/
theorem written_iff (recname path : Text) (nr : UInt32) :
    (∃ source tags files namer', (VbsNamer.start source recname).calls tags = .ok (files, namer') ∧
      (path, nr) ∈ files) ↔ ∃ suffix, path = (Chunk.mk recname suffix nr).path := by
  have hnamed (source : SuffixSource) : (VbsNamer.start source recname).Named := by
    intro tag entry hentry
    cases hentry
  constructor
  · rintro ⟨source, tags, files, namer', hcalls, hfile⟩
    obtain ⟨tag, -, suffix, -, hpath⟩ := calls_files (hnamed source) hcalls _ hfile
    exact ⟨suffix, hpath⟩
  · rintro ⟨suffix, rfl⟩
    obtain ⟨source, hsource⟩ : ∃ source : SuffixSource, ∀ tag, source.call tag = .ok suffix := by
      cases suffix with
      | none => exact ⟨.noSuffix, fun _ => rfl⟩
      | some suffix => exact ⟨.netPortSuffix fun _ => some suffix, fun _ => rfl⟩
    obtain ⟨files, namer', hcalls, file, hfile, hnr⟩ :=
      calls_replicate (hnamed source) (hsource 0) nr.toNat
    obtain ⟨tag, -, suffix', hsuffix', hpath⟩ := calls_files (hnamed source) hcalls file hfile
    obtain rfl : suffix = suffix' := Except.ok.inj ((hsource tag).symm.trans hsuffix')
    have hnr : file.2 = nr := by
      rw [hnr]
      change 0 + UInt32.ofNat nr.toNat = nr
      rw [UInt32.zero_add, UInt32.ofNat_toNat]
    refine ⟨source, _, files, namer', hcalls, ?_⟩
    have hpath : file.1 = (Chunk.mk recname suffix file.2).path := hpath
    rw [← hnr, ← hpath]
    exact hfile

/-! ## What the finder finds -/

theorem isDigit_format08 (n : UInt32) : ∀ c ∈ format08 n, c.isDigit = true := by
  intro c hc
  obtain hpad | hc := List.mem_append.mp hc
  · rw [List.eq_of_mem_replicate hpad]
    rfl
  · exact Nat.isDigit_of_mem_toDigits (by omega) (by omega) hc

theorem length_format08 (n : UInt32) : (format08 n).length = 8 ↔ n.toNat < 10 ^ 8 := by
  rw [← @Nat.length_toDigits_le_iff 10 n.toNat 8 (by omega) (by omega)]
  simp only [format08, List.length_append, List.length_replicate]
  omega

/-- The last dot of a file name is the one before its number. -/
theorem length_of_digits {front digits number text : Text} (hnumber : ∀ c ∈ number, c.isDigit = true)
    (hlong : digits.length ≤ number.length)
    (h : text ++ '.' :: number = front ++ '.' :: digits) : number.length = digits.length := by
  obtain ⟨as, -, has⟩ | ⟨bs, -, hbs⟩ := List.append_eq_append_iff.mp h
  · cases as with
    | nil => exact congrArg List.length (List.cons.inj has).2
    | cons a as =>
      have hsplit : number = as ++ '.' :: digits := (List.cons.inj has).2
      have hdot : '.' ∈ number := by
        rw [hsplit]
        exact List.mem_append_right as List.mem_cons_self
      cases hnumber _ hdot
  · cases bs with
    | nil => exact (congrArg List.length (List.cons.inj hbs).2).symm
    | cons b bs =>
      have hsplit : digits = bs ++ '.' :: number := (List.cons.inj hbs).2
      rw [hsplit, List.length_append, List.length_cons] at hlong
      omega

theorem placed_iff {path : Text} {d : Text × List Text} : placed path = some d ↔
    ∃ dir file, '/' ∉ dir ∧ '/' ∉ file ∧ path = dir ++ '/' :: file ∧ d = (dir, [file]) := by
  have hcut {dir : Text} (hdir : '/' ∉ dir) (file : Text) : placed (dir ++ '/' :: file) =
      if '/' ∈ file then none else some (dir, [file]) := by
    have hall : ∀ c ∈ dir, decide (c ≠ '/') = true := by
      intro c hc
      rw [decide_eq_true_eq]
      rintro rfl
      exact hdir hc
    rw [placed, List.dropWhile_append_of_pos hall, List.takeWhile_append_of_pos hall]
    simp
  constructor
  · intro h
    by_cases hslash : '/' ∈ path
    · obtain ⟨dir, file, rfl, hdir⟩ := List.eq_append_cons_of_mem hslash
      rw [hcut hdir] at h
      split at h
      · cases h
      · rename_i hfile
        exact ⟨dir, file, hdir, hfile, rfl, (Option.some.inj h).symm⟩
    · have hnone : path.dropWhile (fun c => decide (c ≠ '/')) = [] := by
        rw [List.dropWhile_eq_nil_iff]
        intro c hc
        rw [decide_eq_true_eq]
        rintro rfl
        exact hslash hc
      rw [placed, hnone] at h
      cases h
  · rintro ⟨dir, file, hdir, hfile, rfl, rfl⟩
    rw [hcut hdir, if_neg hfile]

/-- A search for `scan` finds this file on the mountpoint. -/
def Finds (mountpoint : Text) (paths : List Text) (scan : Text) (c : Chunk) : Prop :=
  mountpoint ++ '/' :: c.path ∈ scanChunkFinder mountpoint scan (listing paths)

instance (mountpoint : Text) (paths : List Text) (scan : Text) (c : Chunk) :
    Decidable (Finds mountpoint paths scan c) := inferInstanceAs (Decidable (_ ∈ _))

theorem finds_iff {mountpoint : Text} {paths : List Text} {c : Chunk} (hc : c.path ∈ paths)
    (scan : Text) : Finds mountpoint paths scan c ↔ '/' ∉ c.name ∧
      isRecording scan c.name = true ∧ isScanChunk scan (mountpoint ++ '/' :: c.path) = true := by
  simp only [Finds, scanChunkFinder, listing, List.mem_flatMap, List.mem_filter,
    List.mem_filterMap, placed_iff, List.mem_map]
  have hfile (h : '/' ∉ c.name) : '/' ∉ c.file := by
    rw [Chunk.file, List.mem_append, List.mem_cons]
    rintro (hname | hdot | hdigit)
    · exact h hname
    · cases hdot
    · cases isDigit_format08 _ _ hdigit
  constructor
  · rintro ⟨d, ⟨⟨path, hpath, dir, file, hdir, hfile, rfl, rfl⟩, hrec⟩, ⟨f, hf, heq⟩, hscan⟩
    obtain rfl := List.mem_singleton.mp hf
    have hsame : dir ++ '/' :: f = c.name ++ '/' :: c.file :=
      List.cons.inj (List.append_cancel_left heq) |>.2
    obtain ⟨rfl, -, -⟩ := (List.append_cons_inj_of_notMem hdir hfile).mp hsame
    exact ⟨hdir, hrec, hscan⟩
  · rintro ⟨hname, hrec, hscan⟩
    exact ⟨_, ⟨⟨c.path, hc, c.name, c.file, hname, hfile hname, rfl, rfl⟩, hrec⟩,
      ⟨c.file, by simp, rfl⟩, hscan⟩

/-- The finder on a name that its pattern takes literally, dots apart. -/
theorem finds_covered {mountpoint : Text} {paths : List Text} {c : Chunk} (hc : c.path ∈ paths)
    {scan : Text} (hscan : ∀ c ∈ scan, c ∈ operators → c = '.') :
    Finds mountpoint paths scan c ↔
      c.blockSeqNr.toNat < 10 ^ 8 ∧ '/' ∉ c.name ∧ Covers scan c.name := by
  rw [finds_iff hc, isRecording_iff, ← length_format08]
  constructor
  · rintro ⟨hname, hcovers, hmatch⟩
    obtain ⟨front, digits, hpath, hdigits⟩ := isScanChunk_digits hscan hmatch
    have heq : (mountpoint ++ '/' :: (c.name ++ '/' :: c.name)) ++ '.' :: format08 c.blockSeqNr =
        front ++ '.' :: digits := by
      rw [← hpath]
      simp [Chunk.path, Chunk.file]
    have hlong : digits.length ≤ (format08 c.blockSeqNr).length := by
      rw [hdigits, format08, List.length_append, List.length_replicate]
      omega
    exact ⟨(length_of_digits (isDigit_format08 _) hlong heq).trans hdigits, hname, hcovers⟩
  · rintro ⟨hlen, hname, hcovers⟩
    exact ⟨hname, hcovers,
      isScanChunk_covered hscan hcovers hlen (isDigit_format08 _) mountpoint⟩

/-! ## The agreement of the two -/

structure Agree (mountpoint : Text) (paths : List Text) (a b : Chunk) : Prop where
  own_recording : Finds mountpoint paths a.recname a
  own_stream : a.suffix ≠ none → Finds mountpoint paths a.name a
  other_recording : b.recname ≠ a.recname → ¬ Finds mountpoint paths a.recname b
  other_stream : a.suffix ≠ none → (b.recname, b.suffix) ≠ (a.recname, a.suffix) →
    ¬ Finds mountpoint paths a.name b

/-- What the finder needs of a chunk's own name and number. -/
structure Findable (a : Chunk) : Prop where
  number : a.blockSeqNr.toNat < 10 ^ 8
  directory : '/' ∉ a.name
  suffix : ∀ s, a.suffix = some s → namesStream a.recname = false ∧ Good s

/-- No other recording or stream has `b` under a name of `a`'s. -/
structure Apart (a b : Chunk) : Prop where
  recording : b.recname ≠ a.recname → b.blockSeqNr.toNat < 10 ^ 8 → '/' ∉ b.name →
    ¬ Covers a.recname b.name
  stream : a.suffix ≠ none → (b.recname, b.suffix) ≠ (a.recname, a.suffix) →
    b.blockSeqNr.toNat < 10 ^ 8 → b.name ≠ a.name

theorem withSuffix_some (recname s : Text) : withSuffix recname (some s) = recname ++ ds ++ s := rfl

theorem namesStream_withSuffix (recname s : Text) : namesStream (withSuffix recname (some s)) = true :=
  decide_eq_true ⟨recname, s, rfl⟩

theorem covers_own_iff (a : Chunk) : Covers a.recname a.name ↔
    ∀ s, a.suffix = some s → namesStream a.recname = false ∧ Good s := by
  obtain ⟨recname, suffix, nr⟩ := a
  cases suffix with
  | none => exact ⟨fun _ s hs => (by cases hs), fun _ => .inl rfl⟩
  | some s =>
    simp only [Covers, Chunk.name, withSuffix_some, Option.some.injEq, List.append_assoc,
      List.append_cancel_left_eq, forall_eq', exists_eq_right']
    constructor
    · rintro (hnil | h)
      · simp [ds] at hnil
      · exact h
    · exact Or.inr

theorem covers_stream_iff {a : Chunk} (ha : a.suffix ≠ none) (name : Text) :
    Covers a.name name ↔ name = a.name := by
  obtain ⟨s, hs⟩ := Option.ne_none_iff_exists'.mp ha
  have hds : namesStream a.name = true := by
    rw [Chunk.name, hs]
    exact namesStream_withSuffix a.recname s
  simp [Covers, hds]

/-- The recorder and the finder agree on names without the operators of a regular expression, dots
apart, exactly if the number has eight digits, the suffix is one that the finder looks for, and no
other chunk has such a name. -/
theorem names_agree_iff (mountpoint : Text) (paths : List Text) (a b : Chunk)
    (ha : a.path ∈ paths) (hb : b.path ∈ paths) (hplain : ∀ c ∈ a.name, c ∈ operators → c = '.') :
    Agree mountpoint paths a b ↔ Findable a ∧ Apart a b := by
  have hrec : ∀ c ∈ a.recname, c ∈ operators → c = '.' := by
    intro c hc
    refine hplain c ?_
    unfold Chunk.name withSuffix
    split <;> simp [hc]
  constructor
  · rintro ⟨hown, -, hother, hstream⟩
    rw [finds_covered ha hrec, covers_own_iff] at hown
    obtain ⟨hnumber, hslash, hsuffix⟩ := hown
    refine ⟨⟨hnumber, hslash, hsuffix⟩, ?_, ?_⟩
    · intro hne hb8 hbslash hcovers
      exact hother hne ((finds_covered hb hrec).mpr ⟨hb8, hbslash, hcovers⟩)
    · intro hsome hne hb8 hname
      refine hstream hsome hne ((finds_covered hb hplain).mpr ⟨hb8, ?_, ?_⟩)
      · rwa [hname]
      · exact .inl hname
  · rintro ⟨⟨hnumber, hslash, hsuffix⟩, hrecording, hstream⟩
    refine ⟨?_, ?_, ?_, ?_⟩
    · exact (finds_covered ha hrec).mpr ⟨hnumber, hslash, (covers_own_iff a).mpr hsuffix⟩
    · intro _
      exact (finds_covered ha hplain).mpr ⟨hnumber, hslash, .inl rfl⟩
    · intro hne hfinds
      obtain ⟨hb8, hbslash, hcovers⟩ := (finds_covered hb hrec).mp hfinds
      exact hrecording hne hb8 hbslash hcovers
    · intro hsome hne hfinds
      obtain ⟨hb8, -, hcovers⟩ := (finds_covered hb hplain).mp hfinds
      exact hstream hsome hne hb8 ((covers_stream_iff hsome _).mp hcovers)

def dataDisk : Text := "/mnt/disk0".toList

def plainChunk : Chunk := ⟨"No0001".toList, some "b1".toList, 7⟩

def plusChunk : Chunk := ⟨"J+0454".toList, none, 0⟩

theorem names_agree_iff_plain :
    Agree dataDisk [plainChunk.path, plusChunk.path] plainChunk plusChunk ↔
      Findable plainChunk ∧ Apart plainChunk plusChunk :=
  names_agree_iff dataDisk [plainChunk.path, plusChunk.path] plainChunk plusChunk
    (by simp) (by simp) fun c hc => by
      have hall : plainChunk.name.all fun c => decide (c ∈ operators → c = '.') := by decide
      exact of_decide_eq_true (List.all_eq_true.mp hall c hc)

/-- In the expression the plus sign asks for another `J` or the `0`. -/
theorem isScanChunk_plusChunk :
    isScanChunk plusChunk.recname (dataDisk ++ '/' :: plusChunk.path) = false := by
  have hcompile : compile (scanChunkPattern plusChunk.recname) =
      some (seq (.bol :: .star .any :: .chr '/' :: .group 1 (seq (plus (.chr 'J') :: .chr '0' ::
        (['4', '5', '4'].map .chr ++ streamAtoms 2 plusChunk.recname))) :: scanTail)) :=
    @compile_scanChunkPattern_of_fold plusChunk.recname
      [plus (.chr 'J'), .chr '0', .chr '4', .chr '5', .chr '4'] rfl
  rw [isScanChunk, matches?, hcompile, Option.any_some, ← Bool.not_eq_true, found_bol]
  rintro ⟨k', hk'⟩
  have hstar : Ere.any.accepts = some fun _ => true := rfl
  have hletter : (Ere.chr 'J').accepts = some (· == 'J') := rfl
  simp only [mem_run_cons, mem_run_star hstar, mem_run_group, mem_run_plus hletter,
    mem_run_chr] at hk'
  obtain ⟨-, ⟨front, back, hfront, -, rfl⟩, -, ⟨tail, hslash, rfl⟩, -,
    ⟨-, ⟨-, ⟨u, last, hu, hne, hall, rfl⟩, -, ⟨rest, hzero, rfl⟩, -⟩, -⟩, -⟩ := hk'
  have hslash : back = '/' :: tail := hslash
  have htail : tail = u ++ last := hu
  have hlast : last = '0' :: rest := hzero
  have hinfix : ['J', '0'] <:+: dataDisk ++ '/' :: plusChunk.path := by
    obtain ⟨v, c, rfl⟩ := (List.eq_nil_or_concat u).resolve_left hne
    obtain rfl : c = 'J' := eq_of_beq (hall c (by simp))
    exact ⟨front ++ '/' :: v, rest, by
      simp only [hfront, hslash, htail, hlast, List.concat_eq_append, List.append_assoc,
        List.cons_append, List.nil_append]⟩
  have hpath : dataDisk ++ '/' :: plusChunk.path =
      ['/', 'm', 'n', 't', '/', 'd', 'i', 's', 'k', '0', '/', 'J', '+', '0', '4', '5', '4', '/',
        'J', '+', '0', '4', '5', '4', '.', '0', '0', '0', '0', '0', '0', '0', '0'] := rfl
  rw [hpath] at hinfix
  revert hinfix
  decide

/-- The plus sign is an operator, so the first chunk of this recording is not found. -/
theorem plus_not_found : ¬ Agree dataDisk [plusChunk.path] plusChunk plusChunk := by
  intro h
  obtain ⟨-, -, hchunk⟩ := (finds_iff (by simp) _).mp h.own_recording
  rw [isScanChunk_plusChunk] at hchunk
  cases hchunk

end Jive5ab.Vbs.ChunkNames
