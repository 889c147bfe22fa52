import Jive5ab.Mountpoint.FindMountpoints
import Mathlib.Data.List.Infix

/-! # No match is lost

A glob is covered by where it is searched, a regular expression if what looks literal in it is,
and if its matches do not go deeper than it has pieces. What is covered is reported. -/
namespace Jive5ab.Mountpoint
open Std (TreeMap)
open Lib Lib.Split Lib.Glob Lib.OrdMap

/-! ## Paths and their texts -/

theorem split_path (name : Text) (names : List Text) (hname : name ≠ [] ∧ '/' ∉ name)
    (h : IsPath names) :
    split '/' true (name ++ names.flatMap ('/' :: ·)) = name :: names := by
  induction names generalizing name with
  | nil => rw [List.flatMap_nil, List.append_nil, split_last true hname.2, kept_of_ne_nil hname.1]
  | cons n names ih =>
    obtain ⟨hn, hnames⟩ := List.forall_mem_cons.mp h
    rw [List.flatMap_cons, List.cons_append, split_cons true _ hname.2, ih n hn hnames,
      kept_of_ne_nil hname.1]
    rfl

theorem split_slash (text : Text) : split '/' true ('/' :: text) = split '/' true text :=
  split_cons true text List.not_mem_nil

theorem pathText_cons (name : Text) (names : List Text) :
    pathText (name :: names) = '/' :: (name ++ names.flatMap ('/' :: ·)) := rfl

theorem split_pathText {names : List Text} (h : IsPath names) :
    split '/' true (pathText names) = names := by
  cases names with
  | nil => exact (split_slash []).trans (split_last true List.not_mem_nil)
  | cons name names =>
    obtain ⟨hname, hnames⟩ := List.forall_mem_cons.mp h
    rw [pathText_cons, split_slash, split_path name names hname hnames]

theorem intercalate_cons (piece : Text) (pieces : List Text) :
    ['/'].intercalate (piece :: pieces) = piece ++ pieces.flatMap ('/' :: ·) := by
  induction pieces generalizing piece with
  | nil => simp
  | cons p pieces ih =>
    rw [List.intercalate_cons_cons, ih, List.flatMap_cons, List.append_assoc]
    rfl

theorem joined_eq (pieces : List Text) : joined pieces = pathText pieces := by
  cases pieces with
  | nil => rfl
  | cons piece pieces => rw [joined, intercalate_cons, pathText_cons]

theorem isPath_split (text : Text) : IsPath (split '/' true text) := fun _ hmem =>
  ⟨(mem_split hmem).2 rfl, (mem_split hmem).1⟩

theorem IsPath.of_prefix {names above : List Text} (h : IsPath names) (hpre : above <+: names) :
    IsPath above := fun name hmem => h name (hpre.subset hmem)

theorem isPath_withoutPattern (pattern : Text) :
    IsPath (withoutPattern (split '/' true pattern)) := by
  intro name hmem
  refine isPath_split pattern name ?_
  have hmem := (List.takeWhile_prefix _).subset hmem
  unfold fromStart at hmem
  split at hmem
  · exact List.mem_of_mem_tail hmem
  · exact hmem

theorem pathText_append {above : List Text} (hne : above ≠ []) (names : List Text) :
    pathText (above ++ names) = pathText above ++ names.flatMap ('/' :: ·) := by
  obtain ⟨name, above, rfl⟩ := List.exists_cons_of_ne_nil hne
  rw [List.cons_append, pathText_cons, pathText_cons, List.flatMap_append]
  simp

theorem two_le_length_pathText {names : List Text} (h : IsPath names) (hne : names ≠ []) :
    2 ≤ (pathText names).length := by
  obtain ⟨name, names, rfl⟩ := List.exists_cons_of_ne_nil hne
  have hname := List.length_pos_of_ne_nil (List.forall_mem_cons.mp h).1.1
  rw [pathText_cons, List.length_cons, List.length_append]
  omega

theorem childPath_pathText {names : List Text} (h : IsPath names) (name : Text) :
    childPath (pathText names) name = pathText (names ++ [name]) := by
  unfold childPath
  cases names with
  | nil => simp [pathText]
  | cons n names =>
    have hlen := two_le_length_pathText h (List.cons_ne_nil n names)
    rw [if_neg fun heq => by rw [heq] at hlen; exact absurd hlen (by decide),
      pathText_append (List.cons_ne_nil n names)]
    simp

theorem count_pathText {names : List Text} (h : IsPath names) (hne : names ≠ []) :
    (pathText names).count '/' = names.length := by
  have hcount (names : List Text) (h : IsPath names) :
      (names.flatMap ('/' :: ·)).count '/' = names.length := by
    induction names with
    | nil => rfl
    | cons name names ih =>
      obtain ⟨hname, hnames⟩ := List.forall_mem_cons.mp h
      rw [List.flatMap_cons, List.count_append, ih hnames, List.count_cons_self,
        List.count_eq_zero_of_not_mem hname.2, List.length_cons]
      omega
  obtain ⟨name, names, rfl⟩ := List.exists_cons_of_ne_nil hne
  exact hcount _ h

/-! ## Where a glob matches -/

theorem not_special {piece : Text} (h : looksLikePattern piece = false) :
    ∀ c ∈ piece, c ∉ Glob.specials := by
  intro c hc hspecial
  have hnone := List.any_eq_false.mp h c hc
  revert hnone hspecial
  simp only [Glob.specials, rxPattern]
  grind

/-- What looks literal in a glob is. -/
theorem takeWhile_prefix_of_fnmatch {p text : Text} (h : fnmatch p text = true) :
    (split '/' true p).takeWhile (!looksLikePattern ·) <+: split '/' true text := by
  induction p using pieces_induction (c := '/') generalizing text with
  | last q hq =>
    rw [split_last true hq]
    cases hlooks : looksLikePattern q with
    | true =>
      have hnil : (kept true q).takeWhile (!looksLikePattern ·) = [] := by
        unfold kept
        split
        · rfl
        · simp [hlooks]
      rw [hnil]
      exact List.nil_prefix
    | false =>
      rw [← List.append_nil q] at h
      obtain ⟨rest, rfl, hrest⟩ := fnmatch_ordinary (not_special hlooks) h
      obtain rfl : rest = [] := by
        cases rest with
        | nil => rfl
        | cons c rest => cases hrest
      rw [List.append_nil, split_last true hq]
      exact List.takeWhile_prefix _
  | cons q rest hq ih =>
    rw [split_cons true rest hq]
    cases hlooks : looksLikePattern q with
    | true =>
      have hne : q ≠ [] := by
        rintro rfl
        cases hlooks
      rw [kept_of_ne_nil hne, List.singleton_append, List.takeWhile_cons_of_neg (by simp [hlooks])]
      exact List.nil_prefix
    | false =>
      have hlit : ∀ c ∈ q ++ ['/'], c ∉ Glob.specials := by
        intro c hc
        rcases List.mem_append.mp hc with hc | hc
        · exact not_special hlooks c hc
        · rw [List.mem_singleton.mp hc]
          decide
      have hsplit : q ++ '/' :: rest = (q ++ ['/']) ++ rest := by simp
      rw [hsplit] at h
      obtain ⟨text', rfl, hrest⟩ := fnmatch_ordinary hlit h
      have htext : q ++ ['/'] ++ text' = q ++ '/' :: text' := by simp
      have hkept : ∀ piece ∈ kept true q, (!looksLikePattern piece) = true := by
        intro piece hmem
        rw [(mem_kept hmem).1, hlooks]
        rfl
      rw [htext, split_cons true text' hq, List.takeWhile_append_of_pos hkept]
      exact (List.prefix_append_right_inj _).mpr (ih hrest)

theorem pieceCount_le_count (begun : Bool) (text : Text) :
    pieceCount begun text ≤ text.count '/' + 1 := by
  induction text generalizing begun with
  | nil => exact Bool.toNat_le begun
  | cons c text ih =>
    rw [pieceCount]
    have hbegun := Bool.toNat_le begun
    split
    next hc =>
      have hfalse := ih false
      rw [hc, List.count_cons_self]
      omega
    next hc =>
      have htrue := ih true
      rw [List.count_cons_of_ne hc]
      exact htrue

theorem length_split_le_count (text : Text) :
    (split '/' true ('/' :: text)).length ≤ ('/' :: text).count '/' := by
  have hle := pieceCount_le_count false text
  rw [split_slash, length_split, List.count_cons_self]
  exact hle

/-! ## What the analysis says -/

theorem length_fromStart_le (pieces : List Text) : (fromStart pieces).length ≤ pieces.length := by
  unfold fromStart
  split
  · rw [List.length_tail]
    omega
  · exact le_rfl

/-- The start, the depth, and what the pattern means. -/
theorem analyzePattern_of_matches {regcomp : Regcomp} {pattern text : Text}
    (h : Matches regcomp pattern text) : ∃ matchable : Matchable,
      analyzePattern regcomp pattern = .ok
        ⟨pathText (withoutPattern (split '/' true pattern)),
          (fromStart (split '/' true pattern)).length -
            (withoutPattern (split '/' true pattern)).length, matchable⟩ ∧
        matchable.matches text = true := by
  obtain ⟨hvalid, hne, hmeans⟩ := h
  have hle := length_fromStart_le (split '/' true pattern)
  have hdepth (n : Nat) : (split '/' true pattern).length -
      ((split '/' true pattern).length - (fromStart (split '/' true pattern)).length + n) =
        (fromStart (split '/' true pattern)).length - n := by omega
  unfold analyzePattern
  simp only [hvalid, not_true_eq_false, if_false, hne, hdepth, joined_eq]
  split at hmeans
  next hregex =>
    obtain ⟨found, hcompile, hfound⟩ := hmeans
    exact ⟨.regexglob found, by rw [if_pos hregex, hcompile], hfound⟩
  next hregex => exact ⟨.shellglobbing pattern, by rw [if_neg hregex], hmeans⟩

/-- From the names of a path, instead of its text. -/
theorem covers_mk_iff {pieces names : List Text} {matchable : Matchable} {depth : Nat}
    (hpieces : IsPath pieces) (hnames : IsPath names) :
    (AnalResult.mk (pathText pieces) depth matchable).Covers names ↔
      pieces <+: names ∧ names.length ≤ pieces.length + depth := by
  constructor
  · rintro ⟨above, hpfx, hpre, hlen⟩
    have heq := congrArg (split '/' true) hpfx
    rw [split_pathText hpieces, split_pathText (hnames.of_prefix hpre)] at heq
    rw [heq]
    exact ⟨hpre, hlen⟩
  · rintro ⟨hpre, hlen⟩
    exact ⟨pieces, rfl, hpre, hlen⟩

theorem covered_iff {regcomp : Regcomp} {pattern : Text} {names : List Text} (hnames : IsPath names)
    (h : Matches regcomp pattern (pathText names)) :
    (∃ res, analyzePattern regcomp pattern = .ok res ∧ res.Covers names) ↔
      withoutPattern (split '/' true pattern) <+: names ∧
        names.length ≤ (fromStart (split '/' true pattern)).length := by
  obtain ⟨matchable, hanalyze, -⟩ := analyzePattern_of_matches h
  have hlen : (withoutPattern (split '/' true pattern)).length ≤
      (fromStart (split '/' true pattern)).length := (List.takeWhile_prefix _).length_le
  simp only [hanalyze, Except.ok.injEq, exists_eq_left']
  rw [covers_mk_iff (isPath_withoutPattern pattern) hnames, Nat.add_sub_cancel' hlen]

theorem isRegex_ends {text : Text} (h : matches? rxRegex text = true) :
    ∃ u, text = '^' :: u := by
  have hcompile : Ere.compile rxRegex =
      some (Ere.seq [.bol, .chr '^', .star .any, .chr '$', .eol]) := by decide
  rw [matches?, hcompile, Option.any_some, Ere.found_bol] at h
  obtain ⟨k', hk'⟩ := h
  obtain ⟨m, hm, -⟩ := Ere.mem_run_cons.mp hk'
  obtain ⟨rest, hrest, -⟩ := Ere.mem_run_chr.mp hm
  exact ⟨rest, hrest⟩

/-- A glob loses what it matches if its first piece is taken for the anchor of an expression. -/
theorem glob_covered_iff {pattern : Text} {names : List Text} (hnames : IsPath names)
    (hglob : pattern.head? = some '/') (h : fnmatch pattern (pathText names) = true) :
    (withoutPattern (split '/' true pattern) <+: names ∧
        names.length ≤ (fromStart (split '/' true pattern)).length) ↔
      (split '/' true pattern).head? ≠ some ['^'] := by
  have hpre := takeWhile_prefix_of_fnmatch h
  have hlen := length_split_le h
  rw [split_pathText hnames] at hpre hlen
  by_cases hcaret : (split '/' true pattern).head? = some ['^']
  · have hfrom : fromStart (split '/' true pattern) = (split '/' true pattern).tail := if_pos hcaret
    have hne : names ≠ [] := by
      rintro rfl
      obtain ⟨pieces, hpieces⟩ := List.head?_eq_some_iff.mp hcaret
      rw [hpieces, List.takeWhile_cons_of_pos (by decide)] at hpre
      exact absurd (List.prefix_nil.mp hpre) (List.cons_ne_nil _ _)
    have hcount := (aligned_of_fnmatch h).count_eq
    rw [count_pathText hnames hne] at hcount
    obtain ⟨u, hu⟩ := List.head?_eq_some_iff.mp hglob
    have hpieces := length_split_le_count u
    rw [← hu, ← hcount] at hpieces
    have hpos : 0 < names.length := List.length_pos_of_ne_nil hne
    simp only [hcaret, ne_eq, not_true_eq_false, iff_false, not_and, not_le]
    intro _
    rw [hfrom, List.length_tail]
    omega
  · have hfrom : fromStart (split '/' true pattern) = split '/' true pattern := if_neg hcaret
    have hwithout : withoutPattern (split '/' true pattern) =
        (split '/' true pattern).takeWhile (!looksLikePattern ·) := by
      rw [withoutPattern, hfrom]
    rw [hwithout, hfrom]
    exact iff_of_true ⟨hpre, hlen⟩ hcaret

theorem fitsPath_iff {regcomp : Regcomp} {pattern : Text} {names : List Text}
    (hnames : IsPath names) (h : Matches regcomp pattern (pathText names)) :
    (∃ res, analyzePattern regcomp pattern = .ok res ∧ res.Covers names) ↔
      FitsPath pattern names := by
  rw [covered_iff hnames h]
  unfold FitsPath
  obtain ⟨hvalid, hne, hmeans⟩ := h
  split
  next hglob =>
    have hregex : ¬matches? rxRegex pattern = true := by
      intro hregex
      obtain ⟨u, hu⟩ := isRegex_ends hregex
      rw [hu] at hglob
      cases hglob
    rw [if_neg hregex] at hmeans
    exact glob_covered_iff hnames hglob hmeans
  next => exact Iff.rfl

/-! ## What is collected -/

def MpSettings.Includes (settings : MpSettings) (res : AnalResult) : Prop :=
  res.depth ≤ settings.maxdepth ∧ res.pattern ∈ settings.regexes

def MpMap.Includes (rv : MpMap) (res : AnalResult) : Prop :=
  ∃ settings : MpSettings, rv[res.pfx]? = some settings ∧ settings.Includes res

theorem MpMap.includes_add (rv : MpMap) (res : AnalResult) : (rv.add res).Includes res :=
  ⟨_, by rw [MpMap.add, lookup_insert, if_pos rfl], le_max_left _ _,
    List.mem_append_right _ (List.mem_singleton.mpr rfl)⟩

theorem MpMap.Includes.add {rv : MpMap} {res : AnalResult} (h : rv.Includes res)
    (res' : AnalResult) : (rv.add res').Includes res := by
  obtain ⟨settings, hlookup, hdepth, hmem⟩ := h
  by_cases heq : res'.pfx = res.pfx
  · refine ⟨_, by rw [MpMap.add, lookup_insert, if_pos heq], ?_, ?_⟩
    · rw [heq, hlookup]
      exact le_trans hdepth (le_max_right _ _)
    · rw [heq, hlookup]
      exact List.mem_append_left _ hmem
  · exact ⟨settings, by rw [MpMap.add, lookup_insert, if_neg heq, hlookup], hdepth, hmem⟩

theorem analyzePatterns_includes {regcomp : Regcomp} {patterns : List Text} {rv m : MpMap}
    (h : analyzePatterns regcomp patterns rv = .ok m) {res : AnalResult}
    (hres : rv.Includes res ∨ ∃ p ∈ patterns, analyzePattern regcomp p = .ok res) :
    m.Includes res := by
  induction patterns generalizing rv with
  | nil =>
    cases h
    rcases hres with hres | ⟨p, hp, -⟩
    · exact hres
    · cases hp
  | cons p patterns ih =>
    cases hp : analyzePattern regcomp p with
    | error e =>
      rw [analyzePatterns, hp] at h
      cases h
    | ok res' =>
      rw [analyzePatterns, hp] at h
      refine ih h ?_
      rcases hres with hres | ⟨q, hq, hqres⟩
      · exact .inl (hres.add res')
      · rcases List.mem_cons.mp hq with rfl | hq
        · rw [hp] at hqres
          cases hqres
          exact .inl (rv.includes_add res)
        · exact .inr ⟨q, hq, hqres⟩

/-! ## What the walk comes by -/

theorem mem_walkAll {settings : MpSettings} {entries : List (Text × Entry)} {e : Text × Entry}
    {path found : Text} {level : Nat} (he : e ∈ entries)
    (hfound : found ∈ walkEntry settings e path level) :
    found ∈ walkAll settings entries path level := by
  induction entries with
  | nil => cases he
  | cons e' entries ih =>
    rw [walkAll, List.mem_append]
    rcases List.mem_cons.mp he with rfl | he
    · exact .inl hfound
    · exact .inr (ih he)

theorem mem_of_lookup {entries : List (Text × Entry)} {name : Text} {entry : Entry}
    (h : entries.lookup name = some entry) : (name, entry) ∈ entries := by
  obtain ⟨l₁, l₂, rfl, -⟩ := List.lookup_eq_some_iff.mp h
  simp

/-- Down to the maximum depth every directory is tried. -/
theorem mem_walk {settings : MpSettings} {entry : Entry} {names : List Text} {path : Text}
    {level : Nat} (hdir : IsDirectory entry names)
    (hlevel : level + names.length ≤ settings.maxdepth)
    (hmatch : settings.regexes.any (·.matches (names.foldl childPath path)) = true) :
    names.foldl childPath path ∈ walk settings entry path level := by
  induction names generalizing entry path level with
  | nil =>
    obtain ⟨entries, hentries⟩ := hdir
    obtain rfl : entry = .directory entries := Option.some.inj hentries
    rw [walk]
    refine List.mem_append_left _ ?_
    rw [List.foldl_nil] at hmatch
    simp [hmatch]
  | cons name names ih =>
    obtain ⟨entries, hentries⟩ := hdir
    cases entry with
    | file => cases hentries
    | unreadable => cases hentries
    | directory children =>
      obtain ⟨child, hchild, hat⟩ := Option.bind_eq_some_iff.mp hentries
      rw [List.length_cons] at hlevel
      have hgo : ¬settings.maxdepth ≤ level := by omega
      rw [walk]
      refine List.mem_append_right _ ?_
      simp only [hgo, decide_false, Bool.false_eq_true, if_false]
      refine mem_walkAll (mem_of_lookup hchild) ?_
      rw [walkEntry]
      exact ih ⟨entries, hat⟩ (by omega) hmatch

theorem foldl_childPath {above names : List Text} (h : IsPath (above ++ names)) :
    names.foldl childPath (pathText above) = pathText (above ++ names) := by
  induction names generalizing above with
  | nil => rw [List.foldl_nil, List.append_nil]
  | cons name names ih =>
    have happ : above ++ name :: names = above ++ [name] ++ names := by simp
    rw [happ] at h ⊢
    rw [List.foldl_cons, childPath_pathText (h.of_prefix ⟨[name] ++ names, by simp⟩), ih h]

theorem at_append {root : Entry} {above names : List Text} {entry : Entry}
    (h : root.at (above ++ names) = some entry) :
    ∃ mid, root.at above = some mid ∧ mid.at names = some entry := by
  induction above generalizing root with
  | nil => exact ⟨root, rfl, h⟩
  | cons name above ih =>
    cases root with
    | file => cases h
    | unreadable => cases h
    | directory children =>
      obtain ⟨child, hchild, hat⟩ := Option.bind_eq_some_iff.mp h
      obtain ⟨mid, habove, hnames⟩ := ih hat
      exact ⟨mid, by rw [Entry.at, hchild]; exact habove, hnames⟩

/-- What is covered is found. -/
theorem mem_nftw {root : Entry} {settings : MpSettings} {res : AnalResult} {names : List Text}
    (hincludes : settings.Includes res) (hcovers : res.Covers names) (hnames : IsPath names)
    (hdir : IsDirectory root names) (hmatch : res.pattern.matches (pathText names) = true) :
    pathText names ∈ nftw root settings res.pfx := by
  obtain ⟨above, hpfx, ⟨rest, rfl⟩, hlen⟩ := hcovers
  obtain ⟨hdepth, hmem⟩ := hincludes
  obtain ⟨entries, hentries⟩ := hdir
  obtain ⟨mid, habove, hrest⟩ := at_append hentries
  have hpath := foldl_childPath hnames
  have hsplit := split_pathText (hnames.of_prefix (List.prefix_append above rest))
  rw [nftw, hpfx, hsplit, habove, ← hpath]
  rw [List.length_append] at hlen
  refine mem_walk ⟨entries, hrest⟩ (by omega) ?_
  rw [hpath]
  exact List.any_eq_true.mpr ⟨res.pattern, hmem, hmatch⟩

/-! ## What is kept -/

theorem mountedOn_foldl_ne_none {rootDevice smp : Sysmountpoint} {mp : Text}
    (hpre : isDirectoryPrefix smp.path mp = true) (hlen : rootDevice.path.length < smp.path.length)
    {sysmountpoints : List Sysmountpoint} {pfx : Option Sysmountpoint}
    (h : smp ∈ sysmountpoints ∨ pfx ≠ none) :
    sysmountpoints.foldl (fun pfx smp =>
      if isDirectoryPrefix smp.path mp ∧ (pfx.getD rootDevice).path.length < smp.path.length then
        some smp
      else pfx) pfx ≠ none := by
  induction sysmountpoints generalizing pfx with
  | nil =>
    rcases h with h | h
    · cases h
    · exact h
  | cons smp' sysmountpoints ih =>
    rw [List.foldl_cons]
    refine ih ?_
    rw [List.mem_cons] at h
    rcases h with (rfl | h) | h
    · right
      cases pfx with
      | none => rw [if_pos ⟨hpre, hlen⟩]; exact Option.some_ne_none _
      | some p => split <;> exact Option.some_ne_none _
    · exact .inl h
    · right
      split
      · exact Option.some_ne_none _
      · exact h

theorem isDirectoryPrefix_pathText {above names : List Text} (hne : above ≠ [])
    (hpre : above <+: names) : isDirectoryPrefix (pathText above) (pathText names) = true := by
  obtain ⟨rest, rfl⟩ := hpre
  rw [isDirectoryPrefix, pathText_append hne, Bool.and_eq_true]
  refine ⟨List.isPrefixOf_iff_prefix.mpr (List.prefix_append _ _), ?_⟩
  cases rest with
  | nil => simp
  | cons name rest => simp

theorem mountedOn_ne_none {sysmountpoints : List Sysmountpoint} {rootDevice : Sysmountpoint}
    {names : List Text} (hroot : rootDevice.path = ['/']) (hnames : IsPath names)
    (hoff : OffRoot sysmountpoints names) :
    mountedOn sysmountpoints rootDevice (pathText names) ≠ none := by
  obtain ⟨smp, hsmp, above, hne, hpre, hpath⟩ := hoff
  have hlen := two_le_length_pathText (hnames.of_prefix hpre) hne
  refine @mountedOn_foldl_ne_none _ smp _ ?_ ?_ _ _ (.inl hsmp)
  · rw [hpath]
    exact isDirectoryPrefix_pathText hne hpre
  · rw [hroot, hpath, List.length_singleton]
    omega

theorem pathText_ne_noMountpoint (names : List Text) : pathText names ≠ noMountpoint := by
  cases names with
  | nil => decide
  | cons name names =>
    rw [pathText_cons]
    intro heq
    cases heq

/-- What the analysis covers is reported, if it is not on the root device. -/
theorem mem_findMountpoints {regcomp : Regcomp} {root : Entry}
    {sysmountpoints : List Sysmountpoint} {patterns mps : List Text} {res : AnalResult}
    {names : List Text} (h : findMountpoints regcomp root sysmountpoints patterns = .ok mps)
    (hres : ∃ p ∈ patterns, analyzePattern regcomp p = .ok res) (hcovers : res.Covers names)
    (hnames : IsPath names) (hdir : IsDirectory root names)
    (hmatch : res.pattern.matches (pathText names) = true)
    (hoff : OffRoot sysmountpoints names) : pathText names ∈ mps := by
  unfold findMountpoints at h
  cases hmap : analyzePatterns regcomp patterns ∅ with
  | error e =>
    rw [hmap] at h
    cases h
  | ok m =>
    rw [hmap] at h
    simp only [bind, Except.bind] at h
    split at h
    · cases h
    next rootDevice hroot =>
      cases h
      have hrootPath : rootDevice.path = ['/'] := by simpa using List.find?_some hroot
      obtain ⟨settings, hlookup, hincludes⟩ := analyzePatterns_includes hmap (.inr hres)
      have hmounted := mountedOn_ne_none hrootPath hnames hoff
      refine List.mem_filter.mpr ⟨List.mem_flatMap.mpr ⟨(res.pfx, settings),
        TreeMap.mem_toList_iff_getElem?_eq_some.mpr hlookup, ?_⟩, by simp [hmounted]⟩
      obtain ⟨above, hpfx, -⟩ := id hcovers
      simp only
      rw [if_neg fun heq => pathText_ne_noMountpoint above (hpfx.symm.trans heq)]
      exact mem_nftw hincludes hcovers hnames hdir hmatch

def posixRegcomp : Regcomp := fun pattern => (Ere.compile pattern).map Ere.found

def oneDisk : Entry :=
  .directory [("mnt".toList, .directory [("disk".toList, .directory [])])]

def oneDiskMounted : List Sysmountpoint :=
  [⟨"/".toList, "/dev/sda1".toList⟩, ⟨"/mnt/disk".toList, "/dev/sdb1".toList⟩]

/-- The anchor at the end is taken for a part of the directory's name. -/
theorem findMountpoints_anchored :
    findMountpoints posixRegcomp oneDisk oneDiskMounted ["^/mnt/disk$".toList] = .ok [] := by
  decide +kernel

end Jive5ab.Mountpoint
