import Jive5ab.Mountpoint.Pattern
import Jive5ab.Vbs.ChunkStreams
import Mathlib.Data.List.Find

/-! # Names of new recordings

`mk_scan_name` has a thread look on each mountpoint for recordings of the name that is asked for,
and puts a letter behind the name if there are any. -/
namespace Jive5ab.Vbs.ScanName
open Lib Ere ChunkNames

/-! ## Regular expressions -/

/-- The groups that have matched something, by their numbers. -/
abbrev Matchresult := List (Nat × Text)

abbrev RegularExpression := Text → Option Matchresult

abbrev Regcomp := Text → Option RegularExpression

/-- A match is one of those that the expression has, and there is one if it has any. -/
def Conforms (regcomp : Regcomp) (pattern : Text) : Prop :=
  ∀ r, compile pattern = some r → ∃ rx, regcomp pattern = some rx ∧ ∀ text,
    (rx text = none → found r text = false) ∧
    ∀ mo, rx text = some mo → ∃ i ≤ text.length, ∃ k ∈ run r (Cursor.start text i),
      ∀ n, mo.lookup n = k.groups.lookup n

/-! ## The mountpoints -/

/-- Whether the thread for a directory can be started, and whether that reads it without an
error. -/
structure Mountpoint where
  path : Text
  entries : List Text
  startable : Bool
  readable : Bool

def isNullDiskset (disks : List Mountpoint) : Bool :=
  disks.map Mountpoint.path == [Jive5ab.Mountpoint.noMountpoint]

/-- `dir_mapper::operator()`, unless it throws; the results are in a map. -/
def dirMapper (callback : Text → Option Matchresult) (m : Mountpoint) :
    Option (List (Option Matchresult)) :=
  if m.readable then some (m.entries.dedup.map fun entry => callback (m.path ++ '/' :: entry))
  else none

/-! ## Counting -/

structure DuplicateCounterData where
  duplicateDetected : Bool
  duplicateCount : Char → UInt32

def DuplicateCounterData.init : DuplicateCounterData := ⟨false, fun _ => 0⟩

/-- `duplicate_counter::operator=`; the first character of an empty group is the one behind it. -/
def DuplicateCounterData.assign (cnt : DuplicateCounterData) :
    Option Matchresult → DuplicateCounterData
  | none => cnt
  | some mo =>
    match mo.lookup 1 with
    | some suffix =>
      let extension := suffix.headD '\x00'
      { cnt with duplicateCount :=
          Function.update cnt.duplicateCount extension (cnt.duplicateCount extension + 1) }
    | none => { cnt with duplicateDetected := true }

def nextExtension (c : Char) : Char := if c = 'z' then 'A' else .ofNat (c.toNat + 1)

/-- What `extension_candidate` is before it is the character behind `Z`. -/
def extensions : List Char := List.iterate nextExtension 'a' 52

/-- An extension that is used least, from `UINT_MAX` on, and how often that is. -/
def DuplicateCounterData.leastUsed (cnt : DuplicateCounterData) : Char × UInt32 :=
  extensions.foldl (fun least c =>
    if cnt.duplicateCount c < least.2 then (c, cnt.duplicateCount c) else least)
    ('\x00', 2 ^ 32 - 1)

/-! ## The threads -/

def rxScanName (mp scanname : Text) : Text :=
  '^' :: (mp ++ '/' :: (escape scanname ++ "([a-zA-Z])?(_ds[^_\\.]+)?$".toList))

structure NameScannerArgs where
  mountPoint : Mountpoint
  rxScanName : RegularExpression

/-- Exceptions do not escape. -/
def nameScanner (cnt : DuplicateCounterData) (args : NameScannerArgs) : DuplicateCounterData :=
  match dirMapper args.rxScanName args.mountPoint with
  | none => cnt
  | some matchresults => matchresults.foldl .assign cnt

/-- Stops at the first one that does not start. -/
def startThreads (regcomp : Regcomp) (scanname : Text) :
    List Mountpoint → Except String (List NameScannerArgs)
  | [] => .ok []
  | mp :: disks =>
    match regcomp (rxScanName mp.path scanname) with
    | none =>
      .error ("Failed to compile RegEx(" ++ .ofList (rxScanName mp.path scanname) ++ ")")
    | some rx =>
      if mp.startable then (startThreads regcomp scanname disks).map (⟨mp, rx⟩ :: ·)
      else .error " - failed to create one or more threads"

/-- `mk_scan_name`, where the threads take their turns with the counts in some order. -/
def mkScanName (regcomp : Regcomp) (turns : List NameScannerArgs → List NameScannerArgs)
    (disks : List Mountpoint) (scanname : Text) : Except String Text :=
  if scanname = [] ∨ isNullDiskset disks = true then .ok scanname
  else
    match startThreads regcomp scanname disks with
    | .error e => .error e
    | .ok threads =>
      let cnt := (turns threads).foldl nameScanner .init
      if cnt.duplicateDetected = false then .ok scanname
      else
        let (extension, suffixUseCount) := cnt.leastUsed
        if suffixUseCount = 0 then .ok (scanname ++ [extension])
        else .error " - more than 52 recordings with the same scan name is not possible"

/-! ## Names in use -/

/-- What can be said on a connection between two colons. -/
def Argument (arg : Text) : Prop := ∀ c ∈ arg, c ∉ [';', ':', ' ', '\r', '\n', '\x00']

instance (arg : Text) : Decidable (Argument arg) := List.decidableBAll _ _

/-- Set up by commands. -/
def Commanded : Recording → Prop
  | .untagged _ => True
  | .netPort commands _ _ => ∀ args ∈ commands, ∀ arg ∈ args, Argument arg
  | .datastreams ops _ => ∀ op ∈ ops, ∀ nm mc, op = .add nm mc → Argument nm

/-- Suffixes of streams. -/
def Produced (s : Text) : Prop :=
  ∃ r, Commanded r ∧ ∃ i ∈ r.items, i.1.call i.2 = .ok (some s)

def InUse (disks : List Mountpoint) (name : Text) : Prop :=
  ∃ m ∈ disks, ∃ entry ∈ m.entries,
    entry = name ∨ ∃ s, Produced s ∧ entry = withSuffix name (some s)

def named (scanname : Text) (x : Option Char) : Text := scanname ++ x.toList

/-- The name itself, and with an extension. -/
def candidates : List (Option Char) := none :: extensions.map some

/-- The name that is returned is not in use; it throws if all are, or if a thread does not
start. -/
def Unused (disks : List Mountpoint) (scanname : Text) : Except String Text → Prop
  | .ok name => (∃ x ∈ candidates, name = named scanname x) ∧ ¬InUse disks name
  | .error _ => (∀ x ∈ candidates, InUse disks (named scanname x)) ∨
    ∃ m ∈ disks, m.startable = false

/-! ## What is counted -/

/-- The path is matched by itself only, and the characters of the name that are escaped are not
operators with the backslash. -/
def Plain (path scanname : Text) : Prop :=
  (∀ c ∈ path, c ∈ operators → c = '.') ∧ '\x00' ∉ path ∧
    ∀ c ∈ scanname, c ∉ ['<', '>', '\x60', '\x27', '\x00']

instance (path scanname : Text) : Decidable (Plain path scanname) :=
  have := List.decidableBAll (fun c => c ∈ operators → c = '.') path
  have := List.decidableBAll (fun c => c ∉ ['<', '>', '\x60', '\x27', '\x00']) scanname
  inferInstanceAs (Decidable (_ ∧ _ ∧ _))

/-- As a recording with this extension, or with none. -/
def shows (regcomp : Regcomp) (scanname : Text) (x : Option Char) (m : Mountpoint) (entry : Text) :
    Bool :=
  let stream := named scanname x ++ ds
  if Plain m.path scanname then
    entry = named scanname x || (stream.isPrefixOf entry && Good (entry.drop stream.length))
  else
    (regcomp (rxScanName m.path scanname)).any fun rx =>
      (rx (m.path ++ '/' :: entry)).any fun mo => (mo.lookup 1).map (·.headD '\x00') = x

/-- On the mountpoints that are read. -/
def uses (regcomp : Regcomp) (scanname : Text) (disks : List Mountpoint) (x : Option Char) : Nat :=
  (disks.map fun m =>
    if m.readable then m.entries.dedup.countP (shows regcomp scanname x m) else 0).sum

/-- The count of an extension is an `unsigned int`. -/
def counted (regcomp : Regcomp) (scanname : Text) (disks : List Mountpoint) : Option Char → Bool
  | none => uses regcomp scanname disks none ≠ 0
  | some c => uses regcomp scanname disks (some c) % 2 ^ 32 ≠ 0

def Compiles (regcomp : Regcomp) (scanname : Text) (m : Mountpoint) : Prop :=
  Plain m.path scanname ∨ regcomp (rxScanName m.path scanname) ≠ none

/-- The first name that is not counted is not in use either. -/
def Noticed (regcomp : Regcomp) (scanname : Text) (disks : List Mountpoint) : Prop :=
  match candidates.find? fun x => !counted regcomp scanname disks x with
  | some x => ¬InUse disks (named scanname x)
  | none => ∀ x ∈ candidates, InUse disks (named scanname x)

/-- Without a name or disks nothing is looked up. -/
def Reliable (regcomp : Regcomp) (scanname : Text) (disks : List Mountpoint) : Prop :=
  if scanname = [] ∨ isNullDiskset disks = true then ¬InUse disks scanname
  else (∃ m ∈ disks, m.startable = false) ∨
    ((∀ m ∈ disks, Compiles regcomp scanname m) → Noticed regcomp scanname disks) ∧
    ((∃ m ∈ disks, ¬Compiles regcomp scanname m) →
      ∀ x ∈ candidates, InUse disks (named scanname x))

/-! ## The expression -/

/-- What is in brackets is a letter. -/
def letterEre : Ere := .set false [('a', 'z'), ('z', 'z'), ('A', 'Z'), ('Z', 'Z')]

/-- The extension, the stream, and the end. -/
def tailAtoms : List Ere := opt (.group 1 (seq [letterEre])) :: (streamAtoms 2 [] ++ [.eol])

theorem map_toNat_extensions :
    extensions.map Char.toNat = List.range' 97 26 ++ List.range' 65 26 := by
  decide

theorem mem_extensions {c : Char} : c ∈ extensions ↔
    97 ≤ c.toNat ∧ c.toNat < 123 ∨ 65 ≤ c.toNat ∧ c.toNat < 91 := by
  have hcode : c ∈ extensions ↔ c.toNat ∈ extensions.map Char.toNat := by
    simp [Char.toNat_inj]
  rw [hcode, map_toNat_extensions, List.mem_append, List.mem_range'_1, List.mem_range'_1]

theorem inRanges_letter (c : Char) :
    inRanges [('a', 'z'), ('z', 'z'), ('A', 'Z'), ('Z', 'Z')] c = true ↔ c ∈ extensions := by
  simp only [mem_extensions, inRanges, List.any_cons, List.any_nil, Bool.or_false, Bool.or_eq_true,
    Bool.and_eq_true, decide_eq_true_eq, UInt32.le_iff_toNat_le, Char.toNat]
  grind

theorem foldlM_extension (f : Frame) :
    "([a-zA-Z])?".toList.foldlM Compiler.step ⟨.normal, [], f, 0⟩ =
      some ((⟨.normal, [], f, 1⟩ : Compiler).emits [opt (.group 1 (seq [letterEre]))]) := by
  have hgroup : "([a-zA-Z])".toList.foldlM Compiler.step ⟨.normal, [], f, 0⟩ =
      some ((⟨.normal, [], f, 1⟩ : Compiler).emits ([] ++ [.group 1 (seq [letterEre])])) := rfl
  have hopt := @Compiler.apply_emits ⟨.normal, [], f, 1⟩ rfl [] (.group 1 (seq [letterEre])) opt
  rw [show "([a-zA-Z])?".toList = "([a-zA-Z])".toList ++ ['?'] from rfl, List.foldlM_append, hgroup]
  exact (Option.bind_fun_some _).trans hopt

theorem compile_rxScanName {path scanname : Text} (hpath : ∀ c ∈ path, c ∈ operators → c = '.') :
    compile (rxScanName path scanname) =
      some (seq (.bol :: (path.map atom ++ (('/' :: scanname).map .chr ++ tailAtoms)))) := by
  have hfold : (rxScanName path scanname).foldlM Compiler.step .init =
      some ⟨.normal, [], ⟨0, [],
        [.bol] ++ path.map atom ++ ('/' :: scanname).map .chr ++ tailAtoms⟩, 2⟩ := by
    change (path ++ '/' :: (escape scanname ++ "([a-zA-Z])?(_ds[^_\\.]+)?$".toList)).foldlM
      Compiler.step ⟨.normal, [], ⟨0, [], [.bol]⟩, 0⟩ = _
    rw [List.foldlM_append, foldlM_atoms rfl hpath]
    change (escape scanname ++ "([a-zA-Z])?(_ds[^_\\.]+)?$".toList).foldlM Compiler.step
      ⟨.normal, [], ⟨0, [], [.bol] ++ path.map atom ++ [.chr '/']⟩, 0⟩ = _
    have htail : "([a-zA-Z])?(_ds[^_\\.]+)?$".toList =
        "([a-zA-Z])?".toList ++ (streamPattern [] ++ ['$']) := by
      decide
    rw [List.foldlM_append, foldlM_escape rfl, htail]
    refine (Option.bind_some _ _).trans ?_
    rw [List.foldlM_append, Compiler.emits, foldlM_extension]
    refine (Option.bind_some _ _).trans ?_
    rw [List.foldlM_append, Compiler.emits, foldlM_streamPattern]
    simp [tailAtoms, namesStream, ds, Compiler.emits, Compiler.step, Compiler.emit]
  rw [compile, hfold]
  simp [Frame.close]

/-! ## What it matches -/

/-- A recording of this name with this extension, or with none. -/
def Reads (scanname : Text) (x : Option Char) (entry : Text) : Prop :=
  entry = named scanname x ∨ ∃ s, Good s ∧ entry = named scanname x ++ ds ++ s

theorem mem_candidates {x : Option Char} : x ∈ candidates ↔ ∀ c ∈ x, c ∈ extensions := by
  cases x with
  | none => simp [candidates]
  | some c => simp [candidates]

/-- An extension is not where the stream begins. -/
theorem Reads.unique {scanname entry : Text} {x y : Option Char} (hx : x ∈ candidates)
    (hy : y ∈ candidates) (h : Reads scanname x entry) (h' : Reads scanname y entry) : x = y := by
  have hfirst {x : Option Char} (h : Reads scanname x entry) :
      ∃ t, entry = scanname ++ (x.toList ++ t) ∧ ∀ c ∈ t.head?, c = '_' := by
    rcases h with rfl | ⟨s, -, rfl⟩
    · exact ⟨[], by simp [named], by simp⟩
    · exact ⟨ds ++ s, by simp [named], by simp [ds]⟩
  have hletter : '_' ∉ extensions := by simp [mem_extensions]
  obtain ⟨t, rfl, ht⟩ := hfirst h
  obtain ⟨t', heq, ht'⟩ := hfirst h'
  have heq := List.append_cancel_left heq
  cases x with
  | none =>
    cases y with
    | none => rfl
    | some c =>
      obtain rfl : c = '_' := ht c (by simp [show t = c :: t' from heq])
      exact absurd (mem_candidates.mp hy _ rfl) hletter
  | some c =>
    cases y with
    | none =>
      obtain rfl : c = '_' := ht' c (by simp [show t' = c :: t from heq.symm])
      exact absurd (mem_candidates.mp hx _ rfl) hletter
    | some d =>
      obtain rfl : c = d := (List.cons.inj heq).1
      rfl

theorem mem_run_extension {k k' : Cursor} :
    k' ∈ run (opt (.group 1 (seq [letterEre]))) k ↔
      (∃ c ∈ extensions, ∃ rest, k.rest = c :: rest ∧ k' = (k.moved [c] rest).bound 1 [c]) ∨
        k' = k := by
  have hletter : letterEre.accepts =
      some fun c => inRanges [('a', 'z'), ('z', 'z'), ('A', 'Z'), ('Z', 'Z')] c != false := rfl
  rw [mem_run_opt, mem_run_group]
  simp only [run_seq_one, run_accepts hletter, mem_one, bne_iff_ne, ne_eq, Bool.not_eq_false,
    inRanges_letter]
  constructor
  · rintro (⟨m, ⟨c, rest, hrest, hc, rfl⟩, rfl⟩ | rfl)
    · exact .inl ⟨c, hc, rest, hrest, by simp [Cursor.moved]⟩
    · exact .inr rfl
  · rintro (⟨c, hc, rest, hrest, rfl⟩ | rfl)
    · exact .inl ⟨_, ⟨c, rest, hrest, hc, rfl⟩, by simp [Cursor.moved]⟩
    · exact .inr rfl

/-- The first group is the extension. -/
theorem mem_run_tail {k k' : Cursor} (hk : k.groups = []) (h : k' ∈ run (seq tailAtoms) k) :
    ∃ x ∈ candidates, Reads [] x k.rest ∧ k'.groups.lookup 1 = x.map ([·]) := by
  rw [tailAtoms, mem_run_cons] at h
  simp only [mem_run_append, mem_run_extension, mem_run_streamAtoms, run_seq_one, mem_run_eol] at h
  obtain ⟨m, hm, m', hm', hend, rfl⟩ := h
  obtain ⟨x, hx, hrest, hgroups⟩ : ∃ x ∈ candidates, k.rest = x.toList ++ m.rest ∧
      m.groups = (x.map fun c => (1, [c])).toList := by
    rcases hm with ⟨c, hc, rest, hrest, rfl⟩ | rfl
    · exact ⟨some c, mem_candidates.mpr (by simpa using hc), hrest, by
        simp [Cursor.bound, Cursor.moved, hk]⟩
    · exact ⟨none, mem_candidates.mpr (by simp), rfl, by simp [hk]⟩
  refine ⟨x, hx, ?_⟩
  rcases hm' with rfl | ⟨-, s, rest, hs, hgood, rfl⟩
  · rw [hend] at hrest
    refine ⟨.inl (by simpa [named] using hrest), ?_⟩
    rw [hgroups]
    cases x with
    | none => rfl
    | some c => rfl
  · obtain rfl : rest = [] := hend
    refine ⟨.inr ⟨s, hgood, by rw [hrest, hs]; simp [named]⟩, ?_⟩
    change ((2, ds ++ s) :: m.groups).lookup 1 = _
    rw [hgroups]
    cases x with
    | none => rfl
    | some c => rfl

theorem run_tail {k : Cursor} {x : Option Char} (hx : x ∈ candidates) (h : Reads [] x k.rest) :
    ∃ k', k' ∈ run (seq tailAtoms) k := by
  simp only [tailAtoms, mem_run_cons, mem_run_append, mem_run_extension, mem_run_streamAtoms,
    run_seq_one, mem_run_eol]
  obtain ⟨t, hrest, ht⟩ : ∃ t, k.rest = x.toList ++ t ∧ (t = [] ∨ ∃ s, Good s ∧ t = ds ++ s) := by
    rcases h with h | ⟨s, hs, h⟩
    · exact ⟨[], by simpa [named] using h, .inl rfl⟩
    · exact ⟨ds ++ s, by simpa [named] using h, .inr ⟨s, hs, rfl⟩⟩
  obtain ⟨m, hm, hmrest⟩ : ∃ m, ((∃ c ∈ extensions, ∃ rest, k.rest = c :: rest ∧
      m = (k.moved [c] rest).bound 1 [c]) ∨ m = k) ∧ m.rest = t := by
    cases x with
    | none => exact ⟨k, .inr rfl, hrest⟩
    | some c => exact ⟨_, .inl ⟨c, mem_candidates.mp hx c rfl, t, hrest, rfl⟩, rfl⟩
  rcases ht with rfl | ⟨s, hs, rfl⟩
  · exact ⟨m, m, hm, m, .inl rfl, hmrest, rfl⟩
  · exact ⟨_, m, hm, _, .inr ⟨by simp [namesStream, ds], s, [], by simpa using hmrest, hs, rfl⟩,
      rfl, rfl⟩

theorem length_of_spells {rs : List Ere} {u : Text} (h : Spells rs u) : u.length = rs.length := by
  induction rs generalizing u with
  | nil =>
    cases u with
    | nil => rfl
    | cons c u => cases h
  | cons r rs ih =>
    cases u with
    | nil => cases h
    | cons c u => rw [List.length_cons, List.length_cons, ih h.2]

/-- On an entry of the mountpoint itself. -/
theorem mem_run_path (path scanname entry : Text) (k' : Cursor) :
    k' ∈ run (seq (path.map atom ++ (('/' :: scanname).map .chr ++ tailAtoms)))
        ⟨[], path ++ '/' :: entry, []⟩ ↔
      ∃ rest, entry = scanname ++ rest ∧
        k' ∈ run (seq tailAtoms) ⟨path ++ '/' :: scanname, rest, []⟩ := by
  have hchr : ∀ r ∈ ('/' :: scanname).map Ere.chr, r.accepts.isSome = true :=
    fun r hr => accepts_of_mem_chrs hr
  have hatom : ∀ r ∈ path.map atom, r.accepts.isSome = true := by
    intro r hr
    obtain ⟨c, -, rfl⟩ := List.mem_map.mp hr
    exact Option.isSome_iff_exists.mpr ⟨_, (accepts_atom c).choose_spec.1⟩
  simp only [mem_run_append, mem_run_spelled hatom, mem_run_spelled hchr, spells_chr]
  constructor
  · rintro ⟨m, ⟨u, rest, hrest, hu, rfl⟩, m', ⟨v, rest', hrest', rfl, rfl⟩, hk'⟩
    have hlength : path.length = u.length := by rw [length_of_spells hu, List.length_map]
    obtain ⟨rfl, hrest⟩ := List.append_inj hrest hlength
    have hrest' : rest = '/' :: scanname ++ rest' := hrest'
    exact ⟨rest', by simpa [hrest'] using hrest, hk'⟩
  · rintro ⟨rest, rfl, hk'⟩
    exact ⟨_, ⟨path, '/' :: (scanname ++ rest), rfl, spells_atoms path, rfl⟩, _,
      ⟨'/' :: scanname, rest, rfl, rfl, rfl⟩, hk'⟩

theorem reads_append {scanname rest : Text} {x : Option Char} :
    Reads scanname x (scanname ++ rest) ↔ Reads [] x rest := by
  simp [Reads, named]

/-- What is said of a path. -/
def extensionOf (mo : Option Matchresult) : Option (Option Char) :=
  mo.map fun mo => (mo.lookup 1).map (·.headD '\x00')

theorem extensionOf_iff_reads {regcomp : Regcomp} {path scanname entry : Text} {x : Option Char}
    {rx : RegularExpression} (hpath : ∀ c ∈ path, c ∈ operators → c = '.')
    (hconforms : Conforms regcomp (rxScanName path scanname))
    (hrx : regcomp (rxScanName path scanname) = some rx) (hx : x ∈ candidates) :
    extensionOf (rx (path ++ '/' :: entry)) = some x ↔ Reads scanname x entry := by
  obtain ⟨rx', hrx', hmatches⟩ := hconforms _ (compile_rxScanName hpath)
  obtain rfl : rx' = rx := Option.some.inj (hrx'.symm.trans hrx)
  obtain ⟨hnone, hsome⟩ := hmatches (path ++ '/' :: entry)
  cases hmo : rx' (path ++ '/' :: entry) with
  | none =>
    have hnot := hnone hmo
    refine iff_of_false (by simp [extensionOf]) fun hreads => ?_
    have hfound : found (seq (.bol :: (path.map atom ++ (('/' :: scanname).map .chr ++ tailAtoms))))
        (path ++ '/' :: entry) = true := by
      rw [found_bol]
      simp only [mem_run_path]
      obtain ⟨rest, rfl⟩ : ∃ rest, entry = scanname ++ rest := by
        rcases hreads with rfl | ⟨s, -, rfl⟩
        · exact ⟨_, rfl⟩
        · exact ⟨x.toList ++ ds ++ s, by simp [named]⟩
      obtain ⟨k', hk'⟩ := @run_tail ⟨path ++ '/' :: scanname, rest, []⟩ x hx
        (reads_append.mp hreads)
      exact ⟨k', rest, rfl, hk'⟩
    rw [hnot] at hfound
    cases hfound
  | some mo =>
    obtain ⟨i, hi, k, hk, hgroups⟩ := hsome mo hmo
    rw [run_bol _ hi] at hk
    split at hk
    · obtain ⟨rest, rfl, htail⟩ := (mem_run_path path scanname entry k).mp hk
      obtain ⟨y, hy, hreads, hgroup⟩ := mem_run_tail rfl htail
      have hext : extensionOf (some mo) = some y := by
        rw [extensionOf, Option.map_some, hgroups, hgroup, Option.map_map]
        cases y with
        | none => rfl
        | some c => rfl
      rw [hext, Option.some.injEq]
      constructor
      · rintro rfl
        exact reads_append.mpr hreads
      · exact fun h => Reads.unique hy hx (reads_append.mpr hreads) h
    · cases hk

/-! ## The counts -/

theorem isPrefixOf_and_good {stream entry : Text} :
    (stream.isPrefixOf entry && decide (Good (entry.drop stream.length))) = true ↔
      ∃ s, Good s ∧ entry = stream ++ s := by
  rw [Bool.and_eq_true, List.isPrefixOf_iff_prefix, decide_eq_true_eq]
  constructor
  · rintro ⟨⟨s, rfl⟩, hgood⟩
    exact ⟨s, by simpa using hgood, rfl⟩
  · rintro ⟨s, hgood, rfl⟩
    exact ⟨⟨s, rfl⟩, by simpa using hgood⟩

theorem shows_iff {regcomp : Regcomp} {scanname : Text} {m : Mountpoint} {rx : RegularExpression}
    (hconforms : Plain m.path scanname → Conforms regcomp (rxScanName m.path scanname))
    (hrx : regcomp (rxScanName m.path scanname) = some rx) {x : Option Char} (hx : x ∈ candidates)
    (entry : Text) : shows regcomp scanname x m entry = true ↔
      extensionOf (rx (m.path ++ '/' :: entry)) = some x := by
  unfold shows
  by_cases hplain : Plain m.path scanname
  · rw [if_pos hplain, extensionOf_iff_reads hplain.1 (hconforms hplain) hrx hx, Bool.or_eq_true,
      isPrefixOf_and_good, decide_eq_true_eq, Reads]
  · rw [if_neg hplain, hrx, Option.any_some]
    cases rx (m.path ++ '/' :: entry) with
    | none => simp [extensionOf]
    | some mo => simp [extensionOf]

/-- How many there are of each kind so far. -/
def Tallies (total : Option Char → Nat) (cnt : DuplicateCounterData) : Prop :=
  (cnt.duplicateDetected = true ↔ total none ≠ 0) ∧
    ∀ c, cnt.duplicateCount c = .ofNat (total (some c))

theorem Tallies.assign {total : Option Char → Nat} {cnt : DuplicateCounterData}
    (h : Tallies total cnt) (mo : Option Matchresult) :
    Tallies (fun x => total x + if extensionOf mo = some x then 1 else 0) (cnt.assign mo) := by
  obtain ⟨hdetected, hcount⟩ := h
  cases mo with
  | none => simpa [extensionOf, DuplicateCounterData.assign] using ⟨hdetected, hcount⟩
  | some mo =>
    cases hgroup : mo.lookup 1 with
    | none =>
      constructor
      · simp [extensionOf, DuplicateCounterData.assign, hgroup]
      · intro c
        simp [extensionOf, DuplicateCounterData.assign, hgroup, hcount]
    | some suffix =>
      have hext : extensionOf (some mo) = some (some (suffix.headD '\x00')) := by
        rw [extensionOf, Option.map_some, hgroup, Option.map_some]
      have hassign : cnt.assign (some mo) = ⟨cnt.duplicateDetected,
          Function.update cnt.duplicateCount (suffix.headD '\x00')
            (cnt.duplicateCount (suffix.headD '\x00') + 1)⟩ := by
        rw [DuplicateCounterData.assign, hgroup]
      generalize suffix.headD '\x00' = d at hext hassign
      rw [hext, hassign]
      constructor
      · simpa using hdetected
      · intro c
        by_cases hc : c = d
        · subst hc
          simp [hcount]
        · simp [hcount, Function.update_of_ne hc, Ne.symm hc]

theorem Tallies.foldl {total : Option Char → Nat} {cnt : DuplicateCounterData}
    (h : Tallies total cnt) (mos : List (Option Matchresult)) :
    Tallies (fun x => total x + mos.countP fun mo => extensionOf mo = some x)
      (mos.foldl .assign cnt) := by
  induction mos generalizing total cnt with
  | nil => exact h
  | cons mo mos ih =>
    have hstep := ih (h.assign mo)
    simp only [List.countP_cons, decide_eq_true_eq] at hstep ⊢
    simpa only [List.foldl_cons, Nat.add_assoc, Nat.add_comm, Nat.add_left_comm] using hstep

/-- What a thread adds. -/
def tally (x : Option Char) (args : NameScannerArgs) : Nat :=
  if args.mountPoint.readable then
    args.mountPoint.entries.dedup.countP fun entry =>
      extensionOf (args.rxScanName (args.mountPoint.path ++ '/' :: entry)) = some x
  else 0

theorem Tallies.nameScanner {total : Option Char → Nat} {cnt : DuplicateCounterData}
    (h : Tallies total cnt) (args : NameScannerArgs) :
    Tallies (fun x => total x + tally x args) (nameScanner cnt args) := by
  unfold ScanName.nameScanner dirMapper tally
  cases args.mountPoint.readable with
  | false => exact h
  | true =>
    have hfold := h.foldl (args.mountPoint.entries.dedup.map fun entry =>
      args.rxScanName (args.mountPoint.path ++ '/' :: entry))
    simpa [List.countP_map, Function.comp_def] using hfold

theorem tallies_threads (threads : List NameScannerArgs) :
    Tallies (fun x => (threads.map (tally x)).sum) (threads.foldl nameScanner .init) := by
  have hfrom {total : Option Char → Nat} {cnt : DuplicateCounterData} (h : Tallies total cnt) :
      Tallies (fun x => total x + (threads.map (tally x)).sum) (threads.foldl nameScanner cnt) := by
    induction threads generalizing total cnt with
    | nil => exact h
    | cons args threads ih =>
      have hstep := ih (h.nameScanner args)
      simpa only [List.foldl_cons, List.map_cons, List.sum_cons, Nat.add_assoc] using hstep
  have hinit : Tallies (fun _ => 0) .init := ⟨by simp [DuplicateCounterData.init], fun _ => rfl⟩
  simpa using hfrom hinit

theorem startThreads_ok {regcomp : Regcomp} {scanname : Text} {disks : List Mountpoint}
    {threads : List NameScannerArgs} (h : startThreads regcomp scanname disks = .ok threads) :
    threads.map NameScannerArgs.mountPoint = disks ∧ ∀ args ∈ threads,
      regcomp (rxScanName args.mountPoint.path scanname) = some args.rxScanName ∧
        args.mountPoint.startable = true := by
  induction disks generalizing threads with
  | nil =>
    cases h
    exact ⟨rfl, nofun⟩
  | cons m disks ih =>
    rw [startThreads] at h
    split at h
    · cases h
    · rename_i rx hrx
      split at h
      · rename_i hstart
        cases hrest : startThreads regcomp scanname disks with
        | error e =>
          rw [hrest] at h
          cases h
        | ok rest =>
          rw [hrest] at h
          cases h
          obtain ⟨hmap, hall⟩ := ih hrest
          refine ⟨by rw [List.map_cons, hmap], fun args hargs => ?_⟩
          rcases List.mem_cons.mp hargs with rfl | hargs
          · exact ⟨hrx, hstart⟩
          · exact hall args hargs
      · cases h

theorem startThreads_error {regcomp : Regcomp} {scanname e : _} {disks : List Mountpoint}
    (h : startThreads regcomp scanname disks = .error e) :
    ∃ m ∈ disks, regcomp (rxScanName m.path scanname) = none ∨ m.startable = false := by
  induction disks with
  | nil => cases h
  | cons m disks ih =>
    rw [startThreads] at h
    split at h
    · rename_i hnone
      exact ⟨m, List.mem_cons_self, .inl hnone⟩
    · split at h
      · cases hrest : startThreads regcomp scanname disks with
        | ok rest =>
          rw [hrest] at h
          cases h
        | error e' =>
          obtain ⟨m', hm', hwhy⟩ := ih (by
            rw [hrest] at h ⊢
            cases h
            rfl)
          exact ⟨m', List.mem_cons_of_mem _ hm', hwhy⟩
      · rename_i hstart
        exact ⟨m, List.mem_cons_self, .inr (Bool.eq_false_iff.mpr hstart)⟩

/-- In whatever order the threads take their turns. -/
theorem tallies_uses {regcomp : Regcomp} {scanname : Text} {disks : List Mountpoint}
    {threads order : List NameScannerArgs} (hconforms : ∀ m ∈ disks, Plain m.path scanname →
      Conforms regcomp (rxScanName m.path scanname))
    (hstart : startThreads regcomp scanname disks = .ok threads) (horder : order.Perm threads) :
    ∃ total, Tallies total (order.foldl nameScanner .init) ∧
      ∀ x ∈ candidates, total x = uses regcomp scanname disks x := by
  refine ⟨_, tallies_threads order, fun x hx => ?_⟩
  obtain ⟨hmap, hall⟩ := startThreads_ok hstart
  rw [(horder.map (tally x)).sum_nat, uses, ← hmap, List.map_map]
  refine congrArg List.sum (List.map_congr_left fun args hargs => ?_)
  have hmem : args.mountPoint ∈ disks := by
    rw [← hmap]
    exact List.mem_map_of_mem hargs
  have hshows := shows_iff (hconforms _ hmem) (hall args hargs).1 hx
  rw [tally, Function.comp_apply]
  refine if_congr Iff.rfl (List.countP_congr fun entry _ => ?_) rfl
  rw [hshows, decide_eq_true_eq]

theorem foldl_leastUsed (count : Char → UInt32) (cs : List Char) {least : Char × UInt32}
    (hleast : least.2 ≠ 0) :
    let found := cs.foldl (fun least c => if count c < least.2 then (c, count c) else least) least
    match cs.find? fun c => count c = 0 with
    | some c => found = (c, 0)
    | none => found.2 ≠ 0 := by
  have hstays (cs : List Char) (c : Char) : cs.foldl
      (fun least c => if count c < least.2 then (c, count c) else least) (c, 0) = (c, 0) := by
    induction cs with
    | nil => rfl
    | cons d cs ih =>
      rw [List.foldl_cons, if_neg (UInt32.not_lt_zero), ih]
  induction cs generalizing least with
  | nil => exact hleast
  | cons c cs ih =>
    dsimp only
    rw [List.foldl_cons]
    by_cases hzero : count c = 0
    · have hlt : count c < least.2 := by
        rw [hzero]
        exact UInt32.pos_iff_ne_zero.mpr hleast
      rw [List.find?_cons_of_pos (by simpa using hzero), if_pos hlt, hzero]
      exact hstays cs c
    · rw [List.find?_cons_of_neg (by simpa using hzero)]
      refine ih ?_
      split
      · exact hzero
      · exact hleast

/-! ## The name -/

section
variable {regcomp : Regcomp} {turns : List NameScannerArgs → List NameScannerArgs}
  {scanname : Text} {disks : List Mountpoint} {threads : List NameScannerArgs}

theorem mkScanName_started (hlook : ¬(scanname = [] ∨ isNullDiskset disks = true))
    (hstart : startThreads regcomp scanname disks = .ok threads) :
    let cnt := (turns threads).foldl nameScanner .init
    mkScanName regcomp turns disks scanname =
      if cnt.duplicateDetected = false then .ok scanname
      else if cnt.leastUsed.2 = 0 then .ok (scanname ++ [cnt.leastUsed.1])
      else .error " - more than 52 recordings with the same scan name is not possible" := by
  unfold mkScanName
  rw [if_neg hlook, hstart]

/-- The first name that is not counted. -/
theorem mkScanName_spec (hconforms : ∀ m ∈ disks, Plain m.path scanname →
      Conforms regcomp (rxScanName m.path scanname))
    (hturns : ∀ threads, (turns threads).Perm threads)
    (hlook : ¬(scanname = [] ∨ isNullDiskset disks = true))
    (hstart : startThreads regcomp scanname disks = .ok threads) :
    match candidates.find? fun x => !counted regcomp scanname disks x with
    | some x => mkScanName regcomp turns disks scanname = .ok (named scanname x)
    | none => ∃ e, mkScanName regcomp turns disks scanname = .error e := by
  rw [mkScanName_started hlook hstart]
  obtain ⟨total, ⟨hdetected, hcount⟩, htotal⟩ := tallies_uses hconforms hstart (hturns threads)
  rw [htotal none (mem_candidates.mpr nofun)] at hdetected
  by_cases hnone : uses regcomp scanname disks none = 0
  · have hcounted : (!counted regcomp scanname disks none) = true := by simp [counted, hnone]
    have hclean : ((turns threads).foldl nameScanner .init).duplicateDetected = false :=
      Bool.eq_false_iff.mpr fun h => hdetected.mp h hnone
    have hfind : candidates.find? (fun x => !counted regcomp scanname disks x) = some none :=
      List.find?_cons_of_pos hcounted
    rw [hfind, if_pos hclean]
    simp [named]
  · have hcounted : ¬(!counted regcomp scanname disks none) = true := by simp [counted, hnone]
    have hfound : ¬((turns threads).foldl nameScanner .init).duplicateDetected = false := by
      rw [hdetected.mpr hnone]
      decide
    have hfree : ∀ c ∈ extensions, decide (((turns threads).foldl nameScanner
        .init).duplicateCount c = 0) = !counted regcomp scanname disks (some c) := by
      intro c hc
      rw [hcount, htotal _ (mem_candidates.mpr (by simpa using hc)), counted]
      have hzero : UInt32.ofNat (uses regcomp scanname disks (some c)) = 0 ↔
          uses regcomp scanname disks (some c) % 2 ^ 32 = 0 := by
        rw [← UInt32.toNat_inj, UInt32.toNat_ofNat']
        rfl
      simp only [hzero, ne_eq, decide_not, Bool.not_not]
    have hleast := foldl_leastUsed ((turns threads).foldl nameScanner .init).duplicateCount
      extensions (show ('\x00', (2 ^ 32 - 1 : UInt32)).2 ≠ 0 by decide)
    have hsearch : candidates.find? (fun x => !counted regcomp scanname disks x) =
        (extensions.find? fun c => !counted regcomp scanname disks (some c)).map some := by
      rw [candidates, List.find?_cons, Bool.eq_false_iff.mpr hcounted, List.find?_map,
        Function.comp_def]
    rw [hsearch, if_neg hfound, ← List.find?_congr hfree]
    cases hfind : extensions.find? fun c => decide (((turns threads).foldl nameScanner
        .init).duplicateCount c = 0) with
    | some c =>
      rw [hfind] at hleast
      have hleast : ((turns threads).foldl nameScanner .init).leastUsed = (c, 0) := hleast
      rw [Option.map_some, hleast, if_pos rfl]
      rfl
    | none =>
      rw [hfind] at hleast
      have hleast : ((turns threads).foldl nameScanner .init).leastUsed.2 ≠ 0 := hleast
      exact ⟨_, if_neg hleast⟩

theorem compiles_iff {m : Mountpoint} (hconforms : Plain m.path scanname →
      Conforms regcomp (rxScanName m.path scanname)) :
    Compiles regcomp scanname m ↔ regcomp (rxScanName m.path scanname) ≠ none := by
  constructor
  · rintro (hplain | hsome)
    · obtain ⟨rx, hrx, -⟩ := hconforms hplain _ (compile_rxScanName hplain.1)
      rw [hrx]
      exact Option.some_ne_none rx
    · exact hsome
  · exact .inr

/-- The name is not in use exactly when the first one that is not counted is not. -/
theorem unused_iff (hconforms : ∀ m ∈ disks, Plain m.path scanname →
      Conforms regcomp (rxScanName m.path scanname))
    (hturns : ∀ threads, (turns threads).Perm threads) :
    Unused disks scanname (mkScanName regcomp turns disks scanname) ↔
      Reliable regcomp scanname disks := by
  unfold Reliable
  by_cases hlook : scanname = [] ∨ isNullDiskset disks = true
  · rw [if_pos hlook, mkScanName, if_pos hlook]
    exact ⟨And.right, fun h => ⟨⟨none, mem_candidates.mpr nofun, by simp [named]⟩, h⟩⟩
  rw [if_neg hlook]
  cases hstart : startThreads regcomp scanname disks with
  | error e =>
    have hthrows : mkScanName regcomp turns disks scanname = .error e := by
      rw [mkScanName, if_neg hlook, hstart]
    rw [hthrows]
    by_cases hunstartable : ∃ m ∈ disks, m.startable = false
    · exact iff_of_true (.inr hunstartable) (.inl hunstartable)
    obtain ⟨m, hm, hnone | hfails⟩ := startThreads_error hstart
    · have hnot : ¬Compiles regcomp scanname m := by
        rw [compiles_iff (hconforms m hm)]
        exact fun h => h hnone
      constructor
      · rintro (hall | hunstartable')
        · exact .inr ⟨fun hcompiles => absurd (hcompiles m hm) hnot, fun _ => hall⟩
        · exact absurd hunstartable' hunstartable
      · rintro (hunstartable' | ⟨-, hall⟩)
        · exact absurd hunstartable' hunstartable
        · exact .inl (hall ⟨m, hm, hnot⟩)
    · exact absurd ⟨m, hm, hfails⟩ hunstartable
  | ok threads =>
    obtain ⟨hmap, hthreads⟩ := startThreads_ok hstart
    have hdisk : ∀ m ∈ disks, Compiles regcomp scanname m ∧ m.startable = true := by
      intro m hm
      rw [compiles_iff (hconforms m hm)]
      rw [← hmap] at hm
      obtain ⟨args, hargs, rfl⟩ := List.mem_map.mp hm
      obtain ⟨hrx, hstartable⟩ := hthreads args hargs
      exact ⟨by rw [hrx]; exact Option.some_ne_none _, hstartable⟩
    have hstartable : ¬∃ m ∈ disks, m.startable = false := by
      rintro ⟨m, hm, hfails⟩
      rw [(hdisk m hm).2] at hfails
      cases hfails
    have hcompiles : ¬∃ m ∈ disks, ¬Compiles regcomp scanname m :=
      fun ⟨m, hm, hnot⟩ => hnot (hdisk m hm).1
    have hnoticed : Unused disks scanname (mkScanName regcomp turns disks scanname) ↔
        Noticed regcomp scanname disks := by
      have hspec := mkScanName_spec hconforms hturns hlook hstart
      unfold Noticed
      cases hfind : candidates.find? fun x => !counted regcomp scanname disks x with
      | some x =>
        rw [hfind] at hspec
        have hspec : mkScanName regcomp turns disks scanname = .ok (named scanname x) := hspec
        rw [hspec]
        exact ⟨And.right, fun h => ⟨⟨x, List.mem_of_find?_eq_some hfind, rfl⟩, h⟩⟩
      | none =>
        rw [hfind] at hspec
        obtain ⟨e, hthrows⟩ := hspec
        rw [hthrows]
        exact or_iff_left hstartable
    rw [hnoticed]
    constructor
    · exact fun h => .inr ⟨fun _ => h, fun h' => absurd h' hcompiles⟩
    · rintro (h | ⟨h, -⟩)
      · exact absurd h hstartable
      · exact h fun m hm => (hdisk m hm).1

end

/-! ## Hidden recordings -/

/-- A name that is in use and not counted is that of a stream with another suffix, or on a
mountpoint that is not read or not plain, unless it has been counted too often. -/
theorem hidden {regcomp : Regcomp} {scanname : Text} {disks : List Mountpoint} {x : Option Char}
    (huse : InUse disks (named scanname x)) (hnot : counted regcomp scanname disks x = false) :
    (∃ m ∈ disks, ∃ entry ∈ m.entries, m.readable = false ∨ ¬Plain m.path scanname ∨
      ∃ s, Produced s ∧ ¬Good s ∧ entry = withSuffix (named scanname x) (some s)) ∨
    2 ^ 32 ≤ uses regcomp scanname disks x := by
  obtain ⟨m, hm, entry, hentry, hreads⟩ := huse
  by_cases hhides : m.readable = false ∨ ¬Plain m.path scanname ∨
      ∃ s, Produced s ∧ ¬Good s ∧ entry = withSuffix (named scanname x) (some s)
  · exact .inl ⟨m, hm, entry, hentry, hhides⟩
  simp only [not_or, not_not, Bool.not_eq_false, not_exists, not_and] at hhides
  obtain ⟨hreadable, hplain, hgood⟩ := hhides
  have hshows : shows regcomp scanname x m entry = true := by
    rw [shows, if_pos hplain, Bool.or_eq_true, isPrefixOf_and_good, decide_eq_true_eq]
    rcases hreads with rfl | ⟨s, hs, rfl⟩
    · exact .inl rfl
    · exact .inr ⟨s, not_not.mp fun hbad => hgood s hs hbad rfl, rfl⟩
  have hpos : 0 < uses regcomp scanname disks x := by
    have hcount : 0 < m.entries.dedup.countP (shows regcomp scanname x m) :=
      List.countP_pos_iff.mpr ⟨entry, List.mem_dedup.mpr hentry, hshows⟩
    refine List.sum_pos_iff_exists_pos_nat.mpr ⟨_, List.mem_map.mpr ⟨m, hm, rfl⟩, ?_⟩
    rwa [if_pos hreadable]
  cases x with
  | none => exact absurd hnot (by simp [counted, hpos.ne'])
  | some c =>
    have hmod : uses regcomp scanname disks (some c) % 2 ^ 32 = 0 := by
      simpa [counted] using hnot
    exact .inr (Nat.le_of_dvd hpos (Nat.dvd_of_mod_eq_zero hmod))

/-- `regcomp` and `regexec` as POSIX has them. -/
def posix : Regcomp := fun pattern =>
  (compile pattern).map fun r text => (regexec r text).map Cursor.groups

theorem conforms_posix (pattern : Text) : Conforms posix pattern := by
  intro r hr
  refine ⟨_, by rw [posix, hr, Option.map_some], fun text => ⟨fun hnone => ?_, fun mo hmo => ?_⟩⟩
  · exact regexec_none (Option.map_eq_none_iff.mp hnone)
  · obtain ⟨k, hk, rfl⟩ := Option.map_eq_some_iff.mp hmo
    obtain ⟨i, hi, hk⟩ := regexec_some hk
    exact ⟨i, hi, k, hk, fun n => rfl⟩

def disk (entries : List Text) : Mountpoint := ⟨"/mnt/disk0".toList, entries, true, true⟩

theorem unused_augmented :
    Unused [disk ["r".toList]] "r".toList (mkScanName posix id [disk ["r".toList]] "r".toList) ↔
      Reliable posix "r".toList [disk ["r".toList]] :=
  unused_iff (fun _ _ _ => conforms_posix _) fun threads => .refl threads

theorem parseHps_suffix {p : Char} {port : Nat} {s : Text} (hp : p ≠ '=')
    (hsplit : Lib.Split.split '@' false [p] = [[p]]) (hport : Net.parsePort [p] = .ok port)
    (hs : s ≠ []) (heq : '=' ∉ s) : Net.parseHps (p :: '=' :: s) = .ok ⟨[], port, s⟩ := by
  have hparts : Lib.Split.split '=' false (p :: '=' :: s) = [[p], s] := by
    have hcons := Lib.Split.split_cons false s (show '=' ∉ [p] by simpa using hp.symm)
    rw [Lib.Split.split_last false heq] at hcons
    simpa [Lib.Split.kept] using hcons
  unfold Net.parseHps
  rw [hparts]
  simp only [List.headD_cons, hsplit, if_neg hs]
  change (Net.parsePort [p]).bind (fun port => .ok (⟨[], port, s⟩ : Net.Hps)) = _
  rw [hport]
  rfl

/-- With two ports there can be any suffix that can be given. -/
theorem produced_of_netPort {s : Text} (hs : s ≠ []) (heq : '=' ∉ s) (harg : Argument s) :
    Produced s := by
  have hone : Net.parseHps ('1' :: '=' :: s) = .ok ⟨[], 1, s⟩ :=
    parseHps_suffix (by decide) (by decide +kernel) (by decide +kernel) hs heq
  have htwo : Net.parseHps ('2' :: '=' :: s) = .ok ⟨[], 2, s⟩ :=
    parseHps_suffix (by decide) (by decide +kernel) (by decide +kernel) hs heq
  have hnew : Net.newHps ['1' :: '=' :: s, '2' :: '=' :: s] =
      .ok (some [⟨[], 1, s⟩, ⟨[], 2, s⟩]) := by
    unfold Net.newHps
    change ((Net.parseHps ('1' :: '=' :: s)).bind fun x =>
      (Net.parseHps ('2' :: '=' :: s)).bind fun x' => Except.ok [x, x']).bind _ = _
    rw [hone, htwo]
    simp [Except.bind, hs]
  have hrun : Net.netPortRun [['1' :: '=' :: s, '2' :: '=' :: s]] =
      Net.analyzeSuffixes [⟨[], 1, s⟩, ⟨[], 2, s⟩] := by
    rw [Net.netPortRun, List.foldl_cons, List.foldl_nil, Net.netPortFn, hnew]
    rfl
  have hports : ∀ t ∈ [(0 : UInt32)],
      t.toNat < (Net.netPortRun [['1' :: '=' :: s, '2' :: '=' :: s]]).nPort := by
    rw [hrun]
    simp [Net.Netparms.nPort, Net.analyzeSuffixes]
  have htags : haveTags (Net.netPortRun [['1' :: '=' :: s, '2' :: '=' :: s]]) = true := by
    rw [hrun]
    simp [haveTags, Net.Netparms.nPort, Net.analyzeSuffixes, hs]
  refine ⟨.netPort [['1' :: '=' :: s, '2' :: '=' :: s]] [0] hports, ?_,
    (.netPortSuffix (Net.netPortRun [['1' :: '=' :: s, '2' :: '=' :: s]]).suffixmap, 0), ?_, ?_⟩
  · have hargument (p : Char) (hp : p ∉ [';', ':', ' ', '\r', '\n', '\x00']) :
        Argument (p :: '=' :: s) := by
      intro c hc
      rcases List.mem_cons.mp hc with rfl | hc
      · exact hp
      rcases List.mem_cons.mp hc with rfl | hc
      · decide
      · exact harg c hc
    intro args hargs arg hmem
    obtain rfl := List.mem_singleton.mp hargs
    rcases List.mem_cons.mp hmem with rfl | hmem
    · exact hargument '1' (by decide)
    · obtain rfl := List.mem_singleton.mp hmem
      exact hargument '2' (by decide)
  · rw [Recording.items, if_pos htags]
    exact List.mem_singleton_self _
  · rw [hrun]
    rfl

/-- A stream that has been recorded is not seen, and its name is given out again. -/
theorem hidden_by_suffix :
    let disks := [disk ["r_ds1_a".toList]]
    mkScanName posix id disks "r".toList = .ok "r".toList ∧
      ¬Unused disks "r".toList (mkScanName posix id disks "r".toList) := by
  have hname : mkScanName posix id [disk ["r_ds1_a".toList]] "r".toList = .ok "r".toList := by
    decide +kernel
  refine ⟨hname, ?_⟩
  rw [hname]
  rintro ⟨-, hunused⟩
  exact hunused ⟨_, List.mem_cons_self, _, List.mem_cons_self, .inr
    ⟨"1_a".toList, produced_of_netPort (by decide) (by decide) (by decide), by decide⟩⟩

end Jive5ab.Vbs.ScanName
