import Jive5ab.Lib.Glob
import Jive5ab.Lib.OrdMap
import Jive5ab.Mountpoint.Pattern

/-! # Finding mountpoints

`analyze_pattern` reads off a pattern where to start searching and how deep, and
`find_mountpoints` walks the directory tree from there, and leaves out what is on the root
device. What a text means as a regular expression is left open. -/
namespace Jive5ab.Mountpoint
open Std Lib Lib.Split Lib.Glob

/-- A compiled expression, if the text is one: what texts it matches. -/
abbrev Regcomp := Text → Option (Text → Bool)

/-! ## Patterns -/

inductive Matchable
  | shellglobbing (glob : Text)
  | regexglob (found : Text → Bool)
  | nullmatching

/-- The null matcher throws instead. -/
def Matchable.matches : Matchable → Text → Bool
  | .shellglobbing glob, s => fnmatch glob s
  | .regexglob found, s => found s
  | .nullmatching, _ => false

structure AnalResult where
  pfx : Text
  depth : Nat
  pattern : Matchable

/-- The characters of the bracket expression `[][\*\?\{\}\(\)\.]`; a backslash is one of them. -/
def rxPattern : List Char := [']', '[', '\\', '*', '?', '\x7b', '\x7d', '(', ')', '.']

def looksLikePattern (piece : Text) : Bool := piece.any (· ∈ rxPattern)

def rxRegex : Text := "^\\^.*\\$$".toList

/-- The pieces from the one on where the search for a pattern starts. -/
def fromStart (pieces : List Text) : List Text :=
  if pieces.head? = some ['^'] then pieces.tail else pieces

def withoutPattern (pieces : List Text) : List Text :=
  (fromStart pieces).takeWhile (!looksLikePattern ·)

/-- A slash, and the pieces with slashes between them. -/
def joined (pieces : List Text) : Text := '/' :: ['/'].intercalate pieces

/-- `analyze_pattern` -/
def analyzePattern (regcomp : Regcomp) (pattern : Text) : Except String AnalResult :=
  if ¬isValidPattern pattern then
    .error s!"Invalid path '{String.ofList pattern}': only absolute paths supported"
  else if pattern = noMountpoint then .ok ⟨noMountpoint, 0, .nullmatching⟩
  else
    let pieces := split '/' true pattern
    let start := pieces.length - (fromStart pieces).length
    let lastWithoutPattern := start + (withoutPattern pieces).length
    let pfx := joined (withoutPattern pieces)
    let depth := pieces.length - lastWithoutPattern
    if matches? rxRegex pattern then
      match regcomp pattern with
      | none => .error s!"Failed to compile RegEx({String.ofList pattern})"
      | some found => .ok ⟨pfx, depth, .regexglob found⟩
    else .ok ⟨pfx, depth, .shellglobbing pattern⟩

structure MpSettings where
  maxdepth : Nat
  regexes : List Matchable

abbrev MpMap := TreeMap Text MpSettings

def MpMap.add (rv : MpMap) (res : AnalResult) : MpMap :=
  let settings := rv[res.pfx]?.getD ⟨0, []⟩
  rv.insert res.pfx ⟨max res.depth settings.maxdepth, settings.regexes ++ [res.pattern]⟩

/-- `analyze_patterns` -/
def analyzePatterns (regcomp : Regcomp) : List Text → MpMap → Except String MpMap
  | [], rv => .ok rv
  | p :: patterns, rv => do
    let res ← analyzePattern regcomp p
    analyzePatterns regcomp patterns (rv.add res)

/-! ## The walk -/

/-- What a walk finds under a name; symbolic links are followed, and a directory has one name. -/
inductive Entry
  | file
  | unreadable
  | directory (entries : List (Text × Entry))

inductive Flag
  | file
  | directory
  | unreadable
  deriving DecidableEq

def Entry.flag : Entry → Flag
  | .file => .file
  | .unreadable => .unreadable
  | .directory _ => .directory

/-- `match_dirname`: what is inserted, and whether the subtree is skipped. -/
def matchDirname (settings : MpSettings) (path : Text) (flag : Flag) (level : Nat) :
    List Text × Bool :=
  if flag ≠ .directory then ([], false)
  else
    (if settings.regexes.any (·.matches path) then [path] else [], settings.maxdepth ≤ level)

def childPath (path name : Text) : Text :=
  if path = ['/'] then '/' :: name else path ++ '/' :: name

mutual
/-- `nftw`: a directory before what is in it. -/
def walk (settings : MpSettings) : Entry → Text → Nat → List Text
  | .directory entries, path, level =>
    let (found, skip) := matchDirname settings path .directory level
    found ++ if skip then [] else walkAll settings entries path (level + 1)
  | .file, path, level => (matchDirname settings path .file level).1
  | .unreadable, path, level => (matchDirname settings path .unreadable level).1
def walkAll (settings : MpSettings) : List (Text × Entry) → Text → Nat → List Text
  | [], _, _ => []
  | e :: entries, path, level =>
    walkEntry settings e path level ++ walkAll settings entries path level
def walkEntry (settings : MpSettings) : Text × Entry → Text → Nat → List Text
  | (name, entry), path, level => walk settings entry (childPath path name) level
end

/-- What is at the end of a path. -/
def Entry.at : Entry → List Text → Option Entry
  | entry, [] => some entry
  | .directory entries, name :: names => (entries.lookup name).bind (·.at names)
  | _, _ :: _ => none

def nftw (root : Entry) (settings : MpSettings) (dirpath : Text) : List Text :=
  match root.at (split '/' true dirpath) with
  | none => []
  | some entry => walk settings entry dirpath 0

/-! ## The root device -/

structure Sysmountpoint where
  path : Text
  device : Text
  deriving DecidableEq

/-- A whole directory, not just any text that `mp` starts with. -/
def isDirectoryPrefix (smp mp : Text) : Bool :=
  smp.isPrefixOf mp && (mp.length ≤ smp.length || mp[smp.length]? == some '/')

/-- The longest one around `mp` that is longer than the root device's; the root device else. -/
def mountedOn (sysmountpoints : List Sysmountpoint) (rootDevice : Sysmountpoint) (mp : Text) :
    Option Sysmountpoint :=
  sysmountpoints.foldl (fun pfx smp =>
    if isDirectoryPrefix smp.path mp ∧ (pfx.getD rootDevice).path.length < smp.path.length then
      some smp
    else pfx) none

/-- `find_mountpoints`; the result is a set, of which the order does not matter. -/
def findMountpoints (regcomp : Regcomp) (root : Entry) (sysmountpoints : List Sysmountpoint)
    (patterns : List Text) : Except String (List Text) := do
  let mountpoints ← analyzePatterns regcomp patterns ∅
  let mps := mountpoints.toList.flatMap fun (dirpath, settings) =>
    if dirpath = noMountpoint then [dirpath] else nftw root settings dirpath
  match sysmountpoints.find? (·.path = ['/']) with
  | none => .error " - your system does not have a root file system?!"
  | some rootDevice =>
    return mps.filter fun mp =>
      ¬(mountedOn sysmountpoints rootDevice mp = none ∧ mp ≠ noMountpoint)

/-! ## What is to be found -/

/-- The names on the way to a directory. -/
def IsPath (names : List Text) : Prop := ∀ name ∈ names, name ≠ [] ∧ '/' ∉ name

def pathText : List Text → Text
  | [] => ['/']
  | names => names.flatMap ('/' :: ·)

def IsDirectory (root : Entry) (names : List Text) : Prop :=
  ∃ entries, root.at names = some (.directory entries)

/-- Something is mounted on it or above it, other than on the root. -/
def OffRoot (sysmountpoints : List Sysmountpoint) (names : List Text) : Prop :=
  ∃ smp ∈ sysmountpoints, ∃ above, above ≠ [] ∧ above <+: names ∧ smp.path = pathText above

/-- What the pattern stands for, apart from where it is searched. -/
def Matches (regcomp : Regcomp) (pattern text : Text) : Prop :=
  isValidPattern pattern = true ∧ pattern ≠ noMountpoint ∧
    if matches? rxRegex pattern then ∃ found, regcomp pattern = some found ∧ found text = true
    else fnmatch pattern text = true

/-- The directory is where the analysis of the pattern says. -/
def AnalResult.Covers (res : AnalResult) (names : List Text) : Prop :=
  ∃ above, res.pfx = pathText above ∧ above <+: names ∧ names.length ≤ above.length + res.depth

structure LosesNoMatch (regcomp : Regcomp) (root : Entry) (sysmountpoints : List Sysmountpoint)
    (patterns : List Text) : Prop where
  covered : ∀ pattern ∈ patterns, ∀ names, IsPath names →
    Matches regcomp pattern (pathText names) →
      ∃ res, analyzePattern regcomp pattern = .ok res ∧ res.Covers names
  reported : ∀ mps, findMountpoints regcomp root sysmountpoints patterns = .ok mps →
    ∀ pattern ∈ patterns, ∀ names, IsPath names → Matches regcomp pattern (pathText names) →
      IsDirectory root names → OffRoot sysmountpoints names → pathText names ∈ mps

/-- Of a pattern and a path that it matches: a glob does not begin with `/^/`; a regular expression
has the pieces before its first special one as the path has them, and it has as many
pieces as the path. -/
def FitsPath (pattern : Text) (names : List Text) : Prop :=
  let pieces := split '/' true pattern
  if pattern.head? = some '/' then pieces.head? ≠ some ['^']
  else withoutPattern pieces <+: names ∧ names.length ≤ (fromStart pieces).length

end Jive5ab.Mountpoint
