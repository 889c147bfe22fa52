import Jive5ab.Lib.OrdMap
import Jive5ab.Mountpoint.Pattern
import Mathlib.Data.List.Basic

/-! # Groups of mountpoints

The groups that are built in, those that `group_def` defines and those that the mounted
modules make, and what a name is looked up to be. -/
namespace Jive5ab.Mk6.Groups

open Std Mountpoint Lib.OrdMap

abbrev Text := List Char

abbrev Groupdefs := TreeMap Text (List Text)

/-! ## Built in -/

def rxMk6group : Text := "^[1-4]+$".toList

/-- `mk_builtins` -/
def builtinGroupdefs : Groupdefs := .ofList [
  ("1".toList, ["^/mnt/disks/1/[0-7]/data$".toList]),
  ("2".toList, ["^/mnt/disks/2/[0-7]/data$".toList]),
  ("3".toList, ["^/mnt/disks/3/[0-7]/data$".toList]),
  ("4".toList, ["^/mnt/disks/4/[0-7]/data$".toList]),
  ("flexbuf".toList, ["^/mnt/disk[0-9]+$".toList]),
  ("flexbuff".toList, ["^/mnt/disk[0-9]+$".toList]),
  ("mk6".toList, ["^/mnt/disks/[1234]/[0-7]/data$".toList]),
  (noMountpoint, [noMountpoint])]

def isBuiltin (groupid : Text) : Bool :=
  matches? rxMk6group groupid || builtinGroupdefs.contains groupid

/-- What the module numbers of a Mark6 group stand for, the last one first. -/
def patternOfModules : Text → List Text → Except String (List Text)
  | [], rv => .ok rv
  | p :: rest, rv =>
    match builtinGroupdefs[[p]]? with
    | none => .error s!" - internal inconsistency, rxMk6group matches but no pattern found for group {p}"
    | some patterns => patternOfModules rest (patterns ++ rv)

def patternOf (groupid : Text) : Except String (List Text) :=
  match builtinGroupdefs[groupid]? with
  | some patterns => .ok patterns
  | none => if matches? rxMk6group groupid then patternOfModules groupid [] else .ok []

/-! ## Defined by the user -/

/-- `OPTARG` -/
def optarg (n : Nat) (args : List Text) : Text := args.getD n []

def tolower (s : Text) : Text := s.map Char.toLower

def toupper (s : Text) : Text := s.map Char.toUpper

/-- `group_def = define : GRP : pattern ...`; looking the group up makes it, before it is
known whether there are patterns. -/
def define (groupid : Text) (args : List Text) (groups : Groupdefs) :
    Except String Unit × Groupdefs :=
  if ¬ 3 < args.length then (.error " - not enough arguments", groups)
  else if isBuiltin groupid then
    (.error " - attempt to redefine a built-in group definition", groups)
  else
    let groups := groups.insertIfNew groupid []
    let groupdefinition := (args.drop 3).filter (· ≠ [])
    if groupdefinition = [] then
      (.error s!" - no actual definition specified for group {String.ofList groupid}", groups)
    else (.ok (), groups.insert groupid groupdefinition)

/-- `group_def = delete : GRP` -/
def delete (groupid : Text) (args : List Text) (groups : Groupdefs) :
    Except String Unit × Groupdefs :=
  if args.length ≠ 3 then (.error " - too many arguments", groups)
  else if isBuiltin groupid then
    (.error " - attempt to delete a built-in group definition", groups)
  else if groups.contains groupid then (.ok (), groups.erase groupid)
  else (.error s!" - unknown group {String.ofList groupid}", groups)

/-- `group_def_fn` for a command, with the transfer that is in progress; the error is what it
throws, or the reply that refuses it. -/
def groupDef (transfer : Option String) (args : List Text) (groups : Groupdefs) :
    Except String Unit × Groupdefs :=
  match transfer with
  | some transfermode => (.error s!" 6 : not whilst {transfermode} is in progress ;", groups)
  | none =>
    let command := tolower (optarg 1 args)
    let groupid := optarg 2 args
    if ¬ 2 < args.length then (.error " - command requires at least 2 arguments", groups)
    else if command = "define".toList then define groupid args groups
    else if command = "delete".toList then delete groupid args groups
    else
      let shown := if command = [] then "(empty)" else String.ofList command
      (.error s!" - unknown subcommand {shown}", groups)

/-- The groups after these commands. -/
def defined (commands : List (Option String × List Text)) : Groupdefs :=
  commands.foldl (fun groups c => (groupDef c.1 c.2 groups).2) ∅

/-! ## Made by the mounted modules -/

/-- `readMSN`, from the first word in the file. -/
def readMSN (fn : String) (msn : Text) : Except String Text :=
  if msn = [] then .error s!"failed to read MSN from {fn}"
  else .ok (toupper (msn.takeWhile (· ≠ '/')))

/-- `checkDisk`: `eMSN` is what the file of a module and a disk has, if it can be read. -/
def checkDisk (eMSN : Nat → Nat → Option Text) (module disk : Nat) :
    Except String (Text × Text) :=
  match eMSN module disk with
  | some word => do
    let msn ← readMSN s!"/mnt/disks/.meta/{module}/{disk}/eMSN" word
    return (msn, s!"/mnt/disks/{module}/{disk}/data".toList)
  | none => .ok ([], [])

def modulesAndDisks : List (Nat × Nat) :=
  (List.range' 1 4).flatMap fun module => (List.range 8).map fun disk => (module, disk)

def findMountedModules (eMSN : Nat → Nat → Option Text) : Except String Groupdefs :=
  modulesAndDisks.foldlM (fun rv d => do
    let (msn, mountpoint) ← checkDisk eMSN d.1 d.2
    if msn = [] ∨ mountpoint = [] then return rv
    else return rv.insert msn (rv.getD msn [] ++ [mountpoint])) ∅

/-! ## Looking up -/

/-- `patternLookup`: the modules are found in capitals only. -/
def patternLookup (dict1 dict2 : Groupdefs) (grpdef : Text) : Except String (List Text) := do
  let builtinPattern ← patternOf grpdef
  if builtinPattern ≠ [] then return builtinPattern
  else match dict1[grpdef]?, dict2[toupper grpdef]? with
    | some patterns, _ => return patterns
    | none, some patterns => return patterns
    | none, none =>
      throw s!" - group definition '{String.ofList grpdef}' not found in dictionaries"

end Jive5ab.Mk6.Groups
