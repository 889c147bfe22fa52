import Jive5ab.Lib.Scanf
import Jive5ab.Lib.Split
import Mathlib.Data.List.Dedup
import Mathlib.Data.List.Induction

/-! # Network ports with suffixes

`net_port_fn` as a command, and what `netparms_type` makes of the list of ports: a stream is
numbered by the place of its port. -/
namespace Jive5ab.Net
open Lib.Scanf Lib.Split

/-! ## Ports -/

/-- `hps_type` -/
structure Hps where
  host : List Char
  port : Nat
  suffix : List Char
  deriving DecidableEq

structure Netparms where
  hps : List Hps
  suffixmap : UInt32 → Option (List Char)
  nNonEmptySuffixes : Nat

def defPort : Nat := 2630

def defHPS : List Hps := [⟨[], defPort, []⟩]

/-- The stream ids are the places in the list; equal suffixes are counted once. -/
def analyzeSuffixes (hps : List Hps) : Netparms where
  hps := hps
  suffixmap streamId := hps[streamId.toNat]?.map Hps.suffix
  nNonEmptySuffixes := ((hps.map Hps.suffix).filter (· ≠ [])).dedup.length

def setHps (hps : List Hps) : Netparms := analyzeSuffixes (if hps = [] then defHPS else hps)

def Netparms.default : Netparms := analyzeSuffixes defHPS

def Netparms.nPort (np : Netparms) : Nat := np.hps.length

/-! ## The command -/

def isOctDigit (c : Char) : Bool := '0' ≤ c && c ≤ '7'

/-- `strtoul` with base 0: the number, whether it is out of range, and the text behind it. -/
def strtoul (s : List Char) : Option (Nat × Bool × List Char) :=
  let (negative, s) := takeSign (s.dropWhile isSpace)
  let (base, isDigit, s) :=
    if s.head? = some '0' ∧ s.tail.head?.any (·.toLower = 'x') ∧ (s.drop 2).head?.any isHexDigit then
      (16, isHexDigit, s.drop 2)
    else if s.head? = some '0' then (8, isOctDigit, s)
    else (10, Char.isDigit, s)
  let digits := s.takeWhile isDigit
  let n := ofDigits base digits
  if digits.isEmpty then none
  else if 2 ^ 64 ≤ n then some (2 ^ 64 - 1, true, s.dropWhile isDigit)
  else some (if negative then (2 ^ 64 - n) % 2 ^ 64 else n, false, s.dropWhile isDigit)

def parsePort (s : List Char) : Except String Nat :=
  let refused : Except String Nat :=
    .error ("port '" ++ .ofList s ++ "' not a number/out of range (range: 0-65535)")
  match strtoul s with
  | some (port, erange, rest) =>
    if rest.head?.all (· = '\x00') ∧ erange = false ∧ port ≤ 65535 then .ok port else refused
  | none => refused

/-- `[host@]port[=suffix]` -/
def parseHps (arg : List Char) : Except String Hps := do
  let parts1 := split '=' false arg
  let suffix ← match parts1 with
    | [_] => .ok []
    | [_, suffix] =>
      if suffix = [] then .error "Missing suffix after =-sign" else .ok suffix
    | _ => .error ("Too many =-signs in " ++ .ofList arg)
  let (host, port) ← match split '@' false (parts1.headD []) with
    | [port] => .ok ([], port)
    | [host, port] => .ok (host, port)
    | _ => .error "Please specify host@port or just port, not something else"
  let port ← parsePort port
  return ⟨host, port, suffix⟩

/-- The ports that are set, unless it throws; `none` where an argument is missing. -/
def newHps (args : List (List Char)) : Except String (Option (List Hps)) := do
  let hps ← (args.filter (· ≠ [])).mapM parseHps
  match hps with
  | [] => .ok none
  | [one] =>
    if one.suffix ≠ [] then .error "Please do not specify a suffix if recording only one stream"
    else .ok (some (if one.port = 0 then [] else [one]))
  | _ =>
    if (hps.any fun p => p.suffix = []) ∧ (hps.any fun p => p.suffix ≠ []) then
      .error "Make sure that eiter all netports have a suffix or none"
    else .ok (some hps)

/-- With what is behind the name of the command. -/
def netPortFn (name : String) (args : List (List Char)) (np : Netparms) :
    Except String String × Netparms :=
  match newHps args with
  | .error e => (.error e, np)
  | .ok none => (.ok ("!" ++ name ++ "= 8 : Missing argument to command ;"), np)
  | .ok (some hps) => (.ok ("!" ++ name ++ "= 0 ;"), setHps hps)

/-- The commands that have been given, from the defaults on. -/
def netPortRun (commands : List (List (List Char))) : Netparms :=
  commands.foldl (fun np args => (netPortFn "net_port" args np).2) .default

/-! ## What is set -/

/-- The map is that of a list of ports, after every command. -/
theorem netPortRun_analyzed (commands : List (List (List Char))) :
    ∃ hps, netPortRun commands = analyzeSuffixes hps := by
  unfold netPortRun
  induction commands using List.reverseRecOn with
  | nil => exact ⟨defHPS, rfl⟩
  | append_singleton commands args ih =>
    rw [List.foldl_append, List.foldl_cons, List.foldl_nil]
    unfold netPortFn
    split
    · exact ih
    · exact ih
    · exact ⟨_, rfl⟩

theorem suffixmap_of_lt {commands : List (List (List Char))} {t : UInt32}
    (h : t.toNat < (netPortRun commands).nPort) :
    ∃ suffix, (netPortRun commands).suffixmap t = some suffix := by
  obtain ⟨hps, heq⟩ := netPortRun_analyzed commands
  rw [heq] at h ⊢
  exact ⟨_, congrArg (Option.map Hps.suffix) (List.getElem?_eq_getElem h)⟩

end Jive5ab.Net
