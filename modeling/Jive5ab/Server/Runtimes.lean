import Std.Data.TreeMap
import Std.Data.TreeSet
import Jive5ab.Lib.Machine

/-! # Connections and runtimes of the command server

The bookkeeping of `test.cc`: which connection (file descriptor) refers to which
runtime, which connections a runtime knows as its observers, and which
connection owns a transient runtime. The runtime objects themselves are known
by the address `new runtime()` returned; `heap` is the set of those not yet
deleted, so that a use after delete can be stated. -/
namespace Jive5ab.Server.Runtimes
open Std

/-- `owner` is a descriptor if nonnegative: if it goes, so does the runtime. -/
structure PerRtData where
  owner : Int
  rteptr : Nat
  observers : TreeSet Int

structure PerFdData where
  echo : Bool
  runtime : String

abbrev RuntimeMap := TreeMap String PerRtData
abbrev FdMap := TreeMap Int PerFdData

structure Server where
  acceptedfds : TreeSet Int
  fdmap : FdMap
  runtimes : RuntimeMap
  heap : TreeSet Nat
  nextptr : Nat

def defaultRuntime : String := "default"

/-- Handlers of the other commands, by the runtime they act on. The reply is
all the bookkeeping sees of them: a handler may alter its own runtime only. -/
abbrev Command := Nat → Bool → List String → String

structure Settings where
  echo : Bool
  rt0Mk5cmds : String → Option Command
  genericMk5cmds : String → Option Command

/-- A handler that throws has left the bookkeeping as the carried server. -/
abbrev Throws (α : Type) := Except (String × Server) α

def isMember (fd : Int) (fds : TreeSet Int) : Bool := fds.contains fd

/-- The runtime a connection refers to, if it exists AND still has the
connection among its observers. -/
def currentRuntime (fd : Int) (p : PerFdData) (rtm : RuntimeMap) : Option PerRtData :=
  match rtm[p.runtime]? with
  | some d => if isMember fd d.observers then some d else none
  | none => none

/-- De-associate `fd` from the runtime called `rt`, if there is one. -/
def forget (fd : Int) (rt : String) (rtm : RuntimeMap) : RuntimeMap :=
  match rtm[rt]? with
  | some d => rtm.insert rt { d with observers := d.observers.erase fd }
  | none => rtm

def observe (rt : String) (fd : Int) (p : PerFdData) (s : Server) : Throws Server :=
  let rtm := forget fd p.runtime s.runtimes
  match rtm[rt]? with
  | none => .error ("runtime '" ++ rt ++ "' (to be observed by fd#" ++ toString fd ++
      ") not in runtimemap administration", { s with runtimes := rtm })
  | some d => .ok { s with
      runtimes := rtm.insert rt { d with observers := d.observers.insert fd }
      fdmap := s.fdmap.insert fd { p with runtime := rt } }

/-- The runtimes a descriptor owns. -/
def ownedBy (fd : Int) (rtm : RuntimeMap) : List (String × PerRtData) :=
  rtm.toList.filter fun r => r.2.owner == fd

def unobserve (fd : Int) (s : Server) : Throws Server :=
  match s.fdmap[fd]? with
  | none => .error ("fd#" ++ toString fd ++ " not in fdmap administration", s)
  | some p =>
    let rtm := forget fd p.runtime s.runtimes
    let rtsToErase := ownedBy fd rtm
    .ok { s with
      fdmap := s.fdmap.erase fd
      runtimes := (rtsToErase.map Prod.fst).foldl (fun m rt => m.erase rt) rtm
      heap := (rtsToErase.map fun r => r.2.rteptr).foldl (fun h ptr => h.erase ptr) s.heap }

/-- `new runtime()`, entered in the map under `rt`. -/
def create (rt : String) (owner : Int) (s : Server) : Server :=
  { s with
    runtimes := s.runtimes.insert rt ⟨owner, s.nextptr, ∅⟩
    heap := s.heap.insert s.nextptr
    nextptr := s.nextptr + 1 }

/-- `delete rteptr`, and the entry with it. -/
def remove (rt : String) (d : PerRtData) (s : Server) : Server :=
  { s with runtimes := s.runtimes.erase rt, heap := s.heap.erase d.rteptr }

/-- The name a connection refers to; the reply of a successful command. -/
def runtimeOf (fd : Int) (s : Server) : String := (s.fdmap[fd]?.map (·.runtime)).getD ""

def success (fd : Int) (s : Server) : String := "!runtime = 0 : " ++ runtimeOf fd s ++ " ;"

def runtimeQuery (p : PerFdData) (s : Server) : String :=
  "!runtime? 0 : " ++ p.runtime ++ " : " ++ toString s.runtimes.size ++
    String.join ((s.runtimes.keys.filter (· != p.runtime)).map (" : " ++ ·)) ++ " ;"

/-- The runtime a command names: "0" is the default runtime's old name. -/
def requested (args : List String) : String :=
  if args.getD 1 "" = "0" then defaultRuntime else args.getD 1 ""

def processRuntimeCommand (qry : Bool) (args : List String) (fd : Int) (p : PerFdData)
    (s : Server) : Throws (String × Server) :=
  if qry then .ok (runtimeQuery p s, s)
  else if args.length < 2 || args.length > 3 then
    .ok ("!runtime= 8 : expects one or two parameters ;", s)
  else
    let rtName := requested args
    let rtCmd := args.getD 2 ""
    if rtCmd = "" || rtCmd = "new" || rtCmd = "exists" || rtCmd = "transient" then
      match s.runtimes[rtName]? with
      | none =>
        if rtCmd = "exists" then .ok ("!runtime = 6 : '" ++ rtName ++ "' doesn't exist ;", s)
        else if rtName = "" then .ok ("!runtime = 4 : cannot create runtime with no name ;", s)
        else
          let s' := create rtName (if rtCmd = "transient" then fd else -1) s
          (observe rtName fd p s').map fun t => (success fd t, t)
      | some _ =>
        if rtCmd = "new" || rtCmd = "transient" then
          .ok ("!runtime = 6 : '" ++ rtName ++ "' already exists ;", s)
        else (observe rtName fd p s).map fun t => (success fd t, t)
    else if rtCmd ≠ "delete" then
      .ok ("!runtime = 6 : second argument to runtime command has to be 'delete', 'exists', " ++
        "'transient' or 'new' if present;", s)
    else if rtName = defaultRuntime then
      .ok ("!runtime = 6 : cannot delete the default runtime ;", s)
    else match s.runtimes[rtName]? with
      | none => .ok ("!runtime = 6 : no active runtime '" ++ rtName ++ "' ;", s)
      | some d =>
        if p.runtime = rtName then
          -- the runtime to delete is the current one: fall back to the default first
          (observe defaultRuntime fd p s).map fun t =>
            let u := remove rtName d t
            (success fd u, u)
        else
          let u := remove rtName d s
          .ok (success fd u, u)

/-! ## The main loop, one event at a time -/

/-- `split(3)` of stringutil: every field, the empty ones included. -/
def split (str : List Char) (c : Char) : List (List Char) := str.splitOn c

/-- What one command does besides changing the server: the reply, and the
runtime object it was handed to, if any. -/
structure Output where
  reply : String
  dispatched : Option Nat

/-- The keyword, whether it is a query, and the arguments with the keyword first. -/
def parseCommand (cmd : String) : Except String (String × Bool × List String) :=
  let (before, after) := cmd.toList.span fun c => c != '?' && c != '='
  match after with
  | [] => .error "!syntax = 7 : Not a command or query;"
  | posn :: rest =>
    let keyword := String.ofList (before.map Char.toLower)
    if keyword = "" then .error "!syntax = 7 : No keyword given ;"
    else .ok (keyword, posn == '?', keyword :: (split rest ':').map String.ofList)

def qryText (qry : Bool) : String := if qry then "?" else "="

def echoCommand (qry : Bool) (args : List String) (fd : Int) (p : PerFdData) (s : Server) :
    String × Server :=
  if qry then ("!echo? 0 : " ++ (if p.echo then "on" else "off") ++ " ;", s)
  else if args.length ≠ 2 || !(args.getD 1 "" = "on" || args.getD 1 "" = "off") then
    ("!echo= 8 : expects exactly one parameter 'on' or 'off';", s)
  else ("!echo= 0 ;", { s with fdmap := s.fdmap.insert fd { p with echo := args.getD 1 "" = "on" } })

/-- One command of the text a connection sent. -/
def processCommand (cfg : Settings) (cmd : String) (fd : Int) (p : PerFdData) (s : Server) :
    Server × Output :=
  if cmd = "" then (s, ⟨"", none⟩)
  else match parseCommand cmd with
  | .error reply => (s, ⟨reply, none⟩)
  | .ok (keyword, qry, args) =>
    if keyword = "runtime" then
      match processRuntimeCommand qry args fd p s with
      | .ok (reply, t) => (t, ⟨reply, none⟩)
      | .error (what, t) =>
        (t, ⟨"!" ++ keyword ++ " " ++ qryText qry ++ " 4 : " ++ what ++ ";", none⟩)
    else if keyword = "echo" then
      let (reply, t) := echoCommand qry args fd p s
      (t, ⟨reply, none⟩)
    else
      let mk5cmds := if p.runtime = defaultRuntime then cfg.rt0Mk5cmds else cfg.genericMk5cmds
      match mk5cmds keyword with
      | none => (s, ⟨"!" ++ keyword ++ qryText qry ++ " 7 : ENOSYS - not implemented ;", none⟩)
      | some f =>
        -- check that the runtime is still the one we started observing
        match currentRuntime fd p s.runtimes with
        | none => (s, ⟨"!" ++ keyword ++ " " ++ qryText qry ++ " 4 : current runtime ('" ++
            p.runtime ++ "') has been deleted;", none⟩)
        | some d => (s, ⟨f d.rteptr qry args, some d.rteptr⟩)

/-- `accept` is a new connection, `close` any way in which one ends: hangup,
error, end of file, or a reply that cannot be written. -/
inductive Event
  | accept (fd : Nat)
  | command (fd : Int) (cmd : String)
  | close (fd : Int)

def acceptConnection (echo : Bool) (fd : Int) (s : Server) : Server :=
  if s.acceptedfds.contains fd then s
  else
    let s := { s with acceptedfds := s.acceptedfds.insert fd }
    if s.fdmap.contains fd then s
    else
      let p : PerFdData := ⟨echo, ""⟩
      match observe defaultRuntime fd p { s with fdmap := s.fdmap.insert fd p } with
      | .ok t => t
      | .error (_, t) => t

def closeConnection (fd : Int) (s : Server) : Server :=
  let s := { s with acceptedfds := s.acceptedfds.erase fd }
  match unobserve fd s with
  | .ok t => t
  | .error (_, t) => t

/-- Only accepted descriptors are polled; one without an entry in the fd map is
closed as an internal error. -/
def step (cfg : Settings) (s : Server) : Event → Option (Server × Output)
  | .accept fd => some (acceptConnection cfg.echo fd s, ⟨"", none⟩)
  | .command fd cmd =>
    if s.acceptedfds.contains fd then
      match s.fdmap[fd]? with
      | none => some (closeConnection fd s, ⟨"", none⟩)
      | some p => some (processCommand cfg cmd fd p s)
    else none
  | .close fd =>
    if s.acceptedfds.contains fd then some (closeConnection fd s, ⟨"", none⟩) else none

/-- `main` before the loop: the default runtime, and no connections. -/
def initial : Server where
  acceptedfds := ∅
  fdmap := ∅
  runtimes := (∅ : RuntimeMap).insert defaultRuntime ⟨-1, 0, ∅⟩
  heap := (∅ : TreeSet Nat).insert 0
  nextptr := 1

def server (cfg : Settings) : Lib.Machine Server (Event × Output) where
  init s := s = initial
  step s a t := step cfg s a.1 = some (t, a.2)

/-- The server after a sequence of events, with what each of them put out. -/
def runEvents (cfg : Settings) : Server → List Event → Option (Server × List Output)
  | s, [] => some (s, [])
  | s, e :: es => do
    let (t, o) ← step cfg s e
    let (u, os) ← runEvents cfg t es
    return (u, o :: os)

theorem run_of_runEvents {cfg : Settings} {s t : Server} {es : List Event} {os : List Output}
    (h : runEvents cfg s es = some (t, os)) : (server cfg).Run s (es.zip os) t := by
  induction es generalizing s os with
  | nil => simp only [runEvents, Option.some.injEq, Prod.mk.injEq] at h; rw [h.1]; exact .refl _
  | cons e es ih =>
    simp only [runEvents, bind, Option.bind_eq_some_iff, pure, Option.some.injEq] at h
    obtain ⟨⟨u, o⟩, hu, ⟨v, os'⟩, hv, h⟩ := h
    cases h
    exact (Lib.Machine.Run.single (M := server cfg) (a := (e, o)) hu).trans (ih hv)

end Jive5ab.Server.Runtimes
