import Mathlib.Logic.Function.Iterate
import Jive5ab.Lib.Bits
import Jive5ab.Trackmask.Solver

/-! # The code of the compressor

`generate_code` of `trackmask.cc`. The text it writes is kept as statements over
the four variables of the generated functions, and what C makes of them is
`exec`. The comments in the generated code are left out. -/
namespace Jive5ab.Trackmask
open Lib.Bits

/-! ## Generated statements -/

inductive Var
  | tmpsrc
  | tmpdst
  | srcptr
  | dstptr
  deriving DecidableEq

/-- What is done to the address when a pointer is dereferenced. -/
inductive Action
  | noop
  | postIncAddr
  | postDecAddr
  deriving DecidableEq

/-- A pointer is dereferenced; a local variable stands for itself whatever the action. -/
structure Ref where
  var : Var
  action : Action
  deriving DecidableEq

inductive Expr
  | value (r : Ref)
  | const (c : Word)
  /-- `((r & m) << shift)`, `>>` if it is negative -/
  | masked (r : Ref) (m : Word) (shift : Int)
  /-- `r | ((r >> distance) & ~mask)`, `<<` if it is negative -/
  | magnitude (r : Ref) (distance : Int) (mask : Word)

inductive Assign
  | set
  | or
  | and
  | xor

structure Stmt where
  lhs : Ref
  assign : Assign
  rhs : Expr

def Var.ref (v : Var) (a : Action) : Ref := ⟨v, a⟩

def Var.plain (v : Var) : Ref := ⟨v, .noop⟩

/-! ## What they do -/

/-- The memory by index from the start of the block, and the variables. -/
structure Env where
  mem : Int → Word
  srcptr : Int
  dstptr : Int
  tmpsrc : Word
  tmpdst : Word

def Action.move : Action → Int → Int
  | .noop, p => p
  | .postIncAddr, p => p + 1
  | .postDecAddr, p => p - 1

namespace Env

def get (e : Env) : Var → Word
  | .tmpsrc => e.tmpsrc
  | .tmpdst => e.tmpdst
  | .srcptr => e.mem e.srcptr
  | .dstptr => e.mem e.dstptr

def put (e : Env) (v : Word) : Var → Env
  | .tmpsrc => { e with tmpsrc := v }
  | .tmpdst => { e with tmpdst := v }
  | .srcptr => { e with mem := Function.update e.mem e.srcptr v }
  | .dstptr => { e with mem := Function.update e.mem e.dstptr v }

def act (e : Env) (r : Ref) : Env :=
  match r.var with
  | .srcptr => { e with srcptr := r.action.move e.srcptr }
  | .dstptr => { e with dstptr := r.action.move e.dstptr }
  | _ => e

def eval (e : Env) : Expr → Word × Env
  | .value r => (e.get r.var, e.act r)
  | .const c => (c, e)
  | .masked r m shift => (shiftBy (e.get r.var &&& m) shift, e.act r)
  | .magnitude r distance mask =>
    (e.get r.var ||| (shiftBy (e.get r.var) (-distance) &&& ~~~mask), e.act r)

def execOne (e : Env) (s : Stmt) : Env :=
  let (v, e) := e.eval s.rhs
  let old := e.get s.lhs.var
  let new :=
    match s.assign with
    | .set => v
    | .or => old ||| v
    | .and => old &&& v
    | .xor => old ^^^ v
  (e.put new s.lhs.var).act s.lhs

def exec (e : Env) (code : List Stmt) : Env := code.foldl execOne e

end Env

/-! ## Code of a step -/

/-- Copy the sign bits into the dropped magnitude bits, if that is asked for. -/
def restoreMagnitudeBit (destination accumulator : Var) (mask : Word) (signmagdistance : Int)
    (action : Action) : List Stmt :=
  if signmagdistance = 0 then []
  else [⟨destination.ref action, .set, .magnitude accumulator.plain signmagdistance mask⟩]

def Step.compressCode (s : Step) (source dest : Var) : Stmt :=
  ⟨dest.ref (if s.incDst then .postIncAddr else .noop), .or,
    .masked (source.ref (if s.decSrc then .postDecAddr else .noop)) s.maskFrom s.shift⟩

def Step.decompressCode (s : Step) (source dest tmpdest : Var) (mask : Word)
    (signmagdistance : Int) : List Stmt :=
  let sourceaction := if s.incDst then Action.postIncAddr else .noop
  let destaction := if s.decSrc then Action.postDecAddr else .noop
  let rhs := Expr.masked (source.ref sourceaction) s.maskTo (-s.shift)
  (if signmagdistance = 0 then ⟨dest.ref destaction, .or, rhs⟩
    else ⟨tmpdest.plain, if tmpdest = dest then .or else .set, rhs⟩) ::
  restoreMagnitudeBit dest tmpdest mask signmagdistance destaction

/-! ## Code of a cycle -/

/-- `fresh`: a new destination word begins. `usetemp`: the source word is in `tmpsrc`. -/
def compressStep (mask : Word) (fresh usetemp : Bool) (s : Step) : List Stmt :=
  (if fresh then [⟨Var.tmpdst.plain, .set, .masked Var.dstptr.plain mask 0⟩] else []) ++
  (if !usetemp && !s.decSrc then
    [⟨Var.tmpsrc.plain, .set, .value (Var.srcptr.ref .postDecAddr)⟩] else []) ++
  [s.compressCode (if usetemp || !s.decSrc then .tmpsrc else .srcptr) .tmpdst] ++
  (if s.incDst then [⟨Var.dstptr.ref .postIncAddr, .set, .value Var.tmpdst.plain⟩] else [])

def compressBody (mask : Word) : Bool → Bool → List Step → List Stmt
  | _, _, [] => []
  | fresh, usetemp, s :: ss =>
    compressStep mask fresh usetemp s ++
      compressBody mask s.incDst ((usetemp || !s.decSrc) && !s.decSrc) ss

/-- `*srcptr++` is what is left of `tmpsrc` without the foreign bits. -/
def restoreSource (mask : Word) (signmagdistance : Int) : List Stmt :=
  if signmagdistance = 0 then
    [⟨Var.srcptr.ref .postIncAddr, .set, .masked Var.tmpsrc.plain mask 0⟩]
  else
    ⟨Var.tmpsrc.plain, .and, .const mask⟩ ::
      restoreMagnitudeBit .srcptr .tmpsrc mask signmagdistance .postIncAddr

/-- The loop (`inLoop`) has one more condition than the code for the remaining words. -/
def decompressStep (mask : Word) (signmagdistance : Int) (inLoop fresh usetemp : Bool) (s : Step) :
    List Stmt :=
  let usetemp' := usetemp || !s.decSrc
  (if fresh then [⟨Var.tmpsrc.plain, .set, .value Var.srcptr.plain⟩] else []) ++
  (if !usetemp && !s.decSrc then [⟨Var.tmpdst.plain, .xor, .value Var.tmpdst.plain⟩] else []) ++
  (if usetemp' then s.decompressCode .tmpsrc .tmpdst .tmpdst mask 0
    else s.decompressCode .tmpsrc .dstptr .tmpdst mask signmagdistance) ++
  (if s.decSrc && usetemp' then
    restoreMagnitudeBit .tmpdst .tmpdst mask signmagdistance .noop ++
      [⟨Var.dstptr.ref .postDecAddr, .set, .value Var.tmpdst.plain⟩] else []) ++
  (if s.incDst && (!inLoop || (usetemp' && !s.decSrc) || s.decSrc) then
    restoreSource mask signmagdistance else [])

def decompressBody (mask : Word) (signmagdistance : Int) (inLoop : Bool) :
    Bool → Bool → List Step → List Stmt
  | _, _, [] => []
  | fresh, usetemp, s :: ss =>
    decompressStep mask signmagdistance inLoop fresh usetemp s ++
      decompressBody mask signmagdistance inLoop s.incDst ((usetemp || !s.decSrc) && !s.decSrc) ss

/-- The steps for the remaining words; `cmp`: they are compressed words. -/
def remainingSteps (cmp : Bool) : Nat → List Step → List Step
  | 0, _ => []
  | _ + 1, [] => []
  | nr + 1, s :: ss =>
    s :: remainingSteps cmp
      (if (!cmp && (s.decSrc || s.incDst)) || (cmp && s.incDst) then nr else nr + 1) ss

/-- Leftover bits are copied out. -/
def compressLeft : Option Step → List Stmt
  | none => []
  | some l =>
    if l.incDst then []
    else [⟨Var.dstptr.ref .postIncAddr, .set, .value Var.tmpdst.plain⟩]

/-- Bits that are left in the temporary, and the last source word. `usetemp` after
the last step is that it did not finish its source word. -/
def decompressLeft (mask : Word) (signmagdistance : Int) : Option Step → List Stmt
  | none => []
  | some l =>
    (if !l.decSrc then
      if signmagdistance = 0 then
        [⟨Var.dstptr.ref .postDecAddr, .set, .value Var.tmpdst.plain⟩]
      else restoreMagnitudeBit .dstptr .tmpdst mask signmagdistance .postDecAddr
    else restoreMagnitudeBit .dstptr .dstptr mask signmagdistance .noop) ++
    (if l.incDst then [] else restoreSource mask signmagdistance)

/-! ## The generated functions -/

structure Code where
  nloop : Nat
  body : List Stmt
  tail : List Stmt

structure Generated where
  numwords : Nat
  compress : Code
  decompress : Code

/-- `none` where an assertion fails. -/
def generateCode (solution : Solution) (numwords : Nat) (cmp : Bool) (signmagdistance : Int) :
    Option Generated :=
  if 0 < numwords ∧ 0 < solution.cycle ∧ 0 < solution.compressedCycle then
    let cycle := if cmp then solution.compressedCycle else solution.cycle
    let mask := solution.trackmask
    let left := remainingSteps cmp (numwords % cycle) solution.steps
    some
      { numwords
        compress :=
          { nloop := numwords / cycle
            body := compressBody mask true false solution.steps
            tail := compressBody mask true false left ++ compressLeft left.getLast? }
        decompress :=
          { nloop := numwords / cycle
            body := decompressBody mask signmagdistance true true false solution.steps
            tail := decompressBody mask signmagdistance false true false left ++
              decompressLeft mask signmagdistance left.getLast? } }
  else none

def Code.run (c : Code) (e : Env) : Env :=
  (Nat.iterate (fun e => Env.exec e c.body) c.nloop e).exec c.tail

/-- `compress` returns its `dstptr`; the temporaries are not initialised. -/
def Generated.runCompress (g : Generated) (mem : Int → Word) (tmps : Word × Word) :
    (Int → Word) × Int :=
  let e := g.compress.run ⟨mem, g.numwords - 1, 0, tmps.1, tmps.2⟩
  (e.mem, e.dstptr)

def Generated.runDecompress (g : Generated) (mem : Int → Word) (tmps : Word × Word) : Int → Word :=
  (g.decompress.run ⟨mem, 0, g.numwords - 1, tmps.1, tmps.2⟩).mem

end Jive5ab.Trackmask
