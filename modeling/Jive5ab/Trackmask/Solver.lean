import Mathlib

/-! # Compression solver

`step_type`, `solution_type` and `solve` of `trackmask.cc`. The sets of solutions
the code passes around never have more than one member: `possibilities` keeps
the first of the steps that move most bits. So they are options here, and the
quality that orders them is left out. -/
namespace Jive5ab.Trackmask

abbrev Word := BitVec 64

def trackmaskEmpty : Word := 0

def trackmaskFull : Word := ~~~trackmaskEmpty

/-- The Hamming weight of `bittwiddlinghacks.h`. -/
def countBits (v : Word) : Nat :=
  let m1 : Word := 0x5555555555555555
  let m2 : Word := 0x3333333333333333
  let m4 : Word := 0x0f0f0f0f0f0f0f0f
  let v := v - ((v >>> 1) &&& m1)
  let v := (v &&& m2) + ((v >>> 2) &&& m2)
  let v := (v + (v >>> 4)) &&& m4
  let v := v + (v >>> 8)
  let v := v + (v >>> 16)
  let v := v + (v >>> 32)
  (v &&& 0x7f).toNat

/-- A negative shift goes right. -/
structure Step where
  shift : Int
  incDst : Bool
  decSrc : Bool
  maskFrom : Word
  maskTo : Word
  bitsMoved : Nat
  deriving DecidableEq

def Step.make (maskF maskT : Word) (s : Int) : Step := ⟨s, false, false, maskF, maskT, countBits maskF⟩

structure Solution where
  fullCycle : Bool
  maskIn : Word
  maskOut : Word
  trackmask : Word
  steps : List Step
  nDstinc : Nat
  nSrcdec : Nat
  deriving DecidableEq

namespace Solution

def empty : Solution := ⟨true, trackmaskEmpty, trackmaskEmpty, trackmaskEmpty, [], 0, 0⟩

def ofMove (bitstomove bitstokeep : Word) : Solution :=
  ⟨bitstomove == bitstokeep, bitstomove, bitstokeep, bitstokeep, [], 0, 0⟩

def ofMask (bitstokeep : Word) : Solution := ofMove bitstokeep bitstokeep

def complete (s : Solution) : Bool :=
  s.maskIn == trackmaskEmpty && (if s.fullCycle then s.maskOut == trackmaskFull else true)

def cycle (s : Solution) : Nat := s.nSrcdec + s.nDstinc

def compressedCycle (s : Solution) : Nat := s.nDstinc

/-- Remove the bits from the input, add them to the output. -/
def move (s : Solution) (step : Step) : Solution :=
  { s with maskIn := s.maskIn &&& ~~~step.maskFrom, maskOut := s.maskOut ||| step.maskTo }

def dstFull (s : Solution) : Bool := s.maskOut == trackmaskFull

def srcEmpty (s : Solution) : Bool := s.maskIn == trackmaskEmpty

/-- The step is added; a word that is done gives way to the next. -/
def record (s : Solution) (step : Step) : Solution :=
  { s with
    maskIn := if s.srcEmpty && !s.complete then s.trackmask else s.maskIn
    maskOut := if s.dstFull && !s.complete then s.trackmask else s.maskOut
    steps := s.steps ++ [{ step with incDst := s.dstFull, decSrc := s.srcEmpty }]
    nDstinc := s.nDstinc + s.dstFull.toNat
    nSrcdec := s.nSrcdec + s.srcEmpty.toNat }

/-- `none` where an assertion fails. -/
def addStep (s : Solution) (step : Step) : Option Solution :=
  if s.complete = false ∧ s.maskIn &&& step.maskFrom = step.maskFrom ∧
      ~~~s.maskOut &&& step.maskTo = step.maskTo then some ((s.move step).record step)
  else none

/-! ## The search -/

/-- Shift the source right by `k` bits: what falls in holes of the destination. -/
def rightStep (source notdest : Word) (k : Nat) : Option Step :=
  let tmp := (source >>> k) &&& notdest
  if tmp ≠ 0 then some (.make (tmp <<< k) tmp (-k)) else none

def leftStep (source notdest : Word) (k : Nat) : Option Step :=
  let tmp := (source <<< k) &&& notdest
  if tmp ≠ 0 then some (.make (tmp >>> k) tmp k) else none

/-- In the order of insertion: right shifts from 1 on, left shifts from 0 on. -/
def possibleSteps (source notdest : Word) : List Step :=
  ((List.range 63).filterMap fun k => rightStep source notdest (k + 1)) ++
    (List.range 64).filterMap fun k => leftStep source notdest k

/-- The first element of the multiset, ordered by the number of bits moved. -/
def mostBits : List Step → Option Step
  | [] => none
  | s :: ss =>
    match mostBits ss with
    | none => some s
    | some t => if s.bitsMoved < t.bitsMoved then some t else some s

def possibilities (s : Solution) : Option Solution :=
  (mostBits (possibleSteps s.maskIn (~~~s.maskOut))).bind s.addStep

def eligible (s : Step) : Bool := !(s.decSrc || s.incDst)

/-- The steps, cut into the eligible ranges and what is between them. A range goes
on to the step that is not eligible itself; it counts if a step follows. -/
def findEligibleRanges : List Step → List Step → List (Bool × List Step)
  | [], range => [(false, range)]
  | s :: ss, range =>
    if eligible s then findEligibleRanges ss (range ++ [s])
    else (!range.isEmpty && !ss.isEmpty, range ++ [s]) :: findEligibleRanges ss []

/-- The last step gets the properties of the last one of the original sequence. -/
def setLast (ss : List Step) (orig : Option Step) : List Step :=
  match ss.getLast?, orig with
  | some l, some o => ss.dropLast ++ [{ l with incDst := o.incDst, decSrc := o.decSrc }]
  | _, _ => ss

def fromsOf (ss : List Step) : Word := ss.foldr (fun s m => s.maskFrom ||| m) 0

def tosOf (ss : List Step) : Word := ss.foldr (fun s m => s.maskTo ||| m) 0

/-- Move the bits of a range, into the places it moved them to. -/
def moveOf (ss : List Step) : Solution := ofMove (fromsOf ss) (~~~tosOf ss)

/-- Solve a range again, `solve` being the partial solver. -/
def resolve (solve : Solution → Option Solution) : Bool × List Step → List Step
  | (false, ss) => ss
  | (true, ss) =>
    match solve (moveOf ss) with
    | some sout => setLast sout.steps ss.getLast?
    | none => ss

def sanitizeWith (solve : Solution → Option Solution) (s : Solution) : Solution :=
  let newsteps := (findEligibleRanges s.steps []).flatMap (resolve solve)
  if newsteps.length < s.steps.length then { s with steps := newsteps } else s

/-- `left` more steps at most. -/
def partialSolveWith (sanitize : Solution → Solution) : Nat → Solution → Option Solution
  | 0, s => some (sanitize s)
  | left + 1, s =>
    if s.complete then some (sanitize s)
    else (possibilities s).bind (partialSolveWith sanitize left)

/-- `sanitize` solves ranges with `partial_solve`, which sanitizes what it finds.
`nested` is how often; the second time there is no range left
(`sanitize_nested`). -/
def sanitize : Nat → Solution → Solution
  | 0, s => s
  | nested + 1, s => sanitizeWith (partialSolveWith (sanitize nested) 4) s

def partialSolve (s : Solution) (left : Nat) : Option Solution := partialSolveWith (sanitize 2) left s

def solveLoop : Nat → Solution → Option Solution
  | 0, s => if s.complete then some s else none
  | niter + 1, s =>
    if s.complete then some s else (partialSolve s 3).bind (solveLoop niter)

def solve (trackmask : Word) : Solution := (solveLoop 100 (ofMask trackmask)).getD empty

/-! ## Sizes, in words -/

/-- Count output words until `remain` words are done; also the last step taken. -/
def outputRemain : List Step → Nat → Option Step → Nat → Nat
  | _, 0, last, opsize => if last.any fun s => !s.incDst then opsize + 1 else opsize
  | [], _ + 1, _, opsize => opsize
  | s :: ss, remain + 1, _, opsize =>
    outputRemain ss (if s.incDst || s.decSrc then remain else remain + 1) (some s)
      (opsize + s.incDst.toNat)

/-- `unsigned int` results: 32 bits. `none` where the assertion fails. -/
def outputsize (s : Solution) (insize : Nat) : Option Nat :=
  if s.complete ∧ 0 < s.cycle then
    some (outputRemain s.steps (insize % s.cycle) none (insize / s.cycle * s.nDstinc) % 2 ^ 32)
  else none

def inputRemain : List Step → Nat → Option Step → Nat → Nat
  | _, 0, last, ipsize => if last.any fun s => !s.incDst then ipsize + 1 else ipsize
  | [], _ + 1, _, ipsize => ipsize
  | s :: ss, remain + 1, _, ipsize =>
    inputRemain ss (if s.incDst then remain else remain + 1) (some s)
      (ipsize + s.decSrc.toNat + s.incDst.toNat)

def inputsize (s : Solution) (outsize : Nat) : Option Nat :=
  if 0 < s.cycle ∧ 0 < s.nDstinc then
    some (inputRemain s.steps (outsize % s.nDstinc) none (outsize / s.nDstinc * s.cycle) % 2 ^ 32)
  else none

end Solution
end Jive5ab.Trackmask
