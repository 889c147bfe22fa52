import Mathlib.Data.List.Basic
import Jive5ab.Trackmask.Codegen
import Jive5ab.Trackmask.SolverSoundness

/-! # Words packed and unpacked

What the generated code does over any legal sequence of steps. Compression packs
the words from the front with bits of the words from the end; decompression gives
each word at the end what the steps took from it, and the words in front their
masked bits. The two meet in the word where the destination and the source are
the same. -/
namespace Jive5ab.Trackmask
open Lib.Bits Env

/-! ## One step -/

theorem exec_append (e : Env) (xs ys : List Stmt) : e.exec (xs ++ ys) = (e.exec xs).exec ys :=
  List.foldl_append

@[simp] theorem shiftBy_zero (x : Word) : shiftBy x 0 = x := by simp [shiftBy]

/-- The code of a compression step, whichever variables it uses: `T` is the
destination word so far, `S` the source word. -/
theorem compressStep_exec {mask T S : Word} {e : Env} {fresh usetemp : Bool} {s : Step}
    (hT : T = if fresh then e.mem e.dstptr &&& mask else e.tmpdst)
    (hS : S = if usetemp then e.tmpsrc else e.mem e.srcptr) :
    e.exec (compressStep mask fresh usetemp s) =
      let T' := T ||| shiftBy (S &&& s.maskFrom) s.shift
      { mem := if s.incDst then Function.update e.mem e.dstptr T' else e.mem
        srcptr := if usetemp then e.srcptr else e.srcptr - 1
        dstptr := if s.incDst then e.dstptr + 1 else e.dstptr
        tmpsrc := if usetemp || !s.decSrc then S else e.tmpsrc
        tmpdst := T' } := by
  subst hT hS
  cases fresh <;> cases usetemp <;> cases hd : s.decSrc <;> cases hi : s.incDst <;>
    simp [compressStep, Step.compressCode, Env.exec, Env.execOne, Env.eval, Env.get, Env.put, Env.act, Var.ref, Var.plain,
      Action.move, hd, hi]

theorem decompressStep_exec {mask C A : Word} {e : Env} {inLoop fresh usetemp : Bool} {s : Step}
    (hC : C = if fresh then e.mem e.srcptr else e.tmpsrc)
    (hA : A = if usetemp then e.tmpdst else if s.decSrc then e.mem e.dstptr else 0) :
    e.exec (decompressStep mask 0 inLoop fresh usetemp s) =
      let A' := A ||| shiftBy (C &&& s.maskTo) (-s.shift)
      let mem' := if s.decSrc then Function.update e.mem e.dstptr A' else e.mem
      { mem := if s.incDst then Function.update mem' e.srcptr (C &&& mask) else mem'
        srcptr := if s.incDst then e.srcptr + 1 else e.srcptr
        dstptr := if s.decSrc then e.dstptr - 1 else e.dstptr
        tmpsrc := C
        tmpdst := if usetemp || !s.decSrc then A' else e.tmpdst } := by
  subst hC hA
  cases inLoop <;> cases fresh <;> cases usetemp <;> cases hd : s.decSrc <;> cases hi : s.incDst <;>
    simp [decompressStep, Step.decompressCode, restoreMagnitudeBit, restoreSource, Env.exec,
      Env.execOne, Env.eval, Env.get, Env.put, Env.act, Var.ref, Var.plain, Action.move, hd, hi]

/-! ## Where the pointers are -/

def Step.dst (s : Step) (d : Int) : Int := if s.incDst then d + 1 else d

def Step.src (s : Step) (p : Int) : Int := if s.decSrc then p - 1 else p

def dstAfter (d : Int) (ss : List Step) : Int := d + (ss.countP Step.incDst : Nat)

def srcAfter (p : Int) (ss : List Step) : Int := p - (ss.countP Step.decSrc : Nat)

theorem dstAfter_cons (d : Int) (s : Step) (ss : List Step) :
    dstAfter d (s :: ss) = dstAfter (s.dst d) ss := by
  unfold dstAfter Step.dst
  rw [List.countP_cons]
  split <;> push_cast <;> omega

theorem srcAfter_cons (p : Int) (s : Step) (ss : List Step) :
    srcAfter p (s :: ss) = srcAfter (s.src p) ss := by
  unfold srcAfter Step.src
  rw [List.countP_cons]
  split <;> push_cast <;> omega

theorem le_dstAfter (d : Int) (ss : List Step) : d ≤ dstAfter d ss := by
  unfold dstAfter
  omega

theorem srcAfter_le (p : Int) (ss : List Step) : srcAfter p ss ≤ p := by
  unfold srcAfter
  omega

/-! ## Compression -/

/-- The bits that go to word `j`, from the step on that has word `d` for its
destination and word `p` for its source. -/
def moved (w : Int → Word) : Int → Int → List Step → Int → Word
  | _, _, [], _ => 0
  | d, p, s :: ss, j =>
    (if j = d then shiftBy (w p &&& s.maskFrom) s.shift else 0) |||
      moved w (s.dst d) (s.src p) ss j

/-- Word `j` after compression; `T` is what word `d` has got so far. -/
def packed (mask : Word) (w : Int → Word) (T : Word) (d p : Int) (ss : List Step) (j : Int) : Word :=
  (if j = d then T else w j &&& mask) ||| moved w d p ss j

/-- What word `s.dst d` has got so far, after the step. -/
def nextT (mask : Word) (w : Int → Word) (T : Word) (d p : Int) (s : Step) : Word :=
  if s.incDst then w (d + 1) &&& mask else T ||| shiftBy (w p &&& s.maskFrom) s.shift

@[simp] theorem zero_or (x : Word) : (0 : Word) ||| x = x := by simp

@[simp] theorem or_zero (x : Word) : x ||| (0 : Word) = x := by simp

theorem moved_cons (w : Int → Word) (d p : Int) (s : Step) (ss : List Step) (j : Int) :
    moved w d p (s :: ss) j =
      (if j = d then shiftBy (w p &&& s.maskFrom) s.shift else 0) |||
        moved w (s.dst d) (s.src p) ss j := rfl

theorem moved_before {w : Int → Word} {d p j : Int} (h : j < d) (ss : List Step) :
    moved w d p ss j = 0 := by
  induction ss generalizing d p with
  | nil => rfl
  | cons s ss ih =>
    have hd : j < s.dst d := by
      unfold Step.dst
      split <;> omega
    rw [moved_cons, ih hd, if_neg (by omega), or_zero]

/-- A word is packed the same, seen from the next step on. -/
theorem packed_next {mask : Word} {w : Int → Word} {T : Word} {d p j : Int} {s : Step}
    {ss : List Step} (h : s.dst d ≤ j) :
    packed mask w T d p (s :: ss) j =
      packed mask w (nextT mask w T d p s) (s.dst d) (s.src p) ss j := by
  unfold packed nextT
  rw [moved_cons, ← BitVec.or_assoc]
  congr 1
  cases hi : s.incDst with
  | true =>
    have hd : s.dst d = d + 1 := if_pos hi
    rw [hd] at h ⊢
    have hne : ¬ j = d := by omega
    rw [if_neg hne, if_neg hne, if_pos rfl, or_zero]
    split
    · rename_i hj
      rw [hj]
    · rfl
  | false =>
    have hd : s.dst d = d := if_neg (by rw [hi]; decide)
    rw [hd, if_neg Bool.false_ne_true]
    split
    · rfl
    · rw [or_zero]

theorem packed_done {mask : Word} {w : Int → Word} {T : Word} {d p : Int} {s : Step}
    {ss : List Step} (h : s.incDst = true) :
    packed mask w T d p (s :: ss) d = T ||| shiftBy (w p &&& s.maskFrom) s.shift := by
  have hd : s.dst d = d + 1 := if_pos h
  unfold packed
  rw [moved_cons, if_pos rfl, if_pos rfl, hd, moved_before (by omega), or_zero]

/-- Before a step of the compression. -/
structure Packs (mask : Word) (w : Int → Word) (T : Word) (d p : Int) (fresh usetemp : Bool)
    (e : Env) : Prop where
  dst : e.dstptr = d
  src : e.srcptr = if usetemp then p - 1 else p
  acc : T = if fresh then w d &&& mask else e.tmpdst
  temp : usetemp = true → e.tmpsrc = w p
  rest : ∀ j, d ≤ j → e.mem j = w j

theorem Packs.step {mask : Word} {w : Int → Word} {T : Word} {d p : Int} {fresh usetemp : Bool}
    {e : Env} (h : Packs mask w T d p fresh usetemp e) (hdp : d ≤ p) (s : Step) :
    Packs mask w (nextT mask w T d p s) (s.dst d) (s.src p) s.incDst
      ((usetemp || !s.decSrc) && !s.decSrc) (e.exec (compressStep mask fresh usetemp s)) ∧
    (e.exec (compressStep mask fresh usetemp s)).mem =
      if s.incDst then Function.update e.mem d (T ||| shiftBy (w p &&& s.maskFrom) s.shift)
      else e.mem := by
  have hT : T = if fresh then e.mem e.dstptr &&& mask else e.tmpdst := by
    rw [h.dst, h.rest d (Int.le_refl d)]
    exact h.acc
  have hS : w p = if usetemp then e.tmpsrc else e.mem e.srcptr := by
    cases hu : usetemp with
    | true => exact (h.temp hu).symm
    | false =>
      have hsrc : e.srcptr = p := by
        rw [h.src, hu]
        rfl
      rw [hsrc]
      exact (h.rest p hdp).symm
  rw [compressStep_exec hT hS, h.dst]
  refine ⟨⟨rfl, ?_, ?_, ?_, ?_⟩, rfl⟩
  · show (if usetemp then e.srcptr else e.srcptr - 1) = _
    rw [h.src]
    unfold Step.src
    cases usetemp <;> cases s.decSrc <;> simp
  · show nextT mask w T d p s = if s.incDst then w (s.dst d) &&& mask else T ||| _
    unfold nextT Step.dst
    split <;> rfl
  · intro hu
    show (if usetemp || !s.decSrc then w p else e.tmpsrc) = w (s.src p)
    rw [Bool.and_eq_true, Bool.not_eq_true'] at hu
    rw [if_pos hu.1, Step.src, if_neg (by rw [hu.2]; decide)]
  · intro j hj
    unfold Step.dst at hj
    show (if s.incDst then Function.update e.mem d _ else e.mem) j = w j
    split
    · rename_i hi
      rw [if_pos hi] at hj
      rw [Function.update_of_ne (by omega)]
      exact h.rest j (by omega)
    · rename_i hi
      rw [if_neg hi] at hj
      exact h.rest j hj

end Jive5ab.Trackmask
