import Jive5ab.Lib.Ring
import Mathlib.Tactic.Common

/-! # `circular_buffer`

The buffer of `circular_buffer.h`: `capacity` elements with a read and a write
position that may stand one past the last cell. All counts are `unsigned int`.
It refines the list of the `capacity` most recent elements as long as twice the
capacity is a number of that type. -/
namespace Jive5ab.Net

/-- Sum and difference of two `unsigned int`. -/
def plus (a b : Nat) : Nat := (a + b) % 2 ^ 32

def minus (a b : Nat) : Nat := (a + 2 ^ 32 - b) % 2 ^ 32

theorem plus_eq {a b : Nat} (h : a + b < 2 ^ 32) : plus a b = a + b := Nat.mod_eq_of_lt h

theorem minus_eq {a b : Nat} (h : b ≤ a) (ha : a < 2 ^ 32) : minus a b = a - b := by
  rw [minus, Nat.sub_add_comm h, Nat.add_mod_right]
  exact Nat.mod_eq_of_lt (by omega)

/-- The exception, and a run the language gives no meaning to: an access outside
the array, or a read of an element that was never assigned. -/
inductive CircularError
  | notEnoughElementsInBuffer
  | undefined
  deriving DecidableEq, Repr

/-- `new Element[n]`: `none` is an element not assigned yet. -/
structure Elements (α : Type) where
  size : Nat
  cell : Nat → Option α

structure CircularBuffer (α : Type) where
  capacity : Nat
  nelements : Nat
  elements : Elements α
  readPtr : Nat
  writePtr : Nat

variable {α : Type}

namespace Elements

def new (n : Nat) : Elements α := ⟨n, fun _ => none⟩

def load (e : Elements α) (i : Nat) : Except CircularError α :=
  if i < e.size then (e.cell i).elim (.error .undefined) .ok else .error .undefined

/-- `for(i=0; i<n; i++) elements[dst+i] = src[i]` -/
def copy (e : Elements α) (dst : Nat) (src : Nat → Option α) : Nat → Except CircularError (Elements α)
  | 0 => .ok e
  | n + 1 => do
    let e' ← copy e dst src n
    if dst + n < e'.size then .ok { e' with cell := fun j => if j = dst + n then src n else e'.cell j }
    else .error .undefined

/-- `for(i=0; i<n; i++) b[i] = elements[src+i]` -/
def read (e : Elements α) (src : Nat) : Nat → Except CircularError (List α)
  | 0 => .ok []
  | n + 1 => do
    let x ← e.load src
    let xs ← read e (src + 1) n
    .ok (x :: xs)

theorem copy_eq (e : Elements α) {dst : Nat} (src : Nat → Option α) {n : Nat}
    (h : dst + n ≤ e.size) : e.copy dst src n =
      .ok { e with cell := fun j => if dst ≤ j ∧ j < dst + n then src (j - dst) else e.cell j } := by
  induction n with
  | zero =>
    have hnone (j : Nat) : ¬ (dst ≤ j ∧ j < dst + 0) := by omega
    simp only [copy, hnone, if_false]
  | succ n ih =>
    simp only [copy, ih (by omega)]
    change (if dst + n < e.size then _ else _) = _
    rw [if_pos (by omega)]
    congr 2
    funext j
    by_cases hj : j = dst + n
    · subst hj
      simp
    · have hiff : dst ≤ j ∧ j < dst + n ↔ dst ≤ j ∧ j < dst + (n + 1) := by omega
      simp only [if_neg hj, hiff]

theorem read_eq {e : Elements α} {src : Nat} {xs : List α} (hsize : src + xs.length ≤ e.size)
    (h : ∀ (i : Nat) (hi : i < xs.length), e.cell (src + i) = some xs[i]) :
    e.read src xs.length = .ok xs := by
  induction xs generalizing src with
  | nil => rfl
  | cons x xs ih =>
    simp only [List.length_cons] at hsize
    have hhead : e.cell src = some x := h 0 (by simp)
    have hload : e.load src = .ok x := by
      rw [load, if_pos (by omega), hhead]
      rfl
    have htail : e.read (src + 1) xs.length = .ok xs := by
      refine ih (by omega) fun i hi => ?_
      have := h (i + 1) (by simpa using hi)
      rwa [← Nat.add_assoc, Nat.add_right_comm] at this
    simp only [List.length_cons, read, hload, htail]
    rfl

end Elements

namespace CircularBuffer

/-- `circular_buffer(n)` -/
def make (n : Nat) : CircularBuffer α :=
  { capacity := n, nelements := 0, elements := .new (plus n 1), readPtr := 0, writePtr := 0 }

/-- The copy constructor. -/
def copyOf (other : CircularBuffer α) : Except CircularError (CircularBuffer α) := do
  let elements ← (Elements.new (plus other.capacity 1)).copy 0 other.elements.cell other.capacity
  .ok { other with elements }

def size (b : CircularBuffer α) : Nat := b.nelements

def clear (b : CircularBuffer α) : CircularBuffer α :=
  { b with readPtr := 0, writePtr := 0, nelements := 0 }

/-- `pop(b, n)`: what was read and the buffer afterwards. -/
def pop (b : CircularBuffer α) (n : Nat) : Except CircularError (List α) × CircularBuffer α :=
  if b.nelements < n then (.error .notEnoughElementsInBuffer, b)
  else
    let readToEnd := min (minus b.capacity b.readPtr) n
    let readFromBegin := max 0 (minus n readToEnd)
    let out := do
      let front ← b.elements.read b.readPtr readToEnd
      let back ← b.elements.read 0 readFromBegin
      .ok (front ++ back)
    let readPtr := plus b.readPtr n
    (out, { b with
      readPtr := if b.capacity < readPtr then readFromBegin else readPtr
      nelements := minus b.nelements n })

/-- `push(ptr, n)` where `ptr` points at the `n` elements `ptr`. -/
def push (b : CircularBuffer α) (ptr : List α) : Except CircularError (CircularBuffer α) := do
  let n := ptr.length
  let skip := if n < b.capacity then 0 else minus n b.capacity
  let ncpy := minus n skip
  let b := if skip ≠ 0 then b.clear else b
  let nelements := plus b.nelements ncpy
  let nToEnd := min (minus b.capacity b.writePtr) ncpy
  let nFromBegin := max 0 (minus ncpy nToEnd)
  let e ← b.elements.copy b.writePtr (fun i => ptr[skip + i]?) nToEnd
  let e ← e.copy 0 (fun i => ptr[skip + nToEnd + i]?) nFromBegin
  let writePtr := plus b.writePtr ncpy
  let writePtr := if b.capacity < writePtr then nFromBegin else writePtr
  .ok { b with
    elements := e
    writePtr := writePtr
    readPtr := if b.capacity < nelements then writePtr else b.readPtr
    nelements := min b.capacity nelements }

/-- `operator[]`; `abs` of the smallest `int` is taken to be itself, as on a two's
complement machine, and is `2^31` once it is unsigned. -/
def get (b : CircularBuffer α) (idx : Int) : Except CircularError α :=
  let absidx := idx.natAbs
  if (0 ≤ idx ∧ b.nelements ≤ absidx) ∨ (idx < 0 ∧ b.nelements < absidx) then
    .error .notEnoughElementsInBuffer
  else
    let lidx := if 0 ≤ idx then
        let absidx := plus absidx b.readPtr
        if b.capacity ≤ absidx then minus absidx b.capacity else absidx
      else if b.writePtr < absidx then plus (minus b.capacity absidx) b.writePtr
      else minus b.writePtr absidx
    b.elements.load lidx

end CircularBuffer

/-- The calls a program can make; `copied` goes on with a copy. -/
inductive CircularOp (α : Type)
  | pushOne (b : α)
  | push (ptr : List α)
  | popOne
  | pop (n : Nat)
  | clear
  | copied

/-- The numbers of elements are `unsigned int`. -/
def CircularOp.Valid : CircularOp α → Prop
  | .push ptr => ptr.length < 2 ^ 32
  | .pop n => n < 2 ^ 32
  | _ => True

namespace CircularBuffer

/-- A call that returns nothing gives the empty list. -/
def mutate (b : CircularBuffer α) (r : Except CircularError (CircularBuffer α)) :
    Except CircularError (List α) × CircularBuffer α :=
  match r with
  | .ok b' => (.ok [], b')
  | .error e => (.error e, b)

def call (b : CircularBuffer α) : CircularOp α → Except CircularError (List α) × CircularBuffer α
  | .pushOne x => b.mutate (b.push [x])
  | .push ptr => b.mutate (b.push ptr)
  | .popOne => b.pop 1
  | .pop n => b.pop n
  | .clear => (.ok [], b.clear)
  | .copied => b.mutate b.copyOf

def run (b : CircularBuffer α) :
    List (CircularOp α) → List (Except CircularError (List α)) × CircularBuffer α
  | [] => ([], b)
  | op :: ops =>
    let (r, b') := b.call op
    let (rs, b'') := run b' ops
    (r :: rs, b'')

end CircularBuffer

/-! ## The list of the most recent elements -/
namespace Recent

/-- The `c` most recent of a list, oldest first. -/
def keep (c : Nat) (l : List α) : List α := l.drop (l.length - c)

def pop (l : List α) (n : Nat) : Except CircularError (List α) × List α :=
  if l.length < n then (.error .notEnoughElementsInBuffer, l) else (.ok (l.take n), l.drop n)

def call (c : Nat) (l : List α) : CircularOp α → Except CircularError (List α) × List α
  | .pushOne x => (.ok [], keep c (l ++ [x]))
  | .push ptr => (.ok [], keep c (l ++ ptr))
  | .popOne => pop l 1
  | .pop n => pop l n
  | .clear => (.ok [], [])
  | .copied => (.ok [], l)

def run (c : Nat) (l : List α) :
    List (CircularOp α) → List (Except CircularError (List α)) × List α
  | [] => ([], l)
  | op :: ops =>
    let (r, l') := call c l op
    let (rs, l'') := run c l' ops
    (r :: rs, l'')

/-- The `i`-th oldest from `0` on, the `|i|`-th newest below. -/
def get (l : List α) (i : Int) : Except CircularError α :=
  ((if 0 ≤ i then l[i.toNat]? else l.reverse[i.natAbs - 1]?)).elim
    (.error .notEnoughElementsInBuffer) .ok

end Recent

end Jive5ab.Net
