import Mathlib.Logic.Function.Basic
import Jive5ab.Lib.Machine

/-! # Blocks and the pools they come from

A block is a slice of memory that is not its own, and a pointer to the counter of whoever uses
that memory. The steps are the operations on blocks, of any number of threads, one after the
other; an object has the number of the call that its memory comes from. -/
namespace Jive5ab.Blocks
open Lib (Machine)

/-- One element of a pool's `use_cnt`, or what is in front of the memory of a block itself. -/
inductive Counter where
  | dummy_counter
  | use_cnt (blockpool pool slot : Nat)
  | own (allocation : Nat)
  deriving Repr, DecidableEq

inductive Area where
  | static
  | memory (blockpool pool : Nat)
  | own (allocation : Nat)
  deriving Repr, DecidableEq

/-- What is given back together with the counter. -/
def Counter.area : Counter → Area
  | dummy_counter => .static
  | use_cnt b k _ => .memory b k
  | own a => .own a

structure Block where
  iov_base : Option (Area × Nat)
  iov_len : Nat
  myMemory : Bool
  refcountptr : Counter
  deriving Repr, DecidableEq

def block : Block :=
  { iov_base := none, iov_len := 0, myMemory := false, refcountptr := .dummy_counter }

def Block.empty (b : Block) : Bool := b.iov_base.isNone && b.iov_len == 0

structure Object where
  block : Block
  origin : Nat
  deriving Repr, DecidableEq

structure Pool where
  nblock : Nat
  next_alloc : Fin nblock
  block_size : Nat

structure Blockpool where
  pools : List Pool
  blocksize : Nat
  nblock_p_pool : Nat
  curpool : Nat
  alive : Bool
  nblock_pos : 0 < nblock_p_pool

structure State where
  objects : Nat → Option Object
  cells : Counter → Nat
  freed : Area → Bool
  blockpools : Nat → Option Blockpool
  garbagecan : List (Nat × Nat)
  allocations : Nat
  calls : Nat

def start : State where
  objects := fun _ => none
  cells := fun c => if c = .dummy_counter then 1 else 0
  freed := fun _ => false
  blockpools := fun _ => none
  garbagecan := []
  allocations := 0
  calls := 0

/-! ## Block members -/

def inc (cells : Counter → Nat) (c : Counter) : Counter → Nat :=
  Function.update cells c ((cells c + 1) % 2 ^ 32)

def dec (cells : Counter → Nat) (c : Counter) : Counter → Nat :=
  Function.update cells c ((cells c + 4294967295) % 2 ^ 32)

namespace State

def put (st : State) (x : Nat) (o : Object) : State :=
  { st with objects := Function.update st.objects x (some o) }

def drop (st : State) (x : Nat) : State :=
  { st with objects := Function.update st.objects x none }

def retain (st : State) (c : Counter) : State := { st with cells := inc st.cells c }

/-- With memory of its own the last one frees it. -/
def release (st : State) (b : Block) : State :=
  let cells := dec st.cells b.refcountptr
  if b.myMemory && cells b.refcountptr == 0 then
    { st with cells := cells, freed := Function.update st.freed b.refcountptr.area true }
  else { st with cells := cells }

def construct (st : State) (x : Nat) : State := st.put x ⟨Blocks.block, 0⟩

def allocate (st : State) (x size : Nat) : State :=
  { st with
    objects := Function.update st.objects x (some
      { block :=
          { iov_base := some (.own st.allocations, 0), iov_len := size, myMemory := true
            refcountptr := .own st.allocations }
        origin := st.calls })
    cells := Function.update st.cells (.own st.allocations) 1
    freed := Function.update st.freed (.own st.allocations) false
    allocations := st.allocations + 1
    calls := st.calls + 1 }

def copy (st : State) (x : Nat) (other : Object) : State :=
  (st.retain other.block.refcountptr).put x other

def assign (st : State) (x y : Nat) (this other : Object) : State :=
  if x = y then st
  else ((st.retain other.block.refcountptr).release this.block).put x other

def destroy (st : State) (x : Nat) (this : Object) : State := (st.release this.block).drop x

end State

/-- The sum of two 32 bit numbers, compared with the length of the block. -/
def Block.slice (b : Block) (offset length : Nat) : Option Block :=
  if (offset + length) % 2 ^ 32 ≤ b.iov_len then
    some { b with
      iov_base := b.iov_base.map fun p => (p.1, p.2 + offset)
      iov_len := length }
  else none

/-- After an exception nothing has changed. -/
def State.sub (st : State) (x offset length : Nat) (this : Object) : State :=
  match this.block.slice offset length with
  | some slice => (st.retain this.block.refcountptr).put x { this with block := slice }
  | none => st

/-! ## A pool -/

def circNext {n : Nat} (cur : Fin n) : Fin n :=
  ⟨(cur + 1) % n, Nat.mod_lt _ (Nat.lt_of_le_of_lt (Nat.zero_le _) cur.isLt)⟩

/-- At most as many slots are looked at as there are. -/
def scan {n : Nat} (used : Fin n → Bool) (previous_next : Fin n) :
    Nat → Fin n → Option (Fin n) × Fin n
  | 0, next_alloc => (none, next_alloc)
  | left + 1, next_alloc =>
    let c := if used next_alloc then none else some next_alloc
    let next := circNext next_alloc
    if c.isNone ∧ next ≠ previous_next then scan used previous_next left next else (c, next)

namespace State

def pool? (st : State) (b k : Nat) : Option Pool :=
  (st.blockpools b).bind fun blockpool => blockpool.pools[k]?

def setPool (st : State) (b k : Nat) (pool : Pool) : State :=
  match st.blockpools b with
  | some blockpool =>
    { st with
      blockpools := Function.update st.blockpools b
        (some { blockpool with pools := blockpool.pools.set k pool }) }
  | none => st

def found (st : State) (b k : Nat) (pool : Pool) : Option (Fin pool.nblock) × Fin pool.nblock :=
  scan (fun slot => st.cells (.use_cnt b k slot) ≠ 0) pool.next_alloc pool.nblock pool.next_alloc

/-- The block is a new object. -/
def poolGet (st : State) (b k x : Nat) (pool : Pool) : State :=
  let (slot, next) := st.found b k pool
  let st := st.setPool b k { pool with next_alloc := next }
  match slot with
  | some i =>
    { st with
      objects := Function.update st.objects x (some
        { block :=
            { iov_base := some (.memory b k, i * pool.block_size), iov_len := pool.block_size
              myMemory := false, refcountptr := .use_cnt b k i }
          origin := st.calls })
      cells := Function.update st.cells (.use_cnt b k i) 1
      calls := st.calls + 1 }
  | none => st.construct x

/-! ## The garbage can -/

def usecount (st : State) (b k : Nat) : Nat :=
  match st.pool? b k with
  | some pool => ((List.range pool.nblock).map fun i => st.cells (.use_cnt b k i)).sum
  | none => 0

/-- The sum has 32 bits. -/
def try_delete (st : State) (p : Nat × Nat) : Bool := st.usecount p.1 p.2 % 2 ^ 32 == 0

def check_garbage (st : State) : State :=
  let deleted := st.garbagecan.filter st.try_delete
  { st with
    freed := fun a => st.freed a || deleted.any fun p => a == .memory p.1 p.2
    garbagecan := st.garbagecan.filter fun p => !st.try_delete p }

def maybe_add_to_can (st : State) (p : Nat × Nat) : State :=
  let st := st.check_garbage
  if st.try_delete p then { st with freed := Function.update st.freed (.memory p.1 p.2) true }
  else { st with garbagecan := st.garbagecan ++ [p] }

/-! ## A blockpool -/

/-- Too much memory is an exception. -/
def poolFits (bs nb : Nat) : Prop := 0 < nb ∧ 0 < bs ∧ nb * bs + 16 ≤ 4294967295

instance (bs nb : Nat) : Decidable (poolFits bs nb) :=
  inferInstanceAs (Decidable (0 < nb ∧ 0 < bs ∧ nb * bs + 16 ≤ 4294967295))

/-- One more pool, none of its slots used, at the end of the list. -/
def newPool (st : State) (b : Nat) (blockpool : Blockpool) : State :=
  let st := st.check_garbage
  let k := blockpool.pools.length
  let pool : Pool :=
    { nblock := blockpool.nblock_p_pool, next_alloc := ⟨0, blockpool.nblock_pos⟩
      block_size := blockpool.blocksize }
  { st with
    cells := fun c =>
      match c with
      | .use_cnt b' k' i => if b' = b ∧ k' = k then 0 else st.cells (.use_cnt b' k' i)
      | c => st.cells c
    freed := Function.update st.freed (.memory b k) false
    blockpools := Function.update st.blockpools b
      (some { blockpool with pools := blockpool.pools ++ [pool], curpool := k }) }

def newBlockpool (st : State) (b bs nb : Nat) : State :=
  if h : poolFits bs nb then
    st.newPool b
      { pools := [], blocksize := bs, nblock_p_pool := nb, curpool := 0, alive := true
        nblock_pos := h.1 }
  else st

/-- The assignment from the temporary `t`, and its end. -/
def move (st : State) (x t : Nat) : State :=
  match st.objects x, st.objects t with
  | some this, some temporary => (st.assign x t this temporary).destroy t temporary
  | _, _ => st

def draw (st : State) (b x t : Nat) : State :=
  match st.blockpools b with
  | some blockpool =>
    match blockpool.pools[blockpool.curpool]? with
    | some pool => (st.poolGet b blockpool.curpool t pool).move x t
    | none => st
  | none => st

def isEmpty (st : State) (x : Nat) : Bool :=
  match st.objects x with
  | some o => o.block.empty
  | none => true

def nextPool (st : State) (b : Nat) : State :=
  match st.blockpools b with
  | some blockpool =>
    let next := if blockpool.curpool + 1 = blockpool.pools.length then 0
      else blockpool.curpool + 1
    { st with blockpools := Function.update st.blockpools b (some { blockpool with curpool := next }) }
  | none => st

def curpool (st : State) (b : Nat) : Nat :=
  match st.blockpools b with
  | some blockpool => blockpool.curpool
  | none => 0

/-- Round the pools until one has a free block. -/
def drawAny (b x t oldcurpool : Nat) : Nat → State → State
  | 0, st => st
  | left + 1, st =>
    let st := st.draw b x t
    if !st.isEmpty x then st
    else
      let st := st.nextPool b
      if st.curpool b ≠ oldcurpool then drawAny b x t oldcurpool left st else st

/-- `x` becomes the result; `t` is the place of the temporaries. -/
def get (st : State) (b x t : Nat) (blockpool : Blockpool) : State :=
  let st := drawAny b x t blockpool.curpool blockpool.pools.length (st.construct x)
  if st.isEmpty x then
    match st.blockpools b with
    | some blockpool => (st.newPool b blockpool).draw b x t
    | none => st
  else st

/-- The pools are deleted one after the other. -/
def deletePools (b : Nat) : List Nat → State → State
  | [], st => st
  | k :: ks, st => deletePools b ks (st.maybe_add_to_can (b, k))

def destroyBlockpool (st : State) (b : Nat) (blockpool : Blockpool) : State :=
  deletePools b (List.range blockpool.pools.length)
    { st with blockpools := Function.update st.blockpools b (some { blockpool with alive := false }) }

end State

/-! ## The steps -/

inductive Op where
  | newBlockpool (b bs nb : Nat)
  | destroyBlockpool (b : Nat)
  | get (b x t : Nat)
  | construct (x : Nat)
  | allocate (x size : Nat)
  | copy (x y : Nat)
  | assign (x y : Nat)
  | sub (x y offset length : Nat)
  | destroy (x : Nat)
  deriving Repr, DecidableEq

/-- An operation needs the objects that it reads, and a free place for a new one. -/
def step (st : State) : Op → Option State
  | .newBlockpool b bs nb => if (st.blockpools b).isNone then some (st.newBlockpool b bs nb) else none
  | .destroyBlockpool b => do
    let blockpool ← st.blockpools b
    if blockpool.alive then some (st.destroyBlockpool b blockpool) else none
  | .get b x t => do
    let blockpool ← st.blockpools b
    if blockpool.alive ∧ (st.objects x).isNone ∧ (st.objects t).isNone ∧ x ≠ t then
      some (st.get b x t blockpool)
    else none
  | .construct x => if (st.objects x).isNone then some (st.construct x) else none
  | .allocate x size => if (st.objects x).isNone then some (st.allocate x size) else none
  | .copy x y => do
    let other ← st.objects y
    if (st.objects x).isNone then some (st.copy x other) else none
  | .assign x y => do
    let this ← st.objects x
    let other ← st.objects y
    some (st.assign x y this other)
  | .sub x y offset length => do
    let this ← st.objects y
    if (st.objects x).isNone then some (st.sub x offset length this) else none
  | .destroy x => do
    let this ← st.objects x
    some (st.destroy x this)

def machine : Machine State Op := Lib.ofFn (fun st => st = start) step

end Jive5ab.Blocks
