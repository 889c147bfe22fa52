import Mathlib.Logic.Function.Basic
import Jive5ab.Lib.Machine

/-! # The inter-thread queue

`bqueue.h`, one critical section at a time. A thread holds the mutex from the
call, or from its return out of `pthread_cond_wait`, until it waits or unlocks;
`enter` and `resume` are what it does in between. A signal wakes one of the
threads asleep on the condition, if there are any; a thread may also wake up for
no reason, and a timed wait may end at any time. -/
namespace Jive5ab.Queue

structure BQueue (E : Type) where
  enablePush : Bool
  enablePop : Bool
  queue : List E
  nPush : Nat
  nPop : Nat
  capacity : Nat

inductive PopResult
  | success
  | timeout
  | disabled
  deriving DecidableEq

/-- The values of the C++ enumeration count: `try_push` returns them as a `bool`. -/
inductive PushResult
  | success
  | overflow
  | disabled
  deriving DecidableEq

def PushResult.toNat : PushResult → Nat
  | .success => 0
  | .overflow => 1
  | .disabled => 2

def PushResult.toBool (r : PushResult) : Bool := r.toNat != 0

inductive Op (E : Type)
  | push (b : E)
  | tryPush (b : E)
  | pop
  | popTimed
  | tryPop
  | disable
  | delayedDisable
  | disablePop
  | resizeEnable (newcap : Nat)
  | resizeEnablePush (newcap : Nat)
  | enablePopOnly
  | clear

/-- A call that is waiting on one of the two conditions. `timedOut` is what the
last `pthread_cond_timedwait` said. -/
inductive Blocked (E : Type)
  | push (b : E)
  | pop
  | popTimed (timedOut : Bool)

inductive Signal
  | signalPush
  | signalPop
  | broadcastPush
  | broadcastPop

inductive Reply (E : Type)
  | pushed (didPush : Bool)
  | tryPushed (ret : Bool)
  | popped (b : Option E)
  | poppedResult (result : PopResult) (b : Option E)
  | done

/-- How a critical section ends: asleep on a condition, or with the mutex
unlocked, a reply, and the signals given on the way out. -/
inductive Outcome (E : Type)
  | sleep (q : BQueue E) (w : Blocked E)
  | leave (q : BQueue E) (r : Reply E) (sigs : List Signal)

namespace BQueue
variable {E : Type}

def invalidSize : Nat := 2 ^ 64 - 1

def init (cap : Nat) : BQueue E :=
  { enablePush := cap != invalidSize, enablePop := cap != invalidSize, queue := []
    nPush := 0, nPop := 0, capacity := cap }

/-- Delayed disable: with pushing off and nothing left, popping goes off too. -/
def checkDelayed (q : BQueue E) : BQueue E :=
  if !q.enablePush && q.queue.isEmpty then { q with enablePop := false } else q

def popFront (q : BQueue E) : BQueue E := { q with queue := q.queue.tail }

/-- The tail both result-typed pops share. -/
def finishPop (q : BQueue E) (result : PopResult) (b : Option E) : Outcome E :=
  let q := q.checkDelayed
  let q := { q with nPop := q.nPop - 1 }
  .leave q (.poppedResult result b)
    (if q.nPush ≠ 0 ∧ result = .success then [.signalPush] else [])

/-- From the loop condition of a waiting call to the next wait or the unlock. -/
def resume (q : BQueue E) : Blocked E → Outcome E
  | .push b =>
    if q.enablePush && decide (q.capacity ≤ q.queue.length) then .sleep q (.push b)
    else
      let didPush := q.enablePush
      let q := if didPush then { q with queue := q.queue ++ [b] } else q
      let q := { q with nPush := q.nPush - 1 }
      .leave q (.pushed didPush) (if q.nPop ≠ 0 ∧ didPush then [.signalPop] else [])
  | .pop =>
    if q.enablePop && q.queue.isEmpty then .sleep q .pop
    else
      let didPop := q.enablePop
      let b := if didPop then q.queue.head? else none
      let q := if didPop then q.popFront else q
      let q := q.checkDelayed
      let q := { q with nPop := q.nPop - 1 }
      .leave q (.popped b) ((if q.nPush ≠ 0 ∧ didPop then [.signalPush] else []) ++
        (if q.nPop ≠ 0 ∧ !q.enablePop then [.broadcastPop] else []))
  | .popTimed timedOut =>
    if q.enablePop && q.queue.isEmpty && !timedOut then .sleep q (.popTimed timedOut)
    else if q.enablePop then
      if q.queue.isEmpty then q.finishPop .timeout none
      else q.popFront.finishPop .success q.queue.head?
    else q.finishPop .disabled none

/-- From `pthread_mutex_lock` on. -/
def enter (q : BQueue E) : Op E → Outcome E
  | .push b => { q with nPush := q.nPush + 1 }.resume (.push b)
  | .tryPush b =>
    if !q.enablePush then .leave q (.tryPushed PushResult.disabled.toBool) []
    else if q.capacity ≤ q.queue.length then .leave q (.tryPushed PushResult.overflow.toBool) []
    else .leave { q with queue := q.queue ++ [b] } (.tryPushed PushResult.success.toBool)
      (if q.nPop ≠ 0 then [.signalPop] else [])
  | .pop => { q with nPop := q.nPop + 1 }.resume .pop
  | .popTimed => { q with nPop := q.nPop + 1 }.resume (.popTimed false)
  | .tryPop =>
    let q := { q with nPop := q.nPop + 1 }
    if q.enablePop then
      if q.queue.isEmpty then q.finishPop .timeout none
      else q.popFront.finishPop .success q.queue.head?
    else q.finishPop .disabled none
  | .disable =>
    .leave { q with enablePush := false, enablePop := false, queue := [] } .done
      [.broadcastPush, .broadcastPop]
  | .delayedDisable =>
    let q := { q with enablePush := false, enablePop := if q.queue.isEmpty then false else q.enablePop }
    .leave q .done (.broadcastPush :: if !q.enablePop then [.broadcastPop] else [])
  | .disablePop => .leave { q with enablePop := false } .done [.broadcastPop]
  | .resizeEnable newcap =>
    .leave { q with enablePush := true, enablePop := true, queue := [],
                    capacity := if newcap ≠ 0 then newcap else q.capacity } .done
      [.broadcastPush, .broadcastPop]
  | .resizeEnablePush newcap =>
    .leave { q with enablePush := true, queue := [],
                    capacity := if newcap ≠ 0 then newcap else q.capacity } .done [.broadcastPush]
  | .enablePopOnly => .leave { q with enablePop := true } .done [.broadcastPop]
  | .clear =>
    let didPop := !q.queue.isEmpty
    let q := { q with queue := [], enablePop := if !q.enablePush then false else q.enablePop }
    .leave q .done (if q.nPush ≠ 0 ∧ didPop then [.broadcastPush] else [])

end BQueue

/-! ## Threads -/

inductive Status (E : Type)
  | idle
  | asleep (w : Blocked E)
  | woken (w : Blocked E)

/-- The queue and the threads that use it, of any number. -/
structure Sys (τ E : Type) where
  q : BQueue E
  status : τ → Status E

def Blocked.onPush {E : Type} : Blocked E → Bool
  | .push _ => true
  | .pop => false
  | .popTimed _ => false

/-- Wake every thread asleep on the condition. -/
def wakeAll {τ E : Type} (push : Bool) (st : τ → Status E) : τ → Status E := fun t =>
  match st t with
  | .asleep w => if w.onPush = push then .woken w else .asleep w
  | s => s

/-- `pthread_cond_signal`: one of the threads asleep on the condition, if any. -/
def WakesOne {τ E : Type} [DecidableEq τ] (push : Bool) (st st' : τ → Status E) : Prop :=
  (∃ t w, st t = .asleep w ∧ w.onPush = push ∧ st' = Function.update st t (.woken w)) ∨
    ((∀ t w, st t = .asleep w → w.onPush ≠ push) ∧ st' = st)

inductive Delivers {τ E : Type} [DecidableEq τ] :
    List Signal → (τ → Status E) → (τ → Status E) → Prop
  | nil (st) : Delivers [] st st
  | signalPush {sigs st st' st''} : WakesOne true st st' → Delivers sigs st' st'' →
      Delivers (.signalPush :: sigs) st st''
  | signalPop {sigs st st' st''} : WakesOne false st st' → Delivers sigs st' st'' →
      Delivers (.signalPop :: sigs) st st''
  | broadcastPush {sigs st st'} : Delivers sigs (wakeAll true st) st' →
      Delivers (.broadcastPush :: sigs) st st'
  | broadcastPop {sigs st st'} : Delivers sigs (wakeAll false st) st' →
      Delivers (.broadcastPop :: sigs) st st'

/-- A critical section with its reply, if it got to one, or a wake-up. -/
inductive Label (τ E : Type)
  | enter (t : τ) (op : Op E) (r : Option (Reply E))
  | resume (t : τ) (w : Blocked E) (r : Option (Reply E))
  | wake (t : τ)

inductive Step {τ E : Type} [DecidableEq τ] : Sys τ E → Label τ E → Sys τ E → Prop
  | enterSleep {s t op q w} : s.status t = .idle → s.q.enter op = .sleep q w →
      Step s (.enter t op none) ⟨q, Function.update s.status t (.asleep w)⟩
  | enterLeave {s t op q r sigs st} : s.status t = .idle → s.q.enter op = .leave q r sigs →
      Delivers sigs s.status st → Step s (.enter t op (some r)) ⟨q, st⟩
  | resumeSleep {s t w q w'} : s.status t = .woken w → s.q.resume w = .sleep q w' →
      Step s (.resume t w none) ⟨q, Function.update s.status t (.asleep w')⟩
  | resumeLeave {s t w q r sigs st} : s.status t = .woken w → s.q.resume w = .leave q r sigs →
      Delivers sigs (Function.update s.status t .idle) st →
      Step s (.resume t w (some r)) ⟨q, st⟩
  | spurious {s t w} : s.status t = .asleep w →
      Step s (.wake t) ⟨s.q, Function.update s.status t (.woken w)⟩
  | timeout {s t b} : s.status t = .asleep (.popTimed b) →
      Step s (.wake t) ⟨s.q, Function.update s.status t (.woken (.popTimed true))⟩

/-- The queue with its threads, from a given state on. -/
def system {τ E : Type} [DecidableEq τ] (start : Sys τ E → Prop) : Lib.Machine (Sys τ E) (Label τ E) where
  init := start
  step := Step

end Jive5ab.Queue
