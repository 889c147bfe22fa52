import Mathlib.Logic.Function.Basic
import Jive5ab.Lib.Machine

/-! # The runs of a processing chain

`chainimpl` with its step threads. The callers of its methods are told apart only by what they do:
at most one holds the mutex, and others are in `pthread_join` or in `pthread_cond_wait`. A wait is a
step that is taken when the caller can go on. Threads have fresh ids, and the functions that users
register for cancellation and cleanup, which only see user data, are left out. -/
namespace Jive5ab.Chain

/-- A closed chain: the number of threads of each step. -/
structure Config where
  nthread : List Nat
  closed : 2 ≤ nthread.length
  positive : ∀ n ∈ nthread, 0 < n

def Config.size (cfg : Config) : Nat := cfg.nthread.length

def Config.threadsOf (cfg : Config) (step : Nat) : Nat := cfg.nthread.getD step 0

theorem Config.threadsOf_eq_zero (cfg : Config) {i : Nat} (h : cfg.size ≤ i) :
    cfg.threadsOf i = 0 := by
  rw [threadsOf, List.getD_eq_getElem?_getD, List.getElem?_eq_none h]
  rfl

theorem Config.threadsOf_pos (cfg : Config) {i : Nat} (h : i < cfg.size) : 0 < cfg.threadsOf i := by
  rw [threadsOf, List.getD_eq_getElem?_getD, List.getElem?_eq_getElem h]
  exact cfg.positive _ (List.getElem_mem h)

abbrev Tid := Nat

/-- Where a thread is in `run_step`; the numbers are its copies `n` of the two counters. -/
inductive Stage where
  | unborn
  | running
  | returned
  | counted (n : Nat)
  | outputDisabled
  | leaving
  | left (n : Nat)
  | finalizing
  | ended
deriving DecidableEq

structure Thread where
  step : Nat
  run : Nat
  stage : Stage
  joins : Nat

inductive QMode where
  | enabled
  | delayedDisabled
  | disabled
deriving DecidableEq

def QMode.delayedDisable : QMode → QMode
  | .enabled => .delayedDisabled
  | q => q

/-- Who is in `stop` or `join_and_cleanup`: `run`, after a start that failed, or one of the others. -/
inductive Origin where
  | run (r : Nat)
  | call
deriving DecidableEq

/-- What the caller that holds the mutex does. In the loop of `run`, `sptrptr` has `left` steps to go,
and `n` threads of a step are still to be created. -/
inductive Work where
  | test (left n : Nat)
  | create (left n : Nat)
  | loopExit (left : Nat)
  | disabling (queue : Nat) (o : Origin)
  | joinAndCleanup (o : Origin)
  | deleting (left : Nat) (o : Origin)
deriving DecidableEq

structure State where
  running : Bool
  joining : Bool
  cancelled : Bool
  finalized : Bool
  nthreads : Nat
  /-- `rsa.nthread` of each step. -/
  rsaNthread : Nat → Nat
  /-- `threads` of each step. -/
  tids : Nat → List Tid
  /-- The run for which a step has user data. -/
  userdata : Nat → Option Nat
  queue : Nat → QMode
  thread : Tid → Thread
  holder : Option Work
  joiners : List (List Tid × Origin)
  waiters : List Origin
  /-- The runs so far, the ones for which `run()` is over (and whether it returned normally), those
  whose final functions were called, and those with user data that was deleted. -/
  runNr : Nat
  results : List (Nat × Bool)
  finals : List Nat
  deleted : List Nat

def State.setStage (s : State) (t : Tid) (stage : Stage) : State :=
  { s with thread := Function.update s.thread t { s.thread t with stage := stage } }

theorem State.setStage_self (s : State) (t : Tid) (stage : Stage) :
    (s.setStage t stage).thread t = { s.thread t with stage := stage } := Function.update_self ..

theorem State.setStage_of_ne (s : State) {t u : Tid} (h : u ≠ t) (stage : Stage) :
    (s.setStage t stage).thread u = s.thread u := Function.update_of_ne h ..

/-- The output queue of a step; that of the last one is a no-op. -/
def delayedDisableOutput (cfg : Config) (queue : Nat → QMode) (step : Nat) : Nat → QMode :=
  if step + 1 < cfg.size then Function.update queue step (queue step).delayedDisable else queue

/-- The input queue of a step; that of the first one is a no-op. -/
def disableInput (queue : Nat → QMode) : Nat → Nat → QMode
  | 0 => queue
  | i + 1 => Function.update queue i .disabled

/-- The end of a call; `run` asserts that the chain is running. -/
def State.finish (s : State) (o : Origin) : State :=
  { s with
    holder := none,
    results := match o with
      | .run r => s.results ++ [(r, s.running)]
      | .call => s.results }

inductive Label where
  | run
  | createFails (step : Nat)
  | call
  | thread (t : Tid)
deriving DecidableEq

/-- `run()`. -/
inductive RunStep (cfg : Config) : State → Label → State → Prop
  | enter {s} : s.holder = none → s.running = false →
      RunStep cfg s .run { s with
        nthreads := 0, queue := fun _ => .enabled, runNr := s.runNr + 1,
        holder := some (.test cfg.size 0) }
  | makeUserdata {s left} : s.holder = some (.test (left + 1) 0) →
      RunStep cfg s .call { s with
        userdata := Function.update s.userdata left (some s.runNr),
        rsaNthread := Function.update s.rsaNthread left (cfg.threadsOf left),
        holder := some (.create (left + 1) (cfg.threadsOf left)) }
  | makerThrows {s left} : s.holder = some (.test (left + 1) 0) →
      RunStep cfg s .call { s with holder := some (.loopExit (left + 1)) }
  | create {s left n t} : s.holder = some (.create (left + 1) (n + 1)) →
      (s.thread t).stage = .unborn →
      RunStep cfg s .call { s with
        nthreads := s.nthreads + 1,
        tids := Function.update s.tids left (s.tids left ++ [t]),
        thread := Function.update s.thread t ⟨left, s.runNr, .running, 0⟩,
        holder := some (.create (left + 1) n) }
  | createFails {s left n} : s.holder = some (.create (left + 1) (n + 1)) →
      RunStep cfg s (.createFails left) { s with holder := some (.test left (n + 1)) }
  | created {s left} : s.holder = some (.create (left + 1) 0) →
      RunStep cfg s .call { s with holder := some (.test left 0) }
  | leaveLoop {s left n} : s.holder = some (.test left n) → n ≠ 0 ∨ left = 0 →
      RunStep cfg s .call { s with holder := some (.loopExit left) }
  | started {s} : s.holder = some (.loopExit 0) →
      RunStep cfg s .call ({ s with running := true, cancelled := false, finalized := false }.finish
        (.run s.runNr))
  | stop {s left} : s.holder = some (.loopExit (left + 1)) →
      RunStep cfg s .call { s with
        running := true, cancelled := false, finalized := false,
        holder := some (.disabling 0 (.run s.runNr)) }

/-- `stop()`, `gentle_stop()`, `delayed_disable()` and `wait()`. A call of `run()` on a chain that is
running throws, and a stop of one that is not running or cancelled already returns: neither does
anything. -/
inductive CallStep (cfg : Config) : State → State → Prop
  | stop {s} : s.holder = none → s.running = true → s.cancelled = false →
      CallStep cfg s { s with holder := some (.disabling 0 .call) }
  | gentleStop {s} : s.holder = none → s.running = true → s.cancelled = false →
      CallStep cfg s { s with
        queue := delayedDisableOutput cfg s.queue 0, cancelled := true,
        holder := some (.joinAndCleanup .call) }
  | delayedDisable {s} : s.holder = none → s.running = true → s.cancelled = false →
      CallStep cfg s { s with queue := delayedDisableOutput cfg s.queue 0 }
  | wait {s} : s.holder = none → CallStep cfg s { s with holder := some (.joinAndCleanup .call) }
  | disable {s i o} : s.holder = some (.disabling i o) → i + 1 < cfg.size →
      CallStep cfg s { s with
        queue := Function.update s.queue i .disabled, holder := some (.disabling (i + 1) o) }
  | disabled {s i o} : s.holder = some (.disabling i o) → ¬ i + 1 < cfg.size →
      CallStep cfg s { s with cancelled := true, holder := some (.joinAndCleanup o) }
  | notRunning {s o} : s.holder = some (.joinAndCleanup o) → s.running = false →
      CallStep cfg s (s.finish o)
  | condWait {s o} : s.holder = some (.joinAndCleanup o) → s.running = true → s.joining = true →
      CallStep cfg s { s with holder := none, waiters := o :: s.waiters }
  | startJoin {s o} : s.holder = some (.joinAndCleanup o) → s.running = true → s.joining = false →
      CallStep cfg s { s with
        holder := none, joining := true,
        joiners := ((List.range cfg.size).flatMap s.tids, o) :: s.joiners }
  | join {s t todo o before after} : s.joiners = before ++ (t :: todo, o) :: after →
      (s.thread t).stage = .ended →
      CallStep cfg s { s with
        joiners := before ++ (todo, o) :: after,
        thread := Function.update s.thread t
          { s.thread t with joins := (s.thread t).joins + 1 } }
  | joined {s o before after} : s.joiners = before ++ ([], o) :: after → s.holder = none →
      CallStep cfg s { s with
        joiners := before ++ after, running := false, joining := false,
        holder := some (.deleting cfg.size o) }
  | delete {s left o} : s.holder = some (.deleting (left + 1) o) →
      CallStep cfg s { s with
        userdata := Function.update s.userdata left none,
        deleted := s.deleted ++ (s.userdata left).toList, holder := some (.deleting left o) }
  | cleaned {s o} : s.holder = some (.deleting 0 o) → CallStep cfg s (s.finish o)
  | wake {s o before after} : s.waiters = before ++ o :: after → s.holder = none →
      s.running = false →
      CallStep cfg s ({ s with waiters := before ++ after }.finish o)

/-- `run_step`. -/
inductive ThreadStep (cfg : Config) (t : Tid) : State → State → Prop
  | functionReturns {s} : (s.thread t).stage = .running → ThreadStep cfg t s (s.setStage t .returned)
  | count {s} : (s.thread t).stage = .returned →
      ThreadStep cfg t s ({ s with
        rsaNthread := Function.update s.rsaNthread (s.thread t).step
          (s.rsaNthread (s.thread t).step - 1) }.setStage t
            (.counted (s.rsaNthread (s.thread t).step - 1)))
  | disableOutput {s} : (s.thread t).stage = .counted 0 →
      ThreadStep cfg t s ({ s with
        queue := delayedDisableOutput cfg s.queue (s.thread t).step }.setStage t .outputDisabled)
  | disableInput {s} : (s.thread t).stage = .outputDisabled →
      ThreadStep cfg t s ({ s with
        queue := disableInput s.queue (s.thread t).step }.setStage t .leaving)
  | notLast {s n} : (s.thread t).stage = .counted (n + 1) →
      ThreadStep cfg t s (s.setStage t .leaving)
  | leave {s} : (s.thread t).stage = .leaving → s.holder = none →
      ThreadStep cfg t s
        ({ s with nthreads := s.nthreads - 1 }.setStage t (.left (s.nthreads - 1)))
  | doFinals {s} : (s.thread t).stage = .left 0 → s.running = true → s.finalized = false →
      ThreadStep cfg t s ({ s with finals := s.finals ++ [s.runNr] }.setStage t .finalizing)
  | noFinals {s} : (s.thread t).stage = .left 0 → s.running = false ∨ s.finalized = true →
      ThreadStep cfg t s (s.setStage t .ended)
  | finalized {s} : (s.thread t).stage = .finalizing →
      ThreadStep cfg t s ({ s with finalized := true }.setStage t .ended)
  | notLastOfChain {s n} : (s.thread t).stage = .left (n + 1) →
      ThreadStep cfg t s (s.setStage t .ended)

inductive Step (cfg : Config) : State → Label → State → Prop
  | run {s a s'} : RunStep cfg s a s' → Step cfg s a s'
  | call {s s'} : CallStep cfg s s' → Step cfg s .call s'
  | thread {s t s'} : ThreadStep cfg t s s' → Step cfg s (.thread t) s'

def State.closed : State where
  running := false
  joining := false
  cancelled := false
  finalized := false
  nthreads := 0
  rsaNthread _ := 0
  tids _ := []
  userdata _ := none
  queue _ := .enabled
  thread _ := ⟨0, 0, .unborn, 0⟩
  holder := none
  joiners := []
  waiters := []
  runNr := 0
  results := []
  finals := []
  deleted := []

def system (cfg : Config) : Lib.Machine State Label where
  init s := s = .closed
  step := Step cfg

end Jive5ab.Chain
