import Mathlib.Data.List.Sort
import Jive5ab.Queue.Drain

/-! # `multiwriter`

One writer thread for each file descriptor among the destinations, each behind a queue of its own.
At the end of the input `multiwriter` raises the cancel flag of each writer, delayed-disables its
queue, and joins it. A writer looks at its flag before it starts to pop, once or more often.

A call that waits on a queue is a step that is taken when the call can go on. -/
namespace Jive5ab.Net.Multiwriter
open Queue

abbrev Tag := UInt32
abbrev Fd := Int

structure Config (E : Type) where
  /-- `dstfdmap`, in the order of its keys. -/
  dstFdMap : List (Tag × Fd)
  sorted : dstFdMap.Pairwise fun d d' => d.1 < d'.1
  items : List (Tag × E)
  /-- How many more tests of the flag come after a writer's first one: none in `fdwriter`, which is
  where `netwriter` goes after one test, or two if it has to accept. -/
  tests : Fd → Nat

inductive Writer (E : Type) where
  | testing (more : Nat)
  | running
  | writing (b : E)
  | leaving
  | ended

/-- `dst_state_type` with its thread, and what that thread has written. -/
structure Dest (E : Type) where
  q : BQueue E
  cancelled : Bool
  writer : Writer E
  written : List E

inductive Main (E : Type) where
  | spawning (todo : List (Tag × Fd))
  | popping
  | pushing (fd : Fd) (item : E)
  | cancelling (todo : List Fd)
  | disabling (fd : Fd) (todo : List Fd)
  | joining (todo : List Fd)
  | returned
  | threw (what : String)

structure State (E : Type) where
  main : Main E
  input : List (Tag × E)
  /-- The keys of `fd_state_map`; `dest` is what it maps them to. -/
  fdStates : List Fd
  dest : Fd → Dest E
  /-- `tag_state_map`, with the descriptor for the state. -/
  tagStates : List (Tag × Fd)

inductive Label where
  | main
  | cancel (fd : Fd)
  | writer (fd : Fd)
  | writerFails (fd : Fd)

variable {E : Type}

def State.setDest (s : State E) (fd : Fd) (d : Dest E) : State E :=
  { s with dest := Function.update s.dest fd d }

theorem State.setDest_dest (s : State E) (fd : Fd) (d : Dest E) (fd' : Fd) :
    (s.setDest fd d).dest fd' = if fd' = fd then d else s.dest fd' :=
  Function.update_apply s.dest fd d fd'

/-- A new state: a queue of ten, enabled. -/
def Dest.fresh (tests : Nat) : Dest E where
  q := { (BQueue.init 10 : BQueue E) with enablePush := true, enablePop := true }
  cancelled := false
  writer := .testing tests
  written := []

inductive Step (cfg : Config E) : State E → Label → State E → Prop
  | spawn {s tag fd todo} : s.main = .spawning ((tag, fd) :: todo) → fd ∉ s.fdStates →
      Step cfg s .main { s with
        main := .spawning todo, fdStates := s.fdStates.orderedInsert (· ≤ ·) fd,
        dest := Function.update s.dest fd (Dest.fresh (cfg.tests fd)),
        tagStates := s.tagStates ++ [(tag, fd)] }
  | spawnKnown {s tag fd todo} : s.main = .spawning ((tag, fd) :: todo) → fd ∈ s.fdStates →
      Step cfg s .main { s with main := .spawning todo, tagStates := s.tagStates ++ [(tag, fd)] }
  | spawned {s} : s.main = .spawning [] → Step cfg s .main { s with main := .popping }
  | popUnknown {s tag item rest} : s.main = .popping → s.input = (tag, item) :: rest →
      s.tagStates.lookup tag = none → Step cfg s .main { s with input := rest }
  | popKnown {s tag item rest fd} : s.main = .popping → s.input = (tag, item) :: rest →
      s.tagStates.lookup tag = some fd →
      Step cfg s .main { s with main := .pushing fd item, input := rest }
  | popEnd {s} : s.main = .popping → s.input = [] →
      Step cfg s .main { s with main := .cancelling s.fdStates }
  | pushed {s fd item q sigs} : s.main = .pushing fd item →
      (s.dest fd).q.enter (.push item) = .leave q (.pushed true) sigs →
      Step cfg s .main ({ s with main := .popping }.setDest fd { s.dest fd with q := q })
  | pushFailed {s fd item q sigs} : s.main = .pushing fd item →
      (s.dest fd).q.enter (.push item) = .leave q (.pushed false) sigs →
      Step cfg s .main
        ({ s with main := .cancelling s.fdStates }.setDest fd { s.dest fd with q := q })
  | cancel {s fd todo} : s.main = .cancelling (fd :: todo) →
      Step cfg s (.cancel fd)
        ({ s with main := .disabling fd todo }.setDest fd { s.dest fd with cancelled := true })
  | cancelled {s} : s.main = .cancelling [] →
      Step cfg s .main { s with main := .joining s.fdStates }
  | disable {s fd todo q r sigs} : s.main = .disabling fd todo →
      (s.dest fd).q.enter .delayedDisable = .leave q r sigs →
      Step cfg s .main ({ s with main := .cancelling todo }.setDest fd { s.dest fd with q := q })
  | join {s fd todo} : s.main = .joining (fd :: todo) → (s.dest fd).writer = .ended →
      Step cfg s .main { s with main := .joining todo }
  | joined {s} : s.main = .joining [] → Step cfg s .main { s with main := .returned }
  | testStop {s fd more} : (s.dest fd).writer = .testing more → (s.dest fd).cancelled = true →
      Step cfg s (.writer fd) (s.setDest fd { s.dest fd with writer := .leaving })
  | testAgain {s fd more} : (s.dest fd).writer = .testing (more + 1) →
      (s.dest fd).cancelled = false →
      Step cfg s (.writer fd) (s.setDest fd { s.dest fd with writer := .testing more })
  | testLast {s fd} : (s.dest fd).writer = .testing 0 → (s.dest fd).cancelled = false →
      Step cfg s (.writer fd) (s.setDest fd { s.dest fd with writer := .running })
  | pop {s fd q b sigs} : (s.dest fd).writer = .running →
      (s.dest fd).q.enter .pop = .leave q (.popped (some b)) sigs →
      Step cfg s (.writer fd) (s.setDest fd { s.dest fd with q := q, writer := .writing b })
  | popDisabled {s fd q sigs} : (s.dest fd).writer = .running →
      (s.dest fd).q.enter .pop = .leave q (.popped none) sigs →
      Step cfg s (.writer fd) (s.setDest fd { s.dest fd with q := q, writer := .leaving })
  | write {s fd b} : (s.dest fd).writer = .writing b →
      Step cfg s (.writer fd) (s.setDest fd
        { s.dest fd with writer := .running, written := (s.dest fd).written ++ [b] })
  | writeFails {s fd b} : (s.dest fd).writer = .writing b →
      Step cfg s (.writerFails fd) (s.setDest fd { s.dest fd with writer := .leaving })
  | startFails {s fd more} : (s.dest fd).writer = .testing more →
      Step cfg s (.writerFails fd) (s.setDest fd { s.dest fd with writer := .leaving })
  | leave {s fd q r sigs} : (s.dest fd).writer = .leaving →
      (s.dest fd).q.enter .disable = .leave q r sigs →
      Step cfg s (.writer fd) (s.setDest fd { s.dest fd with q := q, writer := .ended })

def Config.start (cfg : Config E) : State E where
  main := if cfg.dstFdMap = [] then .threw "There are no destinations to send to"
    else .spawning cfg.dstFdMap
  input := cfg.items
  fdStates := []
  dest _ := ⟨BQueue.init 0, false, .ended, []⟩
  tagStates := []

/-- `multiwriter` and its writers. -/
def system (cfg : Config E) : Lib.Machine (State E) Label where
  init s := s = cfg.start
  step := Step cfg

/-! ## What should arrive -/

/-- The items for a descriptor, in their order. -/
def Config.routed (cfg : Config E) (fd : Fd) (items : List (Tag × E)) : List E :=
  (items.filter fun i => cfg.dstFdMap.lookup i.1 == some fd).map Prod.snd

def Delivered (cfg : Config E) (s : State E) : Prop :=
  ∀ d ∈ cfg.dstFdMap, (s.dest d.2).written = cfg.routed d.2 cfg.items

def Writer.isTesting : Writer E → Bool
  | .testing _ => true
  | _ => false

/-- A flag is raised when the writer is past its tests, or there is nothing for it. -/
def InTime (s : State E) (a : Label) : Prop :=
  ∀ fd, a = .cancel fd → (s.dest fd).writer.isTesting = true → (s.dest fd).q.queue = []

/-- The runs in which every flag is raised in time. -/
def inTime (cfg : Config E) : Lib.Machine (State E) Label where
  init s := s = cfg.start
  step s a t := Step cfg s a t ∧ InTime s a

/-! ## The queue of a writer -/

/-- All goes in and out, or what was pushed is being drained. -/
def Open (q : BQueue E) : Prop := Enabled q ∨ Draining q

theorem push_true {q q' : BQueue E} {b : E} {sigs : List Signal} (hq : Enabled q)
    (h : q.enter (.push b) = .leave q' (.pushed true) sigs) :
    Enabled q' ∧ q'.queue = q.queue ++ [b] := by
  have hmoved := @enter_moves E q hq (.push b) rfl
  rw [h] at hmoved
  exact ⟨hmoved.enabled, hmoved.content.symm⟩

theorem push_false {q q' : BQueue E} {b : E} {sigs : List Signal} (hq : Enabled q) :
    q.enter (.push b) ≠ .leave q' (.pushed false) sigs := by
  rw [BQueue.enter]
  intro h
  rcases resume_push_cases { q with nPush := q.nPush + 1 } b with
    ⟨-, -, heq⟩ | ⟨hoff, -⟩ | ⟨-, -, heq⟩
  · rw [heq] at h
    cases h
  · have hon : q.enablePush = false := hoff
    rw [hq.push] at hon
    cases hon
  · rw [heq] at h
    cases h

theorem pop_some {q q' : BQueue E} {b : E} {sigs : List Signal}
    (h : q.enter .pop = .leave q' (.popped (some b)) sigs) :
    (Enabled q → Enabled q' ∧ q.queue = b :: q'.queue) ∧
      (Draining q → Draining q' ∧ q.queue = b :: q'.queue) := by
  constructor
  · intro hq
    have hmoved := @enter_moves E q hq .pop rfl
    rw [h] at hmoved
    exact ⟨hmoved.enabled, by simpa [Op.given, Reply.taken] using hmoved.content⟩
  · intro hq
    have hdrained := @enter_drained E q hq .pop rfl
    rw [h] at hdrained
    exact ⟨hdrained.1, hdrained.2.2.1⟩

theorem pop_none {q q' : BQueue E} {sigs : List Signal}
    (h : q.enter .pop = .leave q' (.popped none) sigs) :
    ¬ Enabled q ∧ (Draining q → q.queue = []) := by
  constructor
  · intro hq
    rw [BQueue.enter] at h
    rcases resume_pop_cases { q with nPop := q.nPop + 1 } with
      ⟨-, -, heq⟩ | ⟨hoff, -⟩ | ⟨e, rest, -, -, heq⟩
    · rw [heq] at h
      cases h
    · have hon : q.enablePop = false := hoff
      rw [hq.pop] at hon
      cases hon
    · rw [heq] at h
      cases h
  · intro hq
    have hdrained := @enter_drained E q hq .pop rfl
    rw [h] at hdrained
    exact hdrained.2.2.2.1 rfl

theorem delayedDisable_leave {q q' : BQueue E} {r : Reply E} {sigs : List Signal}
    (h : q.enter .delayedDisable = .leave q' r sigs) (hq : Open q) :
    Draining q' ∧ q'.queue = q.queue := by
  cases h
  refine ⟨⟨rfl, ?_⟩, rfl⟩
  cases hqueue : q.queue with
  | nil => simp
  | cons b rest =>
    rcases hq with hen | hdr
    · simp [hen.pop]
    · simp [hdr.pop, hqueue]

/-! ## The invariant -/

def Writer.inflight : Writer E → List E
  | .writing b => [b]
  | _ => []

def Writer.gone : Writer E → Bool
  | .leaving | .ended => true
  | _ => false

/-- A writer that was handed `out`, if its flag was raised in time. -/
structure Dest.Ok (out : List E) (d : Dest E) : Prop where
  content : d.writer.gone = false → out = d.written ++ d.writer.inflight ++ d.q.queue
  queue : d.writer.gone = false → Enabled d.q ∨ Draining d.q ∧ d.cancelled = true
  untested : d.writer.isTesting = true → d.written = [] ∧ (d.cancelled = true → d.q.queue = [])
  gone : d.writer.gone = true → d.written = out ∧ d.cancelled = true

def Main.todo : Main E → List (Tag × Fd)
  | .spawning todo => todo
  | _ => []

/-- What was popped from the input for a descriptor, and not yet pushed. -/
def Main.pending (fd : Fd) : Main E → List E
  | .pushing fd' item => if fd' = fd then [item] else []
  | _ => []

/-- The descriptors that `multiwriter` is about to turn to. -/
def Main.fds : Main E → List Fd
  | .pushing fd _ => [fd]
  | .cancelling todo => todo
  | .disabling fd todo => fd :: todo
  | _ => []

def Main.feeding : Main E → Bool
  | .spawning _ | .popping | .pushing _ _ | .threw _ => true
  | _ => false

/-- The queue of a writer is disabled after its flag is raised; those that are joined have ended. -/
def Main.Sees (dest : Fd → Dest E) (fds : List Fd) : Main E → Prop
  | .disabling fd _ => (dest fd).cancelled = true
  | .joining todo => ∀ fd ∈ fds, fd ∉ todo → (dest fd).writer = .ended
  | .returned => ∀ fd ∈ fds, (dest fd).writer = .ended
  | _ => True

structure Inv (cfg : Config E) (s : State E) : Prop where
  tags : cfg.dstFdMap = s.tagStates ++ s.main.todo
  fds : ∀ fd, fd ∈ s.fdStates ↔ fd ∈ s.tagStates.map Prod.snd
  known : ∀ fd ∈ s.main.fds, fd ∈ s.fdStates
  idle : ∀ fd, fd ∉ s.fdStates → (s.dest fd).writer = .ended
  spawning : ∀ todo, s.main = .spawning todo → s.input = cfg.items
  stopped : s.main.feeding = false → s.input = []
  dests : ∀ fd ∈ s.fdStates, ∃ out, (s.dest fd).Ok out ∧
    cfg.routed fd cfg.items = out ++ s.main.pending fd ++ cfg.routed fd s.input
  flags : s.main.feeding = true → ∀ fd ∈ s.fdStates, (s.dest fd).cancelled = false
  sees : s.main.Sees s.dest s.fdStates

theorem start_inv (cfg : Config E) : Inv cfg cfg.start := by
  unfold Config.start
  by_cases hnil : cfg.dstFdMap = []
  · rw [if_pos hnil]
    exact ⟨hnil, by simp, by simp [Main.fds], fun _ _ => rfl, by simp, by simp [Main.feeding],
      by simp, by simp, trivial⟩
  · rw [if_neg hnil]
    exact ⟨rfl, by simp, by simp [Main.fds], fun _ _ => rfl, by simp, by simp [Main.feeding],
      by simp, by simp, trivial⟩

/-! ## Steps of a writer -/

variable {cfg : Config E} {s t : State E} {fd : Fd}

theorem Inv.setDest (h : Inv cfg s) {d : Dest E} (hlive : (s.dest fd).writer ≠ .ended)
    (hok : ∀ out, (s.dest fd).Ok out → d.Ok out) (hflag : d.cancelled = (s.dest fd).cancelled) :
    Inv cfg (s.setDest fd d) := by
  have hdest := s.setDest_dest fd d
  refine ⟨h.tags, h.fds, h.known, ?_, h.spawning, h.stopped, ?_, ?_, ?_⟩
  · intro fd' hfd'
    rw [hdest]
    split
    case isTrue heq => exact absurd (h.idle fd (heq ▸ hfd')) hlive
    case isFalse hne => exact h.idle fd' hfd'
  · intro fd' hfd'
    obtain ⟨out, hout, hitems⟩ := h.dests fd' hfd'
    refine ⟨out, ?_, hitems⟩
    rw [hdest]
    split
    case isTrue heq => exact hok out (heq ▸ hout)
    case isFalse hne => exact hout
  · intro hfeed fd' hfd'
    have hold := h.flags hfeed fd' hfd'
    rw [hdest]
    split
    case isTrue heq => rw [hflag, ← heq, hold]
    case isFalse hne => exact hold
  · have hends (fd' : Fd) (hend : (s.dest fd').writer = .ended) :
        ((s.setDest fd d).dest fd').writer = .ended := by
      rw [hdest]
      split
      case isTrue heq => exact absurd (heq ▸ hend) hlive
      case isFalse hne => exact hend
    have hsees := h.sees
    cases hm : s.main with
    | disabling fd' todo =>
      rw [hm] at hsees
      simp only [State.setDest, hm, Main.Sees]
      change ((s.setDest fd d).dest fd').cancelled = true
      rw [hdest]
      split
      case isTrue heq => exact hflag.trans (heq ▸ hsees)
      case isFalse hne => exact hsees
    | joining todo =>
      rw [hm] at hsees
      simp only [State.setDest, hm, Main.Sees]
      intro fd' hfd' hout
      exact hends fd' (hsees fd' hfd' hout)
    | returned =>
      rw [hm] at hsees
      simp only [State.setDest, hm, Main.Sees]
      intro fd' hfd'
      exact hends fd' (hsees fd' hfd')
    | _ => simp [State.setDest, hm, Main.Sees]

/-- A writer that ended has no step, so only one with a state has. -/
theorem Inv.writer_step (h : Inv cfg s) (hstep : Step cfg s (.writer fd) t) : Inv cfg t := by
  generalize ha : Label.writer fd = a at hstep
  cases hstep with
  | @testStop _ _ hw hcancel =>
    obtain rfl := Label.writer.inj ha
    refine h.setDest (by simp [hw]) ?_ rfl
    intro out hok
    have htest := hok.untested (by rw [hw]; rfl)
    have hcontent := hok.content (by rw [hw]; rfl)
    refine ⟨by simp [Writer.gone], by simp [Writer.gone], by simp [Writer.isTesting], ?_⟩
    intro _
    refine ⟨?_, hcancel⟩
    rw [hcontent, htest.1, htest.2 hcancel, hw]
    rfl
  | @testAgain _ _ hw hcancel =>
    obtain rfl := Label.writer.inj ha
    refine h.setDest (by simp [hw]) ?_ rfl
    intro out hok
    refine ⟨?_, ?_, ?_, by simp [Writer.gone]⟩
    · intro _
      simpa [hw, Writer.inflight] using hok.content (by rw [hw]; rfl)
    · intro _
      exact hok.queue (by rw [hw]; rfl)
    · intro _
      exact hok.untested (by rw [hw]; rfl)
  | @testLast _ hw hcancel =>
    obtain rfl := Label.writer.inj ha
    refine h.setDest (by simp [hw]) ?_ rfl
    intro out hok
    refine ⟨?_, ?_, by simp [Writer.isTesting], by simp [Writer.gone]⟩
    · intro _
      simpa [hw, Writer.inflight] using hok.content (by rw [hw]; rfl)
    · intro _
      exact hok.queue (by rw [hw]; rfl)
  | @pop _ q b sigs hw hpop =>
    obtain rfl := Label.writer.inj ha
    refine h.setDest (by simp [hw]) ?_ rfl
    intro out hok
    have hcontent := hok.content (by rw [hw]; rfl)
    obtain ⟨henabled, hdraining⟩ := pop_some hpop
    have hq : (Enabled q ∨ Draining q ∧ (s.dest fd).cancelled = true) ∧
        (s.dest fd).q.queue = b :: q.queue := by
      rcases hok.queue (by rw [hw]; rfl) with hen | ⟨hdr, hcancel⟩
      · exact ⟨.inl (henabled hen).1, (henabled hen).2⟩
      · exact ⟨.inr ⟨(hdraining hdr).1, hcancel⟩, (hdraining hdr).2⟩
    refine ⟨?_, fun _ => hq.1, by simp [Writer.isTesting], by simp [Writer.gone]⟩
    intro _
    rw [hcontent, hq.2, hw]
    simp [Writer.inflight]
  | @popDisabled _ q sigs hw hpop =>
    obtain rfl := Label.writer.inj ha
    refine h.setDest (by simp [hw]) ?_ rfl
    intro out hok
    have hcontent := hok.content (by rw [hw]; rfl)
    obtain ⟨hnot, hempty⟩ := pop_none hpop
    rcases hok.queue (by rw [hw]; rfl) with hen | ⟨hdr, hcancel⟩
    · exact absurd hen hnot
    · refine ⟨by simp [Writer.gone], by simp [Writer.gone], by simp [Writer.isTesting], ?_⟩
      intro _
      refine ⟨?_, hcancel⟩
      rw [hcontent, hempty hdr, hw]
      simp [Writer.inflight]
  | @write _ b hw =>
    obtain rfl := Label.writer.inj ha
    refine h.setDest (by simp [hw]) ?_ rfl
    intro out hok
    refine ⟨?_, ?_, by simp [Writer.isTesting], by simp [Writer.gone]⟩
    · intro _
      simpa [hw, Writer.inflight] using hok.content (by rw [hw]; rfl)
    · intro _
      exact hok.queue (by rw [hw]; rfl)
  | @leave _ q r sigs hw hleave =>
    obtain rfl := Label.writer.inj ha
    refine h.setDest (by simp [hw]) ?_ rfl
    intro out hok
    refine ⟨by simp [Writer.gone], by simp [Writer.gone], by simp [Writer.isTesting], ?_⟩
    intro _
    exact hok.gone (by rw [hw]; rfl)
  | _ => cases ha

/-! ## Steps of `multiwriter` -/

theorem fresh_ok (tests : Nat) : (Dest.fresh (E := E) tests).Ok [] where
  content _ := rfl
  queue _ := .inl ⟨rfl, rfl⟩
  untested _ := ⟨rfl, by simp [Dest.fresh]⟩
  gone h := by simp [Dest.fresh, Writer.gone] at h

theorem Inv.spawn (h : Inv cfg s) {tag : Tag} {todo : List (Tag × Fd)}
    (hmain : s.main = .spawning ((tag, fd) :: todo)) (hnew : fd ∉ s.fdStates) :
    Inv cfg { s with
      main := .spawning todo, fdStates := s.fdStates.orderedInsert (· ≤ ·) fd,
      dest := Function.update s.dest fd (Dest.fresh (cfg.tests fd)),
      tagStates := s.tagStates ++ [(tag, fd)] } := by
  have hinput := h.spawning _ hmain
  refine ⟨?_, ?_, by simp [Main.fds], ?_, fun _ _ => hinput, by simp [Main.feeding], ?_, ?_,
    trivial⟩
  · rw [h.tags, hmain]
    simp [Main.todo]
  · intro fd'
    simp only [List.mem_orderedInsert, h.fds, List.map_append, List.mem_append, List.map_cons,
      List.map_nil, List.mem_singleton]
    exact or_comm
  · intro fd' hfd'
    rw [List.mem_orderedInsert, not_or] at hfd'
    simp only [Function.update_of_ne hfd'.1]
    exact h.idle fd' hfd'.2
  · intro fd' hfd'
    rcases eq_or_ne fd' fd with rfl | hne
    · refine ⟨[], ?_, by simp [Main.pending, hinput]⟩
      simp only [Function.update_self]
      exact fresh_ok _
    · rw [List.mem_orderedInsert] at hfd'
      obtain ⟨out, hok, hitems⟩ := h.dests fd' (hfd'.resolve_left hne)
      rw [hmain] at hitems
      refine ⟨out, ?_, hitems⟩
      simp only [Function.update_of_ne hne]
      exact hok
  · intro _ fd' hfd'
    rcases eq_or_ne fd' fd with rfl | hne
    · simp only [Function.update_self]
      rfl
    · rw [List.mem_orderedInsert] at hfd'
      simp only [Function.update_of_ne hne]
      exact h.flags (by rw [hmain]; rfl) fd' (hfd'.resolve_left hne)

/-- `multiwriter` goes on without touching a queue or a flag. -/
theorem Inv.goOn (h : Inv cfg s) {main : Main E} {input : List (Tag × E)}
    {tagStates : List (Tag × Fd)} (htags : cfg.dstFdMap = tagStates ++ main.todo)
    (hknown : ∀ fd ∈ main.fds, fd ∈ s.fdStates)
    (hfds : tagStates.map Prod.snd = s.tagStates.map Prod.snd ∨
      ∃ fd ∈ s.fdStates, tagStates.map Prod.snd = s.tagStates.map Prod.snd ++ [fd])
    (hspawning : ∀ todo, main = .spawning todo → input = cfg.items)
    (hstopped : main.feeding = false → input = [])
    (hitems : ∀ fd ∈ s.fdStates, s.main.pending fd ++ cfg.routed fd s.input =
      main.pending fd ++ cfg.routed fd input)
    (hfeeding : main.feeding = true → s.main.feeding = true)
    (hsees : main.Sees s.dest s.fdStates) :
    Inv cfg { s with main := main, input := input, tagStates := tagStates } := by
  refine ⟨htags, ?_, hknown, h.idle, hspawning, hstopped, ?_, fun hf => h.flags (hfeeding hf),
    hsees⟩
  · intro fd
    rcases hfds with heq | ⟨fd', hfd', heq⟩
    · rw [heq]
      exact h.fds fd
    · rw [heq, List.mem_append, List.mem_singleton, ← h.fds]
      constructor
      · exact .inl
      · rintro (hfd | rfl)
        · exact hfd
        · exact hfd'
  · intro fd hfd
    obtain ⟨out, hok, hold⟩ := h.dests fd hfd
    rw [List.append_assoc, hitems fd hfd, ← List.append_assoc] at hold
    exact ⟨out, hok, hold⟩

theorem routed_cons (cfg : Config E) (fd : Fd) (tag : Tag) (item : E) (rest : List (Tag × E)) :
    cfg.routed fd ((tag, item) :: rest) =
      (if cfg.dstFdMap.lookup tag = some fd then [item] else []) ++ cfg.routed fd rest := by
  unfold Config.routed
  by_cases hfd : cfg.dstFdMap.lookup tag = some fd
  · simp [hfd]
  · simp [hfd]

/-- Until the end of the input the queues are enabled, and their writers are there. -/
theorem Inv.enabled (h : Inv cfg s) (hfeed : s.main.feeding = true) (hmem : fd ∈ s.fdStates)
    {out : List E} (hok : (s.dest fd).Ok out) :
    (s.dest fd).writer.gone = false ∧ Enabled (s.dest fd).q := by
  have hflag := h.flags hfeed fd hmem
  have hlive : (s.dest fd).writer.gone = false := by
    cases hgone : (s.dest fd).writer.gone with
    | false => rfl
    | true =>
      rw [(hok.gone hgone).2] at hflag
      cases hflag
  rcases hok.queue hlive with hen | ⟨-, hcancel⟩
  · exact ⟨hlive, hen⟩
  · rw [hflag] at hcancel
    cases hcancel

theorem Inv.pushed (h : Inv cfg s) {item : E} {q : BQueue E} {sigs : List Signal}
    (hmain : s.main = .pushing fd item) (hmem : fd ∈ s.fdStates)
    (hpush : (s.dest fd).q.enter (.push item) = .leave q (.pushed true) sigs) :
    Inv cfg ({ s with main := .popping }.setDest fd { s.dest fd with q := q }) := by
  have hfeed : s.main.feeding = true := by rw [hmain]; rfl
  have hflags := h.flags hfeed
  have htags : cfg.dstFdMap = s.tagStates ++ [] := by simpa [hmain, Main.todo] using h.tags
  have hdest := State.setDest_dest { s with main := .popping } fd { s.dest fd with q := q }
  refine ⟨htags, h.fds, by simp [State.setDest, Main.fds], ?_, by simp [State.setDest],
    by simp [State.setDest, Main.feeding], ?_, ?_, trivial⟩
  · intro fd' hfd'
    rw [hdest]
    split
    case isTrue heq => exact absurd hmem (heq ▸ hfd')
    case isFalse hne => exact h.idle fd' hfd'
  · intro fd' hfd'
    obtain ⟨out, hok, hitems⟩ := h.dests fd' hfd'
    rw [hdest]
    split
    case isTrue heq =>
      subst heq
      obtain ⟨hlive, hen⟩ := h.enabled hfeed hfd' hok
      obtain ⟨hen', hqueue⟩ := push_true hen hpush
      refine ⟨out ++ [item], ⟨?_, fun _ => .inl hen', ?_, ?_⟩, ?_⟩
      · intro hg
        rw [hok.content hg, hqueue, ← List.append_assoc]
      · intro ht
        refine ⟨(hok.untested ht).1, fun hcancel => ?_⟩
        rw [hflags fd' hmem] at hcancel
        cases hcancel
      · intro hg
        rw [hlive] at hg
        cases hg
      · rw [hitems, hmain]
        simp [State.setDest, Main.pending]
    case isFalse hne =>
      refine ⟨out, hok, ?_⟩
      rw [hitems, hmain]
      simp [State.setDest, Main.pending, Ne.symm hne]
  · intro _ fd' hfd'
    rw [hdest]
    split
    case isTrue heq => exact hflags fd hmem
    case isFalse hne => exact hflags fd' hfd'

/-- A flag is raised, or a queue is delayed-disabled. -/
theorem Inv.stopping (h : Inv cfg s) {main : Main E} {d : Dest E} (hmem : fd ∈ s.fdStates)
    (hfeed : s.main.feeding = false) (hold : s.main.todo = [] ∧ ∀ fd, s.main.pending fd = [])
    (hmain : main = .cancelling main.fds ∨ ∃ todo, main = .disabling fd todo)
    (hknown : ∀ fd ∈ main.fds, fd ∈ s.fdStates)
    (hok : ∀ out, (s.dest fd).Ok out → d.Ok out) (hflag : d.cancelled = true) :
    Inv cfg ({ s with main := main }.setDest fd d) := by
  have hdest := State.setDest_dest { s with main := main } fd d
  have hnew : main.todo = [] ∧ (∀ fd, main.pending fd = []) ∧ main.feeding = false ∧
      (∀ todo, main ≠ .spawning todo) ∧
      main.Sees ({ s with main := main }.setDest fd d).dest s.fdStates := by
    rcases hmain with heq | ⟨todo, rfl⟩
    · rw [heq]
      exact ⟨rfl, fun _ => rfl, rfl, by simp, trivial⟩
    · refine ⟨rfl, fun _ => rfl, rfl, by simp, ?_⟩
      rw [Main.Sees, hdest, if_pos rfl]
      exact hflag
  obtain ⟨htodo, hpending, hstop, hspawn, hsees⟩ := hnew
  have htags := h.tags
  rw [hold.1, ← htodo] at htags
  refine ⟨htags, h.fds, hknown, ?_, fun todo hm => absurd hm (hspawn todo),
    fun _ => h.stopped hfeed, ?_, ?_, hsees⟩
  · intro fd' hfd'
    rw [hdest]
    split
    case isTrue heq => exact absurd hmem (heq ▸ hfd')
    case isFalse hne => exact h.idle fd' hfd'
  · intro fd' hfd'
    obtain ⟨out, hout, hitems⟩ := h.dests fd' hfd'
    rw [hold.2, ← hpending fd'] at hitems
    refine ⟨out, ?_, hitems⟩
    rw [hdest]
    split
    case isTrue heq => exact hok out (heq ▸ hout)
    case isFalse hne => exact hout
  · intro hf
    have hfalse : main.feeding = true := hf
    rw [hstop] at hfalse
    cases hfalse

theorem lookup_mem {tags : List (Tag × Fd)} {tag : Tag} (h : tags.lookup tag = some fd) :
    fd ∈ tags.map Prod.snd := by
  induction tags with
  | nil => cases h
  | cons d tags ih =>
    rw [List.lookup_cons] at h
    split at h
    · cases h
      simp
    · simp [ih h]

theorem Inv.main_step (h : Inv cfg s) (hstep : Step cfg s .main t) : Inv cfg t := by
  have htags := h.tags
  generalize ha : Label.main = a at hstep
  cases hstep with
  | spawn hmain hnew => exact h.spawn hmain hnew
  | @spawnKnown tag fd todo hmain hold =>
    refine h.goOn (by simpa [hmain, Main.todo] using htags) (by simp [Main.fds])
      (.inr ⟨fd, hold, by simp⟩) (fun _ _ => h.spawning _ hmain) (by simp [Main.feeding]) ?_
      (by simp [hmain, Main.feeding]) trivial
    intro fd' _
    rw [hmain]
    rfl
  | spawned hmain =>
    refine h.goOn (by simpa [hmain, Main.todo] using htags) (by simp [Main.fds]) (.inl rfl)
      (by simp) (by simp [Main.feeding]) ?_ (by simp [hmain, Main.feeding]) trivial
    intro fd' _
    rw [hmain]
    rfl
  | @popUnknown tag item rest hmain hinput hnone =>
    have hfull : cfg.dstFdMap = s.tagStates := by simpa [hmain, Main.todo] using htags
    refine h.goOn (by simpa [hmain, Main.todo] using htags) (by simp [hmain, Main.fds]) (.inl rfl)
      (by simp [hmain]) (by simp [hmain, Main.feeding]) ?_ (by simp) h.sees
    intro fd' _
    rw [hinput, routed_cons, hfull, hnone]
    simp
  | @popKnown tag item rest fd hmain hinput hsome =>
    have hfull : cfg.dstFdMap = s.tagStates := by simpa [hmain, Main.todo] using htags
    refine h.goOn (by simpa [Main.todo] using hfull) ?_ (.inl rfl) (by simp)
      (by simp [Main.feeding]) ?_ (by simp [hmain, Main.feeding]) trivial
    · intro fd' hfd'
      obtain rfl : fd' = fd := by simpa [Main.fds] using hfd'
      exact (h.fds fd').mpr (lookup_mem hsome)
    · intro fd' _
      rw [hinput, routed_cons, hfull, hsome, hmain]
      simp [Main.pending]
  | popEnd hmain hinput =>
    refine h.goOn (by simpa [hmain, Main.todo] using htags) (by simp [Main.fds]) (.inl rfl)
      (by simp) (fun _ => hinput) ?_ (by simp [Main.feeding]) trivial
    intro fd' _
    rw [hmain]
    rfl
  | @pushed fd item q sigs hmain hpush =>
    exact h.pushed hmain (h.known fd (by simp [hmain, Main.fds])) hpush
  | @pushFailed fd item q sigs hmain hpush =>
    have hmem := h.known fd (by simp [hmain, Main.fds])
    obtain ⟨out, hok, -⟩ := h.dests fd hmem
    exact absurd hpush (push_false (h.enabled (by rw [hmain]; rfl) hmem hok).2)
  | cancelled hmain =>
    refine h.goOn (by simpa [hmain, Main.todo] using htags) (by simp [Main.fds]) (.inl rfl)
      (by simp) (fun _ => h.stopped (by rw [hmain]; rfl)) ?_ (by simp [Main.feeding]) ?_
    · intro fd' _
      rw [hmain]
      rfl
    · intro fd' hfd' hout
      exact absurd hfd' hout
  | @disable fd todo q r sigs hmain hdis =>
    have hcancel : (s.dest fd).cancelled = true := by
      have hsees := h.sees
      rwa [hmain] at hsees
    refine h.stopping (h.known fd (by simp [hmain, Main.fds])) (by rw [hmain]; rfl)
      (by rw [hmain]; exact ⟨rfl, fun _ => rfl⟩) (.inl rfl) ?_ ?_ hcancel
    · intro fd' hfd'
      exact h.known fd' (by rw [hmain]; exact List.mem_cons_of_mem _ hfd')
    · intro out hok
      have hdisabled (hlive : (s.dest fd).writer.gone = false) :
          Draining q ∧ q.queue = (s.dest fd).q.queue :=
        delayedDisable_leave hdis ((hok.queue hlive).imp id And.left)
      refine ⟨?_, fun hlive => .inr ⟨(hdisabled hlive).1, hcancel⟩, ?_, hok.gone⟩
      · intro hlive
        rw [hok.content hlive, (hdisabled hlive).2]
      · intro htest
        have hlive : (s.dest fd).writer.gone = false := by
          cases hw : (s.dest fd).writer with
          | testing more => rfl
          | _ => simp [hw, Writer.isTesting] at htest
        exact ⟨(hok.untested htest).1, fun hc => (hdisabled hlive).2.trans ((hok.untested htest).2 hc)⟩
  | @join fd todo hmain hend =>
    refine h.goOn (by simpa [hmain, Main.todo] using htags) (by simp [Main.fds]) (.inl rfl)
      (by simp) (fun _ => h.stopped (by rw [hmain]; rfl)) ?_ (by simp [Main.feeding]) ?_
    · intro fd' _
      rw [hmain]
      rfl
    · have hj := h.sees
      rw [hmain] at hj
      intro fd' hfd' hout
      rcases eq_or_ne fd' fd with rfl | hne
      · exact hend
      · exact hj fd' hfd' (by simp [hne, hout])
  | joined hmain =>
    refine h.goOn (by simpa [hmain, Main.todo] using htags) (by simp [Main.fds]) (.inl rfl)
      (by simp) (fun _ => h.stopped (by rw [hmain]; rfl)) ?_ (by simp [Main.feeding]) ?_
    · intro fd' _
      rw [hmain]
      rfl
    · have hj := h.sees
      rw [hmain] at hj
      intro fd' hfd'
      exact hj fd' hfd' (by simp)
  | _ => cases ha

theorem Inv.cancel_step (h : Inv cfg s) (hstep : Step cfg s (.cancel fd) t)
    (htime : InTime s (.cancel fd)) : Inv cfg t := by
  generalize ha : Label.cancel fd = a at hstep
  cases hstep with
  | @cancel _ todo hmain =>
    obtain rfl := Label.cancel.inj ha
    refine h.stopping (h.known fd (by simp [hmain, Main.fds])) (by rw [hmain]; rfl)
      (by rw [hmain]; exact ⟨rfl, fun _ => rfl⟩) (.inr ⟨todo, rfl⟩) ?_ ?_ rfl
    · intro fd' hfd'
      exact h.known fd' (by rw [hmain]; exact hfd')
    · intro out hok
      refine ⟨hok.content, ?_, ?_, fun hg => ⟨(hok.gone hg).1, rfl⟩⟩
      · intro hlive
        exact (hok.queue hlive).imp id fun hdr => ⟨hdr.1, rfl⟩
      · intro htest
        exact ⟨(hok.untested htest).1, fun _ => htime fd rfl htest⟩
  | _ => cases ha

/-! ## Runs -/

theorem step_inv {a : Label} (h : Inv cfg s) (hstep : Step cfg s a t) (htime : InTime s a)
    (hfail : ∀ fd, a ≠ .writerFails fd) : Inv cfg t := by
  cases a with
  | main => exact h.main_step hstep
  | cancel fd => exact h.cancel_step hstep htime
  | writer fd => exact h.writer_step hstep
  | writerFails fd => exact absurd rfl (hfail fd)

theorem run_inv {as : List Label} (hrun : (inTime cfg).Run cfg.start as t)
    (hfail : ∀ fd, Label.writerFails fd ∉ as) : Inv cfg t := by
  induction hrun with
  | refl => exact start_inv cfg
  | snoc _ hstep ih =>
    refine step_inv (ih fun fd hfd => hfail fd (by simp [hfd])) hstep.1 hstep.2 ?_
    rintro fd rfl
    exact hfail fd (by simp)

/-- When `multiwriter` returns every writer has ended, and what it was handed is written. -/
theorem Inv.delivered (h : Inv cfg s) (hret : s.main = .returned) : Delivered cfg s := by
  intro d hd
  have hmem : d.2 ∈ s.fdStates := by
    have htags := h.tags
    rw [hret, show (Main.returned : Main E).todo = [] from rfl, List.append_nil] at htags
    rw [h.fds, ← htags]
    exact List.mem_map_of_mem hd
  obtain ⟨out, hok, hitems⟩ := h.dests d.2 hmem
  have hended : (s.dest d.2).writer = .ended := by
    have hsees := h.sees
    rw [hret] at hsees
    exact hsees d.2 hmem
  rw [(hok.gone (by rw [hended]; rfl)).1, hitems, h.stopped (by rw [hret]; rfl), hret]
  simp [Main.pending, Config.routed]

/-! ## A flag that is raised too early -/

/-- There is something for the writer, which will not write any of it. -/
structure Lost (cfg : Config E) (fd : Fd) (s : State E) : Prop where
  destination : ∃ d ∈ cfg.dstFdMap, d.2 = fd
  items : cfg.routed fd cfg.items ≠ []
  known : fd ∈ s.fdStates
  cancelled : (s.dest fd).cancelled = true
  written : (s.dest fd).written = []
  writer : (s.dest fd).writer.isTesting = true ∨ (s.dest fd).writer.gone = true

theorem Lost.setDest (h : Lost cfg fd s) {main : Main E} {fd' : Fd} {d : Dest E}
    (hd : fd' = fd → d.cancelled = true ∧ d.written = [] ∧
      (d.writer.isTesting = true ∨ d.writer.gone = true)) :
    Lost cfg fd ({ s with main := main }.setDest fd' d) := by
  have hdest := State.setDest_dest { s with main := main } fd' d fd
  by_cases heq : fd = fd'
  · rw [if_pos heq] at hdest
    obtain ⟨hcancel, hwritten, hwriter⟩ := hd heq.symm
    exact ⟨h.destination, h.items, h.known, by rwa [hdest], by rwa [hdest], by rwa [hdest]⟩
  · rw [if_neg heq] at hdest
    exact ⟨h.destination, h.items, h.known, by rw [hdest]; exact h.cancelled,
      by rw [hdest]; exact h.written, by rw [hdest]; exact h.writer⟩

theorem Lost.step {a : Label} (h : Lost cfg fd s) (hstep : Step cfg s a t) : Lost cfg fd t := by
  have hwriter := h.writer
  have hcancel := h.cancelled
  have hkeep {fd' : Fd} (heq : fd' = fd) : (s.dest fd').cancelled = true ∧
      (s.dest fd').written = [] ∧
      ((s.dest fd').writer.isTesting = true ∨ (s.dest fd').writer.gone = true) := by
    subst heq
    exact ⟨hcancel, h.written, hwriter⟩
  cases hstep with
  | @spawn tag fd' todo hmain hnew =>
    have hne : fd ≠ fd' := by
      rintro rfl
      exact hnew h.known
    refine ⟨h.destination, h.items, by simp [h.known], ?_, ?_, ?_⟩
    · simpa only [Function.update_of_ne hne] using hcancel
    · simpa only [Function.update_of_ne hne] using h.written
    · simpa only [Function.update_of_ne hne] using hwriter
  | pushed hmain hpush => exact h.setDest fun heq => hkeep heq
  | pushFailed hmain hpush => exact h.setDest fun heq => hkeep heq
  | cancel hmain => exact h.setDest fun heq => ⟨rfl, (hkeep heq).2⟩
  | disable hmain hdis => exact h.setDest fun heq => hkeep heq
  | testStop hw hc => exact h.setDest fun heq => ⟨hc, (hkeep heq).2.1, .inr rfl⟩
  | testAgain hw hc =>
    refine h.setDest ?_
    rintro rfl
    rw [hcancel] at hc
    cases hc
  | testLast hw hc =>
    refine h.setDest ?_
    rintro rfl
    rw [hcancel] at hc
    cases hc
  | pop hw hpop =>
    refine h.setDest ?_
    rintro rfl
    simp [hw, Writer.isTesting, Writer.gone] at hwriter
  | popDisabled hw hpop =>
    refine h.setDest ?_
    rintro rfl
    simp [hw, Writer.isTesting, Writer.gone] at hwriter
  | write hw =>
    refine h.setDest ?_
    rintro rfl
    simp [hw, Writer.isTesting, Writer.gone] at hwriter
  | writeFails hw =>
    refine h.setDest ?_
    rintro rfl
    simp [hw, Writer.isTesting, Writer.gone] at hwriter
  | startFails hw =>
    exact h.setDest fun heq => ⟨(hkeep heq).1, (hkeep heq).2.1, .inr rfl⟩
  | leave hw hleave =>
    exact h.setDest fun heq => ⟨(hkeep heq).1, (hkeep heq).2.1, .inr rfl⟩
  | _ => exact ⟨h.destination, h.items, h.known, hcancel, h.written, hwriter⟩

theorem Inv.lost (h : Inv cfg s) {a : Label} (hstep : Step cfg s a t) (hearly : ¬ InTime s a) :
    ∃ fd, Lost cfg fd t := by
  simp only [InTime, not_forall] at hearly
  obtain ⟨fd, rfl, htest, hqueue⟩ := hearly
  generalize ha : Label.cancel fd = a at hstep
  cases hstep with
  | @cancel _ todo hmain =>
    obtain rfl := Label.cancel.inj ha
    have hmem := h.known fd (by simp [hmain, Main.fds])
    obtain ⟨out, hok, hitems⟩ := h.dests fd hmem
    have hlive : (s.dest fd).writer.gone = false := by
      cases hw : (s.dest fd).writer with
      | testing more => rfl
      | _ => simp [hw, Writer.isTesting] at htest
    refine ⟨fd, ?_, ?_, hmem, ?_, ?_, ?_⟩
    · have htags := h.tags
      rw [hmain, show (Main.cancelling (fd :: todo) : Main E).todo = [] from rfl,
        List.append_nil] at htags
      rw [h.fds, ← htags, List.mem_map] at hmem
      exact hmem
    · rw [hitems, hok.content hlive]
      simp [hqueue]
    · rw [State.setDest_dest, if_pos rfl]
    · rw [State.setDest_dest, if_pos rfl]
      exact (hok.untested htest).1
    · rw [State.setDest_dest, if_pos rfl]
      exact .inl htest
  | _ => cases ha

theorem run_in_time_or_lost {as : List Label} (hrun : (system cfg).Run cfg.start as t)
    (hfail : ∀ fd, Label.writerFails fd ∉ as) :
    (inTime cfg).Run cfg.start as t ∨ ∃ fd, Lost cfg fd t := by
  induction hrun with
  | refl => exact .inl (.refl _)
  | @snoc u t as a hrun hstep ih =>
    have hfail' : ∀ fd, Label.writerFails fd ∉ as := fun fd hfd => hfail fd (by simp [hfd])
    rcases ih hfail' with hin | ⟨fd, hlost⟩
    · by_cases htime : InTime u a
      · exact .inl (.snoc hin ⟨hstep, htime⟩)
      · exact .inr ((run_inv hin hfail').lost hstep htime)
    · exact .inr ⟨fd, hlost.step hstep⟩

/-- Without a failure of a writer: when `multiwriter` has returned, all items are written where
they should exactly if no flag was raised over a writer that had items and had not started. -/
theorem delivered_iff_in_time (cfg : Config E) (t : State E) (as : List Label)
    (hrun : (system cfg).Run cfg.start as t) (hfail : ∀ fd, Label.writerFails fd ∉ as)
    (hret : t.main = .returned) : Delivered cfg t ↔ (inTime cfg).Run cfg.start as t := by
  constructor
  · intro hdelivered
    rcases run_in_time_or_lost hrun hfail with hin | ⟨fd, hlost⟩
    · exact hin
    · obtain ⟨d, hd, rfl⟩ := hlost.destination
      have hwritten := hdelivered d hd
      rw [hlost.written] at hwritten
      exact absurd hwritten.symm hlost.items
  · intro hin
    exact (run_inv hin hfail).delivered hret

/-- One destination and one item for it. -/
def oneItem : Config Nat where
  dstFdMap := [(0, 5)]
  sorted := by simp
  items := [(0, 42)]
  tests _ := 0

/-- `multiwriter` on its way, and the one destination. -/
def underWay (main : Main Nat) (input : List (Tag × Nat)) (d : Dest Nat) : State Nat where
  main := main
  input := input
  fdStates := [5]
  dest := Function.update oneItem.start.dest 5 d
  tagStates := [(0, 5)]

theorem underWay_step {main main' : Main Nat} {input : List (Tag × Nat)} {d d' : Dest Nat}
    {a : Label} (h : Step oneItem (underWay main input d) a
      ({ underWay main input d with main := main' }.setDest 5 d')) :
    Step oneItem (underWay main input d) a (underWay main' input d') := by
  simpa [underWay, State.setDest] using h

def queueOf (push pop : Bool) (queue : List Nat) : BQueue Nat := ⟨push, pop, queue, 0, 0, 10⟩

/-- The writer starts before the end of the input. -/
theorem delivered_iff_in_time_early : ∃ (t : State Nat) (as : List Label),
    t.main = .returned ∧ Delivered oneItem t ∧
      (Delivered oneItem t ↔ (inTime oneItem).Run oneItem.start as t) := by
  have hspawn : Step oneItem oneItem.start .main
      (underWay (.spawning []) [(0, 42)] (Dest.fresh 0)) :=
    Step.spawn rfl (by simp [Config.start])
  have hspawned : Step oneItem (underWay (.spawning []) [(0, 42)] (Dest.fresh 0)) .main
      (underWay .popping [(0, 42)] (Dest.fresh 0)) := Step.spawned rfl
  have hstart : Step oneItem (underWay .popping [(0, 42)] (Dest.fresh 0)) (.writer 5)
      (underWay .popping [(0, 42)] ⟨queueOf true true [], false, .running, []⟩) :=
    underWay_step (Step.testLast rfl rfl)
  have hpop : Step oneItem
      (underWay .popping [(0, 42)] ⟨queueOf true true [], false, .running, []⟩) .main
      (underWay (.pushing 5 42) [] ⟨queueOf true true [], false, .running, []⟩) :=
    Step.popKnown rfl rfl rfl
  have hpush : Step oneItem
      (underWay (.pushing 5 42) [] ⟨queueOf true true [], false, .running, []⟩) .main
      (underWay .popping [] ⟨queueOf true true [42], false, .running, []⟩) :=
    underWay_step (Step.pushed rfl rfl)
  have hend : Step oneItem
      (underWay .popping [] ⟨queueOf true true [42], false, .running, []⟩) .main
      (underWay (.cancelling [5]) [] ⟨queueOf true true [42], false, .running, []⟩) :=
    Step.popEnd rfl rfl
  have hcancel : Step oneItem
      (underWay (.cancelling [5]) [] ⟨queueOf true true [42], false, .running, []⟩) (.cancel 5)
      (underWay (.disabling 5 []) [] ⟨queueOf true true [42], true, .running, []⟩) :=
    underWay_step (Step.cancel rfl)
  have hdisable : Step oneItem
      (underWay (.disabling 5 []) [] ⟨queueOf true true [42], true, .running, []⟩) .main
      (underWay (.cancelling []) [] ⟨queueOf false true [42], true, .running, []⟩) :=
    underWay_step (Step.disable rfl rfl)
  have htake : Step oneItem
      (underWay (.cancelling []) [] ⟨queueOf false true [42], true, .running, []⟩) (.writer 5)
      (underWay (.cancelling []) [] ⟨queueOf false false [], true, .writing 42, []⟩) :=
    underWay_step (Step.pop rfl rfl)
  have hwrite : Step oneItem
      (underWay (.cancelling []) [] ⟨queueOf false false [], true, .writing 42, []⟩) (.writer 5)
      (underWay (.cancelling []) [] ⟨queueOf false false [], true, .running, [42]⟩) :=
    underWay_step (Step.write rfl)
  have hdone : Step oneItem
      (underWay (.cancelling []) [] ⟨queueOf false false [], true, .running, [42]⟩) (.writer 5)
      (underWay (.cancelling []) [] ⟨queueOf false false [], true, .leaving, [42]⟩) :=
    underWay_step (Step.popDisabled rfl rfl)
  have hleave : Step oneItem
      (underWay (.cancelling []) [] ⟨queueOf false false [], true, .leaving, [42]⟩) (.writer 5)
      (underWay (.cancelling []) [] ⟨queueOf false false [], true, .ended, [42]⟩) :=
    underWay_step (Step.leave rfl rfl)
  have hjoining : Step oneItem
      (underWay (.cancelling []) [] ⟨queueOf false false [], true, .ended, [42]⟩) .main
      (underWay (.joining [5]) [] ⟨queueOf false false [], true, .ended, [42]⟩) :=
    Step.cancelled rfl
  have hjoin : Step oneItem
      (underWay (.joining [5]) [] ⟨queueOf false false [], true, .ended, [42]⟩) .main
      (underWay (.joining []) [] ⟨queueOf false false [], true, .ended, [42]⟩) :=
    Step.join rfl rfl
  have hreturn : Step oneItem
      (underWay (.joining []) [] ⟨queueOf false false [], true, .ended, [42]⟩) .main
      (underWay .returned [] ⟨queueOf false false [], true, .ended, [42]⟩) :=
    Step.joined rfl
  have hrun := (((((((((((((((Lib.Machine.Run.refl (M := system oneItem) oneItem.start).snoc
    hspawn).snoc hspawned).snoc hstart).snoc hpop).snoc hpush).snoc hend).snoc hcancel).snoc
    hdisable).snoc htake).snoc hwrite).snoc hdone).snoc hleave).snoc hjoining).snoc hjoin).snoc
    hreturn
  refine ⟨_, _, rfl, ?_, delivered_iff_in_time oneItem _ _ hrun (by simp) rfl⟩
  intro d hd
  obtain rfl : d = (0, 5) := by simpa [oneItem] using hd
  rfl

/-- The writer starts when the flag is up: the item is in the queue, and stays there. -/
theorem late_writer_drops : ∃ (t : State Nat) (as : List Label),
    (system oneItem).Run oneItem.start as t ∧ (∀ fd, Label.writerFails fd ∉ as) ∧
      t.main = .returned ∧ (t.dest 5).written = [] ∧ ¬ Delivered oneItem t := by
  have hrun := ((((((((((((Lib.Machine.Run.refl (M := system oneItem) oneItem.start).snoc
    (Step.spawn rfl (by simp [Config.start]))).snoc (Step.spawned rfl)).snoc
    (Step.popKnown rfl rfl rfl)).snoc (Step.pushed rfl rfl)).snoc (Step.popEnd rfl rfl)).snoc
    (Step.cancel rfl)).snoc (Step.disable rfl rfl)).snoc
    (@Step.testStop _ _ _ 5 _ rfl rfl)).snoc (@Step.leave _ _ _ 5 _ _ _ rfl rfl)).snoc
    (Step.cancelled rfl)).snoc (Step.join rfl rfl)).snoc (Step.joined rfl)
  refine ⟨_, _, hrun, by simp, rfl, rfl, ?_⟩
  intro h
  exact absurd (h (0, 5) (by decide)) (by decide)

end Jive5ab.Net.Multiwriter
