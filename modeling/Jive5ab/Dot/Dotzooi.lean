import Mathlib.Tactic.Tauto
import Jive5ab.Lib.Machine

/-! # The DOT clock

`dotzooi.cc`: the interrupt handler and the commands, each as what it does to the shared variables
while it holds the mutex. A second of 0 stands for a clock that is not set. -/
namespace Jive5ab.Dot
open Lib

/-- `pcint::timeval_type`. -/
structure Timeval where
  sec : Int := 0
  usec : Int := 0
deriving DecidableEq

/-- The shared variables; `π` is the type of `pps_duration`. -/
structure Clock (π : Type) where
  currentDot : Timeval
  last1pps : Timeval
  requestDot : Bool
  requestDotValue : Timeval
  dotSet : Timeval
  ppsDuration : π

inductive DotReturn where
  | ok
  | notSet
  | notRunning
  | setInProgress
deriving DecidableEq

structure DotType where
  status : DotReturn
  dot : Timeval
  lcl : Timeval

/-- What is computed in floating point. -/
structure Arith (π : Type) where
  /-- `(now - last)>1.1*ppslen` -/
  overdue : Timeval → Timeval → π → Bool
  /-- `dot + (now - last)/ppslen` -/
  advance : Timeval → Timeval → Timeval → π → Timeval

variable {π : Type}

def Clock.start (ppsDuration : π) : Clock π := ⟨{}, {}, false, {}, {}, ppsDuration⟩

def isDot1pps (soi : UInt32) : Bool := soi &&& 0x1000 != 0

/-- tick ... tock ... -/
def tick (dot : Timeval) : Timeval := if dot.sec ≠ 0 then { dot with sec := dot.sec + 1 } else dot

/-- A requested second of 0 asks for the time of the interrupt. -/
def requestedSec (value toi : Timeval) : Int :=
  if value.sec = 0 then (if toi.usec ≥ 500000 then toi.sec + 1 else toi.sec) else value.sec

/-- One interrupt. -/
def ppsHandler (soi : UInt32) (toi : Timeval) (s : Clock π) : Clock π :=
  if isDot1pps soi then
    let s := { s with last1pps := toi, currentDot := tick s.currentDot }
    if s.requestDot then
      let dot := { s.currentDot with sec := requestedSec s.requestDotValue toi }
      { s with currentDot := dot, dotSet := dot, requestDot := false }
    else s
  else s

def setDot (dot : Timeval) (s : Clock π) : Except String (Bool × Clock π) :=
  if dot.usec ≠ 0 then .error "can only set DOT with integer timestamps"
  else if s.last1pps.sec > 0 then
    .ok (true, { s with requestDot := true, requestDotValue := dot })
  else .ok (false, s)

def getSetDot (s : Clock π) : Option Timeval := if s.requestDot then none else some s.dotSet

def getDot (ar : Arith π) (now : Timeval) (s : Clock π) : DotType :=
  if s.requestDot then ⟨.setInProgress, {}, now⟩
  else if s.currentDot.sec = 0 then ⟨.notSet, {}, now⟩
  else if ar.overdue now s.last1pps s.ppsDuration then ⟨.notRunning, {}, {}⟩
  else ⟨.ok, ar.advance s.currentDot now s.last1pps s.ppsDuration, now⟩

/-- The increment under the mutex, with the copy of the DOT that was taken then. -/
def addDot (nsec : Int) (s : Clock π) : Timeval × Clock π :=
  if s.requestDot || s.currentDot.sec = 0 then ({}, s)
  else
    let dot := { s.currentDot with sec := s.currentDot.sec + nsec }
    (dot, { s with currentDot := dot })

/-- The status is decided on the copies, when the mutex is free again. -/
def incDot (ar : Arith π) (nsec : Int) (now : Timeval) (s : Clock π) : DotReturn × Clock π :=
  let (dot, s') := addDot nsec s
  (if s.requestDot then .setInProgress
    else if dot.sec = 0 then .notSet
    else if ar.overdue now s.last1pps s.ppsDuration then .notRunning
    else .ok, s')

def setPpsLength (ppsl : π) (s : Clock π) : Clock π := { s with ppsDuration := ppsl }

/-! ## Runs -/

/-- An interrupt, or a call with its reply. -/
inductive Event (π : Type) where
  | interrupt (soi : UInt32) (toi : Timeval)
  | setDot (dot : Timeval) (reply : Except String Bool)
  | getSetDot (reply : Option Timeval)
  | getDot (now : Timeval) (reply : DotType)
  | incDot (nsec : Int) (now : Timeval) (reply : DotReturn)
  | setPpsLength (ppsl : π)

inductive Step (ar : Arith π) : Clock π → Event π → Clock π → Prop
  | interrupt (s soi toi) : Step ar s (.interrupt soi toi) (ppsHandler soi toi s)
  | setDotThrows {s dot what} : setDot dot s = .error what → Step ar s (.setDot dot (.error what)) s
  | setDot {s dot rv s'} : setDot dot s = .ok (rv, s') → Step ar s (.setDot dot (.ok rv)) s'
  | getSetDot (s) : Step ar s (.getSetDot (getSetDot s)) s
  | getDot (s now) : Step ar s (.getDot now (getDot ar now s)) s
  | incDot (s nsec now) : Step ar s (.incDot nsec now (incDot ar nsec now s).1) (incDot ar nsec now s).2
  | setPpsLength (s ppsl) : Step ar s (.setPpsLength ppsl) (setPpsLength ppsl s)

def Event.is1pps : Event π → Bool
  | .interrupt soi _ => isDot1pps soi
  | _ => false

/-- A request for a new DOT that was accepted. -/
def Event.accepts : Event π → Bool
  | .setDot _ (.ok true) => true
  | _ => false

/-- What an event should add to the DOT. -/
def Event.credit : Event π → Int
  | .interrupt soi _ => if isDot1pps soi then 1 else 0
  | .incDot nsec _ .ok => nsec
  | _ => 0

/-- From the start of the program on. -/
def system (ar : Arith π) (ppsDuration : π) : Machine (Clock π) (Event π) where
  init s := s = Clock.start ppsDuration
  step := Step ar

/-- What the books say: a DOT that was asked for is there at the next 1PPS, from then on it counts
the 1PPS and the increments that were accepted; an increment that is refused changes nothing. -/
structure Accounts (M : Machine (Clock π) (Event π)) (es : List (Event π)) (t : Clock π) : Prop where
  counted : ∀ before v between soi toi after,
    es = before ++ .setDot v (.ok true) :: (between ++ .interrupt soi toi :: after) → v.sec ≠ 0 →
    (∀ e ∈ between, e.is1pps = false ∧ e.accepts = false) → isDot1pps soi = true →
    (∀ e ∈ after, e.accepts = false) →
    t.currentDot = ⟨v.sec + (after.map Event.credit).sum, 0⟩
  refused : ∀ nsec now reply u, M.step t (.incDot nsec now reply) u → reply ≠ .ok →
    u.currentDot = t.currentDot

/-- A DOT that was set to some value has not come to 0 when it should tick, and an increment finds
a clock that runs, and does not bring it to 0. -/
def Sound (ar : Arith π) (s : Clock π) : Event π → Prop
  | .interrupt soi _ => isDot1pps soi = true → s.requestDot = false → s.requestDotValue.sec ≠ 0 →
      s.currentDot.sec ≠ 0
  | .incDot nsec now _ => s.requestDot = false → s.currentDot.sec ≠ 0 →
      nsec = 0 ∨ ar.overdue now s.last1pps s.ppsDuration = false ∧ s.currentDot.sec + nsec ≠ 0
  | _ => True

def sound (ar : Arith π) (ppsDuration : π) : Machine (Clock π) (Event π) where
  init s := s = Clock.start ppsDuration
  step s e t := Step ar s e t ∧ Sound ar s e

/-! ## Steps -/

variable {ar : Arith π} {s t : Clock π} {e : Event π}

theorem setDot_cases {dot : Timeval} {rv : Bool} (h : setDot dot s = .ok (rv, t)) :
    dot.usec = 0 ∧ (rv = true ∧ t = { s with requestDot := true, requestDotValue := dot } ∨
      rv = false ∧ t = s) := by
  unfold setDot at h
  split at h
  · cases h
  · rename_i husec
    refine ⟨by simpa using husec, ?_⟩
    split at h
    · cases h
      exact .inl ⟨rfl, rfl⟩
    · cases h
      exact .inr ⟨rfl, rfl⟩

/-- An increment: refused with the clock as it was, or done, whatever the reply. -/
theorem incDot_cases (ar : Arith π) (nsec : Int) (now : Timeval) (s : Clock π) :
    (s.requestDot = true ∧ incDot ar nsec now s = (.setInProgress, s)) ∨
      (s.requestDot = false ∧ s.currentDot.sec = 0 ∧ incDot ar nsec now s = (.notSet, s)) ∨
      (s.requestDot = false ∧ s.currentDot.sec ≠ 0 ∧
        (incDot ar nsec now s).2.currentDot = ⟨s.currentDot.sec + nsec, s.currentDot.usec⟩ ∧
        (incDot ar nsec now s).2.requestDot = false ∧
        (incDot ar nsec now s).2.requestDotValue = s.requestDotValue ∧
        ((incDot ar nsec now s).1 = .ok ↔ s.currentDot.sec + nsec ≠ 0 ∧
          ar.overdue now s.last1pps s.ppsDuration = false)) := by
  unfold incDot addDot
  cases hreq : s.requestDot with
  | true => exact .inl ⟨rfl, by simp⟩
  | false =>
    by_cases hzero : s.currentDot.sec = 0
    · exact .inr (.inl ⟨rfl, hzero, by simp [hzero]⟩)
    · refine .inr (.inr ⟨rfl, hzero, by simp [hzero], by simp [hzero], by simp [hzero], ?_⟩)
      by_cases hsum : s.currentDot.sec + nsec = 0
      · simp [hzero, hsum]
      · cases hlate : ar.overdue now s.last1pps s.ppsDuration <;> simp [hzero, hsum]

/-- An increment that is refused leaves the DOT alone exactly if it was sound. -/
theorem refused_keeps_iff (ar : Arith π) (nsec : Int) (now : Timeval) (s : Clock π) :
    ((incDot ar nsec now s).1 ≠ .ok → (incDot ar nsec now s).2.currentDot = s.currentDot) ↔
      Sound ar s (.incDot nsec now (incDot ar nsec now s).1) := by
  unfold Sound
  rcases incDot_cases ar nsec now s with ⟨hreq, heq⟩ | ⟨hreq, hzero, heq⟩ |
    ⟨hreq, hset, hdot, -, -, hok⟩
  · simp [heq, hreq]
  · simp [heq, hzero]
  · have hkeep : (incDot ar nsec now s).2.currentDot = s.currentDot ↔ nsec = 0 := by
      rw [hdot]
      constructor
      · intro heq
        have hsec : s.currentDot.sec + nsec = s.currentDot.sec := congrArg Timeval.sec heq
        omega
      · rintro rfl
        simp
    rw [ne_eq, hok, hkeep]
    simp only [hreq, hset, ne_eq, not_false_eq_true, forall_const]
    tauto

/-! ## A request, and what comes of it -/

structure Pending (v : Timeval) (s : Clock π) : Prop where
  request : s.requestDot = true
  value : s.requestDotValue = v
  whole : s.currentDot.usec = 0

/-- The DOT was set to `v`, and is at `dot` now. -/
structure Counting (v : Timeval) (dot : Int) (s : Clock π) : Prop where
  request : s.requestDot = false
  value : s.requestDotValue = v
  dot : s.currentDot = ⟨dot, 0⟩

theorem tick_usec (dot : Timeval) : (tick dot).usec = dot.usec := by
  unfold tick
  split <;> rfl

theorem step_whole (hstep : Step ar s e t) (h : s.currentDot.usec = 0) : t.currentDot.usec = 0 := by
  cases hstep with
  | interrupt soi toi =>
    unfold ppsHandler
    split
    · by_cases hreq : s.requestDot = true
      · simp [hreq, tick_usec, h]
      · simp [hreq, tick_usec, h]
    · exact h
  | setDot hset =>
    rcases (setDot_cases hset).2 with ⟨-, rfl⟩ | ⟨-, rfl⟩
    · exact h
    · exact h
  | incDot nsec now =>
    rcases incDot_cases ar nsec now s with ⟨-, heq⟩ | ⟨-, -, heq⟩ | ⟨-, -, hdot, -⟩
    · rwa [heq]
    · rwa [heq]
    · rw [hdot]
      exact h
  | setPpsLength ppsl => exact h
  | setDotThrows _ => exact h
  | getSetDot => exact h
  | getDot now => exact h

/-- A request waits for the next 1PPS, or for another request. -/
theorem Pending.step {v : Timeval} (h : Pending v s) (hstep : Step ar s e t)
    (hpps : e.is1pps = false) (hacc : e.accepts = false) : Pending v t := by
  cases hstep with
  | interrupt soi toi =>
    have hsoi : isDot1pps soi = false := hpps
    simpa [ppsHandler, hsoi] using h
  | @setDot dot rv _ hset =>
    rcases (setDot_cases hset).2 with ⟨rfl, -⟩ | ⟨-, rfl⟩
    · cases hacc
    · exact h
  | incDot nsec now =>
    rcases incDot_cases ar nsec now s with ⟨-, heq⟩ | ⟨hreq, -⟩ | ⟨hreq, -⟩
    · rwa [heq]
    · rw [h.request] at hreq
      cases hreq
    · rw [h.request] at hreq
      cases hreq
  | setPpsLength ppsl => exact ⟨h.request, h.value, h.whole⟩
  | setDotThrows _ => exact h
  | getSetDot => exact h
  | getDot now => exact h

theorem Pending.honour {v : Timeval} (h : Pending v s) (hv : v.sec ≠ 0) {soi : UInt32}
    (hsoi : isDot1pps soi = true) (toi : Timeval) : Counting v v.sec (ppsHandler soi toi s) := by
  have hrun : ppsHandler soi toi s =
      { s with last1pps := toi, currentDot := ⟨v.sec, 0⟩, dotSet := ⟨v.sec, 0⟩,
               requestDot := false } := by
    simp [ppsHandler, hsoi, h.request, h.value, requestedSec, hv, tick_usec, h.whole]
  rw [hrun]
  exact ⟨rfl, h.value, rfl⟩

/-- The DOT ticks exactly if the tick is sound: a DOT that came to 0 stands still. -/
theorem tick_counts_iff (ar : Arith π) {v : Timeval} {dot : Int} (h : Counting v dot s)
    (hv : v.sec ≠ 0) {soi : UInt32} (hsoi : isDot1pps soi = true) (toi : Timeval) :
    (ppsHandler soi toi s).currentDot = ⟨dot + 1, 0⟩ ↔ Sound ar s (.interrupt soi toi) := by
  have hrun : (ppsHandler soi toi s).currentDot = tick ⟨dot, 0⟩ := by
    simp [ppsHandler, hsoi, h.request, h.dot]
  have hsound : Sound ar s (.interrupt soi toi) ↔ dot ≠ 0 := by
    simp [Sound, hsoi, h.request, h.value, h.dot, hv]
  rw [hrun, hsound]
  by_cases hzero : dot = 0
  · simp [tick, hzero]
  · simp [tick, hzero]

/-- A step that is sound adds its credit to the DOT. -/
theorem Counting.step {v : Timeval} {dot : Int} (h : Counting v dot s) (hv : v.sec ≠ 0)
    (hstep : Step ar s e t) (hsound : Sound ar s e) (hacc : e.accepts = false) :
    Counting v (dot + e.credit) t := by
  cases hstep with
  | interrupt soi toi =>
    cases hsoi : isDot1pps soi with
    | false => simpa [ppsHandler, Event.credit, hsoi] using h
    | true =>
      refine ⟨?_, ?_, ?_⟩
      · simp [ppsHandler, hsoi, h.request]
      · simp [ppsHandler, hsoi, h.request, h.value]
      · rw [Event.credit, if_pos hsoi]
        exact (tick_counts_iff ar h hv hsoi toi).mpr hsound
  | @setDot dot rv _ hset =>
    rcases (setDot_cases hset).2 with ⟨rfl, -⟩ | ⟨rfl, rfl⟩
    · cases hacc
    · simpa [Event.credit] using h
  | incDot nsec now =>
    have hkeep := (refused_keeps_iff ar nsec now s).mpr hsound
    rcases incDot_cases ar nsec now s with ⟨-, heq⟩ | ⟨-, -, heq⟩ | ⟨-, -, hdot, hreq, hval, -⟩
    · simpa [heq, Event.credit] using h
    · simpa [heq, Event.credit] using h
    · refine ⟨hreq, hval.trans h.value, ?_⟩
      cases hret : (incDot ar nsec now s).1 with
      | ok => rw [hdot, h.dot]; rfl
      | _ => rw [hkeep (by simp [hret]), h.dot]; simp [Event.credit]
  | setPpsLength ppsl => simpa [Event.credit] using ⟨h.request, h.value, h.dot⟩
  | setDotThrows _ => simpa [Event.credit] using h
  | getSetDot => simpa [Event.credit] using h
  | getDot now => simpa [Event.credit] using h

/-! ## Runs -/

theorem run_whole {p : π} {es : List (Event π)} (hrun : (sound ar p).Run s es t)
    (h : s.currentDot.usec = 0) : t.currentDot.usec = 0 :=
  hrun.invariant (fun s => s.currentDot.usec = 0)
    (fun s e t hs (hstep : (sound ar p).step s e t) => step_whole hstep.1 hs) h

theorem run_pending {p : π} {v : Timeval} {es : List (Event π)} (hrun : (sound ar p).Run s es t)
    (h : Pending v s) (hquiet : ∀ e ∈ es, e.is1pps = false ∧ e.accepts = false) : Pending v t := by
  induction hrun with
  | refl => exact h
  | @snoc u t es e _ hstep ih =>
    have hlast := hquiet e (by simp)
    exact (ih fun e he => hquiet e (by simp [he])).step hstep.1 hlast.1 hlast.2

theorem run_counting {p : π} {v : Timeval} {dot : Int} {es : List (Event π)}
    (hrun : (sound ar p).Run s es t) (h : Counting v dot s) (hv : v.sec ≠ 0)
    (hacc : ∀ e ∈ es, e.accepts = false) : Counting v (dot + (es.map Event.credit).sum) t := by
  induction hrun with
  | refl => simpa using h
  | @snoc u t es e _ hstep ih =>
    have hnext := (ih fun e he => hacc e (by simp [he])).step hv hstep.1 hstep.2 (hacc e (by simp))
    simpa [Int.add_assoc] using hnext

/-- In every run of sound steps the books are right in every state. -/
theorem dot_accounts (ar : Arith π) (p : π) (es : List (Event π)) (t : Clock π)
    (hrun : (sound ar p).Run (Clock.start p) es t) : Accounts (sound ar p) es t where
  counted before v between soi toi after hes hv hquiet hsoi hacc := by
    subst hes
    obtain ⟨s₁, hbefore, hrest⟩ := hrun.split
    obtain ⟨s₂, hset, hrest⟩ := hrest.split_cons
    obtain ⟨s₃, hbetween, hrest⟩ := hrest.split
    obtain ⟨s₄, hpps, hafter⟩ := hrest.split_cons
    have hwhole : s₁.currentDot.usec = 0 := run_whole hbefore rfl
    have hasked : Pending v s₂ := by
      obtain ⟨hstep, -⟩ := hset
      cases hstep with
      | setDot hset =>
        rcases (setDot_cases hset).2 with ⟨-, rfl⟩ | ⟨hfalse, -⟩
        · exact ⟨rfl, rfl, hwhole⟩
        · cases hfalse
    have hwaits := run_pending hbetween hasked hquiet
    have hhonoured : Counting v v.sec s₄ := by
      obtain ⟨hstep, -⟩ := hpps
      cases hstep with
      | interrupt => exact hwaits.honour hv hsoi toi
    exact (run_counting hafter hhonoured hv hacc).dot
  refused nsec now reply u hstep hreply := by
    obtain ⟨hstep, hsound⟩ := hstep
    cases hstep with
    | incDot => exact (refused_keeps_iff ar nsec now t).mpr hsound hreply

/-- Whole microseconds in place of floating point. -/
def micros (t : Timeval) : Int := t.sec * 1000000 + t.usec

def microArith : Arith Int where
  overdue now last ppslen := 10 * (micros now - micros last) > 11 * ppslen
  advance dot now last ppslen := { dot with
    usec := dot.usec + (micros now - micros last) * 1000000 / ppslen }

def set50 : List (Event Int) :=
  [.interrupt 0x1000 ⟨100, 0⟩, .setDot ⟨50, 0⟩ (.ok true), .interrupt 0x1000 ⟨101, 0⟩]

theorem dot_accounts_set50 :
    ∃ t, (sound microArith 1000000).Run (Clock.start 1000000) set50 t ∧ t.currentDot = ⟨50, 0⟩ ∧
      Accounts (sound microArith 1000000) set50 t := by
  have hrun := (((Machine.Run.refl (M := sound microArith 1000000) (Clock.start 1000000)).snoc
    ⟨.interrupt _ 0x1000 ⟨100, 0⟩, fun _ _ h => absurd rfl h⟩).snoc
    ⟨@Step.setDot _ _ _ ⟨50, 0⟩ true _ rfl, trivial⟩).snoc
    ⟨.interrupt _ 0x1000 ⟨101, 0⟩, fun _ h => by cases h⟩
  exact ⟨_, hrun, rfl, dot_accounts microArith 1000000 _ _ hrun⟩

/-- No 1PPS for 99 seconds: the increment is reported as failed, and is made. -/
theorem refused_increment_is_made :
    ∃ t u, (system microArith 1000000).Run (Clock.start 1000000) set50 t ∧
      (system microArith 1000000).step t (.incDot 7 ⟨200, 0⟩ .notRunning) u ∧
      u.currentDot = ⟨57, 0⟩ ∧ ¬ Accounts (system microArith 1000000) set50 t := by
  have hrun := (((Machine.Run.refl (M := system microArith 1000000) (Clock.start 1000000)).snoc
    (.interrupt _ 0x1000 ⟨100, 0⟩)).snoc (@Step.setDot _ _ _ ⟨50, 0⟩ true _ rfl)).snoc
    (.interrupt _ 0x1000 ⟨101, 0⟩)
  refine ⟨_, _, hrun, Step.incDot _ 7 ⟨200, 0⟩, rfl, ?_⟩
  intro h
  have hkept := h.refused 7 ⟨200, 0⟩ .notRunning _ (Step.incDot _ 7 ⟨200, 0⟩) (by decide)
  exact absurd (congrArg Timeval.sec hkept) (by decide)

end Jive5ab.Dot
