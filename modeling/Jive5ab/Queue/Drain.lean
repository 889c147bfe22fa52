import Jive5ab.Queue.Fifo
import Jive5ab.Queue.Wakeup

/-! # Delayed disable

From an enabled queue on, with one `delayed_disable` among the pushes and pops: no push
after it succeeds, all that was pushed before is popped before any pop says that the
queue is disabled, and then all pops say so. -/
namespace Jive5ab.Queue
open Lib

def Reply.isDisabled {E : Type} : Reply E → Bool
  | .popped none => true
  | .poppedResult .disabled _ => true
  | _ => false

def Op.isPop {E : Type} : Op E → Bool
  | .pop | .popTimed | .tryPop => true
  | _ => false

/-- A pop that goes to sleep, or on to its reply. -/
def Label.isPop {τ E : Type} : Label τ E → Bool
  | .enter _ op _ => op.isPop
  | .resume _ w _ => !w.onPush
  | .wake _ => false

def Label.saysDisabled {τ E : Type} : Label τ E → Bool
  | .enter _ _ (some r) => r.isDisabled
  | .resume _ _ (some r) => r.isDisabled
  | _ => false

/-- Pushing is off, and popping goes off with the last element. -/
structure Draining {E : Type} (q : BQueue E) : Prop where
  push : q.enablePush = false
  pop : q.enablePop = true ↔ q.queue ≠ []

/-- One critical section on a draining queue: nothing goes in, and only a pop of the empty
queue says that it is disabled. -/
def Outcome.DrainedBy {E : Type} (q : BQueue E) (given : Reply E → List E) (isPop : Bool) :
    Outcome E → Prop
  | .sleep _ _ => False
  | .leave q' r _ => Draining q' ∧ given r = [] ∧ q.queue = r.taken ++ q'.queue ∧
      (r.isDisabled = true → q.queue = []) ∧ (isPop = true → q.queue = [] → r.isDisabled = true)

variable {E : Type}

theorem popped_draining {q : BQueue E} (h : Draining q) {rest : List E} (hon : q.enablePop = true) :
    Draining (q.popped rest) ∧ (q.popped rest).queue = rest := by
  unfold BQueue.popped BQueue.checkDelayed
  cases rest with
  | nil => exact ⟨⟨by simp [h.push], by simp [h.push]⟩, by simp [h.push]⟩
  | cons e rest => exact ⟨⟨by simp [h.push], by simp [hon]⟩, by simp⟩

theorem resume_drained {q : BQueue E} (h : Draining q) (w : Blocked E) :
    (q.resume w).DrainedBy q w.given (!w.onPush) := by
  cases w with
  | push e =>
    rcases resume_push_cases q e with ⟨hon, -⟩ | ⟨-, heq⟩ | ⟨hon, -⟩
    · simp [h.push] at hon
    · rw [heq]
      exact ⟨⟨h.push, h.pop⟩, rfl, rfl, by simp [Reply.isDisabled], by simp [Blocked.onPush]⟩
    · simp [h.push] at hon
  | pop =>
    rcases resume_pop_cases q with ⟨hon, hempty, -⟩ | ⟨hoff, heq⟩ | ⟨e, rest, hon, hq, heq⟩
    · exact absurd hempty (h.pop.mp hon)
    · have hempty : q.queue = [] := by
        by_contra hne
        simp [h.pop.mpr hne] at hoff
      rw [heq]
      exact ⟨⟨h.push, h.pop⟩, rfl, rfl, fun _ => hempty, fun _ _ => rfl⟩
    · obtain ⟨hdraining, hrest⟩ := @popped_draining E q h rest hon
      rw [heq]
      exact ⟨hdraining, rfl, by rw [hrest, hq]; rfl, by simp [Reply.isDisabled], by simp [hq]⟩
  | popTimed timedOut =>
    rcases resume_popTimed_cases q timedOut with ⟨hon, hempty, -⟩ | ⟨hoff, heq⟩ | ⟨hon, hempty, -⟩ |
      ⟨e, rest, hon, hq, heq⟩
    · exact absurd hempty (h.pop.mp hon)
    · have hempty : q.queue = [] := by
        by_contra hne
        simp [h.pop.mpr hne] at hoff
      rw [heq]
      exact ⟨⟨h.push, h.pop⟩, rfl, rfl, fun _ => hempty, fun _ _ => rfl⟩
    · exact absurd hempty (h.pop.mp hon)
    · obtain ⟨hdraining, hrest⟩ := @popped_draining E q h rest hon
      rw [heq]
      exact ⟨hdraining, rfl, by rw [hrest, hq]; rfl, by simp [Reply.isDisabled], by simp [hq]⟩

theorem enter_drained {q : BQueue E} (h : Draining q) {op : Op E} (hop : op.moves = true) :
    (q.enter op).DrainedBy q op.given op.isPop := by
  have hc (n m : Nat) : Draining { q with nPush := n, nPop := m } := ⟨h.push, h.pop⟩
  cases op with
  | push e => exact resume_drained (hc (q.nPush + 1) q.nPop) (.push e)
  | pop => exact resume_drained (hc q.nPush (q.nPop + 1)) .pop
  | popTimed => exact resume_drained (hc q.nPush (q.nPop + 1)) (.popTimed false)
  | tryPop =>
    rw [enter_tryPop]
    exact resume_drained (hc q.nPush (q.nPop + 1)) (.popTimed true)
  | tryPush e =>
    rcases enter_tryPush_cases q e with ⟨ret, hret, heq⟩ | ⟨hon, -⟩
    · rw [heq]
      refine ⟨h, ?_, rfl, by simp [Reply.isDisabled], by simp [Op.isPop]⟩
      rcases hret with rfl | rfl <;> simp [Op.given, PushResult.toBool, PushResult.toNat]
    · simp [h.push] at hon
  | disable => cases hop
  | delayedDisable => cases hop
  | disablePop => cases hop
  | resizeEnable n => cases hop
  | resizeEnablePush n => cases hop
  | enablePopOnly => cases hop
  | clear => cases hop

/-! ## Steps -/

variable {τ : Type} [DecidableEq τ]

theorem step_drained {s s' : Sys τ E} {a : Label τ E} (hstep : Step s a s') (h : Draining s.q)
    (ha : a.moves = true) : Draining s'.q ∧ a.pushed = [] ∧ s.q.queue = a.popped ++ s'.q.queue ∧
      (a.saysDisabled = true → s.q.queue = []) ∧
      (a.isPop = true → s.q.queue = [] → a.saysDisabled = true) := by
  cases hstep with
  | enterSleep hidle hout =>
    have hd := enter_drained h ha
    rw [hout] at hd
    exact hd.elim
  | enterLeave hidle hout hsig =>
    have hd := enter_drained h ha
    rw [hout] at hd
    exact hd
  | @resumeSleep t w q w' hwoken hout =>
    have hd := resume_drained h w
    rw [hout] at hd
    exact hd.elim
  | @resumeLeave t w q r sigs st hwoken hout hsig =>
    have hd := resume_drained h w
    rw [hout] at hd
    exact hd
  | spurious hasleep => exact ⟨h, rfl, rfl, by simp [Label.saysDisabled], by simp [Label.isPop]⟩
  | timeout hasleep => exact ⟨h, rfl, rfl, by simp [Label.saysDisabled], by simp [Label.isPop]⟩

theorem run_drained {start : Sys τ E → Prop} {s s' : Sys τ E} {as : List (Label τ E)}
    (h : (system start).Run s as s') (hq : Draining s.q) (has : ∀ a ∈ as, a.moves = true) :
    Draining s'.q ∧ as.flatMap Label.pushed = [] ∧
      s.q.queue = as.flatMap Label.popped ++ s'.q.queue := by
  induction h with
  | refl => exact ⟨hq, rfl, rfl⟩
  | snoc _ hstep ih =>
    obtain ⟨hd, hpushed, hpopped⟩ := ih fun a ha => has a (List.mem_append_left _ ha)
    obtain ⟨hd', hpushed', hpopped', -⟩ :=
      step_drained hstep hd (has _ (List.mem_append_right _ (List.mem_singleton_self _)))
    refine ⟨hd', ?_, ?_⟩
    · rw [List.flatMap_append, hpushed, List.flatMap_singleton, hpushed']
      rfl
    · rw [List.flatMap_append, List.flatMap_singleton, List.append_assoc, ← hpopped', ← hpopped]

/-- As long as popping is on, no pop says that it is off. -/
theorem resume_enabled {q : BQueue E} (h : q.enablePop = true) (w : Blocked E) {q' : BQueue E}
    {r : Reply E} {sigs : List Signal} (hout : q.resume w = .leave q' r sigs) :
    r.isDisabled = false := by
  cases w with
  | push e =>
    rcases resume_push_cases q e with ⟨-, -, heq⟩ | ⟨-, heq⟩ | ⟨-, -, heq⟩ <;> rw [heq] at hout <;>
      cases hout <;> rfl
  | pop =>
    rcases resume_pop_cases q with ⟨-, -, heq⟩ | ⟨hoff, -⟩ | ⟨e, rest, -, -, heq⟩
    · rw [heq] at hout
      cases hout
    · simp [h] at hoff
    · rw [heq] at hout
      cases hout
      rfl
  | popTimed timedOut =>
    rcases resume_popTimed_cases q timedOut with ⟨-, -, -, heq⟩ | ⟨hoff, -⟩ | ⟨-, -, -, heq⟩ |
      ⟨e, rest, -, -, heq⟩
    · rw [heq] at hout
      cases hout
    · simp [h] at hoff
    · rw [heq] at hout
      cases hout
      rfl
    · rw [heq] at hout
      cases hout
      rfl

theorem step_enabled {s s' : Sys τ E} {a : Label τ E} (hstep : Step s a s') (h : Enabled s.q)
    (ha : a.moves = true) : a.saysDisabled = false := by
  cases hstep with
  | enterSleep hidle hout => rfl
  | @enterLeave t op q r sigs st hidle hout hsig =>
    cases op with
    | push e => exact resume_enabled (q := { s.q with nPush := s.q.nPush + 1 }) h.pop (.push e) hout
    | pop => exact resume_enabled (q := { s.q with nPop := s.q.nPop + 1 }) h.pop .pop hout
    | popTimed =>
      exact resume_enabled (q := { s.q with nPop := s.q.nPop + 1 }) h.pop (.popTimed false) hout
    | tryPop =>
      rw [enter_tryPop] at hout
      exact resume_enabled (q := { s.q with nPop := s.q.nPop + 1 }) h.pop (.popTimed true) hout
    | tryPush e =>
      rcases enter_tryPush_cases s.q e with ⟨ret, -, heq⟩ | ⟨-, -, heq⟩ <;> rw [heq] at hout <;>
        cases hout <;> rfl
    | disable => cases ha
    | delayedDisable => cases ha
    | disablePop => cases ha
    | resizeEnable n => cases ha
    | resizeEnablePush n => cases ha
    | enablePopOnly => cases ha
    | clear => cases ha
  | resumeSleep hwoken hout => rfl
  | resumeLeave hwoken hout hsig => exact resume_enabled h.pop _ hout
  | spurious hasleep => rfl
  | timeout hasleep => rfl

theorem run_enabled {start : Sys τ E → Prop} {s s' : Sys τ E} {as : List (Label τ E)}
    (h : (system start).Run s as s') (hq : Enabled s.q) (has : ∀ a ∈ as, a.moves = true) :
    ∀ a ∈ as, a.saysDisabled = false := by
  induction h with
  | refl => simp
  | @snoc _ _ bs _ hrun hstep ih =>
    have hbefore : ∀ a ∈ bs, a.moves = true := fun a ha => has a (List.mem_append_left _ ha)
    intro a ha
    rcases List.mem_append.mp ha with hold | hnew
    · exact ih hbefore a hold
    · obtain rfl := List.mem_singleton.mp hnew
      exact step_enabled hstep (run_moves hrun hq hbefore).enabled (has _ ha)

theorem step_delayedDisable {s s' : Sys τ E} {t : τ} {r : Option (Reply E)}
    (hstep : Step s (.enter t .delayedDisable r) s') (h : Enabled s.q) :
    Draining s'.q ∧ s'.q.queue = s.q.queue := by
  cases hstep with
  | enterSleep hidle hout => cases hout
  | enterLeave hidle hout hsig =>
    cases hout
    exact ⟨⟨rfl, by cases s.q.queue <;> simp [h.pop]⟩, rfl⟩

/-! ## Runs -/

/-- What a delayed disable between `pre` and `post` comes to, in the state it leads to. -/
structure Drains (pre post : List (Label τ E)) (s : Sys τ E) : Prop where
  noPush : post.flatMap Label.pushed = []
  notBefore : ∀ a ∈ pre, a.saysDisabled = false
  delivered : ∀ as a bs, post = as ++ a :: bs → a.saysDisabled = true →
    (pre ++ as).flatMap Label.popped = pre.flatMap Label.pushed
  later : s.q.queue = [] → ∀ a s', Step s a s' → a.moves = true → a.isPop = true →
    a.saysDisabled = true
  pending : s.q.queue = [] → (∀ t, ¬(s.status t).wokenOn false) → ∀ t, ¬(s.status t).asleepOn false

/-- A queue that is delayed-disabled is drained, as long as no step forgets the threads
that sleep in a pop. -/
theorem delayed_disable_drains {cap : Nat} (hcap : cap ≠ BQueue.invalidSize) {s₀ s : Sys τ E}
    {pre post : List (Label τ E)} {t : τ} {r : Option (Reply E)} (hfresh : fresh cap s₀)
    (hpre : ∀ a ∈ pre, a.moves = true) (hpost : ∀ a ∈ post, a.moves = true)
    (hrun : (attentive cap).Run s₀ (pre ++ .enter t .delayedDisable r :: post) s) :
    Drains pre post s := by
  have hawake := attentive_awake (hrun.reachable hfresh)
  have hall := attentive_run hrun
  have henabled : Enabled s₀.q := by
    rw [hfresh.1]
    exact ⟨by simpa [BQueue.init] using hcap, by simpa [BQueue.init] using hcap⟩
  have hempty : s₀.q.queue = [] := by
    rw [hfresh.1]
    rfl
  obtain ⟨s₁, hbefore, hrest⟩ := hall.split
  obtain ⟨s₂, hdisable, hafter⟩ := hrest.split_cons
  have hmoved := run_moves hbefore henabled hpre
  obtain ⟨hdraining, hqueue⟩ := step_delayedDisable hdisable hmoved.enabled
  have hcontent : pre.flatMap Label.pushed = pre.flatMap Label.popped ++ s₂.q.queue := by
    rw [hqueue]
    simpa [hempty] using hmoved.content
  obtain ⟨hend, hnone, -⟩ := run_drained hafter hdraining hpost
  refine ⟨hnone, run_enabled hbefore henabled hpre, ?_, ?_, ?_⟩
  · rintro as a bs rfl hsays
    obtain ⟨s₃, hfirst, hlater⟩ := hafter.split
    obtain ⟨s₄, hstep, -⟩ := hlater.split_cons
    obtain ⟨hmid, -, hpopped⟩ := run_drained hfirst hdraining
      fun b hb => hpost b (List.mem_append_left _ hb)
    have hlast := (step_drained hstep hmid (hpost a (by simp))).2.2.2.1 hsays
    rw [hlast, List.append_nil] at hpopped
    rw [List.flatMap_append, hcontent, hpopped]
  · intro hnil a s' hstep ha hpop
    exact (step_drained hstep hend ha).2.2.2.2 hpop hnil
  · intro hnil hnone t ht
    refine hawake.not_lost ⟨false, ⟨t, ht⟩, Or.inl ?_, hnone⟩
    rw [Bool.eq_false_iff]
    intro hon
    exact hend.pop.mp hon hnil

/-- One element, and the reader that finds it. -/
theorem delayed_disable_drains_one : ∃ s : Sys Bool Nat,
    Drains [.enter true (.push 7) (some (.pushed true))]
      [.enter false .pop (some (.popped (some 7)))] s := by
  have hpush : Step (⟨BQueue.init 1, fun _ => .idle⟩ : Sys Bool Nat)
      (.enter true (.push 7) (some (.pushed true))) ⟨⟨true, true, [7], 0, 0, 1⟩, fun _ => .idle⟩ :=
    @Step.enterLeave _ _ _ _ true (.push 7) _ _ _ _ rfl rfl (.nil _)
  have hdisable := @Step.enterLeave _ _ _ ⟨⟨true, true, [7], 0, 0, 1⟩, fun _ : Bool => .idle⟩ true
    .delayedDisable _ _ _ _ rfl rfl (.broadcastPush (.nil _))
  have htake := @Step.enterLeave _ _ _ ⟨⟨false, true, [7], 0, 0, 1⟩,
    wakeAll true fun _ : Bool => (.idle : Status Nat)⟩ false .pop _ _ _ _ rfl rfl (.nil _)
  have hrun := (((Machine.Run.refl (M := attentive 1) (⟨BQueue.init 1, fun _ => .idle⟩ : Sys Bool Nat)).snoc
    ⟨hpush, fun h => h.2.2.1⟩).snoc ⟨hdisable, fun h => h.2.2.1⟩).snoc ⟨htake, fun h => h.2.2.1⟩
  exact ⟨_, delayed_disable_drains (by decide) ⟨rfl, fun _ => rfl⟩ (by decide) (by decide) hrun⟩

/-- The timed pop takes the last element, and the pop that waits is not told. -/
theorem delayed_disable_forgets : ∃ (s : Sys (Fin 3) Nat) (pre post : List (Label (Fin 3) Nat)),
    (∀ a ∈ pre, a.moves = true) ∧ (∀ a ∈ post, a.moves = true) ∧
      (system (fresh 1)).Run ⟨BQueue.init 1, fun _ => .idle⟩
        (pre ++ .enter 2 .delayedDisable (some .done) :: post) s ∧ ¬Drains pre post s :=
  ⟨_, _, _, by decide, by decide, forgetful_run,
    fun h => h.pending rfl forgetful_asleep.2 1 (by exact rfl)⟩

end Jive5ab.Queue
