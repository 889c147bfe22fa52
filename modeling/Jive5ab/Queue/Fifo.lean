import Jive5ab.Queue.BQueue

/-! # First in, first out

On a queue that stays enabled, what has been pushed is what has been popped
followed by what is still queued: one lemma per critical section, one induction
over the run. The order is that of the critical sections. -/
namespace Jive5ab.Queue

/-- The calls that move elements, as against those that switch the queue. -/
def Op.moves {E : Type} : Op E → Bool
  | .push _ | .tryPush _ | .pop | .popTimed | .tryPop => true
  | _ => false

def Reply.taken {E : Type} : Reply E → List E
  | .popped (some b) => [b]
  | .poppedResult .success (some b) => [b]
  | _ => []

def Blocked.given {E : Type} : Blocked E → Reply E → List E
  | .push b, .pushed true => [b]
  | _, _ => []

/-- A caller of `try_push` tells success by comparing with `push_success`. -/
def Op.given {E : Type} : Op E → Reply E → List E
  | .push b, r => (Blocked.push b).given r
  | .tryPush b, .tryPushed ret => if ret.toNat = PushResult.success.toNat then [b] else []
  | _, _ => []

/-- The element a label reports as pushed, and the one it reports as popped. -/
def Label.pushed {τ E : Type} : Label τ E → List E
  | .enter _ op (some r) => op.given r
  | .resume _ w (some r) => w.given r
  | _ => []

def Label.popped {τ E : Type} : Label τ E → List E
  | .enter _ _ (some r) => r.taken
  | .resume _ _ (some r) => r.taken
  | _ => []

def Label.moves {τ E : Type} : Label τ E → Bool
  | .enter _ op _ => op.moves
  | _ => true

structure Enabled {E : Type} (q : BQueue E) : Prop where
  push : q.enablePush = true
  pop : q.enablePop = true

/-- One critical section: `ins` went in at the back, `outs` came out in front. -/
structure Moved {E : Type} (q q' : BQueue E) (ins outs : List E) : Prop where
  enabled : Enabled q'
  capacity : q'.capacity = q.capacity
  content : q.queue ++ ins = outs ++ q'.queue
  bounded : q.queue.length ≤ q.capacity → q'.queue.length ≤ q.capacity

def Outcome.Moves {E : Type} (q : BQueue E) (given : Reply E → List E) : Outcome E → Prop
  | .sleep q' _ => Moved q q' [] []
  | .leave q' r _ => Moved q q' (given r) r.taken

variable {τ E : Type} [DecidableEq τ]

omit [DecidableEq τ] in
theorem Moved.refl {q : BQueue E} (h : Enabled q) : Moved q q [] [] :=
  ⟨h, rfl, by simp, id⟩

theorem finishPop_moves {q q' : BQueue E} {result : PopResult} {b : Option E}
    (h : Moved q q' [] (Reply.taken (.poppedResult result b))) (given : Reply E → List E)
    (hg : given (.poppedResult result b) = []) : (q'.finishPop result b).Moves q given := by
  obtain ⟨⟨hpush, hpop⟩, hcap, hcont, hbound⟩ := h
  simp only [BQueue.finishPop, BQueue.checkDelayed, hpush, Outcome.Moves, hg]
  exact ⟨⟨hpush, hpop⟩, hcap, hcont, hbound⟩

theorem popFront_moved {q : BQueue E} {b : E} {rest : List E} (h : Enabled q)
    (hq : q.queue = b :: rest) : Moved q q.popFront [] [b] := by
  refine ⟨⟨h.push, h.pop⟩, rfl, by simp [BQueue.popFront, hq], fun hb => ?_⟩
  simp only [BQueue.popFront, hq, List.tail_cons, List.length_cons] at hb ⊢
  omega

theorem pushBack_moved {q : BQueue E} (h : Enabled q) (hroom : q.queue.length < q.capacity) (b : E)
    (n m : Nat) : Moved q { q with queue := q.queue ++ [b], nPush := n, nPop := m } [b] [] := by
  refine ⟨⟨h.push, h.pop⟩, rfl, by simp, fun _ => ?_⟩
  simp only [List.length_append, List.length_singleton]
  omega

theorem resume_moves {q : BQueue E} (h : Enabled q) (w : Blocked E) :
    (q.resume w).Moves q w.given := by
  obtain ⟨_, _, queue, nPush, nPop, capacity⟩ := q
  obtain ⟨rfl, rfl⟩ := h
  have h : Enabled (E := E) ⟨true, true, queue, nPush, nPop, capacity⟩ := ⟨rfl, rfl⟩
  cases w with
  | push b =>
    by_cases hfull : capacity ≤ queue.length
    · simp only [BQueue.resume, hfull, decide_true, Bool.and_self, if_true, Outcome.Moves]
      exact .refl h
    · simp only [BQueue.resume, hfull, decide_false, Bool.and_false, Bool.false_eq_true, if_false,
        if_true, Outcome.Moves]
      exact pushBack_moved h (Nat.not_le.mp hfull) b _ _
  | pop =>
    cases queue with
    | nil => exact .refl h
    | cons b rest =>
      obtain ⟨henabled, hcap, hcont, hbound⟩ := popFront_moved h rfl
      exact ⟨⟨henabled.push, henabled.pop⟩, hcap, hcont, hbound⟩
  | popTimed timedOut =>
    cases queue with
    | nil =>
      cases timedOut with
      | false => exact .refl h
      | true => exact finishPop_moves (.refl h) _ rfl
    | cons b rest =>
      simp only [BQueue.resume, List.isEmpty_cons, Bool.and_false, Bool.false_and,
        Bool.false_eq_true, if_false, if_true]
      exact finishPop_moves (popFront_moved h rfl) _ rfl

/-- Counting a thread in changes nothing that moves elements. -/
theorem Outcome.Moves.ofCounted {q : BQueue E} {n m : Nat} {given : Reply E → List E}
    {o : Outcome E} (h : o.Moves { q with nPush := n, nPop := m } given) : o.Moves q given := by
  cases o with
  | sleep q' w => exact ⟨h.enabled, h.capacity, h.content, h.bounded⟩
  | leave q' r sigs => exact ⟨h.enabled, h.capacity, h.content, h.bounded⟩

theorem enter_moves {q : BQueue E} (h : Enabled q) {op : Op E} (hop : op.moves = true) :
    (q.enter op).Moves q op.given := by
  have hc (n m : Nat) : Enabled { q with nPush := n, nPop := m } := ⟨h.push, h.pop⟩
  cases op with
  | push b => exact (resume_moves (hc (q.nPush + 1) q.nPop) (.push b)).ofCounted
  | pop => exact (resume_moves (hc q.nPush (q.nPop + 1)) .pop).ofCounted
  | popTimed => exact (resume_moves (hc q.nPush (q.nPop + 1)) (.popTimed false)).ofCounted
  | tryPush b =>
    obtain ⟨_, _, queue, nPush, nPop, capacity⟩ := q
    obtain ⟨rfl, rfl⟩ := h
    by_cases hfull : capacity ≤ queue.length
    · simp only [BQueue.enter, hfull, Bool.not_true, Bool.false_eq_true, if_false, if_true,
        Outcome.Moves]
      exact .refl ⟨rfl, rfl⟩
    · simp only [BQueue.enter, hfull, Bool.not_true, Bool.false_eq_true, if_false, Outcome.Moves]
      exact pushBack_moved ⟨rfl, rfl⟩ (Nat.not_le.mp hfull) b _ _
  | tryPop =>
    obtain ⟨_, _, queue, nPush, nPop, capacity⟩ := q
    obtain ⟨rfl, rfl⟩ := h
    have hcounted := hc nPush (nPop + 1)
    refine Outcome.Moves.ofCounted (n := nPush) (m := nPop + 1) ?_
    cases queue with
    | nil => exact finishPop_moves (.refl hcounted) _ rfl
    | cons b rest => exact finishPop_moves (popFront_moved hcounted rfl) _ rfl
  | disable => cases hop
  | delayedDisable => cases hop
  | disablePop => cases hop
  | resizeEnable n => cases hop
  | resizeEnablePush n => cases hop
  | enablePopOnly => cases hop
  | clear => cases hop

/-- What a step says it pushed and popped is what happened to the queue: the
signals only touch the threads. -/
theorem step_moves {s t : Sys τ E} {a : Label τ E} (h : Step s a t) (hq : Enabled s.q)
    (ha : a.moves = true) : Moved s.q t.q a.pushed a.popped := by
  cases h with
  | enterSleep hidle hout =>
    have hm := enter_moves hq ha
    rw [hout] at hm
    exact hm
  | enterLeave hidle hout hsig =>
    have hm := enter_moves hq ha
    rw [hout] at hm
    exact hm
  | @resumeSleep _ w q w' hwoken hout =>
    have hm := resume_moves hq w
    rw [hout] at hm
    exact hm
  | @resumeLeave _ w q r sigs st hwoken hout hsig =>
    have hm := resume_moves hq w
    rw [hout] at hm
    exact hm
  | spurious hasleep => exact .refl hq
  | timeout hasleep => exact .refl hq

/-! ## Runs -/

theorem Moved.trans {q₁ q₂ q₃ : BQueue E} {ins outs ins' outs' : List E}
    (h : Moved q₁ q₂ ins outs) (k : Moved q₂ q₃ ins' outs') :
    Moved q₁ q₃ (ins ++ ins') (outs ++ outs') where
  enabled := k.enabled
  capacity := k.capacity.trans h.capacity
  content := by
    rw [← List.append_assoc, h.content, List.append_assoc, k.content, List.append_assoc]
  bounded hb := h.capacity ▸ k.bounded (h.capacity.symm ▸ h.bounded hb)

theorem run_moves {start : Sys τ E → Prop} {s t : Sys τ E} {as : List (Label τ E)}
    (h : (system start).Run s as t) (hq : Enabled s.q) (has : ∀ a ∈ as, a.moves = true) :
    Moved s.q t.q (as.flatMap Label.pushed) (as.flatMap Label.popped) := by
  induction h with
  | refl => exact .refl hq
  | snoc _ hstep ih =>
    have hm := ih fun a ha => has a (List.mem_append_left _ ha)
    have hs := step_moves hstep hm.enabled (has _ (List.mem_append_right _ (List.mem_singleton_self _)))
    simpa only [List.flatMap_append, List.flatMap_singleton] using hm.trans hs

/-- Any number of threads, any interleaving: what was popped is a prefix of what
was pushed, the rest of it is still queued, and the queue never grows beyond its
capacity. -/
theorem queue_fifo {start : Sys τ E → Prop} {s t : Sys τ E} {as : List (Label τ E)}
    (h : (system start).Run s as t) (hempty : s.q.queue = []) (hpush : s.q.enablePush = true)
    (hpop : s.q.enablePop = true) (has : ∀ a ∈ as, a.moves = true) :
    as.flatMap Label.pushed = as.flatMap Label.popped ++ t.q.queue ∧
      (as.flatMap Label.popped) <+: (as.flatMap Label.pushed) ∧
      t.q.queue.length ≤ s.q.capacity ∧ t.q.capacity = s.q.capacity := by
  have hm := run_moves h ⟨hpush, hpop⟩ has
  have hcontent : as.flatMap Label.pushed = as.flatMap Label.popped ++ t.q.queue := by
    simpa [hempty] using hm.content
  exact ⟨hcontent, ⟨_, hcontent.symm⟩, hm.bounded (by simp [hempty]), hm.capacity⟩

/-- A reader that went to sleep on the empty queue is handed what is pushed. -/
theorem queue_fifo_handover :
    ∃ (t : Sys Bool Nat) (as : List (Label Bool Nat)),
      (system fun _ => True).Run ⟨BQueue.init 1, fun _ => .idle⟩ as t ∧
        as.flatMap Label.pushed = [7] ∧
        as.flatMap Label.pushed = as.flatMap Label.popped ++ t.q.queue ∧
        (as.flatMap Label.popped) <+: (as.flatMap Label.pushed) ∧
        t.q.queue.length ≤ 1 ∧ t.q.capacity = 1 := by
  have hrun := (((Lib.Machine.Run.refl (M := system fun _ : Sys Bool Nat => True)
    ⟨BQueue.init 1, fun _ => .idle⟩).snoc
      (@Step.enterSleep _ _ _ _ false .pop _ _ rfl rfl)).snoc
      (@Step.enterLeave _ _ _ _ true (.push 7) _ _ _ _ rfl rfl
        (.signalPop (.inl ⟨false, .pop, rfl, rfl, rfl⟩) (.nil _)))).snoc
      (@Step.resumeLeave _ _ _ _ false .pop _ _ _ _ rfl rfl (.nil _))
  exact ⟨_, _, hrun, rfl, queue_fifo hrun rfl rfl rfl (by decide)⟩

end Jive5ab.Queue
