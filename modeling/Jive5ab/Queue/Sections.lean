import Jive5ab.Queue.BQueue

/-! # What a critical section does

Each section of a push or a pop, taken apart once: the ways it can end, with the
queue, the reply and the signals. -/
namespace Jive5ab.Queue

variable {E : Type}

theorem resume_push_cases (q : BQueue E) (e : E) :
    (q.enablePush = true ∧ q.capacity ≤ q.queue.length ∧ q.resume (.push e) = .sleep q (.push e)) ∨
      (q.enablePush = false ∧
        q.resume (.push e) = .leave { q with nPush := q.nPush - 1 } (.pushed false) []) ∨
      (q.enablePush = true ∧ q.queue.length < q.capacity ∧ q.resume (.push e) =
        .leave { q with queue := q.queue ++ [e], nPush := q.nPush - 1 } (.pushed true)
          (if q.nPop ≠ 0 then [.signalPop] else [])) := by
  cases hon : q.enablePush with
  | false =>
    refine Or.inr (Or.inl ⟨rfl, ?_⟩)
    simp [BQueue.resume, hon]
  | true =>
    by_cases hfull : q.capacity ≤ q.queue.length
    · exact Or.inl ⟨rfl, hfull, by simp [BQueue.resume, hon, hfull]⟩
    · exact Or.inr (Or.inr ⟨rfl, Nat.lt_of_not_le hfull, by simp [BQueue.resume, hon, hfull]⟩)

theorem checkDelayed_off {q : BQueue E} (h : q.enablePop = false) : q.checkDelayed = q := by
  obtain ⟨enablePush, enablePop, queue, nPush, nPop, capacity⟩ := q
  obtain rfl : enablePop = false := h
  unfold BQueue.checkDelayed
  split <;> rfl

theorem checkDelayed_counts (q : BQueue E) :
    q.checkDelayed.nPop = q.nPop ∧ q.checkDelayed.nPush = q.nPush := by
  unfold BQueue.checkDelayed
  split <;> exact ⟨rfl, rfl⟩

/-- The queue after a pop without its first element. -/
def BQueue.popped (q : BQueue E) (rest : List E) : BQueue E :=
  { { q with queue := rest }.checkDelayed with nPop := q.nPop - 1 }

theorem resume_pop_cases (q : BQueue E) :
    (q.enablePop = true ∧ q.queue = [] ∧ q.resume .pop = .sleep q .pop) ∨
      (q.enablePop = false ∧ q.resume .pop = .leave { q with nPop := q.nPop - 1 } (.popped none)
        (if q.nPop - 1 ≠ 0 then [.broadcastPop] else [])) ∨
      (∃ e rest, q.enablePop = true ∧ q.queue = e :: rest ∧ q.resume .pop =
        .leave (q.popped rest) (.popped (some e)) ((if q.nPush ≠ 0 then [.signalPush] else []) ++
          if q.nPop - 1 ≠ 0 ∧ !(q.popped rest).enablePop then [.broadcastPop] else [])) := by
  cases hon : q.enablePop with
  | false =>
    refine Or.inr (Or.inl ⟨rfl, ?_⟩)
    simp [BQueue.resume, hon, checkDelayed_off hon]
  | true =>
    cases hq : q.queue with
    | nil => exact Or.inl ⟨rfl, rfl, by simp [BQueue.resume, hon, hq]⟩
    | cons e rest =>
      refine Or.inr (Or.inr ⟨e, rest, rfl, rfl, ?_⟩)
      simp only [BQueue.resume, hon, hq, List.isEmpty_cons, Bool.and_false, Bool.false_eq_true, if_false,
        if_true, BQueue.popFront, List.tail_cons, BQueue.popped, BQueue.checkDelayed, List.head?_cons,
        and_true]
      split <;> simp

theorem resume_popTimed_cases (q : BQueue E) (timedOut : Bool) :
    (q.enablePop = true ∧ q.queue = [] ∧ timedOut = false ∧
        q.resume (.popTimed timedOut) = .sleep q (.popTimed timedOut)) ∨
      (q.enablePop = false ∧ q.resume (.popTimed timedOut) =
        .leave { q with nPop := q.nPop - 1 } (.poppedResult .disabled none) []) ∨
      (q.enablePop = true ∧ q.queue = [] ∧ timedOut = true ∧ q.resume (.popTimed timedOut) =
        .leave (q.popped []) (.poppedResult .timeout none) []) ∨
      (∃ e rest, q.enablePop = true ∧ q.queue = e :: rest ∧ q.resume (.popTimed timedOut) =
        .leave (q.popped rest) (.poppedResult .success (some e))
          (if q.nPush ≠ 0 then [.signalPush] else [])) := by
  cases hon : q.enablePop with
  | false =>
    refine Or.inr (Or.inl ⟨rfl, ?_⟩)
    simp [BQueue.resume, BQueue.finishPop, hon, checkDelayed_off hon]
  | true =>
    cases hq : q.queue with
    | nil =>
      cases timedOut with
      | false => exact Or.inl ⟨rfl, rfl, rfl, by simp [BQueue.resume, hon, hq]⟩
      | true =>
        refine Or.inr (Or.inr (Or.inl ⟨rfl, rfl, rfl, ?_⟩))
        obtain ⟨enablePush, enablePop, queue, nPush, nPop, capacity⟩ := q
        obtain rfl : enablePop = true := hon
        obtain rfl : queue = [] := hq
        simp [BQueue.resume, BQueue.finishPop, BQueue.popped, checkDelayed_counts]
    | cons e rest =>
      refine Or.inr (Or.inr (Or.inr ⟨e, rest, rfl, rfl, ?_⟩))
      simp only [BQueue.resume, hon, hq, List.isEmpty_cons, Bool.and_false, Bool.false_and,
        Bool.false_eq_true, if_false, if_true, BQueue.finishPop, BQueue.popFront, List.tail_cons,
        BQueue.popped, List.head?_cons, checkDelayed_counts, and_true]

theorem enter_tryPop (q : BQueue E) :
    q.enter .tryPop = { q with nPop := q.nPop + 1 }.resume (.popTimed true) := by
  simp [BQueue.enter, BQueue.resume]

theorem enter_tryPush_cases (q : BQueue E) (e : E) :
    (∃ ret, (ret = .disabled ∨ ret = .overflow) ∧
        q.enter (.tryPush e) = .leave q (.tryPushed (PushResult.toBool ret)) []) ∨
      (q.enablePush = true ∧ q.queue.length < q.capacity ∧ q.enter (.tryPush e) =
        .leave { q with queue := q.queue ++ [e] } (.tryPushed PushResult.success.toBool)
          (if q.nPop ≠ 0 then [.signalPop] else [])) := by
  unfold BQueue.enter
  cases hon : q.enablePush with
  | false => exact Or.inl ⟨.disabled, Or.inl rfl, rfl⟩
  | true =>
    by_cases hfull : q.capacity ≤ q.queue.length
    · exact Or.inl ⟨.overflow, Or.inr rfl, by simp [hfull]⟩
    · exact Or.inr ⟨rfl, Nat.lt_of_not_le hfull, by simp [hfull]⟩


end Jive5ab.Queue
