import Jive5ab.Lib.Tally
import Jive5ab.Queue.Sections

/-! # Lost wake-ups

Who sleeps on a condition of the queue is counted, and who has been woken and has
yet to run. There are always as many of the latter as there are elements to pop, or
places to push to, as long as anybody sleeps. Only switching popping off without a
broadcast breaks this. -/
namespace Jive5ab.Queue
open Lib

/-! ## Who sleeps and who is about to run -/

def Status.asleepOn {E : Type} (push : Bool) : Status E → Prop
  | .asleep w => w.onPush = push
  | _ => False

def Status.wokenOn {E : Type} (push : Bool) : Status E → Prop
  | .woken w => w.onPush = push
  | _ => False

/-- The loop condition of the calls that wait on a condition does not hold any more. -/
def BQueue.Decided {E : Type} (q : BQueue E) : Bool → Prop
  | true => q.enablePush = false ∨ q.queue.length < q.capacity
  | false => q.enablePop = false ∨ q.queue ≠ []

/-- A thread sleeps although what it waits for is decided, and no woken thread is there
to find out. -/
def LostWakeup {τ E : Type} (s : Sys τ E) : Prop :=
  ∃ push, (∃ t, (s.status t).asleepOn push) ∧ s.q.Decided push ∧ ∀ t, ¬(s.status t).wokenOn push

/-- The sleepers on a condition, and the woken ones. -/
def SideCount {τ E : Type} (st : τ → Status E) (push : Bool) (c : Nat × Nat) : Prop :=
  Tally st (Status.asleepOn push) c.1 ∧ Tally st (Status.wokenOn push) c.2

/-- What a signal does to the numbers of one condition. -/
def Signal.count (push : Bool) (c : Nat × Nat) : Signal → Nat × Nat
  | .signalPush => if push then (c.1 - 1, c.2 + min 1 c.1) else c
  | .signalPop => if push then c else (c.1 - 1, c.2 + min 1 c.1)
  | .broadcastPush => if push then (0, c.2 + c.1) else c
  | .broadcastPop => if push then c else (0, c.2 + c.1)

def counts (push : Bool) (sigs : List Signal) (c : Nat × Nat) : Nat × Nat :=
  sigs.foldl (Signal.count push) c

variable {τ E : Type}

/-- The queue of the given capacity, before anybody has called it. -/
def fresh (cap : Nat) (s : Sys τ E) : Prop := s.q = BQueue.init cap ∧ ∀ t, s.status t = .idle

theorem sideCount_wakeAll [DecidableEq τ] {st : τ → Status E} {push : Bool} {c : Nat × Nat}
    (h : SideCount st push c) : SideCount (wakeAll push st) push (0, c.2 + c.1) := by
  constructor
  · apply Tally.zero
    intro t ht
    unfold wakeAll at ht
    cases hst : st t with
    | idle => simp [hst, Status.asleepOn] at ht
    | woken w => simp [hst, Status.asleepOn] at ht
    | asleep w =>
      by_cases hw : w.onPush = push <;> simp [hst, hw, Status.asleepOn] at ht
  · refine (h.2.add h.1 fun t hw ha => ?_).congr fun t => ?_
    · cases hst : st t <;> simp_all [Status.asleepOn, Status.wokenOn]
    · unfold wakeAll
      cases hst : st t with
      | idle => simp [Status.asleepOn, Status.wokenOn]
      | woken w => simp [Status.asleepOn, Status.wokenOn]
      | asleep w => by_cases hw : w.onPush = push <;> simp [hw, Status.asleepOn, Status.wokenOn]

theorem sideCount_wakeAll_other {st : τ → Status E} {push : Bool} {c : Nat × Nat}
    (h : SideCount st push c) : SideCount (wakeAll (!push) st) push c := by
  constructor
  · refine h.1.congr fun t => ?_
    unfold wakeAll
    cases hst : st t with
    | idle => simp [Status.asleepOn]
    | woken w => simp [Status.asleepOn]
    | asleep w => by_cases hw : w.onPush = !push <;> simp [hw, Status.asleepOn]
  · refine h.2.congr fun t => ?_
    unfold wakeAll
    cases hst : st t with
    | idle => simp [Status.wokenOn]
    | woken w => simp [Status.wokenOn]
    | asleep w => by_cases hw : w.onPush = !push <;> simp [hw, Status.wokenOn]

variable [DecidableEq τ]

theorem sideCount_wakesOne {st st' : τ → Status E} {push : Bool} {c : Nat × Nat}
    (h : SideCount st push c) (hw : WakesOne push st st') :
    SideCount st' push (c.1 - 1, c.2 + min 1 c.1) := by
  obtain ⟨a, w⟩ := c
  rcases hw with ⟨t, b, hst, hb, rfl⟩ | ⟨hnone, rfl⟩
  · have hasleep : (st t).asleepOn push := by simp [hst, Status.asleepOn, hb]
    obtain ⟨a, rfl⟩ : ∃ a', a = a' + 1 := ⟨a - 1, (Nat.sub_add_cancel (h.1.pos hasleep)).symm⟩
    refine ⟨h.1.lose hasleep (by simp [Status.asleepOn]), ?_⟩
    have hmin : min 1 (a + 1) = 1 := by omega
    dsimp only
    rw [hmin]
    exact h.2.gain (by simp [hst, Status.wokenOn]) hb
  · obtain rfl : a = 0 := h.1.unique (Tally.zero fun t ht => by
      cases hst : st' t with
      | idle => simp [hst, Status.asleepOn] at ht
      | woken w => simp [hst, Status.asleepOn] at ht
      | asleep w =>
        rw [hst] at ht
        exact hnone t w hst ht)
    exact h

theorem sideCount_wakesOne_other {st st' : τ → Status E} {push : Bool} {c : Nat × Nat}
    (h : SideCount st push c) (hw : WakesOne (!push) st st') : SideCount st' push c := by
  rcases hw with ⟨t, b, hst, hb, rfl⟩ | ⟨-, rfl⟩
  · have hne : b.onPush ≠ push := by simp [hb]
    exact ⟨h.1.keep (by simp [hst, Status.asleepOn, hne]), h.2.keep (by simp [hst, Status.wokenOn, hne])⟩
  · exact h

theorem sideCount_delivers {sigs : List Signal} {st st' : τ → Status E} {push : Bool} {c : Nat × Nat}
    (h : SideCount st push c) (hd : Delivers sigs st st') :
    SideCount st' push (counts push sigs c) := by
  induction hd generalizing c with
  | nil => exact h
  | signalPush hone _ ih =>
    cases push with
    | true => exact ih (sideCount_wakesOne h hone)
    | false => exact ih (sideCount_wakesOne_other h hone)
  | signalPop hone _ ih =>
    cases push with
    | true => exact ih (sideCount_wakesOne_other h hone)
    | false => exact ih (sideCount_wakesOne h hone)
  | broadcastPush _ ih =>
    cases push with
    | true => exact ih (sideCount_wakeAll h)
    | false => exact ih (sideCount_wakeAll_other h)
  | broadcastPop _ ih =>
    cases push with
    | true => exact ih (sideCount_wakeAll_other h)
    | false => exact ih (sideCount_wakeAll h)

omit [DecidableEq τ] in
theorem wakeAll_awake {push : Bool} {st : τ → Status E} {t : τ} (h : ∀ w, st t ≠ .asleep w) :
    wakeAll push st t = st t := by
  unfold wakeAll
  cases hst : st t with
  | asleep w => exact absurd hst (h w)
  | idle => rfl
  | woken w => rfl

theorem wakesOne_awake {push : Bool} {st st' : τ → Status E} (hw : WakesOne push st st') {t : τ}
    (h : ∀ w, st t ≠ .asleep w) : st' t = st t := by
  rcases hw with ⟨u, w, hu, -, rfl⟩ | ⟨-, rfl⟩
  · have htu : t ≠ u := by
      rintro rfl
      exact h w hu
    exact Function.update_of_ne htu _ _
  · rfl

/-- Signals do not change the threads that are awake. -/
theorem delivers_awake {sigs : List Signal} {st st' : τ → Status E} (hd : Delivers sigs st st')
    {t : τ} (h : ∀ w, st t ≠ .asleep w) : st' t = st t := by
  induction hd with
  | nil => rfl
  | signalPush hone _ ih =>
    have hkeep := wakesOne_awake hone h
    rw [ih (by rwa [hkeep]), hkeep]
  | signalPop hone _ ih =>
    have hkeep := wakesOne_awake hone h
    rw [ih (by rwa [hkeep]), hkeep]
  | broadcastPush _ ih =>
    have hkeep := @wakeAll_awake τ E true _ t h
    rw [ih (by rwa [hkeep]), hkeep]
  | broadcastPop _ ih =>
    have hkeep := @wakeAll_awake τ E false _ t h
    rw [ih (by rwa [hkeep]), hkeep]

/-! ## One critical section -/

/-- The numbers of the sleeping and the woken pushers `u` and poppers `p` fit the queue.
`b` is that a blocking pop has been woken: with popping off it wakes all others. -/
structure Fine (q : BQueue E) (u p : Nat × Nat) (b : Prop) : Prop where
  nPush : q.nPush = u.1 + u.2
  nPop : q.nPop = p.1 + p.2
  push : 0 < u.1 → q.enablePush = true ∧ q.capacity ≤ q.queue.length + u.2
  pop : 0 < p.1 → (q.enablePop = true ∧ q.queue.length ≤ p.2) ∨ (q.enablePop = false ∧ b)

/-- The other threads' numbers fit after the section, too, with the thread asleep or gone. -/
def Outcome.Keeps (u p : Nat × Nat) (b : Prop) : Outcome E → Prop
  | .sleep q w => if w.onPush then Fine q (u.1 + 1, u.2) p b else Fine q u (p.1 + 1, p.2) b
  | .leave q _ sigs => Fine q (counts true sigs u) (counts false sigs p) b

section
omit [DecidableEq τ]

@[simp] theorem counts_nil (push : Bool) (c : Nat × Nat) : counts push [] c = c := rfl

@[simp] theorem counts_append (push : Bool) (xs ys : List Signal) (c : Nat × Nat) :
    counts push (xs ++ ys) c = counts push ys (counts push xs c) := List.foldl_append

@[simp] theorem counts_signal (push side : Bool) (p : Prop) [Decidable p] (c : Nat × Nat) :
    counts push (if p then [if side then .signalPush else .signalPop] else []) c =
      if p ∧ push = side then (c.1 - 1, c.2 + min 1 c.1) else c := by
  by_cases hp : p <;> cases push <;> cases side <;> simp [hp, counts, Signal.count]

theorem counts_signalPush (push : Bool) (p : Prop) [Decidable p] (c : Nat × Nat) :
    counts push (if p then [.signalPush] else []) c =
      if p ∧ push = true then (c.1 - 1, c.2 + min 1 c.1) else c := counts_signal push true p c

theorem counts_signalPop (push : Bool) (p : Prop) [Decidable p] (c : Nat × Nat) :
    counts push (if p then [.signalPop] else []) c =
      if p ∧ push = false then (c.1 - 1, c.2 + min 1 c.1) else c := counts_signal push false p c

theorem counts_broadcastPop (push : Bool) (p : Prop) [Decidable p] (c : Nat × Nat) :
    counts push (if p then [.broadcastPop] else []) c =
      if p ∧ push = false then (0, c.2 + c.1) else c := by
  by_cases hp : p <;> cases push <;> simp [hp, counts, Signal.count]

/-- An element more, and a signal for it. -/
theorem Fine.pushBack {q : BQueue E} {u p : Nat × Nat} {b : Prop} {n : Nat} (e : E)
    (hn : n = u.1 + u.2) (hnPop : q.nPop = p.1 + p.2)
    (hpush : 0 < u.1 → q.enablePush = true ∧ q.capacity ≤ q.queue.length + 1 + u.2)
    (hpop : 0 < p.1 → (q.enablePop = true ∧ q.queue.length ≤ p.2) ∨ (q.enablePop = false ∧ b)) :
    Fine { q with queue := q.queue ++ [e], nPush := n } u
      (if q.nPop ≠ 0 then (p.1 - 1, p.2 + min 1 p.1) else p) b := by
  refine ⟨hn, ?_, fun hpos => ?_, ?_⟩
  · split <;> dsimp only <;> omega
  · rw [List.length_append, List.length_singleton]
    exact hpush hpos
  · rw [List.length_append, List.length_singleton]
    split
    · intro hpos
      rcases hpop (by omega) with ⟨hon, hle⟩ | hoff
      · exact Or.inl ⟨hon, by omega⟩
      · exact Or.inr hoff
    · intro hpos
      omega

theorem resume_push_keeps {q : BQueue E} {u p : Nat × Nat} {b : Prop} {e : E}
    (h : Fine q (u.1, u.2 + 1) p b) : (q.resume (.push e)).Keeps u p b := by
  obtain ⟨hnPush, hnPop, hpush, hpop⟩ := h
  rcases resume_push_cases q e with ⟨hon, hfull, heq⟩ | ⟨hoff, heq⟩ | ⟨hon, hroom, heq⟩ <;>
    rw [heq] <;> dsimp only at *
  · refine ⟨by omega, hnPop, fun _ => ⟨hon, by omega⟩, hpop⟩
  · refine ⟨?_, hnPop, fun hpos => absurd (hpush hpos).1 (by simp [hoff]), hpop⟩
    simp only [counts_nil]
    omega
  · simp only [Outcome.Keeps, counts_signalPop, Bool.true_eq_false, and_false, if_false, and_true]
    exact Fine.pushBack e (by omega) hnPop (fun hpos => ⟨hon, by omega⟩) hpop

/-- Popping goes off only if `hcare` lets it. -/
theorem popped_keeps {q : BQueue E} {u p : Nat × Nat} {b b' : Prop} {rest : List E}
    (h : Fine q u (p.1, p.2 + 1) b') (hon : q.enablePop = true)
    (hpush : 0 < u.1 → q.capacity ≤ rest.length + u.2) (hlen : rest.length ≤ q.queue.length - 1)
    (hcare : q.enablePush = false → rest = [] → p.1 = 0 ∨ b) : Fine (q.popped rest) u p b := by
  obtain ⟨hnPush, hnPop, hpush', hpop⟩ := h
  unfold BQueue.popped BQueue.checkDelayed
  split
  · rename_i hoff
    rw [Bool.and_eq_true, Bool.not_eq_true', List.isEmpty_iff] at hoff
    refine ⟨hnPush, ?_, fun hpos => ⟨(hpush' hpos).1, hpush hpos⟩, fun hpos => ?_⟩
    · dsimp only at hnPop ⊢
      omega
    · rcases hcare hoff.1 hoff.2 with hzero | hb
      · omega
      · exact Or.inr ⟨rfl, hb⟩
  · refine ⟨hnPush, ?_, fun hpos => ⟨(hpush' hpos).1, hpush hpos⟩, fun hpos => ?_⟩
    · dsimp only at hnPop ⊢
      omega
    · refine Or.inl ⟨hon, ?_⟩
      rcases hpop hpos with ⟨-, hle⟩ | ⟨hoff, -⟩
      · dsimp only at hle ⊢
        omega
      · simp [hon] at hoff

/-- An element is taken; the signal, if anybody waits to push, makes up for its place. -/
theorem taken_keeps {q : BQueue E} {u p : Nat × Nat} {b b' : Prop} {e : E} {rest : List E}
    (h : Fine q u (p.1, p.2 + 1) b') (hon : q.enablePop = true) (hq : q.queue = e :: rest)
    (hcare : q.enablePush = false → rest = [] → p.1 = 0 ∨ b) :
    Fine (q.popped rest) (if q.nPush ≠ 0 then (u.1 - 1, u.2 + min 1 u.1) else u) p b := by
  have hlen : q.queue.length = rest.length + 1 := by rw [hq, List.length_cons]
  have hnum := h.nPush
  split
  · have hsignalled : Fine q (u.1 - 1, u.2 + min 1 u.1) (p.1, p.2 + 1) b' := by
      refine ⟨?_, h.nPop, fun hpos => ?_, h.pop⟩ <;> dsimp only at *
      · omega
      · obtain ⟨hpushon, hroom⟩ := h.push (by omega)
        exact ⟨hpushon, by omega⟩
    refine popped_keeps hsignalled hon (fun hpos => ?_) (by omega) hcare
    dsimp only at hpos ⊢
    have hroom := (h.push (by omega)).2
    omega
  · exact popped_keeps h hon (fun hpos => by omega) (by omega) hcare

/-- A blocking pop wakes everybody if it finds popping off, or switches it off. -/
theorem resume_pop_keeps {q : BQueue E} {u p : Nat × Nat} {b : Prop}
    (h : Fine q u (p.1, p.2 + 1) True) : (q.resume .pop).Keeps u p b := by
  have hnum := h.nPop
  rcases resume_pop_cases q with ⟨hon, hempty, heq⟩ | ⟨hoff, heq⟩ | ⟨e, rest, hon, hq, heq⟩ <;>
    rw [heq]
  · refine ⟨h.nPush, by dsimp only at hnum ⊢; omega, h.push, fun _ => Or.inl ⟨hon, ?_⟩⟩
    rw [hempty]
    exact Nat.zero_le _
  · simp only [Outcome.Keeps, counts_broadcastPop, Bool.true_eq_false, and_false, if_false, and_true]
    refine ⟨h.nPush, ?_, h.push, fun hpos => ?_⟩
    · split <;> dsimp only at hnum ⊢ <;> omega
    · split at hpos <;> dsimp only at hnum hpos <;> omega
  · have htaken := taken_keeps (b := True) h hon hq (fun _ _ => Or.inr trivial)
    have hrest : (q.popped rest).nPop = p.1 + p.2 := htaken.nPop
    have hpopped : (q.popped rest).nPop = q.nPop - 1 := rfl
    simp only [Outcome.Keeps, counts_append, counts_signalPush, counts_broadcastPop,
      Bool.false_eq_true, Bool.true_eq_false, and_false, if_false, and_true]
    refine ⟨htaken.nPush, ?_, htaken.push, fun hpos => ?_⟩
    · split
      · dsimp only
        omega
      · omega
    · split at hpos
      · dsimp only at hpos
        omega
      · rename_i hno
        rcases htaken.pop hpos with hok | ⟨hoff, -⟩
        · rw [if_neg hno]
          exact Or.inl hok
        · exact absurd ⟨by omega, by simp [hoff]⟩ hno

/-- A timed pop that takes the last element, or gives up on the empty queue. -/
def Blocked.Empties (q : BQueue E) : Blocked E → Prop
  | .popTimed timedOut => q.queue.length = 1 ∨ (q.queue = [] ∧ timedOut = true)
  | _ => False

theorem resume_popTimed_keeps {q : BQueue E} {u p : Nat × Nat} {b : Prop} {timedOut : Bool}
    (h : Fine q u (p.1, p.2 + 1) b)
    (hcare : q.enablePush = false → q.enablePop = true → (Blocked.popTimed timedOut).Empties q →
      p.1 = 0 ∨ b) : (q.resume (.popTimed timedOut)).Keeps u p b := by
  have hnum := h.nPop
  rcases resume_popTimed_cases q timedOut with ⟨hon, hempty, -, heq⟩ | ⟨hoff, heq⟩ |
    ⟨hon, hempty, hto, heq⟩ | ⟨e, rest, hon, hq, heq⟩ <;> rw [heq]
  · refine ⟨h.nPush, by dsimp only at hnum ⊢; omega, h.push, fun _ => Or.inl ⟨hon, ?_⟩⟩
    rw [hempty]
    exact Nat.zero_le _
  · refine ⟨h.nPush, by simp only [counts_nil]; dsimp only at hnum; omega, h.push, fun hpos => ?_⟩
    rcases h.pop hpos with ⟨hon, -⟩ | hb
    · simp [hoff] at hon
    · exact Or.inr hb
  · refine popped_keeps h hon (fun hpos => ?_) (Nat.zero_le _) fun hpush _ => ?_
    · have hroom := (h.push hpos).2
      rwa [hempty] at hroom
    · exact hcare hpush hon (Or.inr ⟨hempty, hto⟩)
  · simp only [Outcome.Keeps, counts_signalPush, Bool.false_eq_true, and_false, if_false, and_true]
    refine taken_keeps h hon hq fun hpush hrest => hcare hpush hon (Or.inl ?_)
    rw [hq, hrest, List.length_singleton]

theorem Fine.countPush {q : BQueue E} {u p : Nat × Nat} {b : Prop} (h : Fine q u p b) :
    Fine { q with nPush := q.nPush + 1 } (u.1, u.2 + 1) p b := by
  have hnum := h.nPush
  refine ⟨by dsimp only; omega, h.nPop, fun hpos => ?_, h.pop⟩
  obtain ⟨hon, hroom⟩ := h.push hpos
  exact ⟨hon, by dsimp only; omega⟩

theorem Fine.countPop {q : BQueue E} {u p : Nat × Nat} {b : Prop} (h : Fine q u p b) :
    Fine { q with nPop := q.nPop + 1 } u (p.1, p.2 + 1) b := by
  have hnum := h.nPop
  refine ⟨h.nPush, by dsimp only; omega, h.push, fun hpos => ?_⟩
  rcases h.pop hpos with ⟨hon, hle⟩ | hoff
  · exact Or.inl ⟨hon, by dsimp only; omega⟩
  · exact Or.inr hoff

theorem Fine.mono {q : BQueue E} {u p : Nat × Nat} {b b' : Prop} (h : Fine q u p b) (hb : b → b') :
    Fine q u p b' :=
  ⟨h.nPush, h.nPop, h.push, fun hpos => (h.pop hpos).imp_right fun hoff => ⟨hoff.1, hb hoff.2⟩⟩

/-- The calls that may switch popping off and wake nobody. -/
def Op.Empties (q : BQueue E) : Op E → Prop
  | .tryPop => (Blocked.popTimed true).Empties q
  | .popTimed => (Blocked.popTimed false).Empties q
  | .clear => True
  | _ => False

theorem enter_keeps {q : BQueue E} {u p : Nat × Nat} {b : Prop} {op : Op E} (h : Fine q u p b)
    (hcare : q.enablePush = false → q.enablePop = true → op.Empties q → p.1 = 0 ∨ b) :
    (q.enter op).Keeps u p b := by
  have hnPush := h.nPush
  have hnPop := h.nPop
  have hpush := h.push
  have hpop := h.pop
  cases op with
  | push e => exact resume_push_keeps h.countPush
  | pop => exact resume_pop_keeps (h.countPop.mono fun _ => trivial)
  | popTimed => exact resume_popTimed_keeps h.countPop hcare
  | tryPop =>
    rw [enter_tryPop]
    exact resume_popTimed_keeps h.countPop hcare
  | tryPush e =>
    rcases enter_tryPush_cases q e with ⟨ret, -, heq⟩ | ⟨hon, hroom, heq⟩ <;> rw [heq]
    · exact h
    · simp only [Outcome.Keeps, counts_signalPop, Bool.true_eq_false, and_false, if_false, and_true]
      refine Fine.pushBack e hnPush hnPop (fun hpos => ⟨hon, ?_⟩) hpop
      have hle := (hpush hpos).2
      omega
  | disable =>
    simp only [BQueue.enter, Outcome.Keeps, counts, List.foldl_cons, List.foldl_nil, Signal.count,
      if_true, Bool.false_eq_true, if_false]
    exact ⟨by dsimp only; omega, by dsimp only; omega, fun hpos => absurd hpos (Nat.lt_irrefl 0),
      fun hpos => absurd hpos (Nat.lt_irrefl 0)⟩
  | resizeEnable newcap =>
    simp only [BQueue.enter, Outcome.Keeps, counts, List.foldl_cons, List.foldl_nil, Signal.count,
      if_true, Bool.false_eq_true, if_false]
    exact ⟨by dsimp only; omega, by dsimp only; omega, fun hpos => absurd hpos (Nat.lt_irrefl 0),
      fun hpos => absurd hpos (Nat.lt_irrefl 0)⟩
  | disablePop =>
    simp only [BQueue.enter, Outcome.Keeps, counts, List.foldl_cons, List.foldl_nil, Signal.count,
      if_true, Bool.false_eq_true, if_false]
    exact ⟨hnPush, by dsimp only; omega, hpush, fun hpos => absurd hpos (Nat.lt_irrefl 0)⟩
  | enablePopOnly =>
    simp only [BQueue.enter, Outcome.Keeps, counts, List.foldl_cons, List.foldl_nil, Signal.count,
      if_true, Bool.false_eq_true, if_false]
    exact ⟨hnPush, by dsimp only; omega, hpush, fun hpos => absurd hpos (Nat.lt_irrefl 0)⟩
  | resizeEnablePush newcap =>
    simp only [BQueue.enter, Outcome.Keeps, counts, List.foldl_cons, List.foldl_nil, Signal.count,
      if_true, Bool.false_eq_true, if_false]
    refine ⟨by dsimp only; omega, hnPop, fun hpos => absurd hpos (Nat.lt_irrefl 0), fun hpos => ?_⟩
    exact (hpop hpos).imp_left fun hon => ⟨hon.1, Nat.zero_le _⟩
  | delayedDisable =>
    simp only [BQueue.enter, Outcome.Keeps]
    generalize hdef : (if q.queue.isEmpty then false else q.enablePop) = on
    have hkeep : on = true → q.enablePop = true := by
      rw [← hdef]
      split <;> simp
    cases on with
    | false =>
      simp only [counts, List.foldl_cons, List.foldl_nil, Signal.count, Bool.not_false, if_true,
        Bool.false_eq_true, if_false]
      exact ⟨by dsimp only; omega, by dsimp only; omega, fun hpos => absurd hpos (Nat.lt_irrefl 0),
        fun hpos => absurd hpos (Nat.lt_irrefl 0)⟩
    | true =>
      simp only [counts, List.foldl_cons, List.foldl_nil, Signal.count, Bool.not_true, if_true,
        Bool.false_eq_true, if_false]
      refine ⟨by dsimp only; omega, hnPop, fun hpos => absurd hpos (Nat.lt_irrefl 0), fun hpos => ?_⟩
      rcases hpop hpos with hon | ⟨hoff, -⟩
      · exact Or.inl ⟨rfl, hon.2⟩
      · simp [hkeep rfl] at hoff
  | clear =>
    simp only [BQueue.enter, Outcome.Keeps]
    have hbroadcast (push : Bool) (c : Nat × Nat) (p : Prop) [Decidable p] :
        counts push (if p then [.broadcastPush] else []) c =
          if p ∧ push = true then (0, c.2 + c.1) else c := by
      by_cases hp : p <;> cases push <;> simp [hp, counts, Signal.count]
    rw [hbroadcast, hbroadcast]
    simp only [Bool.false_eq_true, and_false, and_true, if_false]
    refine ⟨?_, hnPop, fun hpos => ?_, fun hpos => ?_⟩
    · by_cases hall : q.nPush ≠ 0 ∧ (!q.queue.isEmpty) = true
      · rw [if_pos hall]
        dsimp only
        omega
      · rw [if_neg hall]
        exact hnPush
    · by_cases hno : q.nPush ≠ 0 ∧ (!q.queue.isEmpty) = true
      · rw [if_pos hno] at hpos
        exact absurd hpos (Nat.lt_irrefl 0)
      · rw [if_neg hno] at hpos ⊢
        obtain ⟨hon, hle⟩ := hpush hpos
        refine ⟨hon, ?_⟩
        have hempty : q.queue = [] := by
          by_cases hq : q.queue = []
          · exact hq
          · exact absurd ⟨by omega, by simp [hq]⟩ hno
        rwa [hempty] at hle
    · cases hon : q.enablePush with
      | true => exact (hpop hpos).imp (fun h => ⟨h.1, Nat.zero_le _⟩) id
      | false =>
        refine Or.inr ⟨rfl, ?_⟩
        rcases hpop hpos with hpopon | hoff
        · rcases hcare hon hpopon.1 trivial with hzero | hb
          · omega
          · exact hb
        · exact hoff.2

/-! ## Steps and runs -/

def Awake (s : Sys τ E) : Prop :=
  ∃ u p, SideCount s.status true u ∧ SideCount s.status false p ∧
    Fine s.q u p (∃ t, s.status t = .woken .pop)

def Label.Empties (q : BQueue E) : Label τ E → Prop
  | .enter _ op _ => op.Empties q
  | .resume _ w _ => w.Empties q
  | .wake _ => False

/-- A step switches popping off on a queue that is only disabled for pushing, and no
blocking pop has been woken that will tell the threads that still sleep. -/
def Forgets (s : Sys τ E) (a : Label τ E) : Prop :=
  s.q.enablePush = false ∧ s.q.enablePop = true ∧ a.Empties s.q ∧
    (∃ t, (s.status t).asleepOn false) ∧ ∀ t, s.status t ≠ .woken .pop

theorem Awake.not_lost {s : Sys τ E} (h : Awake s) : ¬LostWakeup s := by
  obtain ⟨u, p, hu, hp, hfine⟩ := h
  rintro ⟨push, ⟨t, ht⟩, hdecided, hnone⟩
  cases push with
  | true =>
    obtain ⟨hon, hroom⟩ := hfine.push (hu.1.pos ht)
    have hzero : u.2 = 0 := hu.2.unique (Tally.zero hnone)
    rcases hdecided with hoff | hlt
    · simp [hon] at hoff
    · omega
  | false =>
    have hzero : p.2 = 0 := hp.2.unique (Tally.zero hnone)
    rcases hfine.pop (hp.1.pos ht) with ⟨hon, hle⟩ | ⟨-, t', ht'⟩
    · rcases hdecided with hoff | hne
      · simp [hon] at hoff
      · exact hne (List.eq_nil_of_length_eq_zero (by omega))
    · exact hnone t' (by simp [ht', Status.wokenOn, Blocked.onPush])

end

/-- A woken thread, taken off the numbers. -/
theorem sideCount_run {st : τ → Status E} {push : Bool} {c : Nat × Nat} {t : τ} {w : Blocked E}
    (h : SideCount st push c) (ht : st t = .woken w) : ∃ c₀,
      SideCount (Function.update st t .idle) push c₀ ∧
        c = if w.onPush = push then (c₀.1, c₀.2 + 1) else c₀ := by
  have hasleep : Tally (Function.update st t .idle) (Status.asleepOn push) c.1 :=
    h.1.keep (by simp [ht, Status.asleepOn])
  by_cases hw : w.onPush = push
  · have hwoken : (st t).wokenOn push := by simpa [ht, Status.wokenOn] using hw
    obtain ⟨n, hn⟩ : ∃ n, c.2 = n + 1 := ⟨c.2 - 1, (Nat.sub_add_cancel (h.2.pos hwoken)).symm⟩
    refine ⟨(c.1, n), ⟨hasleep, ?_⟩, ?_⟩
    · have htally := h.2
      rw [hn] at htally
      exact htally.lose hwoken (by simp [Status.wokenOn])
    · rw [if_pos hw, ← hn]
  · refine ⟨c, ⟨hasleep, h.2.keep ?_⟩, by rw [if_neg hw]⟩
    simp [ht, Status.wokenOn, hw]

/-- A thread that is not counted goes to sleep. -/
theorem sideCount_sleep {st : τ → Status E} {push : Bool} {c : Nat × Nat} {t : τ} {w : Blocked E}
    (h : SideCount st push c) (ht : st t = .idle) : SideCount (Function.update st t (.asleep w)) push
      (if w.onPush = push then (c.1 + 1, c.2) else c) := by
  by_cases hw : w.onPush = push
  · rw [if_pos hw]
    exact ⟨h.1.gain (by simp [ht, Status.asleepOn]) hw, h.2.keep (by simp [ht, Status.wokenOn])⟩
  · rw [if_neg hw]
    exact ⟨h.1.keep (by simp [ht, Status.asleepOn, hw]), h.2.keep (by simp [ht, Status.wokenOn])⟩

/-- What the numbers say after a section is true of the threads. -/
theorem awake_of_keeps {st : τ → Status E} {t : τ} {u p : Nat × Nat} {o : Outcome E}
    (ht : st t = .idle) (hu : SideCount st true u) (hp : SideCount st false p)
    (h : o.Keeps u p (∃ t, st t = .woken .pop)) :
    (∀ q w, o = .sleep q w → Awake ⟨q, Function.update st t (.asleep w)⟩) ∧
      ∀ q r sigs st', o = .leave q r sigs → Delivers sigs st st' → Awake ⟨q, st'⟩ := by
  constructor
  · rintro q w rfl
    have hb : (∃ t, st t = .woken .pop) → ∃ t', Function.update st t (.asleep w) t' = .woken .pop := by
      rintro ⟨t', ht'⟩
      have hne : t' ≠ t := by
        rintro rfl
        simp [ht] at ht'
      exact ⟨t', by rwa [Function.update_of_ne hne]⟩
    refine ⟨_, _, sideCount_sleep hu ht, sideCount_sleep hp ht, ?_⟩
    cases hw : w.onPush with
    | true =>
      simp only [Outcome.Keeps, hw, if_true] at h
      simpa [hw] using h.mono hb
    | false =>
      simp only [Outcome.Keeps, hw, Bool.false_eq_true, if_false] at h
      simpa [hw] using h.mono hb
  · rintro q r sigs st' rfl hd
    refine ⟨_, _, sideCount_delivers hu hd, sideCount_delivers hp hd, h.mono ?_⟩
    rintro ⟨t', ht'⟩
    have hkeep : st' t' = st t' := delivers_awake hd (by simp [ht'])
    exact ⟨t', hkeep.trans ht'⟩

theorem resume_awake {s : Sys τ E} {t : τ} {w : Blocked E} {u p : Nat × Nat}
    (hu : SideCount s.status true u) (hp : SideCount s.status false p)
    (hfine : Fine s.q u p (∃ t, s.status t = .woken .pop)) (ht : s.status t = .woken w)
    (hcalm : s.q.enablePush = false → s.q.enablePop = true → w.Empties s.q →
      p.1 = 0 ∨ ∃ t, s.status t = .woken .pop) :
    ∃ u₀ p₀, SideCount (Function.update s.status t .idle) true u₀ ∧
      SideCount (Function.update s.status t .idle) false p₀ ∧
      (s.q.resume w).Keeps u₀ p₀ (∃ t', Function.update s.status t .idle t' = .woken .pop) := by
  obtain ⟨u₀, hu₀, hueq⟩ := sideCount_run hu ht
  obtain ⟨p₀, hp₀, hpeq⟩ := sideCount_run hp ht
  have hothers : w ≠ .pop → (∃ t, s.status t = .woken .pop) →
      ∃ t', Function.update s.status t .idle t' = .woken .pop := by
    rintro hw ⟨t', ht'⟩
    have hne : t' ≠ t := by
      rintro rfl
      rw [ht] at ht'
      exact hw (Status.woken.inj ht')
    exact ⟨t', by rwa [Function.update_of_ne hne]⟩
  refine ⟨u₀, p₀, hu₀, hp₀, ?_⟩
  cases w with
  | push e =>
    obtain rfl : p = p₀ := hpeq
    obtain rfl : u = (u₀.1, u₀.2 + 1) := hueq
    exact resume_push_keeps (hfine.mono (hothers (by simp)))
  | pop =>
    obtain rfl : u = u₀ := hueq
    obtain rfl : p = (p₀.1, p₀.2 + 1) := hpeq
    exact resume_pop_keeps (hfine.mono fun _ => trivial)
  | popTimed timedOut =>
    obtain rfl : u = u₀ := hueq
    obtain rfl : p = (p₀.1, p₀.2 + 1) := hpeq
    refine resume_popTimed_keeps (hfine.mono (hothers (by simp))) fun hpush hpop hempties => ?_
    exact (hcalm hpush hpop hempties).imp_right (hothers (by simp))

/-- A sleeping thread wakes up. -/
theorem wake_awake {s : Sys τ E} {t : τ} {w w' : Blocked E} (h : Awake s) (ht : s.status t = .asleep w)
    (hw : w'.onPush = w.onPush) : Awake ⟨s.q, Function.update s.status t (.woken w')⟩ := by
  obtain ⟨u, p, hu, hp, hfine⟩ := h
  have hwake : ∀ push c, SideCount s.status push c → ∃ c',
      SideCount (Function.update s.status t (.woken w')) push c' ∧ c'.1 + c'.2 = c.1 + c.2 ∧
        c'.1 ≤ c.1 ∧ c.2 ≤ c'.2 := by
    intro push c hc
    by_cases hpush : w.onPush = push
    · have hasleep : (s.status t).asleepOn push := by simpa [ht, Status.asleepOn] using hpush
      obtain ⟨n, hn⟩ : ∃ n, c.1 = n + 1 := ⟨c.1 - 1, (Nat.sub_add_cancel (hc.1.pos hasleep)).symm⟩
      have htally := hc.1
      rw [hn] at htally
      refine ⟨(n, c.2 + 1), ⟨htally.lose hasleep (by simp [Status.asleepOn]), hc.2.gain ?_ ?_⟩, ?_⟩
      · simp [ht, Status.wokenOn]
      · exact hw.trans hpush
      · dsimp only
        omega
    · refine ⟨c, ⟨hc.1.keep ?_, hc.2.keep ?_⟩, rfl, Nat.le_refl _, Nat.le_refl _⟩
      · simp [ht, Status.asleepOn, hpush]
      · simp [ht, Status.wokenOn, hw, hpush]
  obtain ⟨u', hu', husum, hufst, husnd⟩ := hwake _ _ hu
  obtain ⟨p', hp', hpsum, hpfst, hpsnd⟩ := hwake _ _ hp
  have hnPush := hfine.nPush
  have hnPop := hfine.nPop
  refine ⟨u', p', hu', hp', by dsimp only; omega, by dsimp only; omega, fun hpos => ?_, fun hpos => ?_⟩
  · obtain ⟨hon, hroom⟩ := hfine.push (by omega)
    exact ⟨hon, by dsimp only; omega⟩
  · rcases hfine.pop (by omega) with ⟨hon, hle⟩ | ⟨hoff, t', ht'⟩
    · exact Or.inl ⟨hon, by dsimp only; omega⟩
    · have hne : t' ≠ t := by
        rintro rfl
        simp [ht] at ht'
      refine Or.inr ⟨hoff, t', ?_⟩
      dsimp only
      rwa [Function.update_of_ne hne]

theorem step_awake {s s' : Sys τ E} {a : Label τ E} (h : Awake s) (hstep : Step s a s')
    (hcare : ¬Forgets s a) : Awake s' := by
  have hawake := h
  obtain ⟨u, p, hu, hp, hfine⟩ := h
  have hcalm : s.q.enablePush = false → s.q.enablePop = true → a.Empties s.q →
      p.1 = 0 ∨ ∃ t, s.status t = .woken .pop := by
    intro hpush hpop hempties
    by_cases hb : ∃ t, s.status t = .woken .pop
    · exact Or.inr hb
    · refine Or.inl (Nat.eq_zero_of_not_pos fun hpos => hcare ?_)
      exact ⟨hpush, hpop, hempties, hp.1.pos_iff.mp hpos, fun t ht => hb ⟨t, ht⟩⟩
  cases hstep with
  | enterSleep hidle hout =>
    exact (awake_of_keeps hidle hu hp (enter_keeps hfine hcalm)).1 _ _ hout
  | enterLeave hidle hout hd =>
    exact (awake_of_keeps hidle hu hp (enter_keeps hfine hcalm)).2 _ _ _ _ hout hd
  | resumeSleep hwoken hout =>
    obtain ⟨u₀, p₀, hu₀, hp₀, hkeeps⟩ := resume_awake hu hp hfine hwoken hcalm
    have hsleep := (awake_of_keeps (Function.update_self _ _ _) hu₀ hp₀ hkeeps).1 _ _ hout
    rwa [Function.update_idem] at hsleep
  | resumeLeave hwoken hout hd =>
    obtain ⟨u₀, p₀, hu₀, hp₀, hkeeps⟩ := resume_awake hu hp hfine hwoken hcalm
    exact (awake_of_keeps (Function.update_self _ _ _) hu₀ hp₀ hkeeps).2 _ _ _ _ hout hd
  | spurious hasleep => exact wake_awake hawake hasleep rfl
  | timeout hasleep => exact wake_awake hawake hasleep rfl

omit [DecidableEq τ] in
theorem fresh_awake {cap : Nat} {s : Sys τ E} (h : fresh cap s) : Awake s := by
  obtain ⟨hq, hidle⟩ := h
  have hnone (push : Bool) : SideCount s.status push (0, 0) :=
    ⟨Tally.zero fun t => by simp [hidle t, Status.asleepOn],
      Tally.zero fun t => by simp [hidle t, Status.wokenOn]⟩
  refine ⟨(0, 0), (0, 0), hnone true, hnone false, ?_⟩
  rw [hq]
  exact ⟨rfl, rfl, fun hpos => absurd hpos (Nat.lt_irrefl 0), fun hpos => absurd hpos (Nat.lt_irrefl 0)⟩

/-- The queue, as long as no step forgets the threads that sleep in a pop. -/
def attentive (cap : Nat) : Machine (Sys τ E) (Label τ E) where
  init := fresh cap
  step s a s' := Step s a s' ∧ ¬Forgets s a

theorem attentive_run {cap : Nat} {s s' : Sys τ E} {as : List (Label τ E)}
    (h : (attentive cap).Run s as s') : (system (fresh cap)).Run s as s' := by
  refine h.mono fun s a t hstep => ?_
  obtain ⟨hstep, -⟩ := hstep
  exact hstep

theorem attentive_awake {cap : Nat} {s : Sys τ E} (h : (attentive cap).Reachable s) : Awake s := by
  refine h.invariant Awake (fun s hs => fresh_awake hs) fun s a t hs hstep => ?_
  obtain ⟨hstep, hcare⟩ := hstep
  exact step_awake hs hstep hcare

/-- Any number of threads, any calls, any interleaving: no wake-up is lost. -/
theorem no_lost_wakeup {cap : Nat} {s : Sys τ E} (h : (attentive cap).Reachable s) :
    ¬LostWakeup s := (attentive_awake h).not_lost

/-- A reader sleeps on the empty queue. -/
theorem no_lost_wakeup_reader : ∃ s : Sys Bool Nat,
    (attentive 1).Reachable s ∧ s.status false = .asleep .pop ∧ ¬LostWakeup s := by
  have hstart : (attentive 1).Reachable (⟨BQueue.init 1, fun _ => .idle⟩ : Sys Bool Nat) :=
    .init ⟨rfl, fun _ => rfl⟩
  have hsleep := hstart.step (a := .enter false .pop none)
    ⟨@Step.enterSleep _ _ _ _ false .pop _ _ rfl rfl, fun hforgets => by
      obtain ⟨hoff, -⟩ := hforgets
      cases hoff⟩
  exact ⟨_, hsleep, rfl, no_lost_wakeup hsleep⟩

/-! ## A wake-up that is lost

A timed pop and a pop sleep; the timed one is woken for an element, and takes the last one
of a queue that has been delayed-disabled meanwhile: the other sleeps on. -/

def twoReaders : Fin 3 → Status Nat :=
  Function.update (Function.update (fun _ => .idle) 0 (.asleep (.popTimed false))) 1 (.asleep .pop)

def twoReadersWoken : Fin 3 → Status Nat :=
  wakeAll true (Function.update twoReaders 0 (.woken (.popTimed false)))

theorem forgetful_run : (system (fresh 1)).Run (⟨BQueue.init 1, fun _ => .idle⟩ : Sys (Fin 3) Nat)
    ([.enter 0 .popTimed none, .enter 1 .pop none, .enter 2 (.push 7) (some (.pushed true))] ++
      .enter 2 .delayedDisable (some .done) ::
        [.resume 0 (.popTimed false) (some (.poppedResult .success (some 7)))])
    ⟨⟨false, false, [], 0, 1, 1⟩, Function.update twoReadersWoken 0 .idle⟩ := by
  have htimed : Step (⟨BQueue.init 1, fun _ => .idle⟩ : Sys (Fin 3) Nat) (.enter 0 .popTimed none)
      ⟨⟨true, true, [], 0, 1, 1⟩, Function.update (fun _ => .idle) 0 (.asleep (.popTimed false))⟩ :=
    @Step.enterSleep _ _ _ _ 0 .popTimed _ _ rfl rfl
  have hpop : Step (⟨⟨true, true, [], 0, 1, 1⟩, Function.update (fun _ => .idle) 0
      (.asleep (.popTimed false))⟩ : Sys (Fin 3) Nat) (.enter 1 .pop none)
      ⟨⟨true, true, [], 0, 2, 1⟩, twoReaders⟩ :=
    @Step.enterSleep _ _ _ _ 1 .pop _ _ rfl rfl
  have hpush : Step (⟨⟨true, true, [], 0, 2, 1⟩, twoReaders⟩ : Sys (Fin 3) Nat)
      (.enter 2 (.push 7) (some (.pushed true)))
      ⟨⟨true, true, [7], 0, 2, 1⟩, Function.update twoReaders 0 (.woken (.popTimed false))⟩ :=
    @Step.enterLeave _ _ _ _ 2 (.push 7) _ _ _ _ rfl rfl
      (.signalPop (.inl ⟨0, .popTimed false, rfl, rfl, rfl⟩) (.nil _))
  have hdisable : Step (⟨⟨true, true, [7], 0, 2, 1⟩,
      Function.update twoReaders 0 (.woken (.popTimed false))⟩ : Sys (Fin 3) Nat)
      (.enter 2 .delayedDisable (some .done)) ⟨⟨false, true, [7], 0, 2, 1⟩, twoReadersWoken⟩ :=
    @Step.enterLeave _ _ _ _ 2 .delayedDisable _ _ _ _ rfl rfl (.broadcastPush (.nil _))
  have htake : Step (⟨⟨false, true, [7], 0, 2, 1⟩, twoReadersWoken⟩ : Sys (Fin 3) Nat)
      (.resume 0 (.popTimed false) (some (.poppedResult .success (some 7))))
      ⟨⟨false, false, [], 0, 1, 1⟩, Function.update twoReadersWoken 0 .idle⟩ :=
    @Step.resumeLeave _ _ _ _ 0 (.popTimed false) _ _ _ _ rfl rfl (.nil _)
  exact (((((Machine.Run.refl _).snoc htimed).snoc hpop).snoc hpush).snoc hdisable).snoc htake

theorem forgetful_asleep : twoReadersWoken 1 = .asleep .pop ∧
    ∀ t, ¬(Function.update twoReadersWoken 0 .idle t).wokenOn false := by
  refine ⟨rfl, fun t => ?_⟩
  match t with
  | 0 => exact id
  | 1 => exact id
  | 2 => exact id

theorem timed_pop_loses_wakeup :
    ∃ s : Sys (Fin 3) Nat, (system (fresh 1)).Reachable s ∧ LostWakeup s :=
  ⟨_, forgetful_run.reachable ⟨rfl, fun _ => rfl⟩, false, ⟨1, rfl⟩, Or.inl rfl, forgetful_asleep.2⟩

end Jive5ab.Queue
