import Jive5ab.Chain.Runs

/-! # What the steps of a chain leave alone

The calls, the threads and `run` each change a part of the state only. What the rest of a proof
needs of a step is said here once, with the flags and with who has joined which thread. -/
namespace Jive5ab.Chain

/-- A thread that was created for this step in this run. -/
def Thread.Of (r i : Nat) (th : Thread) : Prop := th.stage ≠ .unborn ∧ th.run = r ∧ th.step = i

/-! ## The flags -/

def Work.starting : Work → Bool
  | .test _ _ | .create _ _ | .loopExit _ => true
  | _ => false

def State.starting (s : State) : Bool := s.holder.any Work.starting

structure Flags (s : State) : Prop where
  one : s.joiners.length ≤ 1
  joining : s.joining = true ↔ s.joiners ≠ []
  joiners : s.joiners ≠ [] → s.running = true
  starting : s.starting = true → s.running = false
  deleting : ∀ left o, s.holder = some (.deleting left o) → s.running = false
  disabling : ∀ i o, s.holder = some (.disabling i o) → s.running = true

theorem Flags.frame {s s' : State} (h : Flags s) (hrunning : s'.running = s.running)
    (hjoining : s'.joining = s.joining) (hjoiners : s'.joiners = s.joiners)
    (hholder : s'.holder = s.holder) : Flags s' := by
  obtain ⟨h1, h2, h3, h4, h5, h6⟩ := h
  constructor
  · rwa [hjoiners]
  · rwa [hjoining, hjoiners]
  · rwa [hjoiners, hrunning]
  · rwa [State.starting, hholder, hrunning]
  · rwa [hholder, hrunning]
  · rwa [hholder, hrunning]

theorem Flags.run {cfg : Config} {s s' : State} {a : Label} (h : Flags s)
    (hstep : RunStep cfg s a s') : Flags s' := by
  obtain ⟨h1, h2, h3, h4, h5, h6⟩ := h
  cases hstep <;> constructor <;> simp_all [State.starting, Work.starting, State.finish]

/-- There is only one to join. -/
theorem Flags.alone {s : State} (h : Flags s) {j : List Tid × Origin}
    {before after : List (List Tid × Origin)} (hj : s.joiners = before ++ j :: after) :
    before = [] ∧ after = [] := by
  have hlen := h.one
  rw [hj, List.length_append, List.length_cons] at hlen
  exact ⟨List.length_eq_zero_iff.mp (by omega), List.length_eq_zero_iff.mp (by omega)⟩

theorem Flags.call {cfg : Config} {s s' : State} (h : Flags s) (hstep : CallStep cfg s s') :
    Flags s' := by
  cases hstep with
  | joined hj hholder =>
    obtain ⟨rfl, rfl⟩ := h.alone hj
    constructor <;> simp [State.starting, Work.starting]
  | _ =>
    obtain ⟨h1, h2, h3, h4, h5, h6⟩ := h
    constructor <;> simp_all [State.starting, Work.starting, State.finish]

/-- `run` or a failed start holds the mutex: no thread is past it. -/
def Work.holding : Work → Bool
  | .disabling _ (.run _) => true
  | w => w.starting

def State.holding (s : State) : Bool := s.holder.any Work.holding

/-! ## What the steps of the calls and of the threads leave alone -/

theorem delayedDisableOutput_enabled {cfg : Config} {queue : Nat → QMode} {step i : Nat}
    (h : delayedDisableOutput cfg queue step i = .enabled) : queue i = .enabled := by
  unfold delayedDisableOutput at h
  split at h
  · rw [Function.update_apply] at h
    split at h
    · rename_i hi
      cases hq : queue step <;> simp_all [QMode.delayedDisable]
    · exact h
  · exact h

theorem delayedDisableOutput_disabled {cfg : Config} {queue : Nat → QMode} {i : Nat}
    (h : queue i = .disabled) (step : Nat) : delayedDisableOutput cfg queue step i = .disabled := by
  unfold delayedDisableOutput
  split
  · rw [Function.update_apply]
    split
    · rename_i hi
      rw [← hi, h]
      rfl
    · exact h
  · exact h

theorem disableInput_apply (queue : Nat → QMode) (step i : Nat) :
    disableInput queue step i = if step = i + 1 then .disabled else queue i := by
  cases step with
  | zero => rfl
  | succ j =>
    rw [disableInput, Function.update_apply]
    simp [eq_comm]

theorem disableInput_enabled {queue : Nat → QMode} {step i : Nat}
    (h : disableInput queue step i = .enabled) : queue i = .enabled := by
  rw [disableInput_apply] at h
  split at h
  · cases h
  · exact h

theorem disableInput_disabled {queue : Nat → QMode} {i : Nat} (h : queue i = .disabled)
    (step : Nat) : disableInput queue step i = .disabled := by
  rw [disableInput_apply]
  split
  · rfl
  · exact h

structure Calls (s s' : State) : Prop where
  starting : s.starting = false
  starting' : s'.starting = false
  holding : s'.holding = true → s.holding = true
  nthreads : s'.nthreads = s.nthreads
  rsaNthread : s'.rsaNthread = s.rsaNthread
  tids : s'.tids = s.tids
  runNr : s'.runNr = s.runNr
  finals : s'.finals = s.finals
  finalized : s'.finalized = s.finalized
  running : s'.running = true → s.running = true
  stage : ∀ t, (s'.thread t).stage = (s.thread t).stage
  run : ∀ t, (s'.thread t).run = (s.thread t).run
  step : ∀ t, (s'.thread t).step = (s.thread t).step
  joins : ∀ t, (s.thread t).joins ≤ (s'.thread t).joins
  results : ∀ r, (r, true) ∈ s'.results → (r, true) ∈ s.results
  enabled : ∀ i, s'.queue i = .enabled → s.queue i = .enabled
  disabled : ∀ i, s.queue i = .disabled → s'.queue i = .disabled

theorem State.starting_of {s : State} {w : Option Work} (h : s.holder = w) :
    s.starting = w.any Work.starting := by rw [State.starting, h]

theorem State.holding_of {s : State} {w : Option Work} (h : s.holder = w) :
    s.holding = w.any Work.holding := by rw [State.holding, h]

theorem Calls.of {s s' : State} (hstart : s.starting = false) (hstart' : s'.starting = false)
    (hholding : s'.holding = true → s.holding = true)
    (hsame : s'.nthreads = s.nthreads ∧ s'.rsaNthread = s.rsaNthread ∧ s'.tids = s.tids ∧
      s'.runNr = s.runNr ∧ s'.finals = s.finals ∧ s'.finalized = s.finalized)
    (hthread : s'.thread = s.thread) (hrunning : s'.running = true → s.running = true)
    (hresults : ∀ r, (r, true) ∈ s'.results → (r, true) ∈ s.results)
    (henabled : ∀ i, s'.queue i = .enabled → s.queue i = .enabled)
    (hdisabled : ∀ i, s.queue i = .disabled → s'.queue i = .disabled) : Calls s s' := by
  obtain ⟨h1, h2, h3, h4, h5, h6⟩ := hsame
  refine ⟨hstart, hstart', hholding, h1, h2, h3, h4, h5, h6, hrunning, ?_, ?_, ?_, ?_, hresults,
    henabled, hdisabled⟩
  all_goals
    rw [hthread]
    intro t
  · rfl
  · rfl
  · rfl
  · exact Nat.le_refl _

theorem finish_calls {s s₀ : State} (o : Origin) (h : Calls s s₀) (hrunning : s₀.running = false) :
    Calls s (s₀.finish o) := by
  refine { h with starting' := rfl, holding := nofun, results := ?_ }
  intro r hr
  refine h.results r ?_
  cases o with
  | run r' =>
    have hr : (r, true) ∈ s₀.results ++ [(r', s₀.running)] := hr
    simpa [hrunning] using hr
  | call => exact hr

theorem CallStep.calls {cfg : Config} {s s' : State} (h : Flags s) (hstep : CallStep cfg s s') :
    Calls s s' := by
  have hsame (s : State) : s.nthreads = s.nthreads ∧ s.rsaNthread = s.rsaNthread ∧
    s.tids = s.tids ∧ s.runNr = s.runNr ∧ s.finals = s.finals ∧ s.finalized = s.finalized :=
    ⟨rfl, rfl, rfl, rfl, rfl, rfl⟩
  cases hstep with
  | stop hh =>
    exact .of (State.starting_of hh) rfl nofun (hsame s) rfl id (fun _ => id) (fun _ => id)
      (fun _ => id)
  | gentleStop hh =>
    exact .of (State.starting_of hh) rfl nofun (hsame s) rfl id (fun _ => id)
      (fun _ => delayedDisableOutput_enabled) (fun _ hi => delayedDisableOutput_disabled hi 0)
  | delayedDisable hh =>
    exact .of (State.starting_of hh) (State.starting_of hh) id (hsame s) rfl id (fun _ => id)
      (fun _ => delayedDisableOutput_enabled) (fun _ hi => delayedDisableOutput_disabled hi 0)
  | wait hh =>
    exact .of (State.starting_of hh) rfl nofun (hsame s) rfl id (fun _ => id) (fun _ => id)
      (fun _ => id)
  | @disable i o hh hi =>
    have hholding : Work.holding (.disabling (i + 1) o) = Work.holding (.disabling i o) := by
      cases o <;> rfl
    refine .of (State.starting_of hh) rfl ?_ (hsame s) rfl id (fun _ => id)
      (fun j => @disableInput_enabled s.queue (i + 1) j)
      (fun j hj => disableInput_disabled hj (i + 1))
    rw [State.holding_of hh, State.holding_of rfl]
    exact hholding.symm.trans
  | disabled hh =>
    exact .of (State.starting_of hh) rfl nofun (hsame s) rfl id (fun _ => id) (fun _ => id)
      (fun _ => id)
  | @notRunning o hh hrunning =>
    exact finish_calls o (.of (State.starting_of hh) (State.starting_of hh) id (hsame s) rfl id
      (fun _ => id) (fun _ => id) (fun _ => id)) hrunning
  | condWait hh =>
    exact .of (State.starting_of hh) rfl nofun (hsame s) rfl id (fun _ => id) (fun _ => id)
      (fun _ => id)
  | startJoin hh =>
    exact .of (State.starting_of hh) rfl nofun (hsame s) rfl id (fun _ => id) (fun _ => id)
      (fun _ => id)
  | @join t todo o before after hj ht =>
    have hidle : s.starting = false := by
      rw [Bool.eq_false_iff]
      intro hstart
      have hrunning := h.joiners (by simp [hj])
      rw [h.starting hstart] at hrunning
      cases hrunning
    have hsplit (u : Tid) : u = t ∨ u ≠ t := eq_or_ne u t
    refine ⟨hidle, hidle, id, rfl, rfl, rfl, rfl, rfl, rfl, id, ?_, ?_, ?_, ?_, fun _ => id,
      fun _ => id, fun _ => id⟩
    all_goals
      intro u
      obtain rfl | hu := hsplit u
      · simp
      · simp [hu]
  | joined hj hh =>
    exact .of (State.starting_of hh) rfl nofun (hsame s) rfl nofun (fun _ => id) (fun _ => id)
      (fun _ => id)
  | delete hh =>
    exact .of (State.starting_of hh) rfl nofun (hsame s) rfl id (fun _ => id) (fun _ => id)
      (fun _ => id)
  | @cleaned o hh =>
    exact finish_calls o (.of (State.starting_of hh) (State.starting_of hh) id (hsame s) rfl id
      (fun _ => id) (fun _ => id) (fun _ => id)) (h.deleting _ _ hh)
  | @wake o before after hw hh hrunning =>
    have hcalls : Calls s { s with waiters := before ++ after } :=
      .of (State.starting_of hh) (State.starting_of hh) id (hsame s) rfl id (fun _ => id)
        (fun _ => id) (fun _ => id)
    exact finish_calls o hcalls hrunning

structure Works (t : Tid) (s s' : State) : Prop where
  running : s'.running = s.running
  joining : s'.joining = s.joining
  joiners : s'.joiners = s.joiners
  holder : s'.holder = s.holder
  tids : s'.tids = s.tids
  userdata : s'.userdata = s.userdata
  runNr : s'.runNr = s.runNr
  results : s'.results = s.results
  deleted : s'.deleted = s.deleted
  others : ∀ u, u ≠ t → s'.thread u = s.thread u
  self : s'.thread t = { s.thread t with stage := (s'.thread t).stage }
  alive : (s.thread t).stage ≠ .unborn ∧ (s.thread t).stage ≠ .ended
  born : (s'.thread t).stage ≠ .unborn
  enabled : ∀ i, s'.queue i = .enabled → s.queue i = .enabled
  disabled : ∀ i, s.queue i = .disabled → s'.queue i = .disabled

theorem Works.of {t : Tid} {s s' : State} (stage : Stage)
    (hkept : s'.running = s.running ∧ s'.joining = s.joining ∧ s'.joiners = s.joiners ∧
      s'.holder = s.holder ∧ s'.tids = s.tids ∧ s'.userdata = s.userdata ∧ s'.runNr = s.runNr ∧
      s'.results = s.results ∧ s'.deleted = s.deleted)
    (hthread : s'.thread = (s.setStage t stage).thread) (hborn : stage ≠ .unborn)
    (halive : (s.thread t).stage ≠ .unborn ∧ (s.thread t).stage ≠ .ended)
    (henabled : ∀ i, s'.queue i = .enabled → s.queue i = .enabled)
    (hdisabled : ∀ i, s.queue i = .disabled → s'.queue i = .disabled) : Works t s s' := by
  obtain ⟨h1, h2, h3, h4, h5, h6, h7, h8, h9⟩ := hkept
  have hself : s'.thread t = { s.thread t with stage := stage } := by
    rw [hthread, State.setStage_self]
  refine ⟨h1, h2, h3, h4, h5, h6, h7, h8, h9, ?_, ?_, halive, ?_, henabled, hdisabled⟩
  · intro u hu
    rw [hthread, State.setStage_of_ne s hu]
  · rw [hself]
  · rw [hself]
    exact hborn

theorem ThreadStep.works {cfg : Config} {t : Tid} {s s' : State} (hstep : ThreadStep cfg t s s') :
    Works t s s' := by
  have hkept (s : State) : s.running = s.running ∧ s.joining = s.joining ∧ s.joiners = s.joiners ∧
      s.holder = s.holder ∧ s.tids = s.tids ∧ s.userdata = s.userdata ∧ s.runNr = s.runNr ∧
      s.results = s.results ∧ s.deleted = s.deleted := ⟨rfl, rfl, rfl, rfl, rfl, rfl, rfl, rfl, rfl⟩
  have halive {stage : Stage} (h : (s.thread t).stage = stage)
      (hstage : stage ≠ .unborn ∧ stage ≠ .ended) :
      (s.thread t).stage ≠ .unborn ∧ (s.thread t).stage ≠ .ended := by rwa [h]
  cases hstep with
  | functionReturns h =>
    exact .of _ (hkept s) rfl nofun (halive h ⟨nofun, nofun⟩) (fun _ => id) (fun _ => id)
  | count h =>
    exact .of _ (hkept s) rfl nofun (halive h ⟨nofun, nofun⟩) (fun _ => id) (fun _ => id)
  | disableOutput h =>
    exact .of _ (hkept s) rfl nofun (halive h ⟨nofun, nofun⟩)
      (fun _ => delayedDisableOutput_enabled) (fun _ hi => delayedDisableOutput_disabled hi _)
  | disableInput h =>
    exact .of _ (hkept s) rfl nofun (halive h ⟨nofun, nofun⟩)
      (fun _ => disableInput_enabled) (fun _ hi => disableInput_disabled hi _)
  | notLast h =>
    exact .of _ (hkept s) rfl nofun (halive h ⟨nofun, nofun⟩) (fun _ => id) (fun _ => id)
  | leave h =>
    exact .of _ (hkept s) rfl nofun (halive h ⟨nofun, nofun⟩) (fun _ => id) (fun _ => id)
  | doFinals h =>
    exact .of _ (hkept s) rfl nofun (halive h ⟨nofun, nofun⟩) (fun _ => id) (fun _ => id)
  | noFinals h =>
    exact .of _ (hkept s) rfl nofun (halive h ⟨nofun, nofun⟩) (fun _ => id) (fun _ => id)
  | finalized h =>
    exact .of _ (hkept s) rfl nofun (halive h ⟨nofun, nofun⟩) (fun _ => id) (fun _ => id)
  | notLastOfChain h =>
    exact .of _ (hkept s) rfl nofun (halive h ⟨nofun, nofun⟩) (fun _ => id) (fun _ => id)

theorem Works.step {t : Tid} {s s' : State} (h : Works t s s') (u : Tid) :
    (s'.thread u).step = (s.thread u).step := by
  obtain rfl | hu := eq_or_ne u t
  · rw [h.self]
  · rw [h.others u hu]

theorem Works.run {t : Tid} {s s' : State} (h : Works t s s') (u : Tid) :
    (s'.thread u).run = (s.thread u).run := by
  obtain rfl | hu := eq_or_ne u t
  · rw [h.self]
  · rw [h.others u hu]

theorem Works.joins {t : Tid} {s s' : State} (h : Works t s s') (u : Tid) :
    (s'.thread u).joins = (s.thread u).joins := by
  obtain rfl | hu := eq_or_ne u t
  · rw [h.self]
  · rw [h.others u hu]

theorem Works.unborn {t : Tid} {s s' : State} (h : Works t s s') (u : Tid) :
    (s'.thread u).stage = .unborn ↔ (s.thread u).stage = .unborn := by
  obtain rfl | hu := eq_or_ne u t
  · exact ⟨fun hu => absurd hu h.born, fun hu => absurd hu h.alive.1⟩
  · rw [h.others u hu]

theorem Works.of_iff {t : Tid} {s s' : State} (h : Works t s s') (u : Tid) (r i : Nat) :
    (s'.thread u).Of r i ↔ (s.thread u).Of r i := by
  rw [Thread.Of, Thread.Of, h.run, h.step, ne_eq, ne_eq, h.unborn]

theorem Calls.of_iff {s s' : State} (h : Calls s s') (u : Tid) (r i : Nat) :
    (s'.thread u).Of r i ↔ (s.thread u).Of r i := by
  rw [Thread.Of, Thread.Of, h.run, h.step, h.stage]

/-! ## The threads and who has joined them -/

/-- The thread is over, and was joined. -/
def Thread.Done (th : Thread) : Prop := th.stage = .ended ∧ 1 ≤ th.joins

/-- The steps that are still to be started. -/
def Work.toGo : Work → Nat
  | .test left _ | .create left _ | .loopExit left => left
  | _ => 0

structure Threads (cfg : Config) (s : State) : Prop where
  toGo_le : ∀ w ∈ s.holder, w.toGo ≤ cfg.size
  step_lt : ∀ t, (s.thread t).stage ≠ .unborn → (s.thread t).step < cfg.size
  run_le : ∀ t, (s.thread t).stage ≠ .unborn → (s.thread t).run ≤ s.runNr
  listed : ∀ t, (s.thread t).stage ≠ .unborn → t ∈ s.tids (s.thread t).step
  old : ∀ t, (s.thread t).stage ≠ .unborn → (s.thread t).run < s.runNr → (s.thread t).Done
  quiet : s.running = false → s.starting = false → ∀ t, (s.thread t).stage ≠ .unborn →
    (s.thread t).Done
  todo : ∀ j ∈ s.joiners, ∀ t, (s.thread t).stage ≠ .unborn → t ∈ j.1 ∨ (s.thread t).Done

theorem Threads.work {cfg : Config} {t : Tid} {s s' : State} (h : Threads cfg s)
    (hw : Works t s s') : Threads cfg s' := by
  have hborn (u : Tid) (hu : (s'.thread u).stage ≠ .unborn) : (s.thread u).stage ≠ .unborn :=
    mt (hw.unborn u).mpr hu
  have hdone (u : Tid) (hu : (s.thread u).Done) : (s'.thread u).Done := by
    have hne : u ≠ t := by
      rintro rfl
      exact hw.alive.2 hu.1
    rwa [hw.others u hne]
  constructor
  · rw [hw.holder]
    exact h.toGo_le
  · intro u hu
    rw [hw.step]
    exact h.step_lt u (hborn u hu)
  · intro u hu
    rw [hw.run, hw.runNr]
    exact h.run_le u (hborn u hu)
  · intro u hu
    rw [hw.step, hw.tids]
    exact h.listed u (hborn u hu)
  · intro u hu
    rw [hw.run, hw.runNr]
    exact fun hlt => hdone u (h.old u (hborn u hu) hlt)
  · intro hrunning hstart u hu
    rw [State.starting, hw.holder] at hstart
    exact hdone u (h.quiet (hw.running ▸ hrunning) hstart u (hborn u hu))
  · intro j hj u hu
    rw [hw.joiners] at hj
    exact (h.todo j hj u (hborn u hu)).imp id (hdone u)

/-- The chain stops when someone has joined all. -/
theorem CallStep.stops {cfg : Config} {s s' : State} (hstep : CallStep cfg s s')
    (hrunning : s.running = true) (hstop : s'.running = false) : ∃ o, ([], o) ∈ s.joiners := by
  cases hstep with
  | @joined o before after hj => exact ⟨o, by rw [hj]; simp⟩
  | _ => exact absurd (hrunning.symm.trans hstop) nofun

theorem CallStep.joiners {cfg : Config} {s s' : State} (hstep : CallStep cfg s s')
    {j : List Tid × Origin} (hj : j ∈ s'.joiners) : j ∈ s.joiners ∨
      j.1 = (List.range cfg.size).flatMap s.tids ∨
      ∃ t, (t :: j.1, j.2) ∈ s.joiners ∧ (s'.thread t).Done := by
  cases hstep with
  | startJoin =>
    obtain rfl | hj := List.mem_cons.mp hj
    · exact .inr (.inl rfl)
    · exact .inl hj
  | @join t todo o before after hjoin ht =>
    rw [hjoin]
    have hj : j ∈ before ++ (todo, o) :: after := hj
    obtain hj | hj := List.mem_append.mp hj
    · exact .inl (List.mem_append_left _ hj)
    · obtain rfl | hj := List.mem_cons.mp hj
      · refine .inr (.inr ⟨t, by simp, ?_⟩)
        simp [Thread.Done, ht]
      · exact .inl (List.mem_append_right _ (List.mem_cons_of_mem _ hj))
  | @joined o before after hjoined =>
    rw [hjoined]
    have hj : j ∈ before ++ after := hj
    obtain hj | hj := List.mem_append.mp hj
    · exact .inl (List.mem_append_left _ hj)
    · exact .inl (List.mem_append_right _ (List.mem_cons_of_mem _ hj))
  | _ => exact .inl hj

theorem Threads.call {cfg : Config} {s s' : State} (hf : Flags s) (h : Threads cfg s)
    (hstep : CallStep cfg s s') : Threads cfg s' := by
  have hc := hstep.calls hf
  have hborn (u : Tid) (hu : (s'.thread u).stage ≠ .unborn) : (s.thread u).stage ≠ .unborn := by
    rwa [← hc.stage]
  have hdone (u : Tid) (hu : (s.thread u).Done) : (s'.thread u).Done := by
    refine ⟨?_, Nat.le_trans hu.2 (hc.joins u)⟩
    rw [hc.stage]
    exact hu.1
  constructor
  · intro w hw
    have hstart := hc.starting'
    rw [State.starting_of hw] at hstart
    cases w with
    | test | create | loopExit => cases hstart
    | _ => exact Nat.zero_le _
  · intro u hu
    rw [hc.step]
    exact h.step_lt u (hborn u hu)
  · intro u hu
    rw [hc.run, hc.runNr]
    exact h.run_le u (hborn u hu)
  · intro u hu
    rw [hc.step, hc.tids]
    exact h.listed u (hborn u hu)
  · intro u hu
    rw [hc.run, hc.runNr]
    exact fun hlt => hdone u (h.old u (hborn u hu) hlt)
  · intro hstop _ u hu
    cases hrunning : s.running with
    | false => exact hdone u (h.quiet hrunning hc.starting u (hborn u hu))
    | true =>
      obtain ⟨o, ho⟩ := hstep.stops hrunning hstop
      obtain hnil | hu := h.todo _ ho u (hborn u hu)
      · cases hnil
      · exact hdone u hu
  · intro j hj u hu
    obtain hj | hall | ⟨t, hj, ht⟩ := hstep.joiners hj
    · exact (h.todo j hj u (hborn u hu)).imp id (hdone u)
    · rw [hall, List.mem_flatMap]
      exact .inl ⟨_, List.mem_range.mpr (h.step_lt u (hborn u hu)), h.listed u (hborn u hu)⟩
    · obtain hmem | hu := h.todo _ hj u (hborn u hu)
      · obtain rfl | hmem := List.mem_cons.mp hmem
        · exact .inr ht
        · exact .inl hmem
      · exact .inr (hdone u hu)

/-- The steps of `run` that neither open a run nor create a thread. -/
structure Prepares (s s' : State) : Prop where
  starting : s.starting = true
  ready : s'.starting = true ∨ s'.running = true
  nthreads : s'.nthreads = s.nthreads
  tids : s'.tids = s.tids
  thread : s'.thread = s.thread
  joiners : s'.joiners = s.joiners
  runNr : s'.runNr = s.runNr
  finals : s'.finals = s.finals
  deleted : s'.deleted = s.deleted
  finalized : s'.starting = false → s'.finalized = false
  queue : s'.queue = s.queue
  toGo : ∀ w ∈ s'.holder, ∃ v ∈ s.holder, w.toGo ≤ v.toGo

inductive RunCase (cfg : Config) (s s' : State) : Prop
  | enter : s.holder = none → s.running = false →
      s' = { s with
        nthreads := 0, queue := fun _ => .enabled, runNr := s.runNr + 1,
        holder := some (.test cfg.size 0) } → RunCase cfg s s'
  | create (left n : Nat) (t : Tid) : s.holder = some (.create (left + 1) (n + 1)) →
      (s.thread t).stage = .unborn →
      s' = { s with
        nthreads := s.nthreads + 1,
        tids := Function.update s.tids left (s.tids left ++ [t]),
        thread := Function.update s.thread t ⟨left, s.runNr, .running, 0⟩,
        holder := some (.create (left + 1) n) } → RunCase cfg s s'
  | prepares : Prepares s s' → RunCase cfg s s'

theorem RunStep.runCase {cfg : Config} {s s' : State} {a : Label} (hstep : RunStep cfg s a s') :
    RunCase cfg s s' := by
  cases hstep with
  | enter hh hrunning => exact .enter hh hrunning rfl
  | create hh ht => exact .create _ _ _ hh ht rfl
  | makeUserdata hh =>
    exact .prepares ⟨State.starting_of hh, .inl rfl, rfl, rfl, rfl, rfl, rfl, rfl, rfl, nofun, rfl,
      fun w hw => ⟨_, hh, by cases hw; exact Nat.le_refl _⟩⟩
  | makerThrows hh =>
    exact .prepares ⟨State.starting_of hh, .inl rfl, rfl, rfl, rfl, rfl, rfl, rfl, rfl, nofun, rfl,
      fun w hw => ⟨_, hh, by cases hw; exact Nat.le_refl _⟩⟩
  | createFails hh =>
    exact .prepares ⟨State.starting_of hh, .inl rfl, rfl, rfl, rfl, rfl, rfl, rfl, rfl, nofun, rfl,
      fun w hw => ⟨_, hh, by cases hw; exact Nat.le_succ _⟩⟩
  | created hh =>
    exact .prepares ⟨State.starting_of hh, .inl rfl, rfl, rfl, rfl, rfl, rfl, rfl, rfl, nofun, rfl,
      fun w hw => ⟨_, hh, by cases hw; exact Nat.le_succ _⟩⟩
  | leaveLoop hh =>
    exact .prepares ⟨State.starting_of hh, .inl rfl, rfl, rfl, rfl, rfl, rfl, rfl, rfl, nofun, rfl,
      fun w hw => ⟨_, hh, by cases hw; exact Nat.le_refl _⟩⟩
  | started hh =>
    exact .prepares ⟨State.starting_of hh, .inr rfl, rfl, rfl, rfl, rfl, rfl, rfl, rfl,
      fun _ => rfl, rfl, nofun⟩
  | stop hh =>
    exact .prepares ⟨State.starting_of hh, .inr rfl, rfl, rfl, rfl, rfl, rfl, rfl, rfl,
      fun _ => rfl, rfl, fun w hw => ⟨_, hh, by cases hw; exact Nat.zero_le _⟩⟩

theorem Threads.run {cfg : Config} {s s' : State} {a : Label} (hf : Flags s) (h : Threads cfg s)
    (hstep : RunStep cfg s a s') : Threads cfg s' := by
  cases hstep.runCase with
  | enter hh hrunning hs' =>
    subst hs'
    have hall := h.quiet hrunning (State.starting_of hh)
    refine ⟨?_, h.step_lt, fun t ht => Nat.le_succ_of_le (h.run_le t ht), h.listed,
      fun t ht _ => hall t ht, nofun, h.todo⟩
    intro w hw
    cases hw
    exact Nat.le_refl _
  | create left n t hh ht hs' =>
    subst hs'
    have hleft : left + 1 ≤ cfg.size := h.toGo_le _ hh
    have hjoiners : s.joiners = [] := by
      by_contra hne
      have hrunning := hf.starting (State.starting_of hh)
      rw [hf.joiners hne] at hrunning
      cases hrunning
    have hall (p : Tid → Thread → Prop) (hnew : p t ⟨left, s.runNr, .running, 0⟩)
        (hold : ∀ u, p u (s.thread u)) :
        ∀ u, p u (Function.update s.thread t ⟨left, s.runNr, .running, 0⟩ u) :=
      (Function.forall_update_iff s.thread p).mpr ⟨hnew, fun u _ => hold u⟩
    constructor
    · intro w hw
      cases hw
      exact hleft
    · exact hall (fun _ th => th.stage ≠ .unborn → th.step < cfg.size) (fun _ => hleft) h.step_lt
    · exact hall (fun _ th => th.stage ≠ .unborn → th.run ≤ s.runNr) (fun _ => Nat.le_refl _) h.run_le
    · refine hall (fun u th => th.stage ≠ .unborn →
        u ∈ Function.update s.tids left (s.tids left ++ [t]) th.step) (fun _ => ?_) fun u hu => ?_
      · rw [Function.update_self]
        simp
      · rw [Function.update_apply]
        split
        · rename_i hstep
          exact List.mem_append_left _ (hstep ▸ h.listed u hu)
        · exact h.listed u hu
    · exact hall (fun _ th => th.stage ≠ .unborn → th.run < s.runNr → th.Done)
        (fun _ hlt => absurd hlt (Nat.lt_irrefl _)) h.old
    · exact fun _ hstart => absurd (hstart.symm.trans (State.starting_of rfl)) nofun
    · rw [hjoiners]
      exact nofun
  | prepares hp =>
    constructor
    · intro w hw
      obtain ⟨v, hv, hle⟩ := hp.toGo w hw
      exact Nat.le_trans hle (h.toGo_le v hv)
    · rw [hp.thread]
      exact h.step_lt
    · rw [hp.thread, hp.runNr]
      exact h.run_le
    · rw [hp.thread, hp.tids]
      exact h.listed
    · rw [hp.thread, hp.runNr]
      exact h.old
    · intro hrunning hstart
      obtain hs | hr := hp.ready
      · exact absurd (hs.symm.trans hstart) nofun
      · exact absurd (hr.symm.trans hrunning) nofun
    · rw [hp.joiners, hp.thread]
      exact h.todo

end Jive5ab.Chain
