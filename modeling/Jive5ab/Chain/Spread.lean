import Jive5ab.Chain.Finals

/-! # The threads of a step

How many threads of each step were created in the current run and how many are not counted yet,
against the counter of the step; and the queues, which the last one of a step disables. -/
namespace Jive5ab.Chain
open Lib

/-- The step still counts the thread. -/
def Stage.uncounted : Stage → Bool
  | .running | .returned => true
  | _ => false

/-- What holds while this work is done, if `c` threads of each step were created and `p` of these
are not counted yet. -/
def Progress (cfg : Config) (s : State) (c p : Nat → Nat) : Work → Prop
  | .test left n => (∀ i < left, c i = 0) ∧ (n ≠ 0 → left ≠ 0) ∧
      (n = 0 → ∀ i, left ≤ i → i < cfg.size → c i = cfg.threadsOf i)
  | .create left n => ∃ i, left = i + 1 ∧ c i + n = cfg.threadsOf i ∧
      p i + cfg.threadsOf i = s.rsaNthread i + c i ∧ (∀ j < i, c j = 0) ∧
      ∀ j, i < j → j < cfg.size → c j = cfg.threadsOf j
  | .loopExit left => left = 0 → ∀ i < cfg.size, c i = cfg.threadsOf i
  | .disabling i _ => ∀ j < i, s.queue j = .disabled
  | _ => True

structure Spread (cfg : Config) (s : State) (c p : Nat → Nat) : Prop where
  created : ∀ i, Tally s.thread (Thread.Of s.runNr i) (c i)
  uncounted : ∀ i, Tally s.thread (fun th => th.Of s.runNr i ∧ th.stage.uncounted = true) (p i)
  le : ∀ i, c i ≤ cfg.threadsOf i
  rsa : ∀ i, 0 < c i → p i + cfg.threadsOf i = s.rsaNthread i + c i
  progress : ∀ w ∈ s.holder, Progress cfg s c p w
  short : ∀ i, c i ≠ 0 → c i ≠ cfg.threadsOf i → s.holding = true ∨
    ∀ j, j + 1 < cfg.size → s.queue j = .disabled
  output : ∀ i, i + 1 < cfg.size → 0 < c i → s.rsaNthread i = 0 → s.queue i = .enabled →
    ∃ t, (s.thread t).Of s.runNr i ∧ (s.thread t).stage = .counted 0
  input : ∀ i, i + 1 < cfg.size → 0 < c (i + 1) → s.rsaNthread (i + 1) = 0 →
    s.queue i ≠ .disabled → ∃ t, (s.thread t).Of s.runNr (i + 1) ∧
      ((s.thread t).stage = .counted 0 ∨ (s.thread t).stage = .outputDisabled)

theorem CallStep.holding {cfg : Config} {s s' : State} (hstep : CallStep cfg s s')
    (hhold : s.holding = true) : s'.holding = true ∨
      s'.queue = s.queue ∧ ∃ i o, s.holder = some (.disabling i o) ∧ ¬ i + 1 < cfg.size := by
  cases hstep with
  | @disable i o hh =>
    rw [State.holding_of hh] at hhold
    left
    cases o with
    | run r => rfl
    | call => cases hhold
  | @disabled i o hh hi => exact .inr ⟨rfl, i, o, hh, hi⟩
  | join => exact .inl hhold
  | stop hh | gentleStop hh | delayedDisable hh | wait hh | notRunning hh | condWait hh
  | startJoin hh | delete hh | cleaned hh =>
    rw [State.holding_of hh] at hhold
    cases hhold
  | joined _ hh | wake _ hh =>
    rw [State.holding_of hh] at hhold
    cases hhold

theorem CallStep.disabling {cfg : Config} {s s' : State} (hstep : CallStep cfg s s') {i : Nat}
    {o : Origin} (hs : ∀ o, s.holder = some (.disabling i o) → ∀ j < i, s.queue j = .disabled)
    (hs' : ∀ k o, i = k + 1 → s.holder = some (.disabling k o) → ∀ j < k, s.queue j = .disabled)
    (h : s'.holder = some (.disabling i o)) : ∀ j < i, s'.queue j = .disabled := by
  intro j hj
  cases hstep with
  | stop =>
    cases h
    cases hj
  | @disable k o' hh =>
    cases h
    have hk := hs' k o rfl hh j
    change disableInput s.queue (k + 1) j = .disabled
    rw [disableInput_apply]
    split
    · rfl
    · exact hk (by omega)
  | delayedDisable hh => exact absurd (hh.symm.trans h) nofun
  | join => exact hs o h j hj
  | _ => cases h

theorem Spread.call {cfg : Config} {s s' : State} {c p : Nat → Nat} (hf : Flags s)
    (h : Spread cfg s c p) (hstep : CallStep cfg s s') : Spread cfg s' c p := by
  have hc := hstep.calls hf
  constructor
  · intro i
    rw [hc.runNr]
    exact (h.created i).congr fun t => hc.of_iff t _ i
  · intro i
    rw [hc.runNr]
    exact (h.uncounted i).congr fun t => by rw [hc.of_iff, hc.stage]
  · exact h.le
  · rw [hc.rsaNthread]
    exact h.rsa
  · intro w hw
    have hstart := hc.starting'
    rw [State.starting_of hw] at hstart
    cases w with
    | test | create | loopExit => cases hstart
    | disabling i o =>
      exact hstep.disabling (fun _ hs => h.progress _ hs) (fun _ _ _ hs => h.progress _ hs) hw
    | joinAndCleanup | deleting => trivial
  · intro i hne hshort
    obtain hhold | hall := h.short i hne hshort
    · obtain hhold' | ⟨hqueue, k, o, hh, hk⟩ := hstep.holding hhold
      · exact .inl hhold'
      · refine .inr fun j hj => ?_
        rw [hqueue]
        exact h.progress _ hh j (by omega)
    · exact .inr fun j hj => hc.disabled j (hall j hj)
  · intro i hi hpos hzero hq
    obtain ⟨t, ht, hstage⟩ := h.output i hi hpos (hc.rsaNthread ▸ hzero) (hc.enabled i hq)
    refine ⟨t, ?_, (hc.stage t).trans hstage⟩
    rw [hc.runNr]
    exact (hc.of_iff t _ i).mpr ht
  · intro i hi hpos hzero hq
    obtain ⟨t, ht, hstage⟩ := h.input i hi hpos (hc.rsaNthread ▸ hzero) (mt (hc.disabled i) hq)
    refine ⟨t, ?_, ?_⟩
    · rw [hc.runNr]
      exact (hc.of_iff t _ _).mpr ht
    · rw [hc.stage]
      exact hstage

theorem Works.holding_eq {t : Tid} {s s' : State} (h : Works t s s') : s'.holding = s.holding := by
  rw [State.holding, State.holding, h.holder]

/-- A step of a thread that is not the count. -/
theorem Spread.still {cfg : Config} {t : Tid} {s s' : State} {c p : Nat → Nat}
    (h : Spread cfg s c p) (hw : Works t s s') (hrsa : s'.rsaNthread = s.rsaNthread)
    (huncounted : (s'.thread t).stage.uncounted = (s.thread t).stage.uncounted)
    (houtput : (s.thread t).stage = .counted 0 → (s.thread t).step + 1 < cfg.size →
      s'.queue (s.thread t).step ≠ .enabled)
    (hinput : (s.thread t).stage = .counted 0 ∨ (s.thread t).stage = .outputDisabled →
      ∀ i, (s.thread t).step = i + 1 → s'.queue i = .disabled ∨
        (s'.thread t).stage = .outputDisabled) : Spread cfg s' c p := by
  constructor
  · intro i
    rw [hw.runNr]
    exact (h.created i).congr fun u => hw.of_iff u _ i
  · intro i
    rw [hw.runNr]
    refine (h.uncounted i).congr fun u => ?_
    rw [hw.of_iff]
    obtain rfl | hu := eq_or_ne u t
    · rw [huncounted]
    · rw [hw.others u hu]
  · exact h.le
  · rw [hrsa]
    exact h.rsa
  · intro w hwork
    rw [hw.holder] at hwork
    have hbefore := h.progress w hwork
    cases w with
    | test | loopExit | joinAndCleanup | deleting => exact hbefore
    | create left n =>
      simp only [Progress, hrsa]
      exact hbefore
    | disabling i o => exact fun j hj => hw.disabled j (hbefore j hj)
  · intro i hne hshort
    rw [hw.holding_eq]
    exact (h.short i hne hshort).imp_right fun hall j hj => hw.disabled j (hall j hj)
  · intro i hi hpos hzero hq
    obtain ⟨u, hu, hstage⟩ := h.output i hi hpos (hrsa ▸ hzero) (hw.enabled i hq)
    have hut : u ≠ t := by
      rintro rfl
      exact houtput hstage (hu.2.2 ▸ hi) (hu.2.2 ▸ hq)
    exact ⟨u, by rwa [hw.of_iff, hw.runNr], by rwa [hw.others u hut]⟩
  · intro i hi hpos hzero hq
    obtain ⟨u, hu, hstage⟩ := h.input i hi hpos (hrsa ▸ hzero) (mt (hw.disabled i) hq)
    refine ⟨u, by rwa [hw.of_iff, hw.runNr], ?_⟩
    obtain rfl | hut := eq_or_ne u t
    · obtain hdisabled | hnew := hinput hstage i hu.2.2
      · exact absurd hdisabled hq
      · exact .inr hnew
    · rwa [hw.others u hut]

theorem delayedDisableOutput_self {cfg : Config} {queue : Nat → QMode} {step : Nat}
    (h : step + 1 < cfg.size) : delayedDisableOutput cfg queue step step ≠ .enabled := by
  rw [delayedDisableOutput, if_pos h, Function.update_self]
  cases queue step <;> exact nofun

/-- The count of one thread. -/
theorem Spread.count {cfg : Config} {t : Tid} {s s' : State} {c p : Nat → Nat}
    (ht : Threads cfg s) (h : Spread cfg s c p) (hw : Works t s s') {k : Nat}
    (hk : (s.thread t).step = k) (hold : (s.thread t).stage = .returned)
    (hnew : (s'.thread t).stage = .counted (s.rsaNthread k - 1))
    (hrsa : s'.rsaNthread = Function.update s.rsaNthread k (s.rsaNthread k - 1))
    (hqueue : s'.queue = s.queue) :
    Spread cfg s' c (Function.update p k (p k - 1)) := by
  have hof : (s.thread t).Of s.runNr k :=
    ⟨hw.alive.1, ht.current hw.alive.1 hw.alive.2, hk⟩
  have hpos : 0 < p k := (h.uncounted k).pos (t := t) ⟨hof, by rw [hold]; rfl⟩
  have hcreated : 0 < c k := (h.created k).pos (t := t) hof
  have hle := h.le k
  have hbalance := h.rsa k hcreated
  have hself : s'.rsaNthread k = s.rsaNthread k - 1 := by rw [hrsa, Function.update_self]
  have hother {i : Nat} (hi : i ≠ k) : s'.rsaNthread i = s.rsaNthread i := by
    rw [hrsa, Function.update_of_ne hi]
  have hneeded {i : Nat} (hi : i ≠ k) {u : Tid} (hu : (s.thread u).Of s.runNr i) :
      s'.thread u = s.thread u := by
    refine hw.others u ?_
    rintro rfl
    exact hi (hu.2.2.symm.trans hk)
  constructor
  · intro i
    rw [hw.runNr]
    exact (h.created i).congr fun u => hw.of_iff u _ i
  · intro i
    rw [hw.runNr, hw.thread]
    obtain rfl | hi := eq_or_ne i k
    · rw [Function.update_self]
      have hsucc : p i = (p i - 1) + 1 := by omega
      refine Tally.lose (hsucc ▸ h.uncounted i) ⟨hof, by rw [hold]; rfl⟩ ?_
      rw [hnew]
      exact fun hno => absurd hno.2 nofun
    · rw [Function.update_of_ne hi]
      have hno {th : Thread} (hth : th.step = k) (hof : th.Of s.runNr i) : False :=
        hi (hof.2.2.symm.trans hth)
      refine (h.uncounted i).keep ⟨fun hu => ?_, fun hu => ?_⟩
      · exact (hno ((hw.step t).trans hk) hu.1).elim
      · exact (hno hk hu.1).elim
  · exact h.le
  · intro i hi
    obtain rfl | hne := eq_or_ne i k
    · rw [Function.update_self, hself]
      omega
    · rw [Function.update_of_ne hne, hother hne]
      exact h.rsa i hi
  · intro w hwork
    rw [hw.holder] at hwork
    have hbefore := h.progress w hwork
    cases w with
    | test | loopExit | joinAndCleanup | deleting => exact hbefore
    | create left n =>
      obtain ⟨i, hleft, hn, hbal, hlow, hhigh⟩ := hbefore
      refine ⟨i, hleft, hn, ?_, hlow, hhigh⟩
      obtain rfl | hne := eq_or_ne i k
      · rw [Function.update_self, hself]
        omega
      · rwa [Function.update_of_ne hne, hother hne]
    | disabling i o => exact fun j hj => hw.disabled j (hbefore j hj)
  · intro i hne hshort
    rw [hw.holding_eq, hqueue]
    exact h.short i hne hshort
  · intro i hi hci hzero hq
    rw [hw.runNr]
    obtain rfl | hne := eq_or_ne i k
    · exact ⟨t, (hw.of_iff t _ _).mpr hof, by rw [hnew, ← hself, hzero]⟩
    · obtain ⟨u, hu, hstage⟩ := h.output i hi hci ((hother hne).symm.trans hzero) (hqueue ▸ hq)
      exact ⟨u, (hw.of_iff u _ _).mpr hu, by rwa [hneeded hne hu]⟩
  · intro i hi hci hzero hq
    rw [hw.runNr]
    obtain hik | hne := eq_or_ne (i + 1) k
    · subst hik
      exact ⟨t, (hw.of_iff t _ _).mpr hof, .inl (by rw [hnew, ← hself, hzero])⟩
    · obtain ⟨u, hu, hstage⟩ := h.input i hi hci ((hother hne).symm.trans hzero) (hqueue ▸ hq)
      exact ⟨u, (hw.of_iff u _ _).mpr hu, by rwa [hneeded hne hu]⟩

theorem Spread.work {cfg : Config} {t : Tid} {s s' : State} {c p : Nat → Nat}
    (ht : Threads cfg s) (h : Spread cfg s c p) (hstep : ThreadStep cfg t s s') :
    ∃ p', Spread cfg s' c p' := by
  have hw := hstep.works
  have hself (s : State) (stage : Stage) : ((s.setStage t stage).thread t).stage = stage := by
    rw [State.setStage_self]
  have hidle {stage : Stage} (hold : (s.thread t).stage = stage) (hne : stage ≠ .counted 0)
      (hne' : stage ≠ .outputDisabled) (hrsa : s'.rsaNthread = s.rsaNthread)
      (huncounted : (s'.thread t).stage.uncounted = stage.uncounted) : ∃ p', Spread cfg s' c p' :=
    ⟨p, h.still hw hrsa (by rw [hold, huncounted]) (fun hst => absurd (hold.symm.trans hst) hne)
      fun hst => absurd hst (not_or_intro (hold ▸ hne) (hold ▸ hne'))⟩
  cases hstep with
  | functionReturns hold => exact hidle hold nofun nofun rfl (by rw [hself]; rfl)
  | count hold => exact ⟨_, h.count ht hw rfl hold (hself _ _) rfl rfl⟩
  | disableOutput hold =>
    refine ⟨p, h.still hw rfl (by rw [hself, hold]; rfl) (fun _ => delayedDisableOutput_self)
      fun _ _ _ => .inr (hself _ _)⟩
  | disableInput hold =>
    refine ⟨p, h.still hw rfl (by rw [hself, hold]; rfl)
      (fun hst => absurd (hold.symm.trans hst) nofun) fun _ i hi => .inl ?_⟩
    change disableInput s.queue (s.thread t).step i = .disabled
    rw [hi]
    exact Function.update_self ..
  | notLast hold => exact hidle hold nofun nofun rfl (by rw [hself]; rfl)
  | leave hold => exact hidle hold nofun nofun rfl (by rw [hself]; rfl)
  | doFinals hold => exact hidle hold nofun nofun rfl (by rw [hself]; rfl)
  | noFinals hold => exact hidle hold nofun nofun rfl (by rw [hself]; rfl)
  | finalized hold => exact hidle hold nofun nofun rfl (by rw [hself]; rfl)
  | notLastOfChain hold => exact hidle hold nofun nofun rfl (by rw [hself]; rfl)

theorem Spread.uncounted_le {cfg : Config} {s : State} {c p : Nat → Nat} (h : Spread cfg s c p)
    {i : Nat} (hi : c i = 0) : p i = 0 := by
  have hnone := (hi ▸ h.created i).none
  exact (h.uncounted i).unique (.zero fun t ht => hnone t ht.1)

/-- Steps of `run` that leave the threads, their counters and the queues alone. -/
theorem Spread.prepared {cfg : Config} {s s' : State} {c p : Nat → Nat} (h : Spread cfg s c p)
    (hp : Prepares s s') (hrsa : ∀ i, 0 < c i → s'.rsaNthread i = s.rsaNthread i)
    (hprogress : ∀ w ∈ s'.holder, Progress cfg s' c p w)
    (hhold : s'.holding = true ∨ ∀ i < cfg.size, c i = cfg.threadsOf i) : Spread cfg s' c p := by
  constructor
  · rw [hp.thread, hp.runNr]
    exact h.created
  · rw [hp.thread, hp.runNr]
    exact h.uncounted
  · exact h.le
  · intro i hi
    rw [hrsa i hi]
    exact h.rsa i hi
  · exact hprogress
  · intro i hne hshort
    refine hhold.imp_right fun hfull => absurd ?_ hshort
    obtain hi | hi := Nat.lt_or_ge i cfg.size
    · exact hfull i hi
    · have hle := h.le i
      rw [cfg.threadsOf_eq_zero hi] at hle ⊢
      exact Nat.le_zero.mp hle
  · intro i hi hpos hzero hq
    rw [hp.queue] at hq
    rw [hp.thread, hp.runNr]
    exact h.output i hi hpos ((hrsa i hpos).symm.trans hzero) hq
  · intro i hi hpos hzero hq
    rw [hp.queue] at hq
    rw [hp.thread, hp.runNr]
    exact h.input i hi hpos ((hrsa _ hpos).symm.trans hzero) hq

theorem Spread.create {cfg : Config} {s s' : State} {c p : Nat → Nat} (h : Spread cfg s c p)
    {left n : Nat} {t : Tid} (hh : s.holder = some (.create (left + 1) (n + 1)))
    (hunborn : (s.thread t).stage = .unborn)
    (hs' : s' = { s with
      nthreads := s.nthreads + 1,
      tids := Function.update s.tids left (s.tids left ++ [t]),
      thread := Function.update s.thread t ⟨left, s.runNr, .running, 0⟩,
      holder := some (.create (left + 1) n) }) :
    Spread cfg s' (Function.update c left (c left + 1)) (Function.update p left (p left + 1)) := by
  obtain ⟨i, hi, hn, hbal, hlow, hhigh⟩ := h.progress _ hh
  obtain rfl : left = i := Nat.succ.inj hi
  subst hs'
  have hfresh (r i : Nat) : ¬ (s.thread t).Of r i := fun hof => hof.1 hunborn
  have hother {i : Nat} (hi : i ≠ left) :
      ¬ (Thread.mk left s.runNr .running 0).Of s.runNr i := fun hof => hi hof.2.2.symm
  have hkept {u : Tid} {i : Nat} (hu : (s.thread u).Of s.runNr i) :
      Function.update s.thread t ⟨left, s.runNr, .running, 0⟩ u = s.thread u := by
    refine Function.update_of_ne ?_ ..
    rintro rfl
    exact hfresh _ _ hu
  constructor
  · intro i
    obtain rfl | hne := eq_or_ne i left
    · rw [Function.update_self]
      exact (h.created i).gain (hfresh _ _) ⟨nofun, rfl, rfl⟩
    · rw [Function.update_of_ne hne]
      exact (h.created i).keep ⟨fun hof => (hother hne hof).elim, fun hof => (hfresh _ _ hof).elim⟩
  · intro i
    obtain rfl | hne := eq_or_ne i left
    · rw [Function.update_self]
      exact (h.uncounted i).gain (fun hof => hfresh _ _ hof.1) ⟨⟨nofun, rfl, rfl⟩, rfl⟩
    · rw [Function.update_of_ne hne]
      exact (h.uncounted i).keep
        ⟨fun hof => (hother hne hof.1).elim, fun hof => (hfresh _ _ hof.1).elim⟩
  · intro i
    obtain rfl | hne := eq_or_ne i left
    · rw [Function.update_self]
      omega
    · rw [Function.update_of_ne hne]
      exact h.le i
  · intro i hpos
    obtain rfl | hne := eq_or_ne i left
    · rw [Function.update_self, Function.update_self]
      change p i + 1 + cfg.threadsOf i = s.rsaNthread i + (c i + 1)
      omega
    · rw [Function.update_of_ne hne] at hpos ⊢
      rw [Function.update_of_ne hne]
      exact h.rsa i hpos
  · intro w hw
    cases hw
    refine ⟨left, rfl, ?_, ?_, fun j hj => ?_, fun j hj hsize => ?_⟩
    · rw [Function.update_self]
      omega
    · rw [Function.update_self, Function.update_self]
      change p left + 1 + cfg.threadsOf left = s.rsaNthread left + (c left + 1)
      omega
    · rw [Function.update_of_ne (Nat.ne_of_lt hj)]
      exact hlow j hj
    · rw [Function.update_of_ne (Nat.ne_of_gt hj)]
      exact hhigh j hj hsize
  · exact fun _ _ _ => .inl rfl
  · intro i hi hpos hzero hq
    have hzero : s.rsaNthread i = 0 := hzero
    obtain rfl | hne := eq_or_ne i left
    · omega
    · rw [Function.update_of_ne hne] at hpos
      obtain ⟨u, hu, hstage⟩ := h.output i hi hpos hzero hq
      exact ⟨u, (congrArg (Thread.Of s.runNr i) (hkept hu)).mpr hu,
        (congrArg Thread.stage (hkept hu)).trans hstage⟩
  · intro i hi hpos hzero hq
    have hzero : s.rsaNthread (i + 1) = 0 := hzero
    obtain rfl | hne := eq_or_ne (i + 1) left
    · omega
    · rw [Function.update_of_ne hne] at hpos
      obtain ⟨u, hu, hstage⟩ := h.input i hi hpos hzero hq
      have hst := congrArg Thread.stage (hkept hu)
      exact ⟨u, (congrArg (Thread.Of s.runNr (i + 1)) (hkept hu)).mpr hu,
        hstage.imp hst.trans hst.trans⟩

theorem Spread.run {cfg : Config} {s s' : State} {c p : Nat → Nat} {a : Label}
    (ht : Threads cfg s) (h : Spread cfg s c p) (hstep : RunStep cfg s a s')
    (ha : a ≠ .createFails 0) : ∃ c' p', Spread cfg s' c' p' := by
  have hcase := hstep.runCase
  have hprepares {w : Work} (hh : s.holder = some w) (hw : w.starting = true)
      (hw' : ∀ left n, w ≠ .create (left + 1) (n + 1)) : RunCase cfg s s' → Prepares s s' := by
    intro hcase
    cases hcase with
    | enter hnone => exact absurd (hnone.symm.trans hh) nofun
    | create left n t hh' => exact absurd (Option.some.inj (hh.symm.trans hh')) (hw' left n)
    | prepares hp => exact hp
  cases hstep with
  | enter hh hrunning =>
    have hnone (t : Tid) (i : Nat) : ¬ (s.thread t).Of (s.runNr + 1) i := by
      intro hof
      have hle := ht.run_le t hof.1
      have hrun := hof.2.1
      omega
    refine ⟨fun _ => 0, fun _ => 0, fun i => .zero fun t => hnone t i,
      fun i => .zero fun t hof => hnone t i hof.1, fun i => Nat.zero_le _, nofun, ?_,
      fun _ hne => absurd rfl hne, fun _ _ hpos => absurd hpos (Nat.lt_irrefl 0),
      fun _ _ hpos => absurd hpos (Nat.lt_irrefl 0)⟩
    intro w hw
    cases hw
    exact ⟨fun _ _ => rfl, fun hne => absurd rfl hne, fun _ i hle hlt => absurd hlt (by omega)⟩
  | @makeUserdata left hh =>
    obtain ⟨hlow, -, hfull⟩ := h.progress _ hh
    have hzero := hlow left (Nat.lt_succ_self left)
    refine ⟨c, p, h.prepared (hprepares hh rfl nofun hcase) (fun i hpos => ?_) (fun w hw => ?_)
      (.inl rfl)⟩
    · refine Function.update_of_ne ?_ ..
      rintro rfl
      omega
    · cases hw
      refine ⟨left, rfl, by omega, ?_, fun j hj => hlow j (by omega),
        fun j hj hsize => hfull rfl j (by omega) hsize⟩
      have hself : Function.update s.rsaNthread left (cfg.threadsOf left) left =
          cfg.threadsOf left := Function.update_self ..
      change p left + cfg.threadsOf left =
        Function.update s.rsaNthread left (cfg.threadsOf left) left + c left
      rw [hself, h.uncounted_le hzero, hzero, Nat.zero_add, Nat.add_zero]
  | @makerThrows left hh =>
    refine ⟨c, p, h.prepared (hprepares hh rfl nofun hcase) (fun _ _ => rfl) (fun w hw => ?_)
      (.inl rfl)⟩
    cases hw
    exact fun hzero => absurd hzero (Nat.succ_ne_zero left)
  | create hh hunborn => exact ⟨_, _, h.create hh hunborn rfl⟩
  | @createFails left n hh =>
    obtain ⟨i, hi, -, -, hlow, -⟩ := h.progress _ hh
    obtain rfl : left = i := Nat.succ.inj hi
    refine ⟨c, p, h.prepared ?_ (fun _ _ => rfl) (fun w hw => ?_) (.inl rfl)⟩
    · cases hcase with
      | enter hnone => exact absurd (hnone.symm.trans hh) nofun
      | create _ _ _ _ _ hs' => exact absurd (congrArg State.holder hs') nofun
      | prepares hp => exact hp
    · cases hw
      refine ⟨hlow, fun _ => ?_, fun hno => absurd hno (Nat.succ_ne_zero n)⟩
      rintro rfl
      exact ha rfl
  | @created left hh =>
    obtain ⟨i, hi, hn, -, hlow, hhigh⟩ := h.progress _ hh
    obtain rfl : left = i := Nat.succ.inj hi
    refine ⟨c, p, h.prepared (hprepares hh rfl nofun hcase) (fun _ _ => rfl) (fun w hw => ?_)
      (.inl rfl)⟩
    cases hw
    refine ⟨hlow, fun hno => absurd rfl hno, fun _ j hle hsize => ?_⟩
    obtain rfl | hlt := Nat.eq_or_lt_of_le hle
    · exact hn
    · exact hhigh j hlt hsize
  | @leaveLoop left n hh hexit =>
    obtain ⟨-, hfailed, hfull⟩ := h.progress _ hh
    refine ⟨c, p, h.prepared (hprepares hh rfl nofun hcase) (fun _ _ => rfl) (fun w hw => ?_)
      (.inl rfl)⟩
    cases hw
    intro hleft i hsize
    have hn : n = 0 := by
      by_contra hne
      exact hfailed hne hleft
    exact hfull hn i (hleft ▸ Nat.zero_le i) hsize
  | started hh =>
    exact ⟨c, p, h.prepared (hprepares hh rfl nofun hcase) (fun _ _ => rfl) nofun
      (.inr (h.progress _ hh rfl))⟩
  | stop hh =>
    refine ⟨c, p, h.prepared (hprepares hh rfl nofun hcase) (fun _ _ => rfl) (fun w hw => ?_)
      (.inl rfl)⟩
    cases hw
    exact nofun

end Jive5ab.Chain
