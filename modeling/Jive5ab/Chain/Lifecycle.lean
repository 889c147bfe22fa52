import Jive5ab.Chain.Spread

/-! # The lifecycle of a chain

What holds in every state that a chain comes to when no thread of its first step, the last to be
started, fails to be created; and the joins, when in addition no run follows one that had threads. -/
namespace Jive5ab.Chain
open Lib

/-! ## The contract -/

structure Contract (cfg : Config) (s : State) : Prop where
  started : ∀ r, (r, true) ∈ s.results → ∀ i < cfg.size,
    Tally s.thread (Thread.Of r i) (cfg.threadsOf i)
  outputDisabled : ∀ i, i + 1 < cfg.size → (∃ t, (s.thread t).Of s.runNr i) →
    (∀ t, (s.thread t).Of s.runNr i → (s.thread t).stage = .ended) → s.queue i ≠ .enabled
  inputDisabled : ∀ i, i + 1 < cfg.size → (∃ t, (s.thread t).Of s.runNr (i + 1)) →
    (∀ t, (s.thread t).Of s.runNr (i + 1) → (s.thread t).stage = .ended) → s.queue i = .disabled
  finals_once : s.finals.Nodup
  finals_after : ∀ r ∈ s.finals, ∀ t i, (s.thread t).Of r i → (s.thread t).stage ≠ .running
  finals_run : ∀ r, (r, true) ∈ s.results →
    (∀ t i, (s.thread t).Of r i → (s.thread t).stage = .ended) → r ∈ s.finals
  deleted_joined : ∀ r ∈ s.deleted, ∀ t i, (s.thread t).Of r i → 1 ≤ (s.thread t).joins

def JoinedOnce (s : State) : Prop := ∀ t, (s.thread t).joins ≤ 1

/-- No creation of a thread of the first step fails. -/
def firstStarts (cfg : Config) : Machine State Label where
  init s := s = .closed
  step s a t := Step cfg s a t ∧ a ≠ .createFails 0

/-- In addition, no run follows one that had threads. -/
def runsOnce (cfg : Config) : Machine State Label where
  init s := s = .closed
  step s a t := (firstStarts cfg).step s a t ∧
    (a = .run → ∀ t, (s.thread t).stage = .unborn)

/-! ## The runs that are over, and the user data -/

structure History (cfg : Config) (s : State) : Prop where
  results_le : ∀ r, (r, true) ∈ s.results → r ≤ s.runNr
  results_lt : s.starting = true → ∀ r, (r, true) ∈ s.results → r < s.runNr
  full : ∀ r, (r, true) ∈ s.results → ∀ i < cfg.size,
    Tally s.thread (Thread.Of r i) (cfg.threadsOf i)
  finals : ∀ r, (r, true) ∈ s.results → r < s.runNr → r ∈ s.finals
  userdata_le : ∀ i r, s.userdata i = some r → r ≤ s.runNr
  deleted_le : ∀ r ∈ s.deleted, r ≤ s.runNr
  deleted_lt : s.starting = true → ∀ r ∈ s.deleted, r < s.runNr
  deleted : ∀ r ∈ s.deleted, ∀ t i, (s.thread t).Of r i → 1 ≤ (s.thread t).joins

theorem History.work {cfg : Config} {t : Tid} {s s' : State} (h : History cfg s)
    (hstep : ThreadStep cfg t s s') : History cfg s' := by
  have hw := hstep.works
  have hstart : s'.starting = s.starting := by rw [State.starting, State.starting, hw.holder]
  have hfinals : ∀ r ∈ s.finals, r ∈ s'.finals := by
    cases hstep with
    | doFinals => exact fun r hr => List.mem_append_left _ hr
    | _ => exact fun r hr => hr
  constructor
  · rw [hw.results, hw.runNr]
    exact h.results_le
  · rw [hw.results, hw.runNr, hstart]
    exact h.results_lt
  · rw [hw.results]
    exact fun r hr i hi => (h.full r hr i hi).congr fun u => hw.of_iff u r i
  · rw [hw.results, hw.runNr]
    exact fun r hr hlt => hfinals r (h.finals r hr hlt)
  · rw [hw.userdata, hw.runNr]
    exact h.userdata_le
  · rw [hw.deleted, hw.runNr]
    exact h.deleted_le
  · rw [hw.deleted, hw.runNr, hstart]
    exact h.deleted_lt
  · rw [hw.deleted]
    intro r hr u i hof
    rw [hw.joins]
    exact h.deleted r hr u i ((hw.of_iff u r i).mp hof)

/-- A call deletes only user data, and after the joins. -/
theorem CallStep.userdata {cfg : Config} {s s' : State} (hf : Flags s) (hstep : CallStep cfg s s') :
    (∀ i r, s'.userdata i = some r → s.userdata i = some r) ∧
      ∀ r ∈ s'.deleted, r ∈ s.deleted ∨ s.running = false ∧ ∃ i, s.userdata i = some r := by
  cases hstep with
  | @delete left o hh =>
    constructor
    · intro i r hi
      have hi : Function.update s.userdata left none i = some r := hi
      rw [Function.update_apply] at hi
      split at hi
      · cases hi
      · exact hi
    · intro r hr
      obtain hr | hr := List.mem_append.mp hr
      · exact .inl hr
      · exact .inr ⟨hf.deleting _ _ hh, left, Option.mem_toList.mp hr⟩
  | _ => exact ⟨fun _ _ => id, fun _ => .inl⟩

theorem History.call {cfg : Config} {s s' : State} (hf : Flags s) (ht : Threads cfg s)
    (h : History cfg s) (hstep : CallStep cfg s s') : History cfg s' := by
  have hc := hstep.calls hf
  obtain ⟨huserdata, hdeleted⟩ := hstep.userdata hf
  have hidle : s'.starting ≠ true := Bool.eq_false_iff.mp hc.starting'
  constructor
  · rw [hc.runNr]
    exact fun r hr => h.results_le r (hc.results r hr)
  · exact fun hstart => absurd hstart hidle
  · exact fun r hr i hi =>
      (h.full r (hc.results r hr) i hi).congr fun u => hc.of_iff u r i
  · rw [hc.runNr, hc.finals]
    exact fun r hr hlt => h.finals r (hc.results r hr) hlt
  · rw [hc.runNr]
    exact fun i r hi => h.userdata_le i r (huserdata i r hi)
  · rw [hc.runNr]
    intro r hr
    obtain hr | ⟨-, i, hi⟩ := hdeleted r hr
    · exact h.deleted_le r hr
    · exact h.userdata_le i r hi
  · exact fun hstart => absurd hstart hidle
  · intro r hr u i hof
    have hof := (hc.of_iff u r i).mp hof
    refine Nat.le_trans ?_ (hc.joins u)
    obtain hr | ⟨hstop, -⟩ := hdeleted r hr
    · exact h.deleted r hr u i hof
    · exact (ht.quiet hstop hc.starting u hof.1).2

/-- A run whose threads have ended is over. -/
theorem Ending.ran {cfg : Config} {s : State} (ht : Threads cfg s) (h : Ending s)
    (hstart : s.starting = false) (hearly : Tally s.thread (fun th => th.stage.early = true) s.nthreads)
    {t : Tid} {i : Nat} (hof : (s.thread t).Of s.runNr i)
    (hended : ∀ t i, (s.thread t).Of s.runNr i → (s.thread t).stage = .ended) :
    s.runNr ∈ s.finals := by
  have hcur {u : Tid} {stage : Stage} (hst : (s.thread u).stage = stage) (hborn : stage ≠ .unborn)
      (hlate : stage ≠ .ended) : False := by
    subst hst
    exact hlate (hended u _ ⟨hborn, ht.current hborn hlate, rfl⟩)
  cases h with
  | starting h1 => exact absurd (hstart.symm.trans h1) nofun
  | counting h1 h2 =>
    obtain ⟨u, hu⟩ := hearly.pos_iff.mp h2
    refine (hcur (Eq.refl (s.thread u).stage) ?_ ?_).elim
    · intro hst
      rw [hst] at hu
      cases hu
    · intro hst
      rw [hst] at hu
      cases hu
  | threadless h1 h2 h3 => exact absurd hof.2.1 (h3 t hof.1)
  | last u h1 h2 h3 h4 => exact (hcur h4 nofun nofun).elim
  | finals u h1 h2 h3 h4 h5 => exact h5
  | ended h1 h2 h3 h4 => exact h4

theorem History.prepared {cfg : Config} {s s' : State} (h : History cfg s) (hp : Prepares s s')
    (hresults : s'.results = s.results) (huserdata : ∀ i r, s'.userdata i = some r →
      s.userdata i = some r ∨ r = s.runNr) : History cfg s' := by
  constructor
  · rw [hresults, hp.runNr]
    exact h.results_le
  · rw [hresults, hp.runNr]
    exact fun _ => h.results_lt hp.starting
  · rw [hresults, hp.thread]
    exact h.full
  · rw [hresults, hp.runNr, hp.finals]
    exact h.finals
  · rw [hp.runNr]
    intro i r hi
    obtain hi | rfl := huserdata i r hi
    · exact h.userdata_le i r hi
    · exact Nat.le_refl _
  · rw [hp.deleted, hp.runNr]
    exact h.deleted_le
  · rw [hp.deleted, hp.runNr]
    exact fun _ => h.deleted_lt hp.starting
  · rw [hp.deleted, hp.thread]
    exact h.deleted

theorem History.run {cfg : Config} {s s' : State} {c p : Nat → Nat} {a : Label}
    (ht : Threads cfg s) (hc : Counts s) (hp : Spread cfg s c p) (h : History cfg s)
    (hstep : RunStep cfg s a s') : History cfg s' := by
  have hcase := hstep.runCase
  cases hstep with
  | enter hh hrunning =>
    have hstart := State.starting_of hh
    refine ⟨fun r hr => Nat.le_succ_of_le (h.results_le r hr),
      fun _ r hr => Nat.lt_succ_of_le (h.results_le r hr), h.full, fun r hr hlt => ?_,
      fun i r hi => Nat.le_succ_of_le (h.userdata_le i r hi),
      fun r hr => Nat.le_succ_of_le (h.deleted_le r hr),
      fun _ r hr => Nat.lt_succ_of_le (h.deleted_le r hr), h.deleted⟩
    obtain rfl | hlt := Nat.eq_or_lt_of_le (Nat.le_of_lt_succ hlt)
    · have hsize : 0 < cfg.size := Nat.lt_of_lt_of_le Nat.zero_lt_two cfg.closed
      obtain ⟨t, hof⟩ := (h.full _ hr 0 hsize).pos_iff.mp (cfg.threadsOf_pos hsize)
      exact hc.ending.ran ht hstart hc.early hof
        fun t _ hof => (ht.quiet hrunning hstart t hof.1).1
    · exact h.finals r hr hlt
  | @create left n t hh hunborn =>
    have hstart : s.starting = true := State.starting_of hh
    have hother {r i : Nat} (hr : r < s.runNr) :
        ¬ (Thread.mk left s.runNr .running 0).Of r i := fun hof => absurd hof.2.1 (Nat.ne_of_gt hr)
    refine ⟨h.results_le, fun _ => h.results_lt hstart, fun r hr i hi => ?_, h.finals,
      h.userdata_le, h.deleted_le, fun _ => h.deleted_lt hstart, fun r hr => ?_⟩
    · exact (h.full r hr i hi).keep ⟨fun hof => (hother (h.results_lt hstart r hr) hof).elim,
        fun hof => (hof.1 hunborn).elim⟩
    · exact (Function.forall_update_iff s.thread fun _ th => ∀ i, th.Of r i → 1 ≤ th.joins).mpr
        ⟨fun i hof => (hother (h.deleted_lt hstart r hr) hof).elim, fun u _ => h.deleted r hr u⟩
  | @started hh =>
    have hfull := hp.progress _ hh rfl
    refine ⟨fun r hr => ?_, nofun, fun r hr i hi => ?_, fun r hr hlt => ?_, h.userdata_le,
      h.deleted_le, nofun, h.deleted⟩
    · obtain hr | hr := List.mem_append.mp hr
      · exact h.results_le r hr
      · obtain ⟨rfl, -⟩ := Prod.mk.inj (List.mem_singleton.mp hr)
        exact Nat.le_refl _
    · obtain hr | hr := List.mem_append.mp hr
      · exact h.full r hr i hi
      · obtain ⟨rfl, -⟩ := Prod.mk.inj (List.mem_singleton.mp hr)
        exact hfull i hi ▸ hp.created i
    · obtain hr | hr := List.mem_append.mp hr
      · exact h.finals r hr hlt
      · obtain ⟨rfl, -⟩ := Prod.mk.inj (List.mem_singleton.mp hr)
        exact absurd hlt (Nat.lt_irrefl _)
  | @makeUserdata left hh =>
    cases hcase with
    | enter hnone => exact absurd (hnone.symm.trans hh) nofun
    | create _ _ _ hh' => exact absurd (hh.symm.trans hh') nofun
    | prepares hprep =>
      refine h.prepared hprep rfl fun i r hi => ?_
      have hi : Function.update s.userdata left (some s.runNr) i = some r := hi
      rw [Function.update_apply] at hi
      split at hi
      · exact .inr (Option.some.inj hi).symm
      · exact .inl hi
  | makerThrows hh | created hh | leaveLoop hh | stop hh =>
    cases hcase with
    | enter hnone => exact absurd (hnone.symm.trans hh) nofun
    | create _ _ _ hh' => exact absurd (hh.symm.trans hh') nofun
    | prepares hprep => exact h.prepared hprep rfl fun _ _ => .inl
  | createFails hh =>
    cases hcase with
    | enter hnone => exact absurd (hnone.symm.trans hh) nofun
    | create _ _ _ _ _ hs' => exact absurd (congrArg State.holder hs') nofun
    | prepares hprep => exact h.prepared hprep rfl fun _ _ => .inl

/-! ## Every run -/

structure Inv (cfg : Config) (s : State) : Prop where
  flags : Flags s
  threads : Threads cfg s
  counts : Counts s
  history : History cfg s
  spread : ∃ c p, Spread cfg s c p

theorem closed_inv (cfg : Config) : Inv cfg .closed := by
  refine ⟨⟨Nat.zero_le _, ⟨nofun, fun h => absurd rfl h⟩, fun h => absurd rfl h, nofun, nofun, nofun⟩,
    ⟨nofun, fun t h => absurd rfl h, fun t h => absurd rfl h, fun t h => absurd rfl h,
      fun t h => absurd rfl h, fun _ _ t h => absurd rfl h, nofun⟩,
    ⟨.zero fun t => nofun, nofun, nofun, List.nodup_nil, ?_⟩,
    ⟨nofun, nofun, nofun, nofun, nofun, nofun, nofun, nofun⟩,
    ⟨fun _ => 0, fun _ => 0, ⟨fun i => .zero fun t h => h.1 rfl, fun i => .zero fun t h => h.1.1 rfl,
      fun i => Nat.zero_le _, nofun, nofun, fun i h => absurd rfl h, ?_, ?_⟩⟩⟩
  · exact .threadless rfl rfl fun t h => absurd rfl h
  · exact fun _ _ h => absurd h (Nat.lt_irrefl 0)
  · exact fun _ _ h => absurd h (Nat.lt_irrefl 0)

theorem Inv.step {cfg : Config} {s s' : State} {a : Label} (h : Inv cfg s)
    (hstep : (firstStarts cfg).step s a s') : Inv cfg s' := by
  obtain ⟨hf, ht, hc, hh, c, p, hp⟩ := h
  obtain ⟨hstep, ha⟩ := hstep
  cases hstep with
  | run hrun =>
    exact ⟨hf.run hrun, ht.run hf hrun, hc.run ht hrun, hh.run ht hc hp hrun, hp.run ht hrun ha⟩
  | call hcall =>
    exact ⟨hf.call hcall, ht.call hf hcall, hc.call hf hcall, hh.call hf ht hcall,
      c, p, hp.call hf hcall⟩
  | thread hthread =>
    have hw := hthread.works
    exact ⟨hf.frame hw.running hw.joining hw.joiners hw.holder, ht.work hw, hc.work ht hthread,
      hh.work hthread, c, hp.work ht hthread⟩

theorem run_inv {cfg : Config} {s : State} {as : List Label}
    (h : (firstStarts cfg).Run .closed as s) : Inv cfg s :=
  h.invariant (Inv cfg) (fun _ _ _ hi hs => hi.step hs) (closed_inv cfg)

/-- All of a step's threads are counted once they have ended. -/
theorem Spread.settled {cfg : Config} {s : State} {c p : Nat → Nat} (h : Spread cfg s c p)
    (hc : Counts s) {i : Nat} (hex : ∃ t, (s.thread t).Of s.runNr i)
    (hended : ∀ t, (s.thread t).Of s.runNr i → (s.thread t).stage = .ended) :
    0 < c i ∧ (s.rsaNthread i = 0 ∨ ∀ j, j + 1 < cfg.size → s.queue j = .disabled) := by
  obtain ⟨t, ht⟩ := hex
  have hpos : 0 < c i := (h.created i).pos ht
  refine ⟨hpos, ?_⟩
  by_cases hfull : c i = cfg.threadsOf i
  · have hnone : Tally s.thread (fun th => th.Of s.runNr i ∧ th.stage.uncounted = true) 0 :=
      .zero fun u hu => by
        rw [hended u hu.1] at hu
        exact absurd hu.2 nofun
    have hzero : p i = 0 := (h.uncounted i).unique hnone
    have hbalance := h.rsa i hpos
    left
    omega
  · obtain hhold | hall := h.short i (Nat.ne_of_gt hpos) hfull
    · have hearly := hc.holding hhold t ht.1 ht.2.1
      rw [hended t ht] at hearly
      cases hearly
    · exact .inr hall

theorem Inv.contract {cfg : Config} {s : State} (h : Inv cfg s) : Contract cfg s := by
  obtain ⟨hf, ht, hc, hh, c, p, hp⟩ := h
  constructor
  · exact hh.full
  · intro i hi hex hended hq
    obtain ⟨hpos, hzero | hall⟩ := hp.settled hc hex hended
    · obtain ⟨t, hof, hst⟩ := hp.output i hi hpos hzero hq
      exact absurd ((hended t hof).symm.trans hst) nofun
    · exact absurd ((hall i hi).symm.trans hq) nofun
  · intro i hi hex hended
    obtain ⟨hpos, hzero | hall⟩ := hp.settled hc hex hended
    · by_contra hq
      obtain ⟨t, hof, hst | hst⟩ := hp.input i hi hpos hzero hq
      · exact absurd ((hended t hof).symm.trans hst) nofun
      · exact absurd ((hended t hof).symm.trans hst) nofun
    · exact hall i hi
  · exact hc.nodup
  · intro r hr t i hof hrunning
    have hcur := ht.current hof.1 (hrunning ▸ nofun)
    obtain rfl : r = s.runNr := hof.2.1.symm.trans hcur
    have hpos : 0 < s.nthreads := hc.early.pos (t := t) (by rw [hrunning]; rfl)
    cases hc.ending with
    | starting _ _ hno => exact hno hr
    | counting _ _ _ _ hno => exact hno hr
    | threadless _ _ hno => exact hno t hof.1 hcur
    | last _ _ _ _ _ _ hno => exact hno hr
    | finals _ _ hzero => omega
    | ended _ hzero => omega
  · intro r hr hended
    obtain rfl | hlt := Nat.eq_or_lt_of_le (hh.results_le r hr)
    · have hstart : s.starting = false := by
        rw [Bool.eq_false_iff]
        exact fun hstart => Nat.lt_irrefl _ (hh.results_lt hstart _ hr)
      have hsize : 0 < cfg.size := Nat.lt_of_lt_of_le Nat.zero_lt_two cfg.closed
      obtain ⟨t, hof⟩ := (hh.full _ hr 0 hsize).pos_iff.mp (cfg.threadsOf_pos hsize)
      exact hc.ending.ran ht hstart hc.early hof hended
    · exact hh.finals r hr hlt
  · exact hh.deleted

/-! ## The joins -/

structure Joins (s : State) : Prop where
  unborn : ∀ t, (s.thread t).stage = .unborn → (s.thread t).joins = 0
  members : ∀ i, ∀ t ∈ s.tids i, (s.thread t).stage ≠ .unborn ∧ (s.thread t).step = i
  nodup : ∀ i, (s.tids i).Nodup
  le : JoinedOnce s
  fresh : s.joiners = [] → s.running = true ∨ s.starting = true → ∀ t, (s.thread t).joins = 0
  todo : ∀ j ∈ s.joiners, ∀ t, (s.thread t).joins + j.1.count t ≤ 1

theorem Joins.work {t : Tid} {s s' : State} (h : Joins s) (hw : Works t s s') : Joins s' := by
  have hstart : s'.starting = s.starting := by rw [State.starting, State.starting, hw.holder]
  constructor
  · intro u hu
    rw [hw.joins]
    exact h.unborn u ((hw.unborn u).mp hu)
  · rw [hw.tids]
    intro i u hu
    rw [hw.step, ne_eq, hw.unborn]
    exact h.members i u hu
  · rw [hw.tids]
    exact h.nodup
  · intro u
    rw [hw.joins]
    exact h.le u
  · rw [hw.joiners, hw.running, hstart]
    intro hnil hready u
    rw [hw.joins]
    exact h.fresh hnil hready u
  · rw [hw.joiners]
    intro j hj u
    rw [hw.joins]
    exact h.todo j hj u

theorem Joins.nodup_all {s : State} (h : Joins s) (n : Nat) :
    ((List.range n).flatMap s.tids).Nodup := by
  refine List.nodup_flatMap.mpr ⟨fun i _ => h.nodup i, ?_⟩
  refine List.Pairwise.imp ?_ (List.nodup_range (n := n))
  intro i j hij t hi hj
  exact hij ((h.members i t hi).2.symm.trans (h.members j t hj).2)

theorem Joins.call {cfg : Config} {s s' : State} (hf : Flags s) (h : Joins s)
    (hstep : CallStep cfg s s') : Joins s' := by
  have hc := hstep.calls hf
  have hkept (hthread : s'.thread = s.thread) (htodo : ∀ j ∈ s'.joiners, ∀ t,
      (s.thread t).joins + j.1.count t ≤ 1) (hfresh : s'.joiners = [] → s'.running = true →
        s.joiners = []) : Joins s' := by
    constructor
    · rw [hthread]
      exact h.unborn
    · rw [hthread, hc.tids]
      exact h.members
    · rw [hc.tids]
      exact h.nodup
    · rw [JoinedOnce, hthread]
      exact h.le
    · intro hnil hready
      have hrunning := hready.resolve_right (Bool.eq_false_iff.mp hc.starting')
      rw [hthread]
      exact h.fresh (hfresh hnil hrunning) (.inl (hc.running hrunning))
    · rw [hthread]
      exact htodo
  cases hstep with
  | startJoin hh hrunning hjoining =>
    refine hkept rfl (fun j hj t => ?_) nofun
    obtain rfl | hj := List.mem_cons.mp hj
    · have hnil : s.joiners = [] := by
        by_contra hne
        exact absurd (hjoining.symm.trans (hf.joining.mpr hne)) nofun
      rw [h.fresh hnil (.inl hrunning), Nat.zero_add]
      exact List.nodup_iff_count_le_one.mp (h.nodup_all cfg.size) t
    · exact h.todo j hj t
  | @join t todo o before after hj ht =>
    obtain ⟨rfl, rfl⟩ := hf.alone hj
    have hcount := h.todo (t :: todo, o) (by rw [hj]; simp)
    have hall (q : Tid → Thread → Prop)
        (hnew : q t { s.thread t with joins := (s.thread t).joins + 1 })
        (hold : ∀ u, q u (s.thread u)) : ∀ u, q u (Function.update s.thread t
          { s.thread t with joins := (s.thread t).joins + 1 } u) :=
      (Function.forall_update_iff s.thread q).mpr ⟨hnew, fun u _ => hold u⟩
    have hself := hcount t
    rw [List.count_cons_self] at hself
    refine ⟨?_, fun i u hu => ?_, h.nodup, ?_, nofun, fun j hj' u => ?_⟩
    · refine hall (fun _ th => th.stage = .unborn → th.joins = 0) (fun hst => ?_) h.unborn
      exact absurd (ht.symm.trans hst) nofun
    · exact hall (fun u th => u ∈ s.tids i → th.stage ≠ .unborn ∧ th.step = i) (h.members i t)
        (h.members i) u hu
    · refine hall (fun _ th => th.joins ≤ 1) ?_ h.le
      change (s.thread t).joins + 1 ≤ 1
      omega
    · obtain rfl := List.mem_singleton.mp hj'
      refine hall (fun u th => th.joins + todo.count u ≤ 1) ?_ (fun v => ?_) u
      · change (s.thread t).joins + 1 + todo.count t ≤ 1
        omega
      · exact Nat.le_trans (Nat.add_le_add_left List.count_le_count_cons _) (hcount v)
  | @joined o before after hj =>
    obtain ⟨rfl, rfl⟩ := hf.alone hj
    exact hkept rfl nofun fun _ hrunning => absurd hrunning nofun
  | _ => exact hkept rfl h.todo fun hnil _ => hnil

theorem Joins.run {cfg : Config} {s s' : State} {a : Label} (hf : Flags s) (h : Joins s)
    (hstep : RunStep cfg s a s') (hfirst : a = .run → ∀ t, (s.thread t).stage = .unborn) :
    Joins s' := by
  have hidle (hstart : s.starting = true) : s.joiners = [] := by
    by_contra hne
    exact absurd ((hf.starting hstart).symm.trans (hf.joiners hne)) nofun
  have hcase := hstep.runCase
  have hprepared (hp : Prepares s s') : Joins s' := by
    constructor
    · rw [hp.thread]
      exact h.unborn
    · rw [hp.thread, hp.tids]
      exact h.members
    · rw [hp.tids]
      exact h.nodup
    · rw [JoinedOnce, hp.thread]
      exact h.le
    · rw [hp.thread]
      exact fun _ _ => h.fresh (hidle hp.starting) (.inr hp.starting)
    · rw [hp.joiners, hp.thread]
      exact h.todo
  have hentered (hh : s.holder = none) : a = .run := by
    cases hstep with
    | enter => rfl
    | makeUserdata h' | makerThrows h' | create h' | createFails h' | created h' | leaveLoop h'
    | started h' | stop h' => exact absurd (hh.symm.trans h') nofun
  cases hcase with
  | enter hh hrunning hs' =>
    have hnone := hfirst (hentered hh)
    subst hs'
    exact ⟨h.unborn, h.members, h.nodup, h.le, fun _ _ t => h.unborn t (hnone t), h.todo⟩
  | create left n t hh hunborn hs' =>
    have hstart : s.starting = true := State.starting_of hh
    have hzero := h.fresh (hidle hstart) (.inr hstart)
    have hnew (u : Tid) (i : Nat) (hu : u ∈ s.tids i) : u ≠ t := by
      rintro rfl
      exact (h.members i u hu).1 hunborn
    have hall (q : Tid → Thread → Prop) (hnew : q t ⟨left, s.runNr, .running, 0⟩)
        (hold : ∀ u, u ≠ t → q u (s.thread u)) :
        ∀ u, q u (Function.update s.thread t ⟨left, s.runNr, .running, 0⟩ u) :=
      (Function.forall_update_iff s.thread q).mpr ⟨hnew, hold⟩
    have hjoins := hall (fun _ th => th.joins = 0) rfl fun u _ => hzero u
    have hmem {i : Nat} {u : Tid}
        (hu : u ∈ Function.update s.tids left (s.tids left ++ [t]) i) :
        u ∈ s.tids i ∨ u = t ∧ i = left := by
      rw [Function.update_apply] at hu
      split at hu
      · rename_i hi
        obtain hu | hu := List.mem_append.mp hu
        · exact .inl (hi ▸ hu)
        · exact .inr ⟨List.mem_singleton.mp hu, hi⟩
      · exact .inl hu
    subst hs'
    refine ⟨fun u _ => hjoins u, fun i u hu => ?_, fun i => ?_, fun u => ?_, fun _ _ => hjoins, ?_⟩
    · obtain hu | ⟨rfl, rfl⟩ := hmem hu
      · exact hall (fun u th => u ∈ s.tids i → th.stage ≠ .unborn ∧ th.step = i)
          (fun hu => absurd rfl (hnew t i hu)) (fun v _ => h.members i v) u hu
      · exact hall (fun v th => v = u → th.stage ≠ .unborn ∧ th.step = i) (fun _ => ⟨nofun, rfl⟩)
          (fun v hne hv => absurd hv hne) u rfl
    · change (Function.update s.tids left (s.tids left ++ [t]) i).Nodup
      rw [Function.update_apply]
      split
      · refine List.nodup_append.mpr ⟨h.nodup left, List.nodup_singleton t, fun u hu v hv => ?_⟩
        rw [List.mem_singleton.mp hv]
        exact hnew u left hu
      · exact h.nodup i
    · exact Nat.le_trans (Nat.le_of_eq (hjoins u)) (Nat.zero_le 1)
    · change ∀ j ∈ s.joiners, _
      rw [hidle hstart]
      exact nofun
  | prepares hp => exact hprepared hp

theorem closed_joins : Joins .closed :=
  ⟨fun _ _ => rfl, nofun, fun _ => List.nodup_nil, fun _ => Nat.zero_le 1, fun _ _ _ => rfl, nofun⟩

theorem run_joins {cfg : Config} {s : State} {as : List Label}
    (h : (runsOnce cfg).Run .closed as s) : Flags s ∧ Joins s := by
  refine h.invariant (fun s => Flags s ∧ Joins s) (fun s a s' hi hs => ?_)
    ⟨(closed_inv cfg).flags, closed_joins⟩
  obtain ⟨hf, hj⟩ := hi
  obtain ⟨⟨hstep, -⟩, hfirst⟩ := hs
  cases hstep with
  | run hrun => exact ⟨hf.run hrun, hj.run hf hrun hfirst⟩
  | call hcall => exact ⟨hf.call hcall, hj.call hf hcall⟩
  | thread hthread =>
    have hw := hthread.works
    exact ⟨hf.frame hw.running hw.joining hw.joiners hw.holder, hj.work hw⟩

/-! ## What the two conditions are for -/

/-- A first step that lacks a thread goes unnoticed. -/
theorem failed_first_start {cfg : Config} {s : State} {as : List Label} {n : Nat}
    (h : (firstStarts cfg).Run .closed as s) (hh : s.holder = some (.create 1 (n + 1))) :
    ∃ s', (system cfg).Run s [.createFails 0, .call, .call] s' ∧ (s.runNr, true) ∈ s'.results ∧
      ¬ Contract cfg s' := by
  obtain ⟨c, p, hp⟩ := (run_inv h).spread
  obtain ⟨i, hi, hn, -⟩ := hp.progress _ hh
  obtain rfl : i = 0 := (Nat.succ.inj hi).symm
  have hrun := ((((Machine.Run.refl (M := system cfg) s).snoc
    (.run (.createFails hh))).snoc
    (.run (.leaveLoop rfl (.inr rfl)))).snoc
    (.run (.started rfl)))
  have hmem : (s.runNr, true) ∈ s.results ++ [(s.runNr, true)] := by simp
  refine ⟨_, hrun, hmem, fun hcontract => ?_⟩
  have hsize : 0 < cfg.size := Nat.lt_of_lt_of_le Nat.zero_lt_two cfg.closed
  have hall : c 0 = cfg.threadsOf 0 :=
    (hp.created 0).unique (hcontract.started s.runNr hmem 0 hsize)
  omega

/-- A thread of an earlier run is joined again before the user data of a later one is deleted. -/
structure Again (cfg : Config) (t : Tid) (s : State) : Prop where
  flags : Flags s
  born : (s.thread t).stage ≠ .unborn
  listed : t ∈ (List.range cfg.size).flatMap s.tids
  joins : 1 ≤ (s.thread t).joins
  todo : ∀ j ∈ s.joiners, t ∈ j.1 ∨ 2 ≤ (s.thread t).joins
  ended : s.running = false → s.starting = false → 2 ≤ (s.thread t).joins

theorem Again.work {cfg : Config} {t u : Tid} {s s' : State} (h : Again cfg t s)
    (hw : Works u s s') : Again cfg t s' := by
  refine ⟨h.flags.frame hw.running hw.joining hw.joiners hw.holder, ?_, ?_, ?_, ?_, ?_⟩
  · exact mt (hw.unborn t).mp h.born
  · rw [hw.tids]
    exact h.listed
  · rw [hw.joins]
    exact h.joins
  · rw [hw.joiners, hw.joins]
    exact h.todo
  · rw [hw.running, State.starting, hw.holder, hw.joins]
    exact h.ended

theorem Again.call {cfg : Config} {t : Tid} {s s' : State} (h : Again cfg t s)
    (hstep : CallStep cfg s s') : Again cfg t s' := by
  have hc := hstep.calls h.flags
  have htwice (h2 : 2 ≤ (s.thread t).joins) : 2 ≤ (s'.thread t).joins := Nat.le_trans h2 (hc.joins t)
  refine ⟨h.flags.call hstep, ?_, ?_, Nat.le_trans h.joins (hc.joins t), fun j hj => ?_,
    fun hstop _ => ?_⟩
  · rw [hc.stage]
    exact h.born
  · rw [hc.tids]
    exact h.listed
  · cases hstep with
    | @join u todo o before after hjoin hu =>
      obtain ⟨rfl, rfl⟩ := h.flags.alone hjoin
      obtain rfl := List.mem_singleton.mp hj
      obtain hmem | h2 := h.todo _ (by rw [hjoin]; exact List.mem_singleton_self _)
      · obtain rfl | hmem := List.mem_cons.mp hmem
        · have hself : Function.update s.thread t
              { s.thread t with joins := (s.thread t).joins + 1 } t =
                { s.thread t with joins := (s.thread t).joins + 1 } := Function.update_self ..
          exact .inr ((congrArg Thread.joins hself).symm ▸ Nat.succ_le_succ h.joins)
        · exact .inl hmem
      · exact .inr (htwice h2)
    | startJoin =>
      obtain rfl | hj := List.mem_cons.mp hj
      · exact .inl h.listed
      · exact h.todo j hj
    | @joined o before after hjoined =>
      refine h.todo j ?_
      rw [hjoined]
      have hj : j ∈ before ++ after := hj
      obtain hj | hj := List.mem_append.mp hj
      · exact List.mem_append_left _ hj
      · exact List.mem_append_right _ (List.mem_cons_of_mem _ hj)
    | _ => exact h.todo j hj
  · cases hrunning : s.running with
    | false => exact htwice (h.ended hrunning hc.starting)
    | true =>
      obtain ⟨o, ho⟩ := hstep.stops hrunning hstop
      obtain hnil | h2 := h.todo _ ho
      · cases hnil
      · exact htwice h2

theorem Again.run {cfg : Config} {t : Tid} {s s' : State} {a : Label} (h : Again cfg t s)
    (hstep : RunStep cfg s a s') : Again cfg t s' := by
  have hf := h.flags.run hstep
  cases hstep.runCase with
  | enter hh hrunning hs' =>
    subst hs'
    exact ⟨hf, h.born, h.listed, h.joins, h.todo, fun _ hno => absurd hno nofun⟩
  | create left n u hh hunborn hs' =>
    have hother : t ≠ u := by
      rintro rfl
      exact h.born hunborn
    have hkept : s'.thread t = s.thread t := by
      rw [hs']
      exact Function.update_of_ne hother ..
    have hstart : s'.starting = true := by
      rw [hs']
      rfl
    refine ⟨hf, hkept ▸ h.born, ?_, hkept ▸ h.joins, fun j hj => ?_,
      fun _ hno => absurd (hno.symm.trans hstart) nofun⟩
    · obtain ⟨i, hi, ht⟩ := List.mem_flatMap.mp h.listed
      refine List.mem_flatMap.mpr ⟨i, hi, ?_⟩
      rw [hs']
      change t ∈ Function.update s.tids left (s.tids left ++ [u]) i
      rw [Function.update_apply]
      split
      · rename_i hleft
        exact List.mem_append_left _ (hleft ▸ ht)
      · exact ht
    · rw [hkept]
      rw [hs'] at hj
      exact h.todo j hj
  | prepares hp =>
    refine ⟨hf, ?_, ?_, ?_, ?_, fun hstop hidle => ?_⟩
    · rw [hp.thread]
      exact h.born
    · rw [hp.tids]
      exact h.listed
    · rw [hp.thread]
      exact h.joins
    · rw [hp.joiners, hp.thread]
      exact h.todo
    · obtain hstart | hrunning := hp.ready
      · exact absurd (hidle.symm.trans hstart) nofun
      · exact absurd (hstop.symm.trans hrunning) nofun

theorem run_flags_threads {cfg : Config} {s : State} {as : List Label}
    (h : (system cfg).Run .closed as s) : Flags s ∧ Threads cfg s := by
  refine h.invariant (fun s => Flags s ∧ Threads cfg s) (fun s a s' hi hs => ?_)
    ⟨(closed_inv cfg).flags, (closed_inv cfg).threads⟩
  obtain ⟨hf, ht⟩ := hi
  cases hs with
  | run hrun => exact ⟨hf.run hrun, ht.run hf hrun⟩
  | call hcall => exact ⟨hf.call hcall, ht.call hf hcall⟩
  | thread hthread =>
    have hw := hthread.works
    exact ⟨hf.frame hw.running hw.joining hw.joiners hw.holder, ht.work hw⟩

/-- When a run is entered after one that had threads, and is over again, these were joined twice. -/
theorem later_run_rejoins {cfg : Config} {s s₁ s' : State} {as bs : List Label}
    (h : (system cfg).Run .closed as s) (henter : RunStep cfg s .run s₁)
    (hrun : (system cfg).Run s₁ bs s') (hstop : s'.running = false) (hidle : s'.starting = false)
    {t : Tid} (hborn : (s.thread t).stage ≠ .unborn) : ¬ JoinedOnce s' := by
  obtain ⟨hf, ht⟩ := run_flags_threads h
  have hstart : Again cfg t s₁ := by
    have hf₁ := hf.run henter
    cases henter with
    | enter hh hrunning =>
      have hdone := ht.quiet hrunning (State.starting_of hh) t hborn
      have hjoiners : s.joiners = [] := by
        by_contra hne
        exact absurd (hrunning.symm.trans (hf.joiners hne)) nofun
      refine ⟨hf₁, hborn, ?_, hdone.2, ?_, fun _ hno => absurd hno nofun⟩
      · exact List.mem_flatMap.mpr ⟨_, List.mem_range.mpr (ht.step_lt t hborn), ht.listed t hborn⟩
      · change ∀ j ∈ s.joiners, _
        rw [hjoiners]
        exact nofun
  have hagain : Again cfg t s' := by
    refine hrun.invariant (Again cfg t) (fun s a s' hi hs => ?_) hstart
    cases hs with
    | run hrun => exact hi.run hrun
    | call hcall => exact hi.call hcall
    | thread hthread => exact hi.work hthread.works
  intro honce
  exact absurd (Nat.le_trans (hagain.ended hstop hidle) (honce t)) (by omega)

/-- The contract of a chain, over any number of runs, and of the joins over the run of one that has
threads. -/
theorem chain_lifecycle (cfg : Config) (s : State) (as : List Label)
    (h : (firstStarts cfg).Run .closed as s) :
    Contract cfg s ∧ ((runsOnce cfg).Run .closed as s → JoinedOnce s) :=
  ⟨(run_inv h).contract, fun hrun => (run_joins hrun).2.le⟩

/-- Two steps with a thread each. -/
def pair : Config where
  nthread := [1, 1]
  closed := by simp
  positive := by simp

/-- A start of the two steps. -/
theorem chain_lifecycle_pair : ∃ s as, (1, true) ∈ s.results ∧
    Contract pair s ∧ ((runsOnce pair).Run .closed as s → JoinedOnce s) := by
  have hstep {s s' : State} (h : RunStep pair s .call s') : (firstStarts pair).step s .call s' :=
    ⟨.run h, nofun⟩
  have hrun := (((((((((Machine.Run.refl (M := firstStarts pair) State.closed).snoc
    ⟨.run (.enter rfl rfl), nofun⟩).snoc
    (hstep (@RunStep.makeUserdata pair _ 1 rfl))).snoc
    (hstep (@RunStep.create pair _ 1 0 0 rfl rfl))).snoc
    (hstep (@RunStep.created pair _ 1 rfl))).snoc
    (hstep (@RunStep.makeUserdata pair _ 0 rfl))).snoc
    (hstep (@RunStep.create pair _ 0 0 1 rfl rfl))).snoc
    (hstep (@RunStep.created pair _ 0 rfl))).snoc
    (hstep (@RunStep.leaveLoop pair _ 0 0 rfl (.inr rfl)))).snoc
    (hstep (.started rfl))
  exact ⟨_, _, List.mem_singleton.mpr rfl, chain_lifecycle pair _ _ hrun⟩

/-- The thread of the first step cannot be created, and `run` returns normally. -/
theorem failed_start_unnoticed : ∃ s as, (system pair).Run .closed as s ∧ (1, true) ∈ s.results ∧
    ¬ Contract pair s := by
  have hstep {s s' : State} (h : RunStep pair s .call s') : (firstStarts pair).step s .call s' :=
    ⟨.run h, nofun⟩
  have hrun := (((((Machine.Run.refl (M := firstStarts pair) State.closed).snoc
    ⟨.run (.enter rfl rfl), nofun⟩).snoc
    (hstep (@RunStep.makeUserdata pair _ 1 rfl))).snoc
    (hstep (@RunStep.create pair _ 1 0 0 rfl rfl))).snoc
    (hstep (@RunStep.created pair _ 1 rfl))).snoc
    (hstep (@RunStep.makeUserdata pair _ 0 rfl))
  obtain ⟨s, hfailed, hresult, hbroken⟩ := @failed_first_start pair _ _ 0 hrun rfl
  have hstart : (system pair).Run .closed _ _ :=
    Machine.Run.mono (M := firstStarts pair) (N := system pair) (fun _ _ _ hs => And.left hs) hrun
  exact ⟨s, _, hstart.trans hfailed, hresult, hbroken⟩

end Jive5ab.Chain
