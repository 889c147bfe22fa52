import Jive5ab.Chain.Steps
import Jive5ab.Lib.Tally

/-! # The last thread of a run

Each thread takes itself off the count of the chain under the mutex. The one that brings it to zero
calls the final functions, without the mutex: the run is still on, since nobody has joined it. -/
namespace Jive5ab.Chain
open Lib

/-- The chain still counts the thread. -/
def Stage.early : Stage → Bool
  | .running | .returned | .counted _ | .outputDisabled | .leaving => true
  | _ => false

/-- The thread was the last one to be counted. -/
def Stage.last : Stage → Bool
  | .left 0 | .finalizing => true
  | _ => false

inductive ThreadCase (t : Tid) (s s' : State) : Prop
  | moves : (s.thread t).stage.early = true → (s'.thread t).stage.early = true →
      s'.nthreads = s.nthreads → s'.finals = s.finals → s'.finalized = s.finalized →
      ThreadCase t s s'
  | leaves : (s.thread t).stage = .leaving → s.holder = none → s'.nthreads = s.nthreads - 1 →
      (s'.thread t).stage = .left (s.nthreads - 1) → s'.finals = s.finals →
      s'.finalized = s.finalized → ThreadCase t s s'
  | begins : (s.thread t).stage = .left 0 → (s'.thread t).stage = .finalizing →
      s'.nthreads = s.nthreads → s'.finals = s.finals ++ [s.runNr] →
      s'.finalized = s.finalized → ThreadCase t s s'
  | skips : (s.thread t).stage = .left 0 → s.running = false ∨ s.finalized = true → ThreadCase t s s'
  | finishes : (s.thread t).stage = .finalizing → (s'.thread t).stage = .ended →
      s'.nthreads = s.nthreads → s'.finals = s.finals → ThreadCase t s s'
  | quits (n : Nat) : (s.thread t).stage = .left (n + 1) → (s'.thread t).stage = .ended →
      s'.nthreads = s.nthreads → s'.finals = s.finals → s'.finalized = s.finalized →
      ThreadCase t s s'

theorem ThreadStep.threadCase {cfg : Config} {t : Tid} {s s' : State}
    (hstep : ThreadStep cfg t s s') : ThreadCase t s s' := by
  have hself (s : State) (stage : Stage) : ((s.setStage t stage).thread t).stage = stage := by
    rw [State.setStage_self]
  cases hstep with
  | functionReturns h => exact .moves (by rw [h]; rfl) (by rw [hself]; rfl) rfl rfl rfl
  | count h => exact .moves (by rw [h]; rfl) (by rw [hself]; rfl) rfl rfl rfl
  | disableOutput h => exact .moves (by rw [h]; rfl) (by rw [hself]; rfl) rfl rfl rfl
  | disableInput h => exact .moves (by rw [h]; rfl) (by rw [hself]; rfl) rfl rfl rfl
  | notLast h => exact .moves (by rw [h]; rfl) (by rw [hself]; rfl) rfl rfl rfl
  | leave h hh => exact .leaves h hh rfl (hself _ _) rfl rfl
  | doFinals h => exact .begins h (hself _ _) rfl rfl rfl
  | noFinals h hno => exact .skips h hno
  | finalized h => exact .finishes h (hself _ _) rfl rfl
  | notLastOfChain h => exact .quits _ h (hself _ _) rfl rfl rfl

/-- How far the current run is from its final functions. -/
inductive Ending (s : State) : Prop
  | starting : s.starting = true → (∀ t, (s.thread t).stage.last = false) → s.runNr ∉ s.finals →
      Ending s
  | counting : s.starting = false → 0 < s.nthreads → s.finalized = false →
      (∀ t, (s.thread t).stage.last = false) → s.runNr ∉ s.finals → Ending s
  | threadless : s.starting = false → s.nthreads = 0 →
      (∀ t, (s.thread t).stage ≠ .unborn → (s.thread t).run ≠ s.runNr) → Ending s
  | last (t : Tid) : s.starting = false → s.nthreads = 0 → s.finalized = false →
      (s.thread t).stage = .left 0 → (∀ u, u ≠ t → (s.thread u).stage.last = false) →
      s.runNr ∉ s.finals → Ending s
  | finals (t : Tid) : s.starting = false → s.nthreads = 0 → (s.thread t).stage = .finalizing →
      (∀ u, u ≠ t → (s.thread u).stage.last = false) → s.runNr ∈ s.finals → Ending s
  | ended : s.starting = false → s.nthreads = 0 → (∀ t, (s.thread t).stage.last = false) →
      s.runNr ∈ s.finals → Ending s

structure Counts (s : State) : Prop where
  early : Tally s.thread (fun th => th.stage.early = true) s.nthreads
  holding : s.holding = true → ∀ t, (s.thread t).stage ≠ .unborn → (s.thread t).run = s.runNr →
    (s.thread t).stage.early = true
  finals_le : ∀ r ∈ s.finals, r ≤ s.runNr
  nodup : s.finals.Nodup
  ending : Ending s

theorem Threads.current {cfg : Config} {s : State} (h : Threads cfg s) {t : Tid}
    (hborn : (s.thread t).stage ≠ .unborn) (hended : (s.thread t).stage ≠ .ended) :
    (s.thread t).run = s.runNr := by
  by_contra hne
  exact hended (h.old t hborn (Nat.lt_of_le_of_ne (h.run_le t hborn) hne)).1

theorem State.holding_of_starting {s : State} (h : s.starting = true) : s.holding = true := by
  obtain ⟨w, hw, hstart⟩ : ∃ w, s.holder = some w ∧ w.starting = true := by
    cases hh : s.holder with
    | none =>
      rw [State.starting_of hh] at h
      cases h
    | some w =>
      rw [State.starting_of hh] at h
      exact ⟨w, rfl, h⟩
  rw [State.holding_of hw, Option.any_some]
  cases w with
  | disabling | joinAndCleanup | deleting => cases hstart
  | _ => rfl

/-- A thread that is past the mutex keeps the chain running. -/
theorem Counts.past_running {cfg : Config} {s : State} (ht : Threads cfg s) (h : Counts s) {t : Tid}
    (hborn : (s.thread t).stage ≠ .unborn) (hended : (s.thread t).stage ≠ .ended)
    (hpast : (s.thread t).stage.early = false) : s.starting = false ∧ s.running = true := by
  have hstart : s.starting = false := by
    rw [Bool.eq_false_iff]
    intro hstart
    have hearly := h.holding (State.holding_of_starting hstart) t hborn (ht.current hborn hended)
    rw [hpast] at hearly
    cases hearly
  refine ⟨hstart, ?_⟩
  rw [← Bool.not_eq_false]
  intro hstop
  exact hended (ht.quiet hstop hstart t hborn).1

/-- A step of a thread that is not one of the last, and does not become one. -/
theorem Ending.work {cfg : Config} {t : Tid} {s s' : State} (ht : Threads cfg s) (h : Ending s)
    (hw : Works t s s') (hold : (s.thread t).stage.last = false)
    (hnew : (s'.thread t).stage.last = false) (hnthreads : s'.nthreads = s.nthreads)
    (hfinals : s'.finals = s.finals) (hfinalized : s'.finalized = s.finalized) : Ending s' := by
  have hstart : s'.starting = s.starting := by rw [State.starting, State.starting, hw.holder]
  have hnone {p : Tid → Prop} (hs : ∀ u, p u → (s.thread u).stage.last = false) (u : Tid)
      (hu : p u) : (s'.thread u).stage.last = false := by
    obtain rfl | hne := eq_or_ne u t
    · exact hnew
    · rw [hw.others u hne]
      exact hs u hu
  have hall (hs : ∀ u, (s.thread u).stage.last = false) (u : Tid) :
      (s'.thread u).stage.last = false := @hnone (fun _ => True) (fun v _ => hs v) u trivial
  have hne {u : Tid} {stage : Stage} (hu : (s.thread u).stage = stage) (hl : stage.last = true) :
      u ≠ t := by
    rintro rfl
    rw [hu, hl] at hold
    cases hold
  have hmem : s'.runNr ∈ s'.finals ↔ s.runNr ∈ s.finals := by rw [hw.runNr, hfinals]
  cases h with
  | starting h1 h2 h3 =>
    exact .starting (hstart.trans h1) (hall h2) (mt hmem.mp h3)
  | counting h1 h2 h3 h4 h5 =>
    exact .counting (hstart.trans h1) (hnthreads ▸ h2) (hfinalized.trans h3)
      (hall h4) (mt hmem.mp h5)
  | threadless h1 h2 h3 =>
    exact absurd (ht.current hw.alive.1 hw.alive.2) (h3 t hw.alive.1)
  | last u h1 h2 h3 h4 h5 h6 =>
    refine .last u (hstart.trans h1) (hnthreads.trans h2) (hfinalized.trans h3) ?_ (hnone h5)
      (mt hmem.mp h6)
    rwa [hw.others u (hne h4 rfl)]
  | finals u h1 h2 h3 h4 h5 =>
    refine .finals u (hstart.trans h1) (hnthreads.trans h2) ?_ (hnone h4) (hmem.mpr h5)
    rwa [hw.others u (hne h3 rfl)]
  | ended h1 h2 h3 h4 =>
    exact .ended (hstart.trans h1) (hnthreads.trans h2) (hall h3)
      (hmem.mpr h4)

theorem Ending.at_last {s : State} {t : Tid} (h : Ending s) (hcur : (s.thread t).run = s.runNr)
    (hborn : (s.thread t).stage ≠ .unborn) (ht : (s.thread t).stage = .left 0) :
    s.starting = false ∧ s.nthreads = 0 ∧ s.finalized = false ∧
      (∀ u, u ≠ t → (s.thread u).stage.last = false) ∧ s.runNr ∉ s.finals := by
  have hlast (hno : (s.thread t).stage.last = false) : False := by
    rw [ht] at hno
    cases hno
  cases h with
  | starting h1 h2 => exact (hlast (h2 t)).elim
  | counting h1 h2 h3 h4 => exact (hlast (h4 t)).elim
  | threadless h1 h2 h3 => exact absurd hcur (h3 t hborn)
  | last u h1 h2 h3 h4 h5 h6 =>
    obtain rfl | hu := eq_or_ne t u
    · exact ⟨h1, h2, h3, h5, h6⟩
    · exact (hlast (h5 t hu)).elim
  | finals u h1 h2 h3 h4 h5 =>
    obtain rfl | hu := eq_or_ne t u
    · exact absurd (ht.symm.trans h3) nofun
    · exact (hlast (h4 t hu)).elim
  | ended h1 h2 h3 => exact (hlast (h3 t)).elim

theorem Ending.at_finals {s : State} {t : Tid} (h : Ending s) (hcur : (s.thread t).run = s.runNr)
    (hborn : (s.thread t).stage ≠ .unborn) (ht : (s.thread t).stage = .finalizing) :
    s.starting = false ∧ s.nthreads = 0 ∧
      (∀ u, u ≠ t → (s.thread u).stage.last = false) ∧ s.runNr ∈ s.finals := by
  have hlast (hno : (s.thread t).stage.last = false) : False := by
    rw [ht] at hno
    cases hno
  cases h with
  | starting h1 h2 => exact (hlast (h2 t)).elim
  | counting h1 h2 h3 h4 => exact (hlast (h4 t)).elim
  | threadless h1 h2 h3 => exact absurd hcur (h3 t hborn)
  | last u h1 h2 h3 h4 h5 =>
    obtain rfl | hu := eq_or_ne t u
    · exact absurd (ht.symm.trans h4) nofun
    · exact (hlast (h5 t hu)).elim
  | finals u h1 h2 h3 h4 h5 =>
    obtain rfl | hu := eq_or_ne t u
    · exact ⟨h1, h2, h4, h5⟩
    · exact (hlast (h4 t hu)).elim
  | ended h1 h2 h3 => exact (hlast (h3 t)).elim

theorem Works.thread {t : Tid} {s s' : State} (h : Works t s s') :
    s'.thread = Function.update s.thread t (s'.thread t) := by
  ext1 u
  obtain rfl | hu := eq_or_ne u t
  · rw [Function.update_self]
  · rw [Function.update_of_ne hu, h.others u hu]

/-- A thread that has the mutex, or had it, is not one of a run that holds it. -/
theorem Works.holding {t : Tid} {s s' : State} (h : Counts s)
    (hw : Works t s s') (hearly : (s.thread t).stage.early = true → s.holding = true →
      (s'.thread t).stage.early = true) : s'.holding = true →
    ∀ u, (s'.thread u).stage ≠ .unborn → (s'.thread u).run = s'.runNr →
      (s'.thread u).stage.early = true := by
  intro hhold u hu hrun
  rw [State.holding, hw.holder] at hhold
  have hu : (s.thread u).stage ≠ .unborn := mt (hw.unborn u).mpr hu
  rw [hw.run, hw.runNr] at hrun
  have hbefore := h.holding hhold u hu hrun
  obtain rfl | hne := eq_or_ne u t
  · exact hearly hbefore hhold
  · rwa [hw.others u hne]

theorem Counts.work {cfg : Config} {t : Tid} {s s' : State} (ht : Threads cfg s) (h : Counts s)
    (hstep : ThreadStep cfg t s s') : Counts s' := by
  have hw := hstep.works
  have hstart : s'.starting = s.starting := by rw [State.starting, State.starting, hw.holder]
  have hrunNr := hw.runNr
  have hcur : (s.thread t).run = s.runNr := ht.current hw.alive.1 hw.alive.2
  cases hstep.threadCase with
  | moves hold hnew hnthreads hfinals hfinalized =>
    have hlast {st : Stage} (hearly : st.early = true) : st.last = false := by
      cases st with
      | left | finalizing => cases hearly
      | _ => rfl
    refine ⟨?_, hw.holding h fun _ _ => hnew, ?_, ?_,
      h.ending.work ht hw (hlast hold) (hlast hnew) hnthreads hfinals hfinalized⟩
    · rw [hw.thread, hnthreads]
      exact h.early.keep (by rw [hold, hnew])
    · rw [hfinals, hrunNr]
      exact h.finals_le
    · rw [hfinals]
      exact h.nodup
  | leaves hold hh hnthreads hnew hfinals hfinalized =>
    have hidle : s.holding = false := State.holding_of hh
    have hearly : (s.thread t).stage.early = true := by rw [hold]; rfl
    have hpos : 0 < s.nthreads := h.early.pos hearly
    have hsucc : s.nthreads = (s.nthreads - 1) + 1 := by omega
    refine ⟨?_, hw.holding h fun _ hhold =>
      absurd (hidle.symm.trans hhold) Bool.false_ne_true, ?_, ?_, ?_⟩
    · rw [hw.thread, hnthreads]
      refine Tally.lose (hsucc ▸ h.early) hearly ?_
      rw [hnew]
      exact Bool.false_ne_true
    · rw [hfinals, hrunNr]
      exact h.finals_le
    · rw [hfinals]
      exact h.nodup
    · have hlast : (s.thread t).stage.last = false := by rw [hold]; rfl
      cases h.ending with
      | counting h1 h2 h3 h4 h5 =>
        have hmem : s'.runNr ∉ s'.finals := by rwa [hrunNr, hfinals]
        have hothers (u : Tid) (hu : u ≠ t) : (s'.thread u).stage.last = false := by
          rw [hw.others u hu]
          exact h4 u
        cases hn : s.nthreads - 1 with
        | zero =>
          exact .last t (hstart.trans h1) (hnthreads.trans hn) (hfinalized.trans h3)
            (hnew.trans (congrArg Stage.left hn)) hothers hmem
        | succ n =>
          refine .counting (hstart.trans h1) (by omega) (hfinalized.trans h3) (fun u => ?_) hmem
          obtain rfl | hu := eq_or_ne u t
          · rw [hnew, hn]
            rfl
          · exact hothers u hu
      | starting h1 => exact absurd ((State.starting_of hh).symm.trans h1) (by decide)
      | threadless h1 h2 => omega
      | last u h1 h2 => omega
      | finals u h1 h2 => omega
      | ended h1 h2 => omega
  | begins hold hnew hnthreads hfinals hfinalized =>
    obtain ⟨h1, h2, h3, h4, h5⟩ := h.ending.at_last hcur hw.alive.1 hold
    refine ⟨?_, hw.holding h fun hearly => ?_, ?_, ?_, ?_⟩
    · rw [hw.thread, hnthreads]
      exact h.early.keep (by rw [hold, hnew]; rfl)
    · rw [hold] at hearly
      cases hearly
    · rw [hfinals, hrunNr]
      intro r hr
      obtain hr | hr := List.mem_append.mp hr
      · exact h.finals_le r hr
      · exact Nat.le_of_eq (List.mem_singleton.mp hr)
    · rw [hfinals]
      exact List.nodup_append.mpr ⟨h.nodup, List.nodup_singleton _, by
        intro r hr q hq
        obtain rfl := List.mem_singleton.mp hq
        rintro rfl
        exact h5 hr⟩
    · refine .finals t (hstart.trans h1) (hnthreads.trans h2) hnew (fun u hu => ?_) ?_
      · rw [hw.others u hu]
        exact h4 u hu
      · rw [hrunNr, hfinals]
        simp
  | skips hold hno =>
    obtain ⟨-, hrunning⟩ := h.past_running ht hw.alive.1 hw.alive.2 (by rw [hold]; rfl)
    obtain ⟨-, -, h3, -, -⟩ := h.ending.at_last hcur hw.alive.1 hold
    obtain hstop | hfinalized := hno
    · exact absurd (hrunning.symm.trans hstop) (by decide)
    · exact absurd (h3.symm.trans hfinalized) (by decide)
  | finishes hold hnew hnthreads hfinals =>
    obtain ⟨h1, h2, h3, h4⟩ := h.ending.at_finals hcur hw.alive.1 hold
    refine ⟨?_, hw.holding h fun hearly => ?_, ?_, ?_, ?_⟩
    · rw [hw.thread, hnthreads]
      exact h.early.keep (by rw [hold, hnew]; rfl)
    · rw [hold] at hearly
      cases hearly
    · rw [hfinals, hrunNr]
      exact h.finals_le
    · rw [hfinals]
      exact h.nodup
    · refine .ended (hstart.trans h1) (hnthreads.trans h2) (fun u => ?_) ?_
      · obtain rfl | hu := eq_or_ne u t
        · rw [hnew]
          rfl
        · rw [hw.others u hu]
          exact h3 u hu
      · rwa [hrunNr, hfinals]
  | quits n hold hnew hnthreads hfinals hfinalized =>
    refine ⟨?_, hw.holding h fun hearly => ?_, ?_, ?_, h.ending.work ht hw (by rw [hold]; rfl)
      (by rw [hnew]; rfl) hnthreads hfinals hfinalized⟩
    · rw [hw.thread, hnthreads]
      exact h.early.keep (by rw [hold, hnew]; rfl)
    · rw [hold] at hearly
      cases hearly
    · rw [hfinals, hrunNr]
      exact h.finals_le
    · rw [hfinals]
      exact h.nodup

theorem Ending.call {s s' : State} (h : Ending s) (hc : Calls s s') : Ending s' := by
  have hnone {p : Tid → Prop} (hs : ∀ u, p u → (s.thread u).stage.last = false) (u : Tid)
      (hu : p u) : (s'.thread u).stage.last = false := by
    rw [hc.stage]
    exact hs u hu
  have hall (hs : ∀ u, (s.thread u).stage.last = false) (u : Tid) :
      (s'.thread u).stage.last = false := @hnone (fun _ => True) (fun v _ => hs v) u trivial
  have hmem : s'.runNr ∈ s'.finals ↔ s.runNr ∈ s.finals := by rw [hc.runNr, hc.finals]
  cases h with
  | starting h1 => exact absurd (hc.starting.symm.trans h1) nofun
  | counting h1 h2 h3 h4 h5 =>
    exact .counting hc.starting' (hc.nthreads ▸ h2) (hc.finalized.trans h3) (hall h4)
      (mt hmem.mp h5)
  | threadless h1 h2 h3 =>
    refine .threadless hc.starting' (hc.nthreads.trans h2) fun u hu => ?_
    rw [hc.run, hc.runNr]
    exact h3 u (by rwa [← hc.stage])
  | last u h1 h2 h3 h4 h5 h6 =>
    exact .last u hc.starting' (hc.nthreads.trans h2) (hc.finalized.trans h3)
      ((hc.stage u).trans h4) (hnone h5) (mt hmem.mp h6)
  | finals u h1 h2 h3 h4 h5 =>
    exact .finals u hc.starting' (hc.nthreads.trans h2) ((hc.stage u).trans h3) (hnone h4)
      (hmem.mpr h5)
  | ended h1 h2 h3 h4 =>
    exact .ended hc.starting' (hc.nthreads.trans h2) (hall h3) (hmem.mpr h4)

theorem Counts.call {cfg : Config} {s s' : State} (hf : Flags s) (h : Counts s)
    (hstep : CallStep cfg s s') : Counts s' := by
  have hc := hstep.calls hf
  constructor
  · rw [hc.nthreads]
    exact h.early.congr fun t => by rw [hc.stage]
  · intro hhold t
    rw [hc.stage, hc.run, hc.runNr]
    exact h.holding (hc.holding hhold) t
  · rw [hc.finals, hc.runNr]
    exact h.finals_le
  · rw [hc.finals]
    exact h.nodup
  · exact h.ending.call hc

theorem Ending.of_starting {s : State} (h : Ending s) (hstart : s.starting = true) :
    (∀ t, (s.thread t).stage.last = false) ∧ s.runNr ∉ s.finals := by
  cases h with
  | starting _ h2 h3 => exact ⟨h2, h3⟩
  | counting h1 | threadless h1 | last _ h1 | finals _ h1 | ended h1 =>
    exact absurd (h1.symm.trans hstart) nofun

theorem Counts.run {cfg : Config} {s s' : State} {a : Label} (ht : Threads cfg s) (h : Counts s)
    (hstep : RunStep cfg s a s') : Counts s' := by
  cases hstep.runCase with
  | enter hh hrunning hs' =>
    subst hs'
    have hended (t : Tid) (hborn : (s.thread t).stage ≠ .unborn) : (s.thread t).stage = .ended :=
      (ht.quiet hrunning (State.starting_of hh) t hborn).1
    have hidle (t : Tid) : (s.thread t).stage = .unborn ∨ (s.thread t).stage = .ended :=
      or_iff_not_imp_left.mpr (hended t)
    have hnew : s.runNr + 1 ∉ s.finals := fun hr => absurd (h.finals_le _ hr) (Nat.not_succ_le_self _)
    refine ⟨.zero fun t => ?_, fun _ t hborn hrun => ?_,
      fun r hr => Nat.le_succ_of_le (h.finals_le r hr), h.nodup, .starting rfl (fun t => ?_) hnew⟩
    · obtain hst | hst := hidle t <;> simp [hst, Stage.early]
    · have hrun : (s.thread t).run = s.runNr + 1 := hrun
      have hle := ht.run_le t hborn
      omega
    · obtain hst | hst := hidle t <;> simp [hst, Stage.last]
  | create left n t hh hunborn hs' =>
    subst hs'
    have hstart : s.starting = true := State.starting_of hh
    obtain ⟨hlast, hfinals⟩ := h.ending.of_starting hstart
    have hall (p : Tid → Thread → Prop) (hnew : p t ⟨left, s.runNr, .running, 0⟩)
        (hold : ∀ u, p u (s.thread u)) :
        ∀ u, p u (Function.update s.thread t ⟨left, s.runNr, .running, 0⟩ u) :=
      (Function.forall_update_iff s.thread p).mpr ⟨hnew, fun u _ => hold u⟩
    refine ⟨h.early.gain (by simp [hunborn, Stage.early]) rfl, fun _ => ?_, h.finals_le, h.nodup,
      .starting rfl ?_ hfinals⟩
    · exact hall (fun _ th => th.stage ≠ .unborn → th.run = s.runNr → th.stage.early = true)
        (fun _ _ => rfl) (h.holding (State.holding_of_starting hstart))
    · exact hall (fun _ th => th.stage.last = false) rfl hlast
  | prepares hp =>
    have hearly := h.holding (State.holding_of_starting hp.starting)
    obtain ⟨hlast, hfinals⟩ := h.ending.of_starting hp.starting
    refine ⟨?_, ?_, ?_, ?_, ?_⟩
    · rw [hp.thread, hp.nthreads]
      exact h.early
    · rw [hp.thread, hp.runNr]
      exact fun _ => hearly
    · rw [hp.finals, hp.runNr]
      exact h.finals_le
    · rw [hp.finals]
      exact h.nodup
    · rw [← hp.thread] at hlast
      rw [← hp.finals, ← hp.runNr] at hfinals
      cases hstart : s'.starting with
      | true => exact .starting hstart hlast hfinals
      | false =>
        obtain hzero | hpos := Nat.eq_zero_or_pos s.nthreads
        · refine .threadless hstart (hp.nthreads.trans hzero) fun t hborn hrun => ?_
          rw [hp.thread] at hborn hrun
          rw [hp.runNr] at hrun
          have hpos := h.early.pos (hearly t hborn hrun)
          omega
        · exact .counting hstart (hp.nthreads ▸ hpos) (hp.finalized hstart) hlast hfinals

end Jive5ab.Chain
