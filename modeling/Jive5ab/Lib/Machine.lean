import Mathlib

/-! # Labelled machines and their runs

A machine is a set of initial states and a labelled step relation. A run keeps
its labels in order, so that a safety property may speak of the history as well
as of the state it ends in. The last step comes off first: an invariant is
proved by one induction, from what a single step preserves. -/
namespace Jive5ab.Lib

structure Machine (σ α : Type*) where
  init : σ → Prop
  step : σ → α → σ → Prop

variable {σ α : Type*} {M : Machine σ α}

inductive Machine.Run (M : Machine σ α) : σ → List α → σ → Prop
  | refl (s : σ) : Machine.Run M s [] s
  | snoc {s t u : σ} {as : List α} {a : α} :
      M.Run s as t → M.step t a u → M.Run s (as ++ [a]) u

def Machine.Reachable (M : Machine σ α) (s : σ) : Prop :=
  ∃ s₀ as, M.init s₀ ∧ M.Run s₀ as s

theorem Machine.Run.single {s t : σ} {a : α} (h : M.step s a t) : M.Run s [a] t := by
  simpa using Run.snoc (.refl s) h

theorem Machine.Run.trans {s t u : σ} {as bs : List α} (h : M.Run s as t) (k : M.Run t bs u) :
    M.Run s (as ++ bs) u := by
  induction k with
  | refl => simpa using h
  | snoc _ hs ih => rw [← List.append_assoc]; exact .snoc ih hs

/-- A run of two pieces goes through a state between them. -/
theorem Machine.Run.split {s u : σ} {as bs : List α} (h : M.Run s (as ++ bs) u) :
    ∃ t, M.Run s as t ∧ M.Run t bs u := by
  generalize hcs : as ++ bs = cs at h
  induction h generalizing bs with
  | refl =>
    obtain ⟨rfl, rfl⟩ := List.append_eq_nil_iff.mp hcs
    exact ⟨_, .refl _, .refl _⟩
  | @snoc v w cs c hrun hstep ih =>
    rcases List.eq_nil_or_concat bs with rfl | ⟨ds, d, rfl⟩
    · rw [List.append_nil] at hcs
      exact ⟨w, hcs ▸ .snoc hrun hstep, .refl w⟩
    · rw [List.concat_eq_append, ← List.append_assoc] at hcs
      obtain ⟨hds, hd⟩ := List.append_inj' hcs rfl
      obtain ⟨t, hst, htv⟩ := ih hds
      obtain rfl : d = c := List.singleton_inj.mp hd
      refine ⟨t, hst, ?_⟩
      rw [List.concat_eq_append]
      exact .snoc htv hstep

theorem Machine.Run.split_cons {s u : σ} {a : α} {as : List α} (h : M.Run s (a :: as) u) :
    ∃ t, M.step s a t ∧ M.Run t as u := by
  obtain ⟨t, hst, htu⟩ := @Machine.Run.split σ α M s u [a] as h
  refine ⟨t, ?_, htu⟩
  generalize has : [a] = bs at hst
  cases hst with
  | refl => cases has
  | @snoc v w cs c hrun hstep =>
    obtain ⟨hnil, hac⟩ := List.append_inj' (show [] ++ [a] = cs ++ [c] from has) rfl
    obtain rfl : a = c := List.singleton_inj.mp hac
    subst hnil
    generalize hes : ([] : List α) = es at hrun
    cases hrun with
    | refl => exact hstep
    | snoc _ _ => simp at hes

/-- A run of a machine is one of every machine with its steps. -/
theorem Machine.Run.mono {N : Machine σ α} (hstep : ∀ s a t, M.step s a t → N.step s a t) {s t : σ}
    {as : List α} (h : M.Run s as t) : N.Run s as t := by
  induction h with
  | refl => exact .refl _
  | snoc _ hs ih => exact .snoc ih (hstep _ _ _ hs)

theorem Machine.Run.reachable {s t : σ} {as : List α} (h : M.Run s as t) (hs : M.init s) :
    M.Reachable t := ⟨s, as, hs, h⟩

/-- What holds at the start and is kept by every step holds at the end. -/
theorem Machine.Run.invariant {s t : σ} {as : List α} (I : σ → Prop)
    (hstep : ∀ s a t, I s → M.step s a t → I t) (h : M.Run s as t) : I s → I t := by
  induction h with
  | refl => exact id
  | snoc _ hs ih => exact fun h0 => hstep _ _ _ (ih h0) hs

theorem Machine.Reachable.init {s : σ} (h : M.init s) : M.Reachable s := ⟨s, [], h, .refl s⟩

theorem Machine.Reachable.step {s t : σ} {a : α} (h : M.Reachable s) (k : M.step s a t) :
    M.Reachable t := by
  obtain ⟨s₀, as, h0, hr⟩ := h
  exact ⟨s₀, as ++ [a], h0, .snoc hr k⟩

theorem Machine.Reachable.invariant {s : σ} (I : σ → Prop) (h0 : ∀ s, M.init s → I s)
    (hstep : ∀ s a t, I s → M.step s a t → I t) (h : M.Reachable s) : I s := by
  obtain ⟨s₀, as, hi, hr⟩ := h
  exact hr.invariant I hstep (h0 s₀ hi)

/-- The machine of a deterministic step function that may be disabled. -/
def ofFn (init : σ → Prop) (f : σ → α → Option σ) : Machine σ α where
  init := init
  step s a t := f s a = some t

/-- A run of the function, label by label, is a run of its machine. -/
theorem ofFn_run {init : σ → Prop} {f : σ → α → Option σ} {s t : σ} {as : List α}
    (h : as.foldlM f s = some t) : (ofFn init f).Run s as t := by
  induction as generalizing s with
  | nil =>
    obtain rfl := Option.some.inj h
    exact .refl s
  | cons a as ih =>
    rw [List.foldlM_cons, Option.bind_eq_bind, Option.bind_eq_some_iff] at h
    obtain ⟨u, hu, hrest⟩ := h
    exact (Machine.Run.single (M := ofFn init f) hu).trans (ih hrest)

end Jive5ab.Lib
