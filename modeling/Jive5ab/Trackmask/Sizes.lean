import Jive5ab.Trackmask.SolverSoundness

/-! # Sizes before and after

How many words the steps finish, and what `outputsize` and `inputsize` make of it:
compression makes a block shorter but never empty, and its inverse makes one
longer, as long as 32 bits hold the result. -/
namespace Jive5ab.Trackmask
open Solution

/-! ## Words that are done -/

/-- How often a step fills its destination word or empties its source word. -/
def changes (ss : List Step) : Nat := ss.countP Step.incDst + ss.countP Step.decSrc

theorem changes_append (xs ys : List Step) : changes (xs ++ ys) = changes xs + changes ys := by
  unfold changes
  rw [List.countP_append, List.countP_append]
  omega

theorem changes_single (s : Step) : changes [s] = s.incDst.toNat + s.decSrc.toNat := by
  unfold changes
  cases hi : s.incDst <;> cases hd : s.decSrc <;> simp [hi, hd]

theorem changes_cons (s : Step) (ss : List Step) :
    changes (s :: ss) = s.incDst.toNat + s.decSrc.toNat + changes ss := by
  rw [← List.singleton_append, changes_append, changes_single]

theorem changes_replicate (n : Nat) (ss : List Step) :
    changes (List.replicate n ss).flatten = n * changes ss := by
  induction n with
  | zero => simp [changes]
  | succ n ih =>
    rw [List.replicate_succ, List.flatten_cons, changes_append, ih, Nat.succ_mul, Nat.add_comm]

theorem dones_cons (s : Step) (ss : List Step) :
    dones (s :: ss) = dones [s] ++ dones ss := dones_append [s] ss

theorem countP_dones_fst (ss : List Step) : (dones ss).countP Prod.fst = ss.countP Step.incDst := by
  induction ss with
  | nil => rfl
  | cons s ss ih =>
    rw [dones_cons, List.countP_append, dones_single_fst, List.countP_cons, ih, Nat.add_comm]
    cases s.incDst <;> simp

theorem countP_dones_snd (ss : List Step) : (dones ss).countP Prod.snd = ss.countP Step.decSrc := by
  induction ss with
  | nil => rfl
  | cons s ss ih =>
    rw [dones_cons, List.countP_append, dones_single_snd, List.countP_cons, ih, Nat.add_comm]
    cases s.decSrc <;> simp

theorem length_dones_single (s : Step) :
    (dones [s]).length = if s.incDst || s.decSrc then 1 else 0 := by
  cases hi : s.incDst <;> cases hd : s.decSrc <;> simp [dones, eligible, hi, hd]

/-- As long as no step does both, each changes one word. -/
theorem changes_eq_length {ss : List Step} (h : (true, true) ∉ dones ss) :
    changes ss = (dones ss).length := by
  induction ss with
  | nil => rfl
  | cons s ss ih =>
    rw [dones_cons, List.mem_append, not_or, both_mem_single] at h
    rw [dones_cons, List.length_append, length_dones_single, changes_cons, ih h.2]
    have hboth := h.1
    cases hi : s.incDst <;> cases hd : s.decSrc <;> simp_all

variable {mask : Word} {s : Solution}

theorem Solved.changes_steps (h : Solved mask s) : changes s.steps = s.cycle := by
  rw [changes, cycle, h.nDstinc, h.nSrcdec, countP_dones_fst, countP_dones_snd, Nat.add_comm]

/-- The steps before the last one of a cycle: each of the other words is done once. -/
theorem Solved.init_steps (h : Solved mask s) : ∃ init l, s.steps = init ++ [l] ∧ l.incDst = true ∧
    l.decSrc = true ∧ (true, true) ∉ dones init ∧ s.cycle = changes init + 2 := by
  obtain ⟨init, l, hsteps, hinc, hdec, hnot⟩ := h.last
  refine ⟨init, l, hsteps, hinc, hdec, hnot, ?_⟩
  rw [← h.changes_steps, hsteps, changes_append, changes_single, hinc, hdec]
  rfl

/-! ## The sizes -/

theorem outputRemain_bounds {ss : List Step} {r : Nat} (hr : r + 1 ≤ (dones ss).length)
    (last : Option Step) (opsize : Nat) : opsize + 1 ≤ outputRemain ss (r + 1) last opsize ∧
      outputRemain ss (r + 1) last opsize ≤ opsize + (r + 1) := by
  induction ss generalizing r last opsize with
  | nil => simp [dones] at hr
  | cons s ss ih =>
    rw [dones_cons, List.length_append, length_dones_single] at hr
    rw [outputRemain]
    cases hdone : s.incDst || s.decSrc with
    | false =>
      rw [hdone, if_neg Bool.false_ne_true, Nat.zero_add] at hr
      have hinc : s.incDst = false := (Bool.or_eq_false_iff.mp hdone).1
      rw [if_neg Bool.false_ne_true, hinc]
      exact ih hr _ _
    | true =>
      rw [hdone, if_pos rfl] at hr
      rw [if_pos rfl]
      cases r with
      | zero =>
        rw [outputRemain]
        cases hi : s.incDst <;> simp [hi]
      | succ r =>
        obtain ⟨hlo, hhi⟩ := @ih r (by omega) (some s) (opsize + s.incDst.toNat)
        have hle := Bool.toNat_le s.incDst
        omega

theorem inputRemain_bounds {ss : List Step} {r : Nat} (hr : r + 1 ≤ ss.countP Step.incDst)
    (last : Option Step) (ipsize : Nat) : ipsize + (r + 1) ≤ inputRemain ss (r + 1) last ipsize ∧
      inputRemain ss (r + 1) last ipsize ≤ ipsize + changes ss := by
  induction ss generalizing r last ipsize with
  | nil => simp at hr
  | cons s ss ih =>
    rw [List.countP_cons] at hr
    rw [inputRemain, changes_cons]
    cases hi : s.incDst with
    | false =>
      rw [hi, if_neg Bool.false_ne_true] at hr
      obtain ⟨hlo, hhi⟩ := ih hr (some s) (ipsize + s.decSrc.toNat + false.toNat)
      rw [if_neg Bool.false_ne_true]
      rw [Bool.toNat_false] at *
      omega
    | true =>
      rw [hi, if_pos rfl] at hr
      rw [if_pos rfl, Bool.toNat_true]
      cases r with
      | zero =>
        rw [inputRemain, Option.any_some, hi, Bool.not_true, if_neg Bool.false_ne_true]
        omega
      | succ r =>
        obtain ⟨hlo, hhi⟩ := @ih r (by omega) (some s) (ipsize + s.decSrc.toNat + 1)
        omega

theorem Solved.length_dones (h : Solved mask s) : (dones s.steps).length + 1 = s.cycle := by
  obtain ⟨init, l, hsteps, hinc, hdec, hnot, hcycle⟩ := h.init_steps
  rw [hsteps, dones_append, List.length_append, length_dones_single, hinc, hcycle,
    changes_eq_length hnot]
  simp

theorem Solved.nDstinc_pos (h : Solved mask s) : 0 < s.nDstinc := by
  obtain ⟨init, l, hsteps, hinc, -, -⟩ := h.last
  rw [h.nDstinc, hsteps, dones_append, List.countP_append, dones_single_fst, hinc]
  simp

theorem Solved.nDstinc_le (h : Solved mask s) : s.nDstinc + 1 ≤ s.cycle := by
  obtain ⟨init, l, hsteps, -, hdec, -⟩ := h.last
  have hsrc : 0 < s.nSrcdec := by
    rw [h.nSrcdec, hsteps, dones_append, List.countP_append, dones_single_snd, hdec]
    simp
  rw [cycle]
  omega

theorem Solved.cycle_pos (h : Solved mask s) : 0 < s.cycle := by
  have hpos := h.nDstinc_pos
  have hle := h.nDstinc_le
  omega

/-- A compressed block is not longer than the block, and only that of no words is empty. -/
theorem Solved.outputsize_bounds (h : Solved mask s) {n : Nat} (hn : n < 2 ^ 32) :
    ∃ m, s.outputsize n = some m ∧ m ≤ n ∧ (0 < n → 0 < m) := by
  have hpos := h.cycle_pos
  have hdst := h.nDstinc_pos
  have hcycles : n / s.cycle * s.nDstinc ≤ n / s.cycle * s.cycle :=
    Nat.mul_le_mul_left _ (Nat.le_of_succ_le h.nDstinc_le)
  have hdiv : n / s.cycle * s.cycle + n % s.cycle = n := Nat.div_add_mod' n s.cycle
  rw [outputsize, if_pos ⟨h.complete, hpos⟩]
  have hrest : n / s.cycle * s.nDstinc ≤
        outputRemain s.steps (n % s.cycle) none (n / s.cycle * s.nDstinc) ∧
      outputRemain s.steps (n % s.cycle) none (n / s.cycle * s.nDstinc) ≤ n ∧
      (0 < n → 0 < outputRemain s.steps (n % s.cycle) none (n / s.cycle * s.nDstinc)) := by
    cases hr : n % s.cycle with
    | zero =>
      rw [outputRemain, Option.any_none, if_neg Bool.false_ne_true]
      refine ⟨Nat.le_refl _, by omega, fun hn => Nat.mul_pos (Nat.pos_of_ne_zero ?_) hdst⟩
      intro hzero
      rw [hzero, hr] at hdiv
      omega
    | succ r =>
      have hlt := Nat.mod_lt n hpos
      have hlen := h.length_dones
      obtain ⟨hlo, hhi⟩ := @outputRemain_bounds s.steps r (by omega) none
        (n / s.cycle * s.nDstinc)
      omega
  rw [Nat.mod_eq_of_lt (by omega)]
  exact ⟨_, rfl, hrest.2.1, hrest.2.2⟩

/-- What has to be read for `n` words of output is not less than these, if 32 bits hold
whole cycles of it. -/
theorem Solved.inputsize_bounds (h : Solved mask s) {n : Nat} (hn : (n + 1) * s.cycle < 2 ^ 32) :
    ∃ k, s.inputsize n = some k ∧ n ≤ k ∧ k ≤ (n + 1) * s.cycle := by
  have hdst := h.nDstinc_pos
  have hdiv : n / s.nDstinc * s.nDstinc + n % s.nDstinc = n := Nat.div_add_mod' n s.nDstinc
  have hcycles : n / s.nDstinc * s.nDstinc ≤ n / s.nDstinc * s.cycle :=
    Nat.mul_le_mul_left _ (Nat.le_of_succ_le h.nDstinc_le)
  have htop : (n / s.nDstinc + 1) * s.cycle ≤ (n + 1) * s.cycle :=
    Nat.mul_le_mul_right _ (Nat.succ_le_succ (Nat.div_le_self n s.nDstinc))
  rw [Nat.succ_mul] at htop
  rw [inputsize, if_pos ⟨h.cycle_pos, hdst⟩]
  have hrest : n ≤ inputRemain s.steps (n % s.nDstinc) none (n / s.nDstinc * s.cycle) ∧
      inputRemain s.steps (n % s.nDstinc) none (n / s.nDstinc * s.cycle) ≤ (n + 1) * s.cycle := by
    cases hr : n % s.nDstinc with
    | zero =>
      rw [inputRemain, Option.any_none, if_neg Bool.false_ne_true]
      omega
    | succ r =>
      have hlt := Nat.mod_lt n hdst
      have hcount := h.nDstinc
      rw [countP_dones_fst] at hcount
      obtain ⟨hlo, hhi⟩ := @inputRemain_bounds s.steps r (by omega) none
        (n / s.nDstinc * s.cycle)
      rw [h.changes_steps] at hhi
      omega
  rw [Nat.mod_eq_of_lt (by omega)]
  exact ⟨_, rfl, hrest⟩

/-! ## The solver's solutions -/

theorem solve_zero : solve 0 = empty := by decide

/-- What the solver returns: nothing, or a solution that is complete. -/
theorem solve_cases (mask : Word) : solve mask = empty ∨ Solved mask (solve mask) := by
  by_cases hmask : mask = 0
  · exact Or.inl (hmask ▸ solve_zero)
  · by_cases hc : (solve mask).complete = true
    · exact Or.inr (solve_solved hmask hc)
    · refine Or.inl ?_
      unfold solve at hc ⊢
      cases hs : solveLoop 100 (ofMask mask) with
      | none => rfl
      | some s =>
        obtain ⟨-, hcomplete⟩ := solveLoop_solving hmask 100 (solving_start hmask) hs
        rw [hs] at hc
        exact absurd hcomplete hc

end Jive5ab.Trackmask
