import Mathlib.Order.Bounds.Defs
import Jive5ab.Trackmask.Sizes

/-! # Sizes there and back

`outputsize` and `inputsize` without the 32 bits: the one says how many words hold
`n` words when they are compressed, the other how many words fit. They are adjoint,
for every solution and every number of words; so with 32 bits `inputsize` is the
largest size that fits as long as it is not wrapped. -/
namespace Jive5ab.Trackmask
open Solution

/-! ## Numbers of whole cycles and a rest -/

/-- Functions that are adjoint in a cycle are so over all cycles. -/
theorem adjoint_cycles {c d : Nat} {f g : Nat → Nat} (hf : ∀ r < c, f r ≤ d) (hg : ∀ m < d, g m < c)
    (h : ∀ r < c, ∀ m < d, f r ≤ m ↔ r ≤ g m) {k j r m : Nat} (hr : r < c) (hm : m < d) :
    k * d + f r ≤ j * d + m ↔ k * c + r ≤ j * c + g m := by
  have hfr := hf r hr
  have hgm := hg m hm
  rcases Nat.lt_trichotomy k j with hlt | rfl | hlt
  · have hd : (k + 1) * d ≤ j * d := Nat.mul_le_mul_right d hlt
    have hc : (k + 1) * c ≤ j * c := Nat.mul_le_mul_right c hlt
    rw [Nat.succ_mul] at hd hc
    omega
  · have hone := h r hr m hm
    omega
  · have hd : (j + 1) * d ≤ k * d := Nat.mul_le_mul_right d hlt
    have hc : (j + 1) * c ≤ k * c := Nat.mul_le_mul_right c hlt
    rw [Nat.succ_mul] at hd hc
    omega

/-! ## In a cycle -/

/-- The words that are begun by the steps that finish `r` words. -/
def begun : List Step → Nat → Nat
  | _, 0 => 0
  | [], _ + 1 => 0
  | s :: ss, r + 1 =>
    if s.incDst then begun ss r + 1
    else if s.decSrc then max 1 (begun ss r)
    else begun ss (r + 1)

/-- The words that are finished by the steps up to the one that fills the `m`th word. -/
def finished : List Step → Nat → Nat
  | _, 0 => 0
  | [], _ + 1 => 0
  | s :: ss, m + 1 =>
    s.incDst.toNat + s.decSrc.toNat + finished ss (if s.incDst then m else m + 1)

theorem length_dones_cons (s : Step) (ss : List Step) :
    (dones (s :: ss)).length = (if s.incDst || s.decSrc then 1 else 0) + (dones ss).length := by
  rw [dones_cons, List.length_append, length_dones_single]

theorem begun_pos {ss : List Step} {r : Nat} (hr : r + 1 ≤ (dones ss).length) :
    1 ≤ begun ss (r + 1) := by
  induction ss with
  | nil => simp [dones] at hr
  | cons s ss ih =>
    rw [length_dones_cons] at hr
    rw [begun]
    split
    · omega
    · split
      · exact Nat.le_max_left _ _
      · rename_i hi hd
        rw [if_neg (by simp [hi, hd])] at hr
        exact ih (by omega)

theorem outputRemain_eq {ss : List Step} {r : Nat} (hr : r ≤ (dones ss).length)
    (last : Option Step) (opsize : Nat) : outputRemain ss r last opsize =
      opsize + if r = 0 then (last.any fun s => !s.incDst).toNat else begun ss r := by
  induction ss generalizing r last opsize with
  | nil =>
    obtain rfl : r = 0 := by simpa [dones] using hr
    rw [outputRemain, if_pos rfl]
    cases last.any fun s => !s.incDst <;> simp
  | cons s ss ih =>
    cases r with
    | zero =>
      rw [outputRemain, if_pos rfl]
      cases last.any fun s => !s.incDst <;> simp
    | succ r =>
      rw [length_dones_cons] at hr
      rw [outputRemain, if_neg (Nat.succ_ne_zero r), begun]
      cases hi : s.incDst with
      | true =>
        rw [hi, Bool.true_or, if_pos rfl] at hr
        rw [Bool.true_or, if_pos rfl, if_pos rfl, ih (by omega), Option.any_some, hi]
        cases r with
        | zero => simp [begun]
        | succ r =>
          rw [if_neg (Nat.succ_ne_zero r), Bool.toNat_true]
          omega
      | false =>
        cases hd : s.decSrc with
        | true =>
          rw [hi, hd, Bool.or_true, if_pos rfl] at hr
          rw [Bool.or_true, if_pos rfl, if_neg Bool.false_ne_true, if_pos rfl, ih (by omega),
            Option.any_some, hi]
          cases r with
          | zero => simp [begun]
          | succ r =>
            have hpos := @begun_pos ss r (by omega)
            rw [if_neg (Nat.succ_ne_zero r), Nat.max_eq_right hpos]
            rfl
        | false =>
          rw [hi, hd, Bool.or_false, if_neg Bool.false_ne_true] at hr
          rw [Bool.or_false, if_neg Bool.false_ne_true, if_neg Bool.false_ne_true,
            if_neg Bool.false_ne_true, ih (by omega), if_neg (Nat.succ_ne_zero r)]
          rfl

theorem inputRemain_eq (ss : List Step) (m : Nat) (last : Option Step) (ipsize : Nat) :
    inputRemain ss m last ipsize =
      ipsize + finished ss m + if m = 0 then (last.any fun s => !s.incDst).toNat else 0 := by
  induction ss generalizing m last ipsize with
  | nil =>
    cases m with
    | zero =>
      rw [inputRemain, finished, if_pos rfl]
      cases last.any fun s => !s.incDst <;> simp
    | succ m =>
      rw [inputRemain, finished, if_neg (Nat.succ_ne_zero m)]
      rfl
  | cons s ss ih =>
    cases m with
    | zero =>
      rw [inputRemain, finished, if_pos rfl]
      cases last.any fun s => !s.incDst <;> simp
    | succ m =>
      rw [inputRemain, ih, finished, if_neg (Nat.succ_ne_zero m)]
      cases hi : s.incDst with
      | true =>
        rw [if_pos rfl, Option.any_some, hi]
        have hzero : (if m = 0 then (!true).toNat else 0) = 0 := by split <;> rfl
        rw [hzero]
        omega
      | false =>
        rw [if_neg Bool.false_ne_true, if_neg (Nat.succ_ne_zero m)]
        omega

/-! The last step of a cycle finishes both words, and no other step does. -/

theorem begun_le {l : Step} (hl : l.incDst = true) (ss : List Step) (r : Nat) :
    begun (ss ++ [l]) r ≤ ss.countP Step.incDst + 1 := by
  induction ss generalizing r with
  | nil =>
    cases r with
    | zero => exact Nat.zero_le _
    | succ r =>
      rw [List.nil_append, begun, if_pos hl]
      cases r <;> exact Nat.le_refl _
  | cons s ss ih =>
    cases r with
    | zero => exact Nat.zero_le _
    | succ r =>
      rw [List.cons_append, begun, List.countP_cons]
      split
      · exact Nat.succ_le_succ (ih r)
      · split
        · exact Nat.max_le.mpr ⟨by omega, ih r⟩
        · exact ih (r + 1)

theorem finished_le {l : Step} (ss : List Step) {m : Nat} (hm : m ≤ ss.countP Step.incDst) :
    finished (ss ++ [l]) m ≤ changes ss := by
  induction ss generalizing m with
  | nil =>
    obtain rfl : m = 0 := by simpa using hm
    exact Nat.zero_le _
  | cons s ss ih =>
    cases m with
    | zero => exact Nat.zero_le _
    | succ m =>
      rw [List.countP_cons] at hm
      rw [List.cons_append, finished, changes_cons]
      cases hi : s.incDst with
      | true =>
        rw [hi, if_pos rfl] at hm
        rw [if_pos rfl]
        exact Nat.add_le_add_left (ih (by omega)) _
      | false =>
        rw [hi, if_neg Bool.false_ne_true] at hm
        rw [if_neg Bool.false_ne_true]
        exact Nat.add_le_add_left (ih hm) _

theorem begun_le_iff {ss : List Step} {l : Step} (hnot : (true, true) ∉ dones ss)
    (hl : l.incDst = true) {r m : Nat} (hr : r ≤ (dones ss).length + 1)
    (hm : m ≤ ss.countP Step.incDst) :
    begun (ss ++ [l]) r ≤ m ↔ r ≤ finished (ss ++ [l]) m := by
  induction ss generalizing r m with
  | nil =>
    obtain rfl : m = 0 := by simpa using hm
    cases r with
    | zero => simp [begun]
    | succ r =>
      rw [List.nil_append, begun, if_pos hl, finished]
      omega
  | cons s ss ih =>
    rw [dones_cons, List.mem_append, not_or, both_mem_single] at hnot
    cases r with
    | zero => simp [begun]
    | succ r =>
      rw [length_dones_cons] at hr
      rw [List.countP_cons] at hm
      rw [List.cons_append]
      cases m with
      | zero =>
        have hpos : 1 ≤ begun (s :: (ss ++ [l])) (r + 1) := begun_pos (by
          rw [← List.cons_append, dones_append, List.length_append, length_dones_cons,
            length_dones_single, hl]
          simpa using hr)
        rw [finished]
        omega
      | succ m =>
        rw [begun, finished]
        cases hi : s.incDst with
        | true =>
          have hd : s.decSrc = false := Bool.eq_false_iff.mpr fun hd => hnot.1 ⟨hi, hd⟩
          rw [hi, Bool.true_or, if_pos rfl] at hr
          rw [hi, if_pos rfl] at hm
          have hrest := @ih hnot.2 r m (by omega) (by omega)
          rw [if_pos rfl, if_pos rfl, hd, Bool.toNat_true, Bool.toNat_false]
          omega
        | false =>
          rw [hi, if_neg Bool.false_ne_true] at hm
          rw [if_neg Bool.false_ne_true, if_neg Bool.false_ne_true]
          cases hd : s.decSrc with
          | true =>
            rw [hi, hd, Bool.or_true, if_pos rfl] at hr
            have hrest := @ih hnot.2 r (m + 1) (by omega) hm
            rw [if_pos rfl, Bool.toNat_true, Bool.toNat_false, Nat.max_le]
            omega
          | false =>
            rw [hi, hd, Bool.or_false, if_neg Bool.false_ne_true] at hr
            have hrest := @ih hnot.2 (r + 1) (m + 1) (by omega) hm
            rw [if_neg Bool.false_ne_true, Bool.toNat_false]
            omega

/-! ## Over all cycles -/

/-- `outputsize` with all its bits. -/
def Solution.compressedWords (s : Solution) (n : Nat) : Nat :=
  outputRemain s.steps (n % s.cycle) none (n / s.cycle * s.nDstinc)

/-- `inputsize` with all its bits. -/
def Solution.fittingWords (s : Solution) (n : Nat) : Nat :=
  inputRemain s.steps (n % s.nDstinc) none (n / s.nDstinc * s.cycle)

variable {mask : Word} {s : Solution}

theorem Solved.outputsize_eq (h : Solved mask s) (n : Nat) :
    s.outputsize n = some (s.compressedWords n % 2 ^ 32) := if_pos ⟨h.complete, h.cycle_pos⟩

theorem Solved.inputsize_eq (h : Solved mask s) (n : Nat) :
    s.inputsize n = some (s.fittingWords n % 2 ^ 32) := if_pos ⟨h.cycle_pos, h.nDstinc_pos⟩

theorem Solved.compressedWords_eq (h : Solved mask s) (n : Nat) :
    s.compressedWords n = n / s.cycle * s.nDstinc + begun s.steps (n % s.cycle) := by
  have hlt := Nat.mod_lt n h.cycle_pos
  have hlen := h.length_dones
  rw [compressedWords, outputRemain_eq (by omega)]
  split
  · rename_i hz
    rw [hz, begun]
    rfl
  · rfl

theorem Solved.fittingWords_eq (h : Solved mask s) (n : Nat) :
    s.fittingWords n = n / s.nDstinc * s.cycle + finished s.steps (n % s.nDstinc) := by
  rw [fittingWords, inputRemain_eq]
  split <;> rfl

/-- `n` words fit in `m` compressed words exactly when they are no more than fit. -/
theorem Solved.compressedWords_le_iff (h : Solved mask s) (n m : Nat) :
    s.compressedWords n ≤ m ↔ n ≤ s.fittingWords m := by
  obtain ⟨init, l, hsteps, hinc, hdec, hnot, hcycle⟩ := h.init_steps
  have hdst : s.nDstinc = init.countP Step.incDst + 1 := by
    rw [h.nDstinc, hsteps, dones_append, List.countP_append, dones_single_fst, hinc,
      countP_dones_fst]
    rfl
  have hlen := changes_eq_length hnot
  have hn := Nat.div_add_mod' n s.cycle
  have hm := Nat.div_add_mod' m s.nDstinc
  have hadj := @adjoint_cycles s.cycle s.nDstinc (begun s.steps) (finished s.steps)
    (fun r _ => by
      rw [hsteps, hdst]
      exact begun_le hinc init r)
    (fun k hk => by
      have hle := @finished_le l init k (by omega)
      rw [hsteps]
      omega)
    (fun r hr k hk => by
      rw [hsteps]
      exact begun_le_iff hnot hinc (by omega) (by omega))
    (n / s.cycle) (m / s.nDstinc) (n % s.cycle) (m % s.nDstinc) (Nat.mod_lt _ h.cycle_pos)
    (Nat.mod_lt _ h.nDstinc_pos)
  rw [hn, hm] at hadj
  rw [h.compressedWords_eq, h.fittingWords_eq]
  exact hadj

theorem Solved.compressedWords_le (h : Solved mask s) (n : Nat) : s.compressedWords n ≤ n := by
  have hcycles : n / s.cycle * s.nDstinc ≤ n / s.cycle * s.cycle :=
    Nat.mul_le_mul_left _ (Nat.le_of_succ_le h.nDstinc_le)
  have hdiv : n / s.cycle * s.cycle + n % s.cycle = n := Nat.div_add_mod' n s.cycle
  have hlt := Nat.mod_lt n h.cycle_pos
  have hlen := h.length_dones
  rw [compressedWords]
  cases hr : n % s.cycle with
  | zero =>
    rw [outputRemain, Option.any_none, if_neg Bool.false_ne_true]
    omega
  | succ r =>
    obtain ⟨-, hhi⟩ := @outputRemain_bounds s.steps r (by omega) none (n / s.cycle * s.nDstinc)
    omega

/-- The sizes that fit: numbers of words in 32 bits whose compressed size is no more than `n`. -/
def Solution.Fits (s : Solution) (n : Nat) : Set Nat :=
  {k | k < 2 ^ 32 ∧ ∃ m, s.outputsize k = some m ∧ m ≤ n}

theorem Solved.mem_fits (h : Solved mask s) (n k : Nat) :
    k ∈ s.Fits n ↔ k < 2 ^ 32 ∧ k ≤ s.fittingWords n := by
  rw [← h.compressedWords_le_iff]
  constructor
  · rintro ⟨hk, m, hm, hle⟩
    have hsize := h.compressedWords_le k
    rw [h.outputsize_eq, Nat.mod_eq_of_lt (by omega)] at hm
    obtain rfl := Option.some.inj hm
    exact ⟨hk, hle⟩
  · rintro ⟨hk, hle⟩
    have hsize := h.compressedWords_le k
    exact ⟨hk, _, h.outputsize_eq k, by rwa [Nat.mod_eq_of_lt (by omega)]⟩

/-- `inputsize` is the largest size that fits exactly when the largest number of words whose
compressed size is no more than `n` has 32 bits, or is wrapped to the largest of them. -/
theorem inputsize_greatest_iff (mask : Word) (s : Solution) (h : Built mask s)
    (hcomplete : s.complete = true) (n : Nat) :
    (∃ k, s.inputsize n = some k ∧ IsGreatest (s.Fits n) k) ↔
      ∃ k, s.compressedWords k ≤ n ∧ n < s.compressedWords (k + 1) ∧
        (k < 2 ^ 32 ∨ k % 2 ^ 32 = 2 ^ 32 - 1) := by
  have hs := h.solved hcomplete
  have hlast : ∀ k, s.compressedWords k ≤ n ∧ n < s.compressedWords (k + 1) ↔
      k = s.fittingWords n := by
    intro k
    rw [← Nat.not_le, hs.compressedWords_le_iff, hs.compressedWords_le_iff]
    omega
  have hright : (∃ k, s.compressedWords k ≤ n ∧ n < s.compressedWords (k + 1) ∧
      (k < 2 ^ 32 ∨ k % 2 ^ 32 = 2 ^ 32 - 1)) ↔
      s.fittingWords n < 2 ^ 32 ∨ s.fittingWords n % 2 ^ 32 = 2 ^ 32 - 1 := by
    constructor
    · rintro ⟨k, hle, hlt, hk⟩
      rwa [(hlast k).mp ⟨hle, hlt⟩] at hk
    · intro hk
      obtain ⟨hle, hlt⟩ := (hlast _).mpr rfl
      exact ⟨_, hle, hlt, hk⟩
  rw [hright, hs.inputsize_eq]
  constructor
  · rintro ⟨k, hk, hmem, htop⟩
    obtain rfl := Option.some.inj hk
    by_contra hnot
    have hbig : 2 ^ 32 - 1 ∈ s.Fits n := (hs.mem_fits n _).mpr (by omega)
    have hle := htop hbig
    omega
  · intro hk
    refine ⟨_, rfl, (hs.mem_fits n _).mpr (by omega), fun k hmem => ?_⟩
    obtain ⟨hlt, hle⟩ := (hs.mem_fits n k).mp hmem
    omega

theorem inputsize_greatest_half : (∃ k, (solve 0xFFFFFFFF).inputsize 8 = some k ∧
      IsGreatest ((solve 0xFFFFFFFF).Fits 8) k) ↔
    ∃ k, (solve 0xFFFFFFFF).compressedWords k ≤ 8 ∧ 8 < (solve 0xFFFFFFFF).compressedWords (k + 1) ∧
      (k < 2 ^ 32 ∨ k % 2 ^ 32 = 2 ^ 32 - 1) :=
  have hcomplete : (solve 0xFFFFFFFF).complete = true := by decide +kernel
  inputsize_greatest_iff 0xFFFFFFFF _ (solve_built hcomplete) hcomplete 8

/-- Two words go into one with this mask, so 2^32 would fit into 2^31: that is wrapped to
none at all. -/
theorem inputsize_wraps : (solve 0xFFFFFFFF).complete = true ∧
    ¬ ∃ k, (solve 0xFFFFFFFF).inputsize (2 ^ 31) = some k ∧
      IsGreatest ((solve 0xFFFFFFFF).Fits (2 ^ 31)) k := by
  refine ⟨by decide +kernel, ?_⟩
  rintro ⟨k, hk, -, htop⟩
  have hzero : (solve 0xFFFFFFFF).inputsize (2 ^ 31) = some 0 := by decide +kernel
  obtain rfl := Option.some.inj (hzero.symm.trans hk)
  have hone : 1 ∈ (solve 0xFFFFFFFF).Fits (2 ^ 31) :=
    ⟨by decide, 1, by decide +kernel, by decide⟩
  exact absurd (htop hone) (by decide)

end Jive5ab.Trackmask
