import Jive5ab.Trackmask.SolverSoundness

/-! # What `sanitize` moves

An eligible range is solved again, four steps deep at most, and what comes out takes
its place whether it is done or not: only the two properties of the last step are
copied. Bits that four steps do not reach stay behind, and the word counts as
done. -/
namespace Jive5ab.Trackmask
open Lib.Bits Solution

/-! ## The solutions that are sanitized -/

/-- What `solve` goes on with after `n` rounds. -/
inductive Found (mask : Word) : Nat → Solution → Prop where
  | start : Found mask 0 (ofMask mask)
  | round {n : Nat} {s t : Solution} : Found mask n s → n < 100 → s.complete = false →
      partialSolve s 3 = some t → Found mask (n + 1) t

/-- Produced by `solve`: found, or about to be sanitized in one of the rounds. -/
def Produced (mask : Word) (s : Solution) : Prop :=
  ∃ n r, Found mask n r ∧
    (s = r ∨ n < 100 ∧ r.complete = false ∧ partialSolveWith id 3 r = some s)

theorem partialSolveWith_map (san : Solution → Solution) (left : Nat) (s : Solution) :
    partialSolveWith san left s = (partialSolveWith id left s).map san := by
  induction left generalizing s with
  | zero => rfl
  | succ left ih =>
    unfold partialSolveWith
    split
    · rfl
    · cases possibilities s with
      | none => rfl
      | some t => exact ih t

/-- What a round of `solve` sanitizes is found. -/
theorem Found.sanitized {mask : Word} {n : Nat} {r s : Solution} (h : Found mask n r)
    (hn : n < 100) (hr : r.complete = false) (hs : partialSolveWith id 3 r = some s) :
    Found mask (n + 1) (sanitize 2 s) :=
  .round h hn hr (by rw [partialSolve, partialSolveWith_map, hs]; rfl)

theorem solveLoop_found {mask : Word} {niter n : Nat} {s s' : Solution} (h : Found mask n s)
    (hn : n + niter ≤ 100) (hs : solveLoop niter s = some s') : ∃ m, Found mask m s' := by
  induction niter generalizing n s with
  | zero =>
    unfold solveLoop at hs
    split at hs
    · obtain rfl := Option.some.inj hs
      exact ⟨n, h⟩
    · cases hs
  | succ niter ih =>
    unfold solveLoop at hs
    split at hs
    · obtain rfl := Option.some.inj hs
      exact ⟨n, h⟩
    · rename_i hc
      obtain ⟨t, ht, hrest⟩ := Option.bind_eq_some_iff.mp hs
      exact ih (h.round (by omega) (Bool.eq_false_iff.mpr hc) ht) (by omega) hrest

theorem produced_solve {mask : Word} (h : (solve mask).complete = true) :
    Produced mask (solve mask) := by
  unfold solve at h ⊢
  cases hs : solveLoop 100 (ofMask mask) with
  | none =>
    rw [hs] at h
    cases h
  | some s =>
    obtain ⟨m, hm⟩ := solveLoop_found .start (Nat.le_of_eq (Nat.zero_add 100)) hs
    exact ⟨m, s, hm, .inl rfl⟩

theorem possibilities_none {s : Solution} (h : s.maskIn = 0) : possibilities s = none := by
  cases hp : possibilities s with
  | none => rfl
  | some t =>
    obtain ⟨-, step, hstep, -⟩ := possibilities_spec hp
    exact absurd (Within.zero (h ▸ hstep.source)) hstep.moves

theorem Found.solving {mask : Word} (hmask : mask ≠ 0) {n : Nat} {s : Solution}
    (h : Found mask n s) : Solving mask s := by
  induction h with
  | start => exact solving_start hmask
  | round _ _ _ ht ih => exact partialSolve_solving hmask 3 ih ht

theorem partialSolveWith_zero (san : Solution → Solution) (left : Nat) :
    partialSolveWith san (left + 1) (ofMask 0) = none := by
  have hopen : (ofMask 0).complete = false := by decide
  unfold partialSolveWith
  rw [hopen, possibilities_none rfl]
  rfl

/-- Without bits to keep there is nothing to start with. -/
theorem Found.zero {n : Nat} {s : Solution} (h : Found 0 n s) : s = ofMask 0 := by
  induction h with
  | start => rfl
  | round _ _ _ ht ih =>
    rw [ih, partialSolve, partialSolveWith_zero] at ht
    cases ht

theorem Produced.legal {mask : Word} {s : Solution} (h : Produced mask s) :
    s.trackmask = mask ∧ Legal mask ⟨0, mask⟩ s.steps := by
  obtain ⟨n, r, hr, hs⟩ := h
  by_cases hmask : mask = 0
  · subst hmask
    obtain rfl := hr.zero
    rcases hs with rfl | ⟨-, -, hs⟩
    · exact ⟨rfl, trivial⟩
    · rw [partialSolveWith_zero] at hs
      cases hs
  · have hsolving : Solving mask s := by
      rcases hs with rfl | ⟨-, -, hs⟩
      · exact hr.solving hmask
      · exact partialSolveWith_solving hmask (fun _ ht => ht) 3 (hr.solving hmask) hs
    exact ⟨hsolving.trackmask, hsolving.legal⟩

/-! ## What the steps move -/

/-- For each stretch of steps, up to one that finishes a word: the bits it takes and
the places it moves them to. -/
def movesFrom : Word → Word → List Step → List (Word × Word)
  | taken, places, [] => [(taken, places)]
  | taken, places, s :: ss =>
    if eligible s then movesFrom (taken ||| s.maskFrom) (places ||| s.maskTo) ss
    else (taken ||| s.maskFrom, places ||| s.maskTo) :: movesFrom 0 0 ss

def moves (ss : List Step) : List (Word × Word) := movesFrom 0 0 ss

/-- The two words when one of them is done: the bits that are still present in the
source, and the places that are taken in the destination. -/
structure Balance where
  incDst : Bool
  decSrc : Bool
  present : Word
  taken : Word
  deriving DecidableEq

/-- The books of the steps, which are kept without looking at the solution's own. -/
def balances (mask : Word) : Word → Word → List Step → List Balance
  | present, taken, [] => [⟨false, false, present, taken⟩]
  | present, taken, s :: ss =>
    let present := present &&& ~~~s.maskFrom
    let taken := taken ||| s.maskTo
    if eligible s then balances mask present taken ss
    else ⟨s.incDst, s.decSrc, present, taken⟩ ::
      balances mask (if s.decSrc then mask else present) (if s.incDst then mask else taken) ss

def Solution.balances (s : Solution) : List Balance :=
  Trackmask.balances s.trackmask s.trackmask s.trackmask s.steps

/-- No word is left with bits in it, or with places free in it. -/
def Balance.Clean (b : Balance) : Prop :=
  (b.decSrc = true → b.present = 0) ∧ (b.incDst = true → b.taken = trackmaskFull)

/-- Complete by its steps, not only by what is left to be done. -/
def Solution.Whole (s : Solution) : Prop := s.complete = true ∧ ∀ b ∈ s.balances, b.Clean

structure Preserves (s s' : Solution) : Prop where
  moves : moves s'.steps = moves s.steps
  balances : s'.balances = s.balances
  whole : s.Whole → s'.Whole

/-! ## The condition -/

/-- Shift as many bits as possible, `left` times at most: how often, and the bits that
stay. -/
def shiftOut : Nat → Word → Word → Nat × Word
  | 0, source, _ => (0, source)
  | left + 1, source, places =>
    if source = 0 then (0, source)
    else
      match mostBits (possibleSteps source places) with
      | none => (0, source)
      | some s =>
        let (shifts, rest) := shiftOut left (source &&& ~~~s.maskFrom) (places &&& ~~~s.maskTo)
        (shifts + 1, rest)

def eligibleRanges (s : Solution) : List (List Step) :=
  ((findEligibleRanges s.steps []).filter Prod.fst).map Prod.snd

def shiftRange (ss : List Step) : Nat × Word := shiftOut 4 (fromsOf ss) (tosOf ss)

/-- Four shifts are enough for every eligible range, or shifting saves no steps. -/
def Keeps (s : Solution) : Prop :=
  (∀ ss ∈ eligibleRanges s, (shiftRange ss).2 = 0) ∨
    ((eligibleRanges s).map List.length).sum ≤
      ((eligibleRanges s).map fun ss => (shiftRange ss).1).sum

/-! ## Ranges and what stands for them -/

theorem movesFrom_quiet (taken places : Word) {ss : List Step} (rest : List Step)
    (hquiet : ∀ s ∈ ss, eligible s = true) :
    movesFrom taken places (ss ++ rest) =
      movesFrom (taken ||| fromsOf ss) (places ||| tosOf ss) rest := by
  induction ss generalizing taken places with
  | nil => simp [fromsOf, tosOf]
  | cons s ss ih =>
    rw [List.cons_append, movesFrom, if_pos (hquiet s (by simp)),
      ih _ _ fun x hx => hquiet x (by simp [hx]), BitVec.or_assoc, BitVec.or_assoc]
    rfl

theorem movesFrom_range {init : List Step} {l : Step} (rest : List Step)
    (hquiet : ∀ s ∈ init, eligible s = true) (hl : eligible l = false) :
    movesFrom 0 0 (init ++ [l] ++ rest) =
      (fromsOf (init ++ [l]), tosOf (init ++ [l])) :: movesFrom 0 0 rest := by
  have hzero : ∀ x : Word, 0 ||| x = x := fun _ => BitVec.zero_or
  rw [List.append_assoc, movesFrom_quiet 0 0 _ hquiet, List.singleton_append, movesFrom, hl,
    if_neg Bool.false_ne_true, hzero, hzero, fromsOf_snoc, tosOf_snoc]

theorem balances_quiet (mask present taken : Word) {ss : List Step} (rest : List Step)
    (hquiet : ∀ s ∈ ss, eligible s = true) :
    balances mask present taken (ss ++ rest) =
      balances mask (present &&& ~~~fromsOf ss) (taken ||| tosOf ss) rest := by
  induction ss generalizing present taken with
  | nil =>
    have hpresent : present &&& ~~~fromsOf [] = present := BitVec.and_allOnes
    have htaken : taken ||| tosOf [] = taken := BitVec.or_zero
    rw [List.nil_append, hpresent, htaken]
  | cons s ss ih =>
    have hfrom : ~~~fromsOf (s :: ss) = ~~~s.maskFrom &&& ~~~fromsOf ss := BitVec.not_or
    have hto : tosOf (s :: ss) = s.maskTo ||| tosOf ss := rfl
    rw [List.cons_append, balances, if_pos (hquiet s (by simp)),
      ih _ _ fun x hx => hquiet x (by simp [hx]), hfrom, hto, BitVec.and_assoc, BitVec.or_assoc]

theorem balances_range (mask present taken : Word) {init : List Step} {l : Step} (rest : List Step)
    (hquiet : ∀ s ∈ init, eligible s = true) (hl : eligible l = false) :
    balances mask present taken (init ++ [l] ++ rest) =
      ⟨l.incDst, l.decSrc, present &&& ~~~fromsOf (init ++ [l]), taken ||| tosOf (init ++ [l])⟩ ::
        balances mask (if l.decSrc then mask else present &&& ~~~fromsOf (init ++ [l]))
          (if l.incDst then mask else taken ||| tosOf (init ++ [l])) rest := by
  have hnot : ~~~fromsOf (init ++ [l]) = ~~~fromsOf init &&& ~~~l.maskFrom := by
    rw [fromsOf_snoc, BitVec.not_or]
  rw [List.append_assoc, balances_quiet mask present taken _ hquiet, List.singleton_append, balances,
    hl, if_neg Bool.false_ne_true, hnot, tosOf_snoc, BitVec.and_assoc, BitVec.or_assoc]

/-- What stands for a range moves the same bits to the same places. -/
def Kept (old new : List Step) : Prop := fromsOf new = fromsOf old ∧ tosOf new = tosOf old

/-- The step that finishes a word comes last in what stands for a range, too. -/
structure Stands (l : Step) (new : List Step) (init : List Step) (m : Step) : Prop where
  steps : new = init ++ [m]
  quiet : ∀ s ∈ init, eligible s = true
  incDst : m.incDst = l.incDst
  decSrc : m.decSrc = l.decSrc

theorem Stands.eligible {l m : Step} {new init : List Step} (h : Stands l new init m) :
    Solution.eligible m = Solution.eligible l := by
  unfold Solution.eligible
  rw [h.incDst, h.decSrc]

/-- Ranges may be replaced by `f` as far as their last steps are concerned. -/
structure Replaces (f : Bool × List Step → List Step) (b : Bool × List Step) : Prop where
  stays : b.1 = false → f b = b.2
  stands : b.1 = true → ∀ range l, b.2 = range ++ [l] → ∃ init m, Stands l (f b) init m

theorem Replaces.range {f : Bool × List Step → List Step} {b : Bool} {range : List Step} {l : Step}
    (h : Replaces f (b, range ++ [l])) (hquiet : ∀ s ∈ range, eligible s = true) :
    ∃ init m, Stands l (f (b, range ++ [l])) init m := by
  cases b with
  | false => exact ⟨range, l, h.stays rfl, hquiet, rfl, rfl⟩
  | true => exact h.stands rfl range l rfl

theorem moves_ranges_iff {f : Bool × List Step → List Step} {ss range : List Step}
    (hquiet : ∀ s ∈ range, eligible s = true)
    (hf : ∀ b ∈ findEligibleRanges ss range, Replaces f b) :
    moves ((findEligibleRanges ss range).flatMap f) = moves (range ++ ss) ↔
      ∀ b ∈ findEligibleRanges ss range, Kept b.2 (f b) := by
  induction ss generalizing range with
  | nil =>
    have hsame : f (false, range) = range := (hf (false, range) (List.mem_singleton.mpr rfl)).stays rfl
    simp [findEligibleRanges, hsame, Kept]
  | cons s ss ih =>
    rw [List.append_cons]
    unfold findEligibleRanges at hf ⊢
    split at hf
    · rename_i hs
      rw [if_pos hs]
      refine ih (fun x hx => ?_) hf
      rcases List.mem_append.mp hx with hx | hx
      · exact hquiet x hx
      · obtain rfl := List.mem_singleton.mp hx
        exact hs
    · rename_i hs
      rw [if_neg hs]
      rw [Bool.not_eq_true] at hs
      obtain ⟨init, m, hm⟩ := (hf _ List.mem_cons_self).range hquiet
      have hrest := @ih [] (List.forall_mem_nil _) fun b hb => hf b (List.mem_cons_of_mem _ hb)
      rw [List.flatMap_cons, List.forall_mem_cons, ← hrest, hm.steps]
      unfold moves Kept
      rw [movesFrom_range _ hm.quiet (hm.eligible.trans hs), movesFrom_range _ hquiet hs,
        List.cons.injEq, Prod.mk.injEq]
      rfl

theorem balances_ranges {f : Bool × List Step → List Step} {ss range : List Step}
    (mask present taken : Word) (hquiet : ∀ s ∈ range, eligible s = true)
    (hf : ∀ b ∈ findEligibleRanges ss range, Replaces f b)
    (hkept : ∀ b ∈ findEligibleRanges ss range, Kept b.2 (f b)) :
    balances mask present taken ((findEligibleRanges ss range).flatMap f) =
      balances mask present taken (range ++ ss) := by
  induction ss generalizing range present taken with
  | nil =>
    have hsame : f (false, range) = range := (hf (false, range) (List.mem_singleton.mpr rfl)).stays rfl
    simp [findEligibleRanges, hsame]
  | cons s ss ih =>
    rw [List.append_cons]
    unfold findEligibleRanges at hf hkept ⊢
    split at hf
    · rename_i hs
      rw [if_pos hs] at hkept ⊢
      refine ih present taken (fun x hx => ?_) hf hkept
      rcases List.mem_append.mp hx with hx | hx
      · exact hquiet x hx
      · obtain rfl := List.mem_singleton.mp hx
        exact hs
    · rename_i hs
      rw [if_neg hs] at hkept ⊢
      rw [Bool.not_eq_true] at hs
      obtain ⟨init, m, hm⟩ := (hf _ List.mem_cons_self).range hquiet
      obtain ⟨hfrom, hto⟩ := hkept _ List.mem_cons_self
      rw [hm.steps] at hfrom hto
      rw [List.flatMap_cons, hm.steps, balances_range _ _ _ _ hm.quiet (hm.eligible.trans hs),
        balances_range _ _ _ _ hquiet hs, hm.incDst, hm.decSrc, hfrom, hto]
      exact congrArg _ (ih _ _ (List.forall_mem_nil _) (fun b hb => hf b (List.mem_cons_of_mem _ hb))
        fun b hb => hkept b (List.mem_cons_of_mem _ hb))

/-! ## Solving a range again -/

theorem mostBits_isSome {ss : List Step} (h : ss ≠ []) : ∃ s, mostBits ss = some s := by
  cases ss with
  | nil => exact absurd rfl h
  | cons s ss =>
    unfold mostBits
    split
    · exact ⟨s, rfl⟩
    · split
      · exact ⟨_, rfl⟩
      · exact ⟨s, rfl⟩

theorem exists_bit {x : Word} (h : x ≠ 0) : ∃ i, x.getLsbD i = true := by
  by_contra hnone
  refine h (BitVec.eq_of_getLsbD_eq fun i _ => ?_)
  rw [getLsbD_none]
  exact Bool.eq_false_iff.mpr fun hi => hnone ⟨i, hi⟩

/-- Some bit can be shifted to some place. -/
theorem possibleSteps_ne_nil {source places : Word} (hs : source ≠ 0) (hp : places ≠ 0) :
    possibleSteps source places ≠ [] := by
  obtain ⟨i, hi⟩ := exists_bit hs
  obtain ⟨j, hj⟩ := exists_bit hp
  have hilt : i < 64 := BitVec.lt_of_getLsbD hi
  have hjlt : j < 64 := BitVec.lt_of_getLsbD hj
  rcases Nat.lt_or_ge j i with hji | hij
  · have hbit : ((source >>> (i - j)) &&& places).getLsbD j = true := by
      rw [BitVec.getLsbD_and, BitVec.getLsbD_ushiftRight, Nat.sub_add_cancel (by omega), hi, hj]
      rfl
    have hne : (source >>> (i - j)) &&& places ≠ 0 := fun hz => by
      rw [hz, getLsbD_none] at hbit
      cases hbit
    have hstep : rightStep source places (i - j - 1 + 1) =
        some (.make (((source >>> (i - j)) &&& places) <<< (i - j))
          ((source >>> (i - j)) &&& places) (-((i - j : Nat) : Int))) := by
      rw [Nat.sub_add_cancel (by omega), rightStep]
      exact if_pos hne
    exact List.ne_nil_of_mem (List.mem_append_left _
      (List.mem_filterMap.mpr ⟨i - j - 1, List.mem_range.mpr (by omega), hstep⟩))
  · have hbit : ((source <<< (j - i)) &&& places).getLsbD j = true := by
      have hge : ¬ j < j - i := by omega
      have hback : j - (j - i) = i := by omega
      rw [BitVec.getLsbD_and, BitVec.getLsbD_shiftLeft, hback, hi, hj]
      simp [hjlt, hge]
    have hne : (source <<< (j - i)) &&& places ≠ 0 := fun hz => by
      rw [hz, getLsbD_none] at hbit
      cases hbit
    have hstep : leftStep source places (j - i) =
        some (.make (((source <<< (j - i)) &&& places) >>> (j - i))
          ((source <<< (j - i)) &&& places) ((j - i : Nat) : Int)) := by
      rw [leftStep]
      exact if_pos hne
    exact List.ne_nil_of_mem (List.mem_append_right _
      (List.mem_filterMap.mpr ⟨j - i, List.mem_range.mpr (by omega), hstep⟩))

/-- The bits that were moved, and those that are left, are those of the range. -/
structure Covers (F T : Word) (s : Solution) : Prop where
  froms : fromsOf s.steps ||| s.maskIn = F
  tos : tosOf s.steps ||| ~~~s.maskOut = T
  apart : Apart s.maskIn (fromsOf s.steps)
  even : card s.maskIn = card (~~~s.maskOut)

theorem covers_start {F T : Word} (h : card F = card T) : Covers F T (ofMove F (~~~T)) where
  froms := BitVec.zero_or
  tos := by
    show 0 ||| ~~~(~~~T) = T
    rw [BitVec.not_not]
    exact BitVec.zero_or
  apart := apart_zero F
  even := by
    show card F = card (~~~(~~~T))
    rw [BitVec.not_not, h]

theorem Covers.open {F T : Word} {s : Solution} (h : Covers F T s) (hc : s.complete = false) :
    s.maskIn ≠ 0 := by
  intro hz
  have hempty : s.srcEmpty = true := beq_iff_eq.mpr hz
  rw [complete_eq, dstFull_eq_srcEmpty h.even, hempty] at hc
  cases hfc : s.fullCycle <;> simp [hfc] at hc

theorem complete_maskIn {s : Solution} (hc : s.complete = true) : s.maskIn = 0 := by
  rw [complete_eq, Bool.and_eq_true] at hc
  exact beq_iff_eq.mp hc.1

/-- Neither word is started anew while a range is solved. -/
theorem record_masks_even {s : Solution} (step : Step) (h : card s.maskIn = card (~~~s.maskOut)) :
    (s.record step).maskIn = s.maskIn ∧ (s.record step).maskOut = s.maskOut := by
  have hfull := dstFull_eq_srcEmpty h
  cases he : s.srcEmpty with
  | true =>
    refine record_masks_complete ?_
    rw [complete_eq, hfull, he]
    cases s.fullCycle <;> rfl
  | false =>
    rw [record_quiet he (hfull.trans he)]
    exact ⟨rfl, rfl⟩

theorem and_or_andNot {x y : Word} (h : Within y x) : y ||| (x &&& ~~~y) = x := by
  refine Within.antisymm (.or_left h (within_andNot x y)) fun i hi => ?_
  have hlt : i < 64 := BitVec.lt_of_getLsbD hi
  rw [BitVec.getLsbD_or, BitVec.getLsbD_and, BitVec.getLsbD_not, hi]
  cases y.getLsbD i <;> simp [hlt]

theorem Covers.record {F T : Word} {s : Solution} {step : Step} (h : Covers F T s)
    (hm : Moving F T s) (hs : s.complete = false) (hp : Possible s.maskIn (~~~s.maskOut) step) :
    Covers F T ((s.move step).record step) := by
  have heven := hm.even hs hp
  obtain ⟨hin, hout⟩ := record_masks_even step heven
  have hfroms : fromsOf ((s.move step).record step).steps = fromsOf s.steps ||| step.maskFrom :=
    fromsOf_snoc _ _
  have htos : tosOf ((s.move step).record step).steps = tosOf s.steps ||| step.maskTo :=
    tosOf_snoc _ _
  have hnot : ~~~(s.move step).maskOut = ~~~s.maskOut &&& ~~~step.maskTo := BitVec.not_or
  constructor
  · rw [hfroms, hin, BitVec.or_assoc]
    exact (congrArg _ (and_or_andNot hp.source)).trans h.froms
  · rw [htos, hout, hnot, BitVec.or_assoc]
    exact (congrArg _ (and_or_andNot hp.notdest)).trans h.tos
  · rw [hin, hfroms]
    exact (h.apart.mono (within_andNot _ _) (.refl _)).or_right (apart_andNot _ _)
  · rw [hin, hout]
    exact heven

theorem possibilities_eq {s : Solution} {step : Step} (hc : s.complete = false)
    (h : mostBits (possibleSteps s.maskIn (~~~s.maskOut)) = some step) :
    possibilities s = some ((s.move step).record step) := by
  have hp := possible_of_mem (mem_mostBits h)
  unfold possibilities
  rw [h, Option.bind_some, addStep]
  refine if_pos ⟨hc, ?_, ?_⟩
  · rw [BitVec.and_comm]
    exact within_iff_and.mp hp.source
  · rw [BitVec.and_comm]
    exact within_iff_and.mp hp.notdest

/-- The partial solver shifts out what can be shifted out. -/
theorem partialSolveWith_shiftOut {F T : Word} {san : Solution → Solution} (left : Nat)
    {s : Solution} (hsan : ∀ t, Moving F T t → san t = t) (hm : Moving F T s) (h : Covers F T s) :
    ∃ s', partialSolveWith san left s = some s' ∧ Covers F T s' ∧
      s'.steps.length = s.steps.length + (shiftOut left s.maskIn (~~~s.maskOut)).1 ∧
      s'.maskIn = (shiftOut left s.maskIn (~~~s.maskOut)).2 := by
  induction left generalizing s with
  | zero =>
    refine ⟨s, ?_, h, rfl, rfl⟩
    rw [partialSolveWith, hsan s hm]
  | succ left ih =>
    cases hc : s.complete with
    | true =>
      have hz := complete_maskIn hc
      refine ⟨s, ?_, h, ?_, ?_⟩
      · rw [partialSolveWith, hc, if_pos rfl, hsan s hm]
      · rw [shiftOut, if_pos hz]
        rfl
      · rw [shiftOut, if_pos hz]
    | false =>
      have hne := h.open hc
      have hplaces : ~~~s.maskOut ≠ 0 := fun hz => hne (card_eq_zero.mp (by
        rw [h.even, hz]
        exact card_eq_zero.mpr rfl))
      obtain ⟨step, hstep⟩ := mostBits_isSome (possibleSteps_ne_nil hne hplaces)
      have hp := possible_of_mem (mem_mostBits hstep)
      obtain ⟨hin, hout⟩ := record_masks_even step (hm.even hc hp)
      obtain ⟨s', hs', hcovers, hlen, hrest⟩ := ih (hm.record hc hp) (h.record hm hc hp)
      have hnot : ~~~(s.move step).maskOut = ~~~s.maskOut &&& ~~~step.maskTo := BitVec.not_or
      have hsteps : ((s.move step).record step).steps.length = s.steps.length + 1 :=
        List.length_append
      rw [hin, hout, hnot] at hlen hrest
      refine ⟨s', ?_, hcovers, ?_, ?_⟩
      · rw [partialSolveWith, hc, if_neg Bool.false_ne_true, possibilities_eq hc hstep]
        exact hs'
      · rw [hlen, hsteps, shiftOut, if_neg hne, hstep, Nat.add_assoc]
        exact congrArg _ (Nat.add_comm 1 _)
      · rw [hrest, shiftOut, if_neg hne, hstep]
        rfl

theorem Covers.kept_iff {F T : Word} {s : Solution} (h : Covers F T s) :
    fromsOf s.steps = F ∧ tosOf s.steps = T ↔ s.maskIn = 0 := by
  constructor
  · rintro ⟨hfrom, -⟩
    have hin : Within s.maskIn (fromsOf s.steps) := by
      have hF := h.froms
      rw [← hfrom] at hF
      exact hF ▸ within_or_right _ _
    refine BitVec.eq_of_getLsbD_eq fun i _ => ?_
    rw [getLsbD_none]
    cases hi : s.maskIn.getLsbD i with
    | false => rfl
    | true => exact (Bool.eq_false_iff.mp (h.apart i hi) (hin i hi)).elim
  · intro hz
    have hout : ~~~s.maskOut = 0 := card_eq_zero.mp (by
      rw [← h.even, hz]
      exact card_eq_zero.mpr rfl)
    have hF := h.froms
    have hT := h.tos
    rw [hz] at hF
    rw [hout] at hT
    exact ⟨BitVec.or_zero.symm.trans hF, BitVec.or_zero.symm.trans hT⟩

theorem setLast_steps {ss : List Step} {l : Step} {range : List Step} (h : ss ≠ []) :
    ∃ init k, ss = init ++ [k] ∧
      setLast ss (range ++ [l]).getLast? = init ++ [{ k with incDst := l.incDst, decSrc := l.decSrc }] := by
  obtain ⟨init, k, hsteps⟩ := (List.eq_nil_or_concat ss).resolve_left h
  rw [List.concat_eq_append] at hsteps
  refine ⟨init, k, hsteps, ?_⟩
  rw [hsteps, setLast_concat]

/-- What stands for a range, how long it is, and when it moves all the bits. -/
theorem resolve_spec {mask : Word} {t : Track} {range : List Step} {l : Step} (n : Nat)
    (hquiet : ∀ s ∈ range, eligible s = true) (hlegal : Legal mask t (range ++ [l])) {new : List Step}
    (hnew : resolve (partialSolveWith (sanitize n) 4) (true, range ++ [l]) = new) :
    (∃ init m, Stands l new init m) ∧ new.length = (shiftRange (range ++ [l])).1 ∧
      (Kept (range ++ [l]) new ↔ (shiftRange (range ++ [l])).2 = 0) := by
  obtain ⟨hscat, hfits⟩ := (legal_range hquiet).mp hlegal
  have hcard := (card_fromsOf hscat fun x hx => (hfits x hx).shifts).symm
  have hstart := moving_start hcard
  have hopen := @moveOf_open t (range ++ [l]) hfits l (by simp)
  have hsan : ∀ u, Moving (fromsOf (range ++ [l])) (tosOf (range ++ [l])) u → sanitize n u = u :=
    fun u hu => sanitize_quiet n hu.quiet
  obtain ⟨sout, hsout, hcovers, hlen, hrest⟩ :=
    partialSolveWith_shiftOut 4 hsan hstart (covers_start hcard)
  obtain ⟨hmoving, hne⟩ := partialSolveWith_moving 4 hsan hstart hsout
  obtain ⟨init, k, hsteps, hset⟩ :=
    @setLast_steps sout.steps l range (hne (.inr ⟨by omega, hopen⟩))
  have hresolve : new = init ++ [{ k with incDst := l.incDst, decSrc := l.decSrc }] := by
    rw [← hset, ← hnew, resolve]
    have hmove : partialSolveWith (sanitize n) 4 (moveOf (range ++ [l])) = some sout := hsout
    rw [hmove]
  have hplaces : ~~~(ofMove (fromsOf (range ++ [l])) (~~~tosOf (range ++ [l]))).maskOut =
      tosOf (range ++ [l]) := BitVec.not_not
  rw [hplaces] at hlen hrest
  have hfrom : fromsOf new = fromsOf sout.steps := by
    rw [hresolve, hsteps, fromsOf_snoc, fromsOf_snoc]
  have hto : tosOf new = tosOf sout.steps := by
    rw [hresolve, hsteps, tosOf_snoc, tosOf_snoc]
  refine ⟨⟨init, _, hresolve, ?_, rfl, rfl⟩, ?_, ?_⟩
  · have hq := hmoving.quiet
    rwa [hsteps, List.dropLast_concat] at hq
  · have hsame : new.length = sout.steps.length := by
      rw [hresolve, hsteps, List.length_append, List.length_append]
      rfl
    rw [hsame, hlen]
    exact Nat.zero_add _
  · unfold Kept
    rw [hfrom, hto, hcovers.kept_iff, hrest]
    rfl

/-! ## All ranges -/

theorem length_flatMap_ranges (f : Bool × List Step → List Step) (bs : List (Bool × List Step))
    (h : ∀ b ∈ bs, b.1 = false → f b = b.2) :
    (bs.flatMap f).length + (((bs.filter Prod.fst).map Prod.snd).map List.length).sum =
      (bs.flatMap Prod.snd).length + ((bs.filter Prod.fst).map fun b => (f b).length).sum := by
  induction bs with
  | nil => rfl
  | cons b bs ih =>
    have hrest := ih fun x hx => h x (List.mem_cons_of_mem _ hx)
    rw [List.flatMap_cons, List.flatMap_cons, List.length_append, List.length_append]
    cases hb : b.1 with
    | false =>
      rw [List.filter_cons_of_neg (by simp [hb]), h b List.mem_cons_self hb]
      omega
    | true =>
      rw [List.filter_cons_of_pos hb]
      simp only [List.map_cons, List.sum_cons]
      omega

theorem forall_eligibleRanges {s : Solution} {P : List Step → Prop} :
    (∀ ss ∈ eligibleRanges s, P ss) ↔ ∀ b ∈ findEligibleRanges s.steps [], b.1 = true → P b.2 := by
  unfold eligibleRanges
  constructor
  · intro h b hb htrue
    exact h b.2 (List.mem_map.mpr ⟨b, List.mem_filter.mpr ⟨hb, htrue⟩, rfl⟩)
  · intro h ss hss
    obtain ⟨b, hb, rfl⟩ := List.mem_map.mp hss
    obtain ⟨hmem, htrue⟩ := List.mem_filter.mp hb
    exact h b hmem htrue

variable {mask : Word} {s : Solution}

theorem resolve_replaces (n : Nat) {t : Track} (hlegal : Legal mask t s.steps) :
    ∀ b ∈ findEligibleRanges s.steps [], Replaces (resolve (partialSolveWith (sanitize n) 4)) b := by
  intro b hb
  obtain ⟨b, ss⟩ := b
  constructor
  · rintro ⟨⟩
    rfl
  · rintro ⟨⟩ range l hrange
    obtain ⟨t', init, l', hss, hinit, hrange'⟩ :=
      ranges_legal (List.forall_mem_nil _) hlegal _ hb rfl
    obtain ⟨rfl, hll⟩ := List.append_inj' (hrange.symm.trans hss) rfl
    obtain rfl := List.singleton_inj.mp hll
    change ss = range ++ [l] at hrange
    rw [hrange]
    exact (resolve_spec n hinit hrange' rfl).1

theorem resolve_kept_iff (n : Nat) {t : Track} (hlegal : Legal mask t s.steps) :
    (∀ b ∈ findEligibleRanges s.steps [], Kept b.2 (resolve (partialSolveWith (sanitize n) 4) b)) ↔
      ∀ ss ∈ eligibleRanges s, (shiftRange ss).2 = 0 := by
  rw [forall_eligibleRanges]
  refine forall_congr' fun b => forall_congr' fun hb => ?_
  obtain ⟨b, ss⟩ := b
  cases b with
  | false => exact ⟨fun _ h => (Bool.false_ne_true h).elim, fun _ => ⟨rfl, rfl⟩⟩
  | true =>
    obtain ⟨t', init, l, hss, hinit, hrange⟩ :=
      ranges_legal (List.forall_mem_nil _) hlegal _ hb rfl
    dsimp only at hss
    subst hss
    rw [(resolve_spec n hinit hrange rfl).2.2]
    exact ⟨fun h _ => h, fun h => h rfl⟩

/-- Whether the new steps are fewer. -/
theorem length_newsteps_lt (n : Nat) {t : Track} (hlegal : Legal mask t s.steps) :
    ((findEligibleRanges s.steps []).flatMap (resolve (partialSolveWith (sanitize n) 4))).length <
        s.steps.length ↔
      ((eligibleRanges s).map fun ss => (shiftRange ss).1).sum <
        ((eligibleRanges s).map List.length).sum := by
  have hlen := length_flatMap_ranges (resolve (partialSolveWith (sanitize n) 4))
    (findEligibleRanges s.steps []) fun b hb => (resolve_replaces n hlegal b hb).stays
  have hsum : ((findEligibleRanges s.steps []).filter Prod.fst).map
      (fun b => (resolve (partialSolveWith (sanitize n) 4) b).length) =
      (eligibleRanges s).map fun ss => (shiftRange ss).1 := by
    unfold eligibleRanges
    rw [List.map_map]
    refine List.map_congr_left fun b hb => ?_
    obtain ⟨hmem, htrue⟩ := List.mem_filter.mp hb
    obtain ⟨b, ss⟩ := b
    obtain rfl : b = true := htrue
    obtain ⟨t', init, l, hss, hinit, hrange⟩ :=
      ranges_legal (List.forall_mem_nil _) hlegal _ hmem rfl
    dsimp only at hss
    subst hss
    exact (resolve_spec n hinit hrange rfl).2.1
  rw [findEligibleRanges_flat, List.nil_append, hsum] at hlen
  change _ + ((eligibleRanges s).map List.length).sum = _ at hlen
  omega

theorem Preserves.refl (s : Solution) : Preserves s s := ⟨rfl, rfl, id⟩

/-- `sanitize` moves what the solution moved exactly when four shifts are enough for
each of its eligible ranges, or it saves no steps and changes nothing. -/
theorem sanitize_preserves_iff (mask : Word) (s : Solution) (h : Produced mask s) (nested : Nat) :
    Preserves s (sanitize (nested + 1) s) ↔ Keeps s := by
  obtain ⟨htm, hlegal⟩ := h.legal
  have hreplaces := resolve_replaces nested hlegal
  have hmoves := moves_ranges_iff (List.forall_mem_nil _) hreplaces
  rw [resolve_kept_iff nested hlegal, List.nil_append] at hmoves
  have hfewer := length_newsteps_lt nested hlegal
  rw [sanitize, sanitizeWith]
  split
  · rename_i hlt
    have hsaves := hfewer.mp hlt
    constructor
    · intro hp
      exact .inl (hmoves.mp hp.moves)
    · intro hk
      have hall := hk.resolve_right (by omega)
      have hbal := balances_ranges s.trackmask s.trackmask s.trackmask (List.forall_mem_nil _) hreplaces
        ((resolve_kept_iff nested hlegal).mpr hall)
      rw [List.nil_append] at hbal
      refine ⟨hmoves.mpr hall, hbal, fun hwhole => ⟨hwhole.1, ?_⟩⟩
      have hclean := hwhole.2
      unfold Solution.balances at hclean ⊢
      rwa [hbal]
  · rename_i hnot
    exact ⟨fun _ => .inr (Nat.not_lt.mp fun hlt => hnot (hfewer.mpr hlt)), fun _ => .refl s⟩

/-- The first round of a mask: three steps, which are no range yet. -/
theorem sanitize_preserves_start : Preserves (ofMask 0x0000FFFFFFFFFFFF)
    (sanitize 2 (ofMask 0x0000FFFFFFFFFFFF)) ↔ Keeps (ofMask 0x0000FFFFFFFFFFFF) :=
  sanitize_preserves_iff 0x0000FFFFFFFFFFFF _ ⟨0, _, .start, .inl rfl⟩ 1

instance (b : Balance) : Decidable b.Clean := instDecidableAnd

theorem Found.next {n : Nat} {r : Solution} (h : Found mask n r) (hn : n < 100)
    (hr : r.complete = false) (hsome : (partialSolve r 3).isSome) :
    Found mask (n + 1) ((partialSolve r 3).getD empty) := by
  obtain ⟨t, ht⟩ := Option.isSome_iff_exists.mp hsome
  rw [ht]
  exact h.round hn hr ht

/-- After two rounds with this mask. -/
def sixSteps : Solution :=
  (partialSolve ((partialSolve (ofMask 0xc7f00003fff80000) 3).getD empty) 3).getD empty

theorem sixSteps_found : Found 0xc7f00003fff80000 2 sixSteps := by
  have hone : Found 0xc7f00003fff80000 1 _ :=
    .next .start (by decide) (by decide) (by decide)
  exact hone.next (by decide) (by decide) (by decide)

/-- The third round adds three steps. A range of the nine is solved again, four steps
deep, and does not move all its bits any more: the complete solution of the mask
leaves bits in a source word that it finishes. -/
theorem sanitize_drops_bits :
    (∃ s, Produced 0xc7f00003fff80000 s ∧ ¬ Preserves s (sanitize 2 s)) ∧
      (solve 0xc7f00003fff80000).complete = true ∧ ¬ (solve 0xc7f00003fff80000).Whole := by
  have hsolve : (solve 0xc7f00003fff80000).complete = true ∧
      ¬ ∀ b ∈ (solve 0xc7f00003fff80000).balances, b.Clean := by
    decide +kernel
  have hthird : (partialSolveWith id 3 sixSteps).isSome = true ∧ sixSteps.complete = false ∧
      moves (sanitize 2 ((partialSolveWith id 3 sixSteps).getD empty)).steps ≠
        moves ((partialSolveWith id 3 sixSteps).getD empty).steps := by
    decide +kernel
  obtain ⟨s, hs⟩ := Option.isSome_iff_exists.mp hthird.1
  refine ⟨⟨s, ⟨2, sixSteps, sixSteps_found, .inr ⟨by decide, hthird.2.1, hs⟩⟩, fun h => ?_⟩,
    hsolve.1, fun h => hsolve.2 h.2⟩
  have hmoves := hthird.2.2
  rw [hs] at hmoves
  exact hmoves h.moves

end Jive5ab.Trackmask
