import Jive5ab.Trackmask.Sizes
import Jive5ab.Trackmask.Unpacking

/-! # Compression and back

`generate_code` repeats the steps of the solution as often as the number of words
has whole cycles in it, and takes as many more as are needed for the rest. As one
sequence of steps they are legal, and the two ends meet at the last of them. So a
block comes back masked exactly when the words behind the compressed ones are all
put together from the steps. -/
namespace Jive5ab.Trackmask
open Lib.Bits Env Solution

/-- The steps for `numwords` words. -/
def Solution.allSteps (s : Solution) (numwords : Nat) : List Step :=
  (List.replicate (numwords / s.cycle) s.steps).flatten ++
    remainingSteps false (numwords % s.cycle) s.steps

/-! ## The steps for the rest -/

theorem remainingSteps_spec {nr : Nat} {ss : List Step} (hle : nr + 1 ≤ (dones ss).length) :
    ∃ init l rest, ss = init ++ l :: rest ∧ remainingSteps false (nr + 1) ss = init ++ [l] ∧
      (l.incDst ∨ l.decSrc) ∧ (dones init).length = nr := by
  induction ss generalizing nr with
  | nil =>
    simp [dones] at hle
  | cons s ss ih =>
    rw [dones_cons, List.length_append, length_dones_single] at hle
    rw [remainingSteps]
    cases hdone : s.incDst || s.decSrc with
    | false =>
      obtain ⟨hi, hd⟩ := Bool.or_eq_false_iff.mp hdone
      rw [hdone, if_neg Bool.false_ne_true, Nat.zero_add] at hle
      obtain ⟨init, l, rest, hss, hrem, hl, hlen⟩ := ih hle
      refine ⟨s :: init, l, rest, by rw [hss]; rfl, ?_, hl, ?_⟩
      · rw [hi, hd]
        exact congrArg (s :: ·) hrem
      · rw [dones_cons, List.length_append, length_dones_single, hdone, hlen]
        simp
    | true =>
      rw [hdone, if_pos rfl] at hle
      have hcount : (!false && (s.decSrc || s.incDst)) || (false && s.incDst) := by
        rw [Bool.or_comm s.decSrc, hdone]
        rfl
      rw [if_pos hcount]
      cases nr with
      | zero =>
        refine ⟨[], s, ss, rfl, ?_, Bool.or_eq_true_iff.mp hdone, rfl⟩
        rw [remainingSteps]
        rfl
      | succ nr =>
        obtain ⟨init, l, rest, hss, hrem, hl, hlen⟩ := @ih nr (by omega)
        refine ⟨s :: init, l, rest, by rw [hss]; rfl, congrArg (s :: ·) hrem, hl, ?_⟩
        rw [dones_cons, List.length_append, length_dones_single, hdone, hlen, if_pos rfl, Nat.add_comm]

/-! ## The two ends -/

/-- The steps for `n` words up to the last one. Either the ends meet in the word that the
last step works on, or they are next to each other and it finishes both. -/
structure Splits (s : Solution) (n : Nat) (init : List Step) (l : Step) : Prop where
  steps : s.allSteps n = init ++ [l]
  legal : Legal s.trackmask ⟨0, s.trackmask⟩ (init ++ [l])
  near : changes init + 1 = n ∧ (l.incDst ∨ l.decSrc) ∧
      (remainingSteps false (n % s.cycle) s.steps).getLast? = some l ∨
    changes init + 2 = n ∧ l.incDst ∧ l.decSrc ∧ remainingSteps false (n % s.cycle) s.steps = []

theorem srcAfter_eq (n : Nat) (ss : List Step) :
    srcAfter (n - 1) ss = dstAfter 0 ss + (n - 1 - changes ss : Int) := by
  unfold srcAfter dstAfter changes
  push_cast
  omega

theorem Splits.meet {s : Solution} {n : Nat} {init : List Step} {l : Step} (h : Splits s n init l) :
    dstAfter 0 init = srcAfter (n - 1) init ∧ (l.incDst ∨ l.decSrc) ∨
      srcAfter (n - 1) init = dstAfter 0 init + 1 ∧ l.decSrc := by
  rw [srcAfter_eq]
  rcases h.near with ⟨hn, hl, -⟩ | ⟨hn, -, hl, -⟩
  · exact .inl ⟨by omega, hl⟩
  · exact .inr ⟨by omega, hl⟩

variable {mask : Word} {s : Solution}

/-- After a whole cycle both words are new. -/
theorem Solved.track_steps (h : Solved mask s) : track mask ⟨0, mask⟩ s.steps = ⟨0, mask⟩ := by
  obtain ⟨init, l, hsteps, hinc, hdec, -⟩ := h.last
  rw [hsteps, track_append]
  show Step.after mask _ l = _
  rw [Step.after, hinc, hdec]
  rfl

theorem Solved.legal_replicate (h : Solved mask s) (n : Nat) :
    Legal mask ⟨0, mask⟩ (List.replicate n s.steps).flatten ∧
      track mask ⟨0, mask⟩ (List.replicate n s.steps).flatten = ⟨0, mask⟩ := by
  induction n with
  | zero => exact ⟨trivial, rfl⟩
  | succ n ih =>
    rw [List.replicate_succ, List.flatten_cons, legal_append, track_append, h.track_steps]
    exact ⟨⟨h.legal, ih.1⟩, ih.2⟩

theorem Solved.splits_whole (h : Solved mask s) {k n : Nat} (hn : n = (k + 1) * s.cycle) :
    ∃ init l, Splits s n init l := by
  obtain ⟨init, l, hsteps, hinc, hdec, -, hcycle⟩ := h.init_steps
  have hpos : 0 < s.cycle := by omega
  have hmod : n % s.cycle = 0 := by rw [hn, Nat.mul_mod_left]
  have hdiv : n / s.cycle = k + 1 := by rw [hn, Nat.mul_div_cancel _ hpos]
  have hrem : remainingSteps false (n % s.cycle) s.steps = [] := by rw [hmod, remainingSteps]
  have hall : s.allSteps n = ((List.replicate k s.steps).flatten ++ init) ++ [l] := by
    rw [allSteps, hrem, hdiv, List.replicate_succ', List.flatten_append, List.append_nil,
      List.append_assoc, ← hsteps]
    simp
  refine ⟨(List.replicate k s.steps).flatten ++ init, l, hall, ?_, .inr ⟨?_, hinc, hdec, hrem⟩⟩
  · rw [List.append_assoc, ← hsteps, h.trackmask, legal_append, (h.legal_replicate k).2]
    exact ⟨(h.legal_replicate k).1, h.legal⟩
  · rw [changes_append, changes_replicate, h.changes_steps, hn, Nat.succ_mul]
    omega

theorem Solved.splits_rest (h : Solved mask s) {n nr : Nat} (hmod : n % s.cycle = nr + 1) :
    ∃ init l, Splits s n init l := by
  obtain ⟨init₀, l₀, hsteps, hinc, hdec, hnot, hcycle⟩ := h.init_steps
  have hlt : n % s.cycle < s.cycle := Nat.mod_lt _ (by omega)
  have hlen : nr + 1 ≤ (dones s.steps).length := by
    rw [hsteps, dones_append, List.length_append, length_dones_single, hinc, ← changes_eq_length hnot]
    simp
    omega
  obtain ⟨init, l, rest, hss, hrem, hl, hinit⟩ := remainingSteps_spec hlen
  have hprefix : init ++ (l :: rest).dropLast = init₀ := by
    have hlists := congrArg List.dropLast (hss.symm.trans hsteps)
    rwa [List.dropLast_append_of_ne_nil (by simp), List.dropLast_concat] at hlists
  have hnot' : (true, true) ∉ dones init := by
    rw [← hprefix, dones_append, List.mem_append, not_or] at hnot
    exact hnot.1
  have hlegal : Legal mask ⟨0, mask⟩ (init ++ [l]) := by
    have hlegal := h.legal
    rw [hss, List.append_cons] at hlegal
    exact (legal_append.mp hlegal).1
  refine ⟨(List.replicate (n / s.cycle) s.steps).flatten ++ init, l, ?_, ?_, .inl ⟨?_, hl, ?_⟩⟩
  · rw [allSteps, hmod, hrem, List.append_assoc]
  · rw [List.append_assoc, h.trackmask, legal_append, (h.legal_replicate _).2]
    exact ⟨(h.legal_replicate _).1, hlegal⟩
  · rw [changes_append, changes_replicate, h.changes_steps, changes_eq_length hnot', hinit]
    have hdiv := Nat.div_add_mod n s.cycle
    rw [Nat.mul_comm] at hdiv
    omega
  · rw [hmod, hrem, List.getLast?_concat]

theorem Solved.splits (h : Solved mask s) {n : Nat} (hn : 0 < n) : ∃ init l, Splits s n init l := by
  have hdiv := Nat.div_add_mod n s.cycle
  cases hmod : n % s.cycle with
  | succ nr => exact h.splits_rest hmod
  | zero =>
    rw [hmod, Nat.add_zero, Nat.mul_comm] at hdiv
    cases hk : n / s.cycle with
    | zero =>
      rw [hk, Nat.zero_mul] at hdiv
      omega
    | succ k => exact h.splits_whole (by rw [← hk, hdiv])

/-! ## The code of all steps -/

theorem iterate_exec (code : List Stmt) (n : Nat) (e : Env) :
    (fun e => Env.exec e code)^[n] e = e.exec (List.replicate n code).flatten := by
  induction n generalizing e with
  | zero => rfl
  | succ n ih =>
    rw [Function.iterate_succ_apply, ih, List.replicate_succ, List.flatten_cons, exec_append]

/-- Steps after which the code begins anew. -/
structure Closed (ss : List Step) : Prop where
  fresh : freshAfter true ss = true
  usetemp : usetempAfter false ss = false

theorem Solved.closed (h : Solved mask s) : Closed s.steps := by
  obtain ⟨init, l, hsteps, hinc, hdec, -⟩ := h.last
  constructor
  · rw [hsteps, freshAfter, List.foldl_append]
    exact hinc
  · rw [hsteps, usetempAfter, List.foldl_append]
    show l.keeps _ = false
    rw [Step.keeps_eq, hdec]
    rfl

theorem Closed.replicate {ss : List Step} (h : Closed ss) (n : Nat) :
    Closed (List.replicate n ss).flatten := by
  induction n with
  | zero => exact ⟨rfl, rfl⟩
  | succ n ih =>
    rw [List.replicate_succ, List.flatten_cons]
    constructor
    · rw [freshAfter, List.foldl_append]
      exact (congrArg (fun b => freshAfter b (List.replicate n ss).flatten) h.fresh).trans ih.fresh
    · rw [usetempAfter, List.foldl_append]
      exact (congrArg (fun b => usetempAfter b (List.replicate n ss).flatten) h.usetemp).trans ih.usetemp

theorem compressBody_replicate {ss : List Step} (h : Closed ss) (n : Nat) :
    (List.replicate n (compressBody mask true false ss)).flatten =
      compressBody mask true false (List.replicate n ss).flatten := by
  induction n with
  | zero => rfl
  | succ n ih =>
    rw [List.replicate_succ, List.replicate_succ, List.flatten_cons, List.flatten_cons,
      compressBody_append, h.fresh, h.usetemp, ih]

theorem decompressBody_replicate {ss : List Step} (h : Closed ss) (distance : Int) (inLoop : Bool)
    (n : Nat) : (List.replicate n (decompressBody mask distance inLoop true false ss)).flatten =
      decompressBody mask distance inLoop true false (List.replicate n ss).flatten := by
  induction n with
  | zero => rfl
  | succ n ih =>
    rw [List.replicate_succ, List.replicate_succ, List.flatten_cons, List.flatten_cons,
      decompressBody_append, h.fresh, h.usetemp, ih]

/-- The loop's extra condition always holds. -/
theorem decompressBody_inLoop (distance : Int) (fresh usetemp : Bool) (ss : List Step) :
    decompressBody mask distance true fresh usetemp ss =
      decompressBody mask distance false fresh usetemp ss := by
  induction ss generalizing fresh usetemp with
  | nil => rfl
  | cons s ss ih =>
    have hstep : decompressStep mask distance true fresh usetemp s =
        decompressStep mask distance false fresh usetemp s := by
      unfold decompressStep
      cases usetemp <;> cases s.decSrc <;> rfl
    rw [decompressBody_cons, decompressBody_cons, hstep, ih]

/-- What the generated functions do, as one sequence of steps. Only the remaining words
have code after it. -/
theorem generateCode_steps (h : Solved mask s) {n : Nat} (hn : 0 < n) {init : List Step} {l : Step}
    (hsplit : Splits s n init l) (distance : Int) :
    ∃ g, generateCode s n false distance = some g ∧ g.numwords = n ∧
      (List.replicate g.compress.nloop g.compress.body).flatten ++ g.compress.tail =
        compressBody mask true false (init ++ [l]) ++ compressLeft (some l) ∧
      (List.replicate g.decompress.nloop g.decompress.body).flatten ++ g.decompress.tail =
        decompressBody mask distance false true false (init ++ [l]) ++
          decompressLeft mask distance (remainingSteps false (n % s.cycle) s.steps).getLast? := by
  have hleft : compressLeft (remainingSteps false (n % s.cycle) s.steps).getLast? =
      compressLeft (some l) := by
    rcases hsplit.near with ⟨-, -, hlast⟩ | ⟨-, hi, -, hnil⟩
    · rw [hlast]
    · rw [hnil]
      simp [compressLeft, hi]
  have hclosed := h.closed.replicate (n / s.cycle)
  rw [generateCode, if_pos ⟨hn, h.cycle_pos, h.nDstinc_pos⟩, h.trackmask]
  refine ⟨_, rfl, rfl, ?_, ?_⟩
  · dsimp only
    rw [if_neg Bool.false_ne_true, compressBody_replicate h.closed, hleft, ← hsplit.steps, allSteps,
      compressBody_append, hclosed.fresh, hclosed.usetemp, List.append_assoc]
  · dsimp only
    rw [if_neg Bool.false_ne_true, decompressBody_replicate h.closed, decompressBody_inLoop,
      ← hsplit.steps, allSteps, decompressBody_append, hclosed.fresh, hclosed.usetemp,
      List.append_assoc]

theorem Code.run_eq (c : Code) (e : Env) :
    c.run e = e.exec ((List.replicate c.nloop c.body).flatten ++ c.tail) := by
  rw [Code.run, iterate_exec, exec_append]

theorem generateCode_run (h : Solved mask s) {n : Nat} (hn : 0 < n) {init : List Step} {l : Step}
    (hsplit : Splits s n init l) : ∃ g, generateCode s n false 0 = some g ∧ g.numwords = n ∧
      (∀ e, g.compress.run e =
        e.exec (compressBody mask true false (init ++ [l]) ++ compressLeft (some l))) ∧
      ∀ e, g.decompress.run e =
        e.exec (decompressBody mask 0 false true false (init ++ [l]) ++
          decompressLeft mask 0 (some l)) := by
  obtain ⟨g, hg, hnumwords, hcompress, hdecompress⟩ := generateCode_steps h hn hsplit 0
  have hleft : decompressLeft mask 0 (remainingSteps false (n % s.cycle) s.steps).getLast? =
      decompressLeft mask 0 (some l) := by
    rcases hsplit.near with ⟨-, -, hlast⟩ | ⟨-, hi, hd, hnil⟩
    · rw [hlast]
    · rw [hnil]
      simp [decompressLeft, restoreMagnitudeBit, hi, hd]
  refine ⟨g, hg, hnumwords, fun e => ?_, fun e => ?_⟩
  · rw [Code.run_eq, hcompress]
  · rw [Code.run_eq, hdecompress, hleft]

/-! ## There and back -/

/-- Compress in place, clear the words behind the compressed ones, decompress. -/
def Generated.roundTrip (g : Generated) (mem : Int → Word) (tmps tmps' : Word × Word) : Int → Word :=
  let (packed, ptr) := g.runCompress mem tmps
  g.runDecompress (fun j => if j < ptr then packed j else 0) tmps'

/-- Every block comes back with the masked bits of its words. -/
def Lossless (s : Solution) (n : Nat) : Prop :=
  ∃ g, generateCode s n false 0 = some g ∧ ∀ (mem : Int → Word) (tmps tmps' : Word × Word) (j : Int),
    0 ≤ j → j < n → g.roundTrip mem tmps tmps' j = mem j &&& s.trackmask

/-- The steps take all masked bits of the words behind the compressed ones; if the last
step does not empty its source word, of the last compressed word, too. -/
def Gathered (s : Solution) (n : Nat) : Prop :=
  let steps := s.allSteps n
  let last := dstAfter 0 steps.dropLast
  (∀ j : Int, last < j → j < n → taken 0 (n - 1) steps j = s.trackmask) ∧
    ((steps.getLast?.all fun l => !l.decSrc) → taken 0 (n - 1) steps last = s.trackmask)

theorem roundTrip_eq (h : Solved mask s) {n : Nat} {init : List Step} {l : Step}
    (hsplit : Splits s n init l) {g : Generated} (hnumwords : g.numwords = n)
    (hcompress : ∀ e, g.compress.run e =
      e.exec (compressBody mask true false (init ++ [l]) ++ compressLeft (some l)))
    (hdecompress : ∀ e, g.decompress.run e =
      e.exec (decompressBody mask 0 false true false (init ++ [l]) ++ decompressLeft mask 0 (some l)))
    (mem : Int → Word) (tmps tmps' : Word × Word) {j : Int} (hj : 0 ≤ j) (hjn : j < n) :
    g.roundTrip mem tmps tmps' j = mem j &&& restored mask n init l j := by
  have hmeet : dstAfter 0 init ≤ srcAfter (n - 1) init := by
    rcases hsplit.meet with ⟨heq, -⟩ | ⟨heq, -⟩ <;> omega
  obtain ⟨hptr, hpacked⟩ := @compress_run mask n init l mem tmps hmeet
  have hlegal := hsplit.legal
  rw [h.trackmask] at hlegal
  unfold Generated.roundTrip Generated.runCompress Generated.runDecompress
  dsimp only
  rw [hcompress, hdecompress, hnumwords, hptr]
  refine decompress_run false mem tmps' hlegal hmeet hsplit.meet (fun i hi hin => ?_) hj hjn
  split
  · rename_i hlt
    exact hpacked i hi (by omega)
  · rfl

theorem lossless_iff (h : Solved mask s) {n : Nat} (hn : 0 < n) : Lossless s n ↔ Gathered s n := by
  obtain ⟨init, l, hsplit⟩ := h.splits hn
  obtain ⟨g, hg, hnumwords, hcompress, hdecompress⟩ := generateCode_run h hn hsplit
  have hround := @roundTrip_eq mask s h n init l hsplit g hnumwords hcompress hdecompress
  have hlossless : Lossless s n ↔ ∀ j : Int, 0 ≤ j → j < n → restored mask n init l j = mask := by
    constructor
    · rintro ⟨g', hg', hall⟩ j hj hjn
      obtain rfl : g = g' := Option.some.inj (hg.symm.trans hg')
      have hones := hall (fun _ => BitVec.allOnes 64) (0, 0) (0, 0) j hj hjn
      rwa [hround _ _ _ hj hjn, h.trackmask, BitVec.allOnes_and, BitVec.allOnes_and] at hones
    · intro hall
      refine ⟨g, hg, fun mem tmps tmps' j hj hjn => ?_⟩
      rw [hround mem tmps tmps' hj hjn, hall j hj hjn, h.trackmask]
  have hlast : 0 ≤ dstAfter 0 init ∧ dstAfter 0 init < n := by
    have hdst := le_dstAfter 0 init
    have hsrc := srcAfter_le (n - 1) init
    rcases hsplit.meet with ⟨heq, -⟩ | ⟨heq, -⟩ <;> omega
  rw [hlossless, Gathered, hsplit.steps, h.trackmask, List.dropLast_concat, List.getLast?_concat, Option.all_some, Bool.not_eq_true']
  constructor
  · refine fun hall => ⟨fun j hj hjn => ?_, fun hdec => ?_⟩
    · have hword := hall j (by omega) hjn
      rwa [restored, if_neg (by omega)] at hword
    · have hword := hall _ hlast.1 hlast.2
      rwa [restored, hdec, if_neg (by simp)] at hword
  · rintro ⟨hbehind, hmeet⟩ j hj hjn
    unfold restored
    split
    · rfl
    · rename_i hnot
      rw [not_or, not_and, Bool.not_eq_true] at hnot
      by_cases hjd : j = dstAfter 0 init
      · rw [hjd]
        exact hmeet (hnot.2 hjd)
      · exact hbehind j (by omega) hjn

/-- The code of a complete solution is lossless for `n` words exactly when its steps
gather all bits that are not in a compressed word already. -/
theorem solve_lossless_iff (mask : Word) (hmask : mask ≠ 0) (hcomplete : (solve mask).complete = true)
    (n : Nat) (hn : 0 < n) : Lossless (solve mask) n ↔ Gathered (solve mask) n :=
  lossless_iff (solve_solved hmask hcomplete) hn

/-- A mask of 48 bits, and blocks of four words: a whole cycle. -/
theorem solve_lossless_whole : Lossless (solve 0x0000FFFFFFFFFFFF) 4 ↔
    Gathered (solve 0x0000FFFFFFFFFFFF) 4 :=
  solve_lossless_iff 0x0000FFFFFFFFFFFF (by decide) (by decide +kernel) 4 (by decide)

/-- One word with a mask of 48 bits: 16 of them fill the other places of the word, and
the others are lost. -/
theorem solve_one_word_lossy : (solve 0x0000FFFFFFFFFFFF).complete = true ∧
    ¬Lossless (solve 0x0000FFFFFFFFFFFF) 1 := by
  have hcomplete : (solve 0x0000FFFFFFFFFFFF).complete = true := by decide +kernel
  refine ⟨hcomplete, ?_⟩
  rw [lossless_iff (solve_solved (by decide) hcomplete) (by decide)]
  rintro ⟨-, hlast⟩
  exact absurd (hlast (by decide +kernel)) (by decide +kernel)

end Jive5ab.Trackmask
