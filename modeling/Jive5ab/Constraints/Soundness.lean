import Jive5ab.Constraints.Constrain
import Jive5ab.Lib.Checked
import Jive5ab.Trackmask.Sizes

/-! # When the solved constraints validate

`validate` as a predicate, and for each way of solving, by block size or by frame size,
over a stream or in datagrams, what it takes for the result to satisfy it. -/
namespace Jive5ab.Constraints
open Trackmask Trackmask.Solution

/-! ## Valid sizes -/

/-- All that `validate` asserts. -/
structure ConstraintSet.Valid (cs : ConstraintSet) : Prop where
  blocksize_set : cs.blocksize ≠ unconstrained
  readSize_set : cs.readSize ≠ unconstrained
  writeSize_set : cs.writeSize ≠ unconstrained
  mtu_set : cs.mtu ≠ unconstrained
  protocolOverhead_set : cs.protocolOverhead ≠ unconstrained
  applicationOverhead_set : cs.applicationOverhead ≠ unconstrained
  compressOffset_set : cs.compressOffset ≠ unconstrained
  blocksize_pos : 0 < cs.blocksize
  readSize_pos : 0 < cs.readSize
  writeSize_pos : 0 < cs.writeSize
  mtu_pos : 0 < cs.mtu
  blocksize_words : cs.blocksize % 8 = 0
  compressOffset_words : cs.compressOffset % 8 = 0
  nMtu_one : cs.nMtu = 1 ∨ cs.nMtu = unconstrained
  read_le_block : cs.readSize ≤ cs.blocksize
  block_reads : cs.blocksize % cs.readSize = 0
  offset_lt_read : cs.compressOffset < cs.readSize
  datagram : cs.nMtu = 1 → cs.protocolOverhead + cs.applicationOverhead + cs.writeSize ≤ cs.mtu
  write_le_read : cs.writeSize ≤ cs.readSize
  frame : cs.framesize ≠ unconstrained →
    0 < cs.framesize ∧ cs.framesize % 8 = 0 ∧ cs.framesize % cs.readSize = 0

theorem isset_iff {c : UInt32} : isset c = true ↔ c ≠ unconstrained := bne_iff_ne

theorem isset_not {c : UInt32} : (!isset c) = true ↔ c = unconstrained := by
  simp [isset]

theorem validate_eq_ok {cs : ConstraintSet} :
    cs.validate = .ok () ↔ ∀ a ∈ cs.assertions, a.2 = true := by
  unfold ConstraintSet.validate
  cases hf : cs.assertions.find? fun a => !a.2 with
  | none => simpa using hf
  | some a =>
    have hmem := List.mem_of_find?_eq_some hf
    have hnot := List.find?_some hf
    simp only [reduceCtorEq, false_iff]
    intro hall
    simp [hall a hmem] at hnot

theorem forall_mem_if {α : Type} {p : Prop} [Decidable p] {xs : List α} {q : α → Prop} :
    (∀ a ∈ if p then xs else [], q a) ↔ (p → ∀ a ∈ xs, q a) := by
  split <;> simp_all

theorem validate_iff_valid {cs : ConstraintSet} : cs.validate = .ok () ↔ cs.Valid := by
  rw [validate_eq_ok, ConstraintSet.assertions]
  simp only [List.forall_mem_append, forall_mem_if, List.forall_mem_cons, isset_iff, isset_not,
    decide_eq_true_eq, beq_iff_eq, Bool.or_eq_true, List.not_mem_nil, false_imp_iff, imp_true_iff,
    and_true, and_assoc]
  constructor
  · rintro ⟨h₁, h₂, h₃, h₄, h₅, h₆, h₇, h₈, h₉, h₁₀, h₁₁, h₁₂, h₁₃, h₁₄, h₁₅, h₁₆, h₁₇, h₁₈, h₁₉, h₂₀⟩
    exact ⟨h₁, h₂, h₃, h₄, h₅, h₆, h₇, h₈, h₉, h₁₀, h₁₁, h₁₂, h₁₃, h₁₄, h₁₅, h₁₆, h₁₇, h₁₈, h₁₉, h₂₀⟩
  · rintro ⟨h₁, h₂, h₃, h₄, h₅, h₆, h₇, h₈, h₉, h₁₀, h₁₁, h₁₂, h₁₃, h₁₄, h₁₅, h₁₆, h₁₇, h₁₈, h₁₉, h₂₀⟩
    exact ⟨h₁, h₂, h₃, h₄, h₅, h₆, h₇, h₈, h₉, h₁₀, h₁₁, h₁₂, h₁₃, h₁₄, h₁₅, h₁₆, h₁₇, h₁₈, h₁₉, h₂₀⟩

/-! ## Steps that do not throw -/

theorem throwIf_eq_ok {p : Prop} [Decidable p] {msg : String} {u : Unit} :
    throwIf p msg = .ok u ↔ ¬p := by
  unfold throwIf
  split <;> simp_all

/-- What the code works with: no solution, or one of the solver. -/
def FromSolver (s : Solution) : Prop := s = .empty ∨ ∃ mask, Solved mask s

theorem fromSolver_of_solve {s : Solution} (h : s = .empty ∨ ∃ mask, s = solve mask) :
    FromSolver s := by
  rcases h with rfl | ⟨mask, rfl⟩
  · exact Or.inl rfl
  · rcases solve_cases mask with he | hs
    · exact Or.inl he
    · exact Or.inr ⟨mask, hs⟩

theorem FromSolver.solved {s : Solution} (h : FromSolver s) (hs : compressing s = true) :
    ∃ mask, Solved mask s := by
  rcases h with rfl | h
  · cases hs
  · exact h

theorem compressedSize_ok {s : Solution} (hs : FromSolver s) {n r : UInt32}
    (h : compressedSize n s = .ok r) :
    r ≤ n ∧ (0 < n → 0 < r) ∧ (n % 8 = 0 → r % 8 = 0) ∧ (compressing s = true → n % 8 = 0) := by
  unfold compressedSize at h
  split at h
  · rename_i hc
    obtain ⟨mask, hsolved⟩ := hs.solved hc
    split at h
    · rename_i h8
      have hlt : (n / 8).toNat < 2 ^ 32 := (n / 8).toNat_lt
      obtain ⟨m, hm, hle, hpos⟩ := hsolved.outputsize_bounds hlt
      rw [hm] at h
      obtain rfl : UInt32.ofNat m * 8 = r := Except.ok.inj h
      have hmn : (UInt32.ofNat m).toNat = m := UInt32.toNat_ofNat_of_lt' (by
        exact Nat.lt_of_le_of_lt hle hlt)
      have hle' : UInt32.ofNat m ≤ n / 8 := by
        rw [UInt32.le_iff_toNat_le, hmn]
        exact hle
      have hpos' : 0 < n / 8 → 0 < UInt32.ofNat m := by
        intro hn
        rw [UInt32.lt_iff_toNat_lt] at hn ⊢
        rw [hmn]
        exact hpos hn
      exact ⟨by grind, by grind, by grind, fun _ => h8⟩
    · cases h
  · rename_i hc
    obtain rfl : n = r := Except.ok.inj h
    exact ⟨UInt32.le_refl n, id, id, fun hc' => absurd hc' hc⟩

/-- What the solvers pass on without a check. -/
def ConstraintSet.Given (cs : ConstraintSet) : Prop :=
  cs.mtu ≠ unconstrained ∧ cs.protocolOverhead ≠ unconstrained ∧
    cs.applicationOverhead ≠ unconstrained

theorem multiple_ne_unconstrained {n : UInt32} (h : n % 8 = 0) : n ≠ unconstrained := by
  rintro rfl
  exact absurd h (by decide)

theorem one_ne_unconstrained : (1 : UInt32) ≠ unconstrained := by decide

theorem truncate8_spec (n : UInt32) : truncate8 n % 8 = 0 ∧ truncate8 n ≤ n := by
  unfold truncate8
  grind

/-! ## A stream, by block size -/

def StreamByBlock (cs : ConstraintSet) : Prop :=
  0 < cs.mtu ∧ cs.compressOffset < truncate8 cs.blocksize

/-- The guards of `constrain_by_blocksize`. -/
theorem constrainByBlocksize_guards {cs rv : ConstraintSet} {s : Solution}
    (h : constrainByBlocksize cs s = .ok rv) : cs.compressOffset % 8 = 0 ∧
      cs.compressOffset + minReadBytes s ≤ cs.blocksize ∧
      (cs.nMtu = 1 ∨ cs.nMtu = unconstrained) ∧
      (cs.nMtu = 1 → cs.protocolOverhead + cs.applicationOverhead + cs.compressOffset ≤ cs.mtu) ∧
      if cs.nMtu = unconstrained then ∃ r,
        compressedSize (truncate8 cs.blocksize - cs.compressOffset) s = .ok r ∧
        rv = { cs with
          blocksize := truncate8 cs.blocksize
          readSize := truncate8 cs.blocksize
          writeSize := r + cs.compressOffset }
      else ∃ r, compressedSize (minReadBytes s / 8) s = .ok r ∧
        searchWriteSize cs s (cs.compressOffset + r * 8) (2 ^ 29)
          (truncate8 (cs.mtu - cs.protocolOverhead - cs.applicationOverhead)) = .ok rv := by
  unfold constrainByBlocksize at h
  simp only [Lib.Checked.bind_eq_ok, throwIf_eq_ok] at h
  obtain ⟨-, -, -, hwords, -, hblock, -, hn, -, hmtu, h⟩ := h
  refine ⟨by grind, by grind, by grind, by grind, ?_⟩
  split at h
  · rename_i hstream
    obtain ⟨r, hr, hrv⟩ := Lib.Checked.bind_eq_ok.mp h
    rw [if_pos hstream]
    exact ⟨r, hr, (Except.ok.inj hrv).symm⟩
  · rename_i hstream
    obtain ⟨r, hr, hrv⟩ := Lib.Checked.bind_eq_ok.mp h
    rw [if_neg hstream]
    exact ⟨r, hr, hrv⟩

theorem stream_by_block {cs rv : ConstraintSet} {s : Solution} (hs : FromSolver s)
    (hf : cs.framesize = unconstrained) (hn : cs.nMtu = unconstrained)
    (h : constrainByBlocksize cs s = .ok rv) : rv.Valid ↔ cs.Given ∧ StreamByBlock cs := by
  obtain ⟨hwords, -, -, -, h⟩ := constrainByBlocksize_guards h
  rw [if_pos hn] at h
  obtain ⟨r, hr, rfl⟩ := h
  obtain ⟨h8, -⟩ := truncate8_spec cs.blocksize
  have hr := compressedSize_ok hs hr
  constructor
  · intro hv
    exact ⟨⟨hv.mtu_set, hv.protocolOverhead_set, hv.applicationOverhead_set⟩, hv.mtu_pos,
      hv.offset_lt_read⟩
  · rintro ⟨⟨hmtu, hproto, happ⟩, hpos, hoff⟩
    exact {
      blocksize_set := multiple_ne_unconstrained h8
      readSize_set := multiple_ne_unconstrained h8
      writeSize_set := multiple_ne_unconstrained (by dsimp only; grind)
      mtu_set := hmtu
      protocolOverhead_set := hproto
      applicationOverhead_set := happ
      compressOffset_set := multiple_ne_unconstrained hwords
      blocksize_pos := by dsimp only; grind
      readSize_pos := by dsimp only; grind
      writeSize_pos := by dsimp only; grind
      mtu_pos := hpos
      blocksize_words := h8
      compressOffset_words := hwords
      nMtu_one := Or.inr hn
      read_le_block := UInt32.le_refl _
      block_reads := by simp
      offset_lt_read := hoff
      datagram := fun h1 => absurd (h1.symm.trans hn) one_ne_unconstrained
      write_le_read := by dsimp only; grind
      frame := fun hset => absurd hf hset }

/-! ## Datagrams, by block size -/

/-- The read size that goes with a write size, as 32 bits hold it. -/
def readSizeOf (cs : ConstraintSet) (s : Solution) (wrSize : UInt32) : UInt32 :=
  (uncompressedSize (wrSize - cs.compressOffset) s).toOption.getD 0 + cs.compressOffset

/-- The payload of a datagram, in whole words. -/
def payload (cs : ConstraintSet) : UInt32 :=
  truncate8 (cs.mtu - cs.protocolOverhead - cs.applicationOverhead)

/-- Downwards from the payload, the first write size whose read size fits in the block. -/
def FirstFit (cs : ConstraintSet) (s : Solution) (wr : UInt32) : Prop :=
  wr % 8 = 0 ∧ readSizeOf cs s wr ≤ cs.blocksize ∧
    ∀ wr' : UInt32, wr' % 8 = 0 → payload cs - wr' < payload cs - wr →
      cs.blocksize < readSizeOf cs s wr'

/-- No product or sum of the search leaves 32 bits. -/
def NoOverflow (cs : ConstraintSet) (s : Solution) : Prop :=
  cs.protocolOverhead.toNat + cs.applicationOverhead.toNat + cs.compressOffset.toNat ≤ cs.mtu.toNat ∧
    cs.compressOffset.toNat +
      (cs.mtu.toNat - cs.protocolOverhead.toNat - cs.applicationOverhead.toNat + 8) * s.cycle < 2 ^ 32

def Fitting (cs : ConstraintSet) (s : Solution) (wr : UInt32) : Prop :=
  0 < cs.mtu ∧ 0 < wr ∧ wr ≤ readSizeOf cs s wr ∧ cs.compressOffset < readSizeOf cs s wr ∧
    cs.protocolOverhead + cs.applicationOverhead + wr ≤ cs.mtu

def DatagramByBlock (cs : ConstraintSet) (s : Solution) : Prop :=
  compressing s = true → NoOverflow cs s ∨ ∀ wr, FirstFit cs s wr → Fitting cs s wr

theorem FirstFit.unique {cs : ConstraintSet} {s : Solution} {wr wr' : UInt32}
    (h : FirstFit cs s wr) (h' : FirstFit cs s wr') : wr = wr' := by
  have hle : ¬payload cs - wr < payload cs - wr' := by
    intro hlt
    exact absurd (h'.2.2 wr h.1 hlt) (UInt32.not_lt.mpr h.2.1)
  have hge : ¬payload cs - wr' < payload cs - wr := by
    intro hlt
    exact absurd (h.2.2 wr' h'.1 hlt) (UInt32.not_lt.mpr h'.2.1)
  grind

theorem uncompressedSize_words {s : Solution} {n r : UInt32} (hn : n % 8 = 0)
    (h : uncompressedSize n s = .ok r) : r % 8 = 0 := by
  rw [uncompressedSize, if_pos hn] at h
  split at h
  · split at h
    · rename_i m _
      obtain rfl : UInt32.ofNat m * 8 = r := Except.ok.inj h
      grind
    · cases h
  · obtain rfl : n = r := Except.ok.inj h
    exact hn

/-- Whole multiples of the read size make a block. -/
theorem block_of_reads {b rd : UInt32} (hpos : rd ≠ 0) (hle : rd ≤ b) :
    b - b % rd ≤ b ∧ rd ≤ b - b % rd ∧ (b - b % rd) % rd = 0 ∧
      (rd % 8 = 0 → (b - b % rd) % 8 = 0) := by
  have hrd : 0 < rd.toNat := Nat.pos_of_ne_zero fun h => hpos (UInt32.toNat_inj.mp h)
  have hmod : b % rd ≤ b := by
    rw [UInt32.le_iff_toNat_le, UInt32.toNat_mod]
    exact Nat.mod_le _ _
  rw [UInt32.le_iff_toNat_le] at hle
  have hsub : (b - b % rd).toNat = rd.toNat * (b.toNat / rd.toNat) := by
    have hdiv := Nat.div_add_mod b.toNat rd.toNat
    rw [UInt32.toNat_sub_of_le _ _ hmod, UInt32.toNat_mod]
    omega
  refine ⟨?_, ?_, ?_, fun h8 => ?_⟩
  · rw [UInt32.le_iff_toNat_le, UInt32.toNat_sub_of_le _ _ hmod]
    exact Nat.sub_le _ _
  · rw [UInt32.le_iff_toNat_le, hsub]
    exact Nat.le_mul_of_pos_right _ (Nat.div_pos hle hrd)
  · rw [← UInt32.toNat_inj, UInt32.toNat_mod, hsub]
    exact Nat.mul_mod_right _ _
  · rw [← UInt32.toNat_inj, UInt32.toNat_mod] at h8 ⊢
    rw [hsub]
    exact Nat.mod_eq_zero_of_dvd (Nat.dvd_trans (Nat.dvd_of_mod_eq_zero h8) (Nat.dvd_mul_right _ _))

theorem tryWriteSize_ok {cs : ConstraintSet} {s : Solution} {wr : UInt32}
    (hoff : cs.compressOffset % 8 = 0) (hwr : wr % 8 = 0) {o : Option (UInt32 × UInt32)}
    (h : tryWriteSize cs s wr = .ok o) : readSizeOf cs s wr % 8 = 0 ∧
      ((cs.blocksize < readSizeOf cs s wr ∧ o = none) ∨
        (readSizeOf cs s wr ≤ cs.blocksize ∧ readSizeOf cs s wr ≠ 0 ∧
          o = some (readSizeOf cs s wr, cs.blocksize - cs.blocksize % readSizeOf cs s wr))) := by
  obtain ⟨n, hn, h⟩ := Lib.Checked.bind_eq_ok.mp h
  have hrd : readSizeOf cs s wr = n + cs.compressOffset := by
    rw [readSizeOf, hn]
    rfl
  have hwords := uncompressedSize_words (by grind) hn
  rw [← hrd] at h
  have h8 : readSizeOf cs s wr % 8 = 0 := by grind
  refine ⟨h8, ?_⟩
  dsimp only at h
  split at h
  · rename_i hle
    split at h
    · cases h
    · rename_i hne
      obtain ⟨-, hge, -, hblock⟩ := block_of_reads hne hle
      rw [if_pos ⟨by grind, hblock h8, h8⟩] at h
      exact Or.inr ⟨hle, hne, (Except.ok.inj h).symm⟩
  · rename_i hnot
    exact Or.inl ⟨UInt32.not_le.mp hnot, (Except.ok.inj h).symm⟩

/-- The search finds the first write size that fits, not below the minimum. -/
theorem searchWriteSize_ok {cs rv : ConstraintSet} {s : Solution} {absMin : UInt32}
    (hoff : cs.compressOffset % 8 = 0) {left : Nat} {start : UInt32} (hstart : start % 8 = 0)
    (h : searchWriteSize cs s absMin left start = .ok rv) : ∃ wr : UInt32, wr % 8 = 0 ∧
      absMin ≤ wr ∧ (0 < absMin → wr ≤ start) ∧ readSizeOf cs s wr % 8 = 0 ∧
      readSizeOf cs s wr ≤ cs.blocksize ∧ readSizeOf cs s wr ≠ 0 ∧
      (∀ wr' : UInt32, wr' % 8 = 0 → start - wr' < start - wr → cs.blocksize < readSizeOf cs s wr') ∧
      rv = { cs with
        blocksize := cs.blocksize - cs.blocksize % readSizeOf cs s wr
        readSize := readSizeOf cs s wr
        writeSize := wr } := by
  induction left generalizing start with
  | zero => cases h
  | succ left ih =>
    rw [searchWriteSize] at h
    split at h
    · rename_i hmin
      obtain ⟨o, ho, h⟩ := Lib.Checked.bind_eq_ok.mp h
      obtain ⟨h8, ⟨hlt, rfl⟩ | ⟨hle, hne, rfl⟩⟩ := tryWriteSize_ok hoff hstart ho
      · obtain ⟨wr, hwr, hge, hup, h8', hfit, hne', hfirst, hrv⟩ := ih (by grind) h
        refine ⟨wr, hwr, hge, fun hpos => ?_, h8', hfit, hne', fun wr' hwr' hless => ?_, hrv⟩
        · have hdown := hup hpos
          grind
        · by_cases heq : wr' = start
          · rwa [heq]
          · exact hfirst wr' hwr' (by grind)
      · exact ⟨start, hstart, hmin, fun _ => UInt32.le_refl _, h8, hle, hne,
          fun wr' _ hless => absurd hless (by grind), (Except.ok.inj h).symm⟩
    · cases h

theorem toNat_mul_eight {n : UInt32} (h : n.toNat * 8 < 2 ^ 32) : (n * 8).toNat = n.toNat * 8 := by
  have height : (8 : UInt32).toNat = 8 := rfl
  rw [UInt32.toNat_mul, height, Nat.mod_eq_of_lt h]

theorem minReadBytes_pos {s : Solution} (hs : FromSolver s) {r : UInt32}
    (h : compressedSize (minReadBytes s / 8) s = .ok r)
    (hcycle : compressing s = true → 8 * s.cycle < 2 ^ 32) :
    0 < r ∧ r ≤ minReadBytes s / 8 ∧ (compressing s = true → r.toNat ≤ s.cycle) := by
  obtain ⟨hle, hpos, -⟩ := compressedSize_ok hs h
  unfold minReadBytes at *
  by_cases hc : compressing s = true
  · obtain ⟨mask, hsolved⟩ := hs.solved hc
    have hcpos := hsolved.cycle_pos
    have hlt := hcycle hc
    rw [if_pos hc] at *
    have hcn : (UInt32.ofNat s.cycle).toNat = s.cycle :=
      UInt32.toNat_ofNat_of_lt' (by rw [UInt32.size]; omega)
    have hmin : (UInt32.ofNat s.cycle * 8 / 8).toNat = s.cycle := by
      rw [UInt32.toNat_div, toNat_mul_eight (by omega), hcn]
      exact Nat.mul_div_cancel _ (by decide)
    refine ⟨hpos ?_, hle, fun _ => ?_⟩
    · rw [UInt32.lt_iff_toNat_lt, hmin]
      exact hcpos
    · rw [UInt32.le_iff_toNat_le, hmin] at hle
      exact hle
  · rw [if_neg hc] at *
    exact ⟨hpos (by decide), hle, fun hc' => absurd hc' hc⟩

theorem payload_toNat {cs : ConstraintSet}
    (h : cs.protocolOverhead.toNat + cs.applicationOverhead.toNat ≤ cs.mtu.toNat) :
    (payload cs).toNat ≤ cs.mtu.toNat - cs.protocolOverhead.toNat - cs.applicationOverhead.toNat := by
  have hproto : cs.protocolOverhead ≤ cs.mtu := by
    rw [UInt32.le_iff_toNat_le]
    omega
  have hsub := UInt32.toNat_sub_of_le _ _ hproto
  have happ : cs.applicationOverhead ≤ cs.mtu - cs.protocolOverhead := by
    rw [UInt32.le_iff_toNat_le]
    omega
  have hle := (truncate8_spec (cs.mtu - cs.protocolOverhead - cs.applicationOverhead)).2
  rw [UInt32.le_iff_toNat_le, UInt32.toNat_sub_of_le _ _ happ, hsub] at hle
  exact hle

/-- Without overflow a write size between the minimum and the payload is fitting. -/
theorem NoOverflow.fitting {cs : ConstraintSet} {s : Solution} {mask : Word} (h : NoOverflow cs s)
    (hs : Solved mask s) (hc : compressing s = true) (hoff : cs.compressOffset % 8 = 0) {r : UInt32}
    (hr : 0 < r ∧ r.toNat ≤ s.cycle) {wr : UInt32} (hwr : wr % 8 = 0)
    (hmin : cs.compressOffset + r * 8 ≤ wr)
    (hmax : 0 < cs.compressOffset + r * 8 → wr ≤ payload cs) : Fitting cs s wr := by
  obtain ⟨hmtu, hread⟩ := h
  obtain ⟨hrpos, hrle⟩ := hr
  have hcyc : 8 * s.cycle ≤
      (cs.mtu.toNat - cs.protocolOverhead.toNat - cs.applicationOverhead.toNat + 8) * s.cycle :=
    Nat.mul_le_mul_right _ (Nat.le_add_left 8 _)
  have hmul : (r * 8).toNat = r.toNat * 8 := toNat_mul_eight (by omega)
  have hadd : (cs.compressOffset + r * 8).toNat = cs.compressOffset.toNat + r.toNat * 8 := by
    rw [UInt32.toNat_add, hmul, Nat.mod_eq_of_lt (by omega)]
  have hrnat : 0 < r.toNat := UInt32.lt_iff_toNat_lt.mp hrpos
  have hup := hmax (UInt32.lt_iff_toNat_lt.mpr (by
    rw [hadd]
    exact Nat.add_pos_right _ (Nat.mul_pos hrnat (by decide))))
  have hpay := @payload_toNat cs (by omega)
  rw [UInt32.le_iff_toNat_le] at hup hmin
  rw [hadd] at hmin
  have hoffwr : cs.compressOffset ≤ wr := by
    rw [UInt32.le_iff_toNat_le]
    omega
  have hsub := UInt32.toNat_sub_of_le _ _ hoffwr
  have hw8 : (wr - cs.compressOffset) % 8 = 0 := by grind
  have hw8' : (wr.toNat - cs.compressOffset.toNat) % 8 = 0 := by
    rw [← hsub]
    simpa [← UInt32.toNat_inj] using hw8
  have hdiv : ((wr - cs.compressOffset) / 8).toNat = (wr.toNat - cs.compressOffset.toNat) / 8 := by
    rw [UInt32.toNat_div, hsub]
    rfl
  obtain ⟨n, hn⟩ : ∃ n, n = (wr.toNat - cs.compressOffset.toNat) / 8 := ⟨_, rfl⟩
  have hcells : 8 * ((n + 1) * s.cycle) ≤
      (cs.mtu.toNat - cs.protocolOverhead.toNat - cs.applicationOverhead.toNat + 8) * s.cycle := by
    rw [← Nat.mul_assoc]
    exact Nat.mul_le_mul_right _ (by omega)
  obtain ⟨k, hk, hnk, hkn⟩ := hs.inputsize_bounds (n := n) (by omega)
  have hkn' : (UInt32.ofNat k).toNat = k :=
    UInt32.toNat_ofNat_of_lt' (by rw [UInt32.size]; omega)
  have hkm : (UInt32.ofNat k * 8).toNat = k * 8 := by
    rw [toNat_mul_eight (by omega), hkn']
  have hrd : (readSizeOf cs s wr).toNat = k * 8 + cs.compressOffset.toNat := by
    rw [readSizeOf, uncompressedSize, if_pos hc, if_pos hw8, hdiv, ← hn, hk]
    dsimp only [Except.toOption, Option.getD]
    rw [UInt32.toNat_add, hkm, Nat.mod_eq_of_lt (by omega)]
  have hzero : (0 : UInt32).toNat = 0 := rfl
  refine ⟨?_, ?_, ?_, ?_, ?_⟩ <;> simp only [UInt32.lt_iff_toNat_lt, UInt32.le_iff_toNat_le, hzero]
  · omega
  · omega
  · omega
  · omega
  · rw [UInt32.toNat_add, UInt32.toNat_add, Nat.mod_add_mod, Nat.mod_eq_of_lt (by
      have hlt := cs.mtu.toNat_lt
      omega)]
    omega

theorem datagram_by_block {cs rv : ConstraintSet} {s : Solution} (hs : FromSolver s)
    (hf : cs.framesize = unconstrained) (hn : cs.nMtu = 1)
    (hzero : compressing s = false → cs.compressOffset = 0)
    (h : constrainByBlocksize cs s = .ok rv) : rv.Valid ↔ cs.Given ∧ DatagramByBlock cs s := by
  obtain ⟨hwords, hblock, -, hmtu, h⟩ := constrainByBlocksize_guards h
  rw [hn, if_neg one_ne_unconstrained] at h
  obtain ⟨r, hr, h⟩ := h
  obtain ⟨wr, hwr, hmin, hmax, h8, hfit, hne, hfirst, rfl⟩ :=
    searchWriteSize_ok hwords (truncate8_spec _).1 h
  have hff : FirstFit cs s wr := ⟨hwr, hfit, hfirst⟩
  obtain ⟨-, hge, hreads, hblock8⟩ := block_of_reads hne hfit
  have hvalid : ConstraintSet.Valid { cs with
      blocksize := cs.blocksize - cs.blocksize % readSizeOf cs s wr
      readSize := readSizeOf cs s wr
      writeSize := wr } ↔ cs.Given ∧ Fitting cs s wr := by
    constructor
    · intro hv
      exact ⟨⟨hv.mtu_set, hv.protocolOverhead_set, hv.applicationOverhead_set⟩, hv.mtu_pos,
        hv.writeSize_pos, hv.write_le_read, hv.offset_lt_read, hv.datagram hn⟩
    · rintro ⟨⟨hmtuset, hproto, happ⟩, hpos, hwpos, hle, hoff, hsum⟩
      exact {
        blocksize_set := multiple_ne_unconstrained (hblock8 h8)
        readSize_set := multiple_ne_unconstrained h8
        writeSize_set := multiple_ne_unconstrained hwr
        mtu_set := hmtuset
        protocolOverhead_set := hproto
        applicationOverhead_set := happ
        compressOffset_set := multiple_ne_unconstrained hwords
        blocksize_pos := by dsimp only; grind
        readSize_pos := by dsimp only; grind
        writeSize_pos := hwpos
        mtu_pos := hpos
        blocksize_words := hblock8 h8
        compressOffset_words := hwords
        nMtu_one := Or.inl hn
        read_le_block := hge
        block_reads := hreads
        offset_lt_read := hoff
        datagram := fun _ => hsum
        write_le_read := hle
        frame := fun hset => absurd hf hset }
  rw [hvalid]
  refine and_congr_right fun _ => ?_
  constructor
  · intro hfitting _
    refine Or.inr fun wr' hff' => ?_
    rwa [hff'.unique hff]
  · intro hcond
    by_cases hc : compressing s = true
    · obtain ⟨mask, hsolved⟩ := hs.solved hc
      rcases hcond hc with hno | hall
      · have hcyc : 8 * s.cycle ≤ (cs.mtu.toNat - cs.protocolOverhead.toNat -
            cs.applicationOverhead.toNat + 8) * s.cycle :=
          Nat.mul_le_mul_right _ (Nat.le_add_left 8 _)
        obtain ⟨hrpos, -, hrle⟩ := minReadBytes_pos hs hr (fun _ => by
          have hlt := hno.2
          omega)
        exact hno.fitting hsolved hc hwords ⟨hrpos, hrle hc⟩ hwr hmin hmax
      · exact hall wr hff
    · have hoff : cs.compressOffset = 0 := hzero (by simpa using hc)
      have hrd : readSizeOf cs s wr = wr := by
        rw [readSizeOf, uncompressedSize, if_neg hc, hoff]
        dsimp only [Except.toOption, Option.getD]
        grind
      obtain ⟨hrpos, hrle, -⟩ := minReadBytes_pos hs hr (fun hc' => absurd hc' hc)
      rw [minReadBytes, if_neg hc] at hrle
      have hle8 : r = 1 := by grind
      rw [hoff, hle8] at hmin hmax
      have hup := hmax (by decide)
      have hpay : wr ≤ cs.mtu - cs.protocolOverhead - cs.applicationOverhead :=
        UInt32.le_trans hup (truncate8_spec _).2
      have hguard := hmtu hn
      rw [hoff] at hguard
      unfold Fitting
      rw [hrd, hoff]
      exact ⟨by grind, by grind, by grind, by grind, by grind⟩

/-! ## A stream, by frame size -/

/-- The block size the search for a divider starts with. -/
def startBlocksize (cs : ConstraintSet) : UInt32 :=
  if cs.blocksize = unconstrained then cs.framesize else truncate8 cs.blocksize

def StreamByFrame (cs : ConstraintSet) : Prop :=
  0 < cs.mtu ∧ cs.framesize % 8 = 0 ∧ cs.compressOffset < cs.framesize ∧
    cs.framesize.toNat < 2 * (startBlocksize cs).toNat

theorem constrainByFramesize_guards {cs rv : ConstraintSet} {s : Solution}
    (h : constrainByFramesize cs s = .ok rv) : cs.compressOffset % 8 = 0 ∧
      (cs.nMtu = 1 ∨ cs.nMtu = unconstrained) ∧ cs.framesize ≠ unconstrained ∧ cs.framesize ≠ 0 ∧
      if cs.nMtu = unconstrained then ∃ bs r, streamBlocksize cs = .ok bs ∧
        compressedSize (cs.framesize - cs.compressOffset) s = .ok r ∧
        rv = { cs with
          blocksize := bs
          readSize := cs.framesize
          writeSize := r + cs.compressOffset }
      else ∃ rd wr bs, searchReadSize cs s (cs.framesize.toNat - 1) = .ok (rd, wr) ∧
        datagramBlocksize cs rd = .ok bs ∧
        rv = { cs with blocksize := bs, readSize := rd, writeSize := wr } := by
  unfold constrainByFramesize at h
  simp only [Lib.Checked.bind_eq_ok, throwIf_eq_ok] at h
  obtain ⟨-, hwords, -, hn, -, hframe, h⟩ := h
  refine ⟨by grind, by grind, by grind, by grind, ?_⟩
  split at h
  · rename_i hstream
    obtain ⟨bs, hbs, h⟩ := Lib.Checked.bind_eq_ok.mp h
    obtain ⟨r, hr, hrv⟩ := Lib.Checked.bind_eq_ok.mp h
    rw [if_pos hstream]
    exact ⟨bs, r, hbs, hr, (Except.ok.inj hrv).symm⟩
  · rename_i hstream
    obtain ⟨⟨rd, wr⟩, hrd, h⟩ := Lib.Checked.bind_eq_ok.mp h
    obtain ⟨bs, hbs, hrv⟩ := Lib.Checked.bind_eq_ok.mp h
    rw [if_neg hstream]
    exact ⟨rd, wr, bs, hrd, hbs, (Except.ok.inj hrv).symm⟩

theorem divideFramesize_ok {cs : ConstraintSet} {left : Nat} (hleft : left ≤ cs.framesize.toNat)
    {bs r : UInt32} (h : divideFramesize cs left bs = .ok r) :
    r = bs ∨ ∃ i, cs.framesize.toNat - left ≤ i ∧ r.toNat = cs.framesize.toNat / i := by
  induction left generalizing bs with
  | zero => cases h
  | succ left ih =>
    rw [divideFramesize] at h
    split at h
    · exact Or.inl (Except.ok.inj h).symm
    · rcases ih (by omega) h with rfl | ⟨i, hi, hr⟩
      · refine Or.inr ⟨cs.framesize.toNat - (left + 1), Nat.le_refl _, ?_⟩
        exact UInt32.toNat_ofNat_of_lt' (Nat.lt_of_le_of_lt (Nat.div_le_self _ _) cs.framesize.toNat_lt)
      · exact Or.inr ⟨i, by omega, hr⟩

/-- A block of half a frame at most stays one. -/
theorem divideFramesize_small {cs : ConstraintSet} {bs r : UInt32} (hbs : bs ≠ 0)
    (hframe : cs.framesize ≠ 0) (hle : 2 * bs.toNat ≤ cs.framesize.toNat)
    (h : divideFramesize cs (cs.framesize.toNat - (cs.framesize / bs).toNat) bs = .ok r) :
    r < cs.framesize := by
  have hpos : 0 < bs.toNat := Nat.pos_of_ne_zero fun h0 => hbs (UInt32.toNat_inj.mp h0)
  have hfpos : 0 < cs.framesize.toNat := Nat.pos_of_ne_zero fun h0 => hframe (UInt32.toNat_inj.mp h0)
  have htwo : 2 ≤ cs.framesize.toNat / bs.toNat := (Nat.le_div_iff_mul_le hpos).mpr hle
  have hself : cs.framesize.toNat / bs.toNat ≤ cs.framesize.toNat := Nat.div_le_self _ _
  rw [UInt32.lt_iff_toNat_lt]
  rw [UInt32.toNat_div] at h
  rcases divideFramesize_ok (Nat.sub_le _ _) h with rfl | ⟨i, hi, hr⟩
  · omega
  · rw [hr]
    exact Nat.div_lt_self hfpos (by omega)

/-- A block of more than half a frame becomes one. -/
theorem divideFramesize_large {cs : ConstraintSet} {bs r : UInt32} (hle : bs ≤ cs.framesize)
    (hlt : cs.framesize.toNat < 2 * bs.toNat) (h8 : cs.framesize % 8 = 0)
    (hoff : cs.compressOffset < cs.framesize)
    (h : divideFramesize cs (cs.framesize.toNat - (cs.framesize / bs).toNat) bs = .ok r) :
    r = cs.framesize := by
  have hframe8 : cs.framesize.toNat % 8 = 0 := by simpa [← UInt32.toNat_inj] using h8
  have hself : ∀ n : UInt32, n % n = 0 := by simp
  rw [UInt32.le_iff_toNat_le] at hle
  have hone : cs.framesize.toNat / bs.toNat = 1 := by
    rw [Nat.div_eq_iff (by omega)]
    omega
  obtain ⟨left, hleft⟩ : ∃ left, cs.framesize.toNat = left + 3 := ⟨cs.framesize.toNat - 3, by omega⟩
  have hfull : UInt32.ofNat ((left + 3) / (left + 3 - (left + 1 + 1))) = cs.framesize := by
    rw [show left + 3 - (left + 1 + 1) = 1 by omega, Nat.div_one, ← hleft]
    exact UInt32.ofNat_toNat
  rw [UInt32.toNat_div, hone, hleft, show left + 3 - 1 = left + 1 + 1 from rfl, divideFramesize, hleft,
    hfull] at h
  split at h
  · rename_i haccept
    have hbs := Except.ok.inj h
    rw [← hbs, ← UInt32.toNat_inj]
    have hmod := haccept.1
    rw [← UInt32.toNat_inj, UInt32.toNat_mod, Nat.mod_eq_sub_mod hle] at hmod
    rw [Nat.mod_eq_of_lt (by omega)] at hmod
    have hzero : (0 : UInt32).toNat = 0 := rfl
    omega
  · rw [divideFramesize, if_pos ⟨hself _, h8, hoff⟩] at h
    exact (Except.ok.inj h).symm

theorem streamBlocksize_ok {cs : ConstraintSet} {bs : UInt32} (hframe : cs.framesize ≠ 0)
    (h : streamBlocksize cs = .ok bs) :
    (cs.framesize.toNat < 2 * (startBlocksize cs).toNat → cs.framesize % 8 = 0 →
      cs.compressOffset < cs.framesize →
        cs.framesize ≤ bs ∧ bs % cs.framesize = 0 ∧ bs % 8 = 0) ∧
      (cs.framesize ≤ bs → cs.framesize.toNat < 2 * (startBlocksize cs).toNat) := by
  unfold streamBlocksize at h
  dsimp only at h
  rw [show (if cs.blocksize = unconstrained then cs.framesize else truncate8 cs.blocksize) =
    startBlocksize cs from rfl] at h
  split at h
  · rename_i hgt
    obtain rfl := Except.ok.inj h
    obtain ⟨-, hge, hmod, hwords⟩ := block_of_reads hframe (Std.le_of_lt hgt)
    refine ⟨fun _ h8 _ => ⟨hge, hmod, hwords h8⟩, fun _ => ?_⟩
    have hgt' := UInt32.lt_iff_toNat_lt.mp hgt
    omega
  · rename_i hle
    have hle := UInt32.not_lt.mp hle
    split at h
    · cases h
    · rename_i hne
      constructor
      · intro hlt h8 hoff
        obtain rfl := divideFramesize_large hle hlt h8 hoff h
        exact ⟨UInt32.le_refl _, by simp, h8⟩
      · intro hge
        by_cases hsmall : 2 * (startBlocksize cs).toNat ≤ cs.framesize.toNat
        · exact absurd (divideFramesize_small hne hframe hsmall h) (UInt32.not_lt.mpr hge)
        · omega

theorem stream_by_frame {cs rv : ConstraintSet} {s : Solution} (hs : FromSolver s)
    (hn : cs.nMtu = unconstrained) (h : constrainByFramesize cs s = .ok rv) :
    rv.Valid ↔ cs.Given ∧ StreamByFrame cs := by
  obtain ⟨hwords, -, hset, hne, h⟩ := constrainByFramesize_guards h
  rw [if_pos hn] at h
  obtain ⟨bs, r, hbs, hr, rfl⟩ := h
  obtain ⟨hlarge, hback⟩ := streamBlocksize_ok hne hbs
  have hr := compressedSize_ok hs hr
  constructor
  · intro hv
    exact ⟨⟨hv.mtu_set, hv.protocolOverhead_set, hv.applicationOverhead_set⟩, hv.mtu_pos,
      (hv.frame hset).2.1, hv.offset_lt_read, hback hv.read_le_block⟩
  · rintro ⟨⟨hmtu, hproto, happ⟩, hpos, h8, hoff, hlt⟩
    obtain ⟨hge, hmod, hbs8⟩ := hlarge hlt h8 hoff
    exact {
      blocksize_set := multiple_ne_unconstrained hbs8
      readSize_set := hset
      writeSize_set := multiple_ne_unconstrained (by dsimp only; grind)
      mtu_set := hmtu
      protocolOverhead_set := hproto
      applicationOverhead_set := happ
      compressOffset_set := multiple_ne_unconstrained hwords
      blocksize_pos := by dsimp only; grind
      readSize_pos := by dsimp only; grind
      writeSize_pos := by dsimp only; grind
      mtu_pos := hpos
      blocksize_words := hbs8
      compressOffset_words := hwords
      nMtu_one := Or.inr hn
      read_le_block := hge
      block_reads := hmod
      offset_lt_read := hoff
      datagram := fun h1 => absurd (h1.symm.trans hn) one_ne_unconstrained
      write_le_read := by dsimp only; grind
      frame := fun _ => ⟨by dsimp only; grind, h8, by simp⟩ }

/-! ## Datagrams, by frame size -/

/-- The largest divisor of the frame size that a datagram holds. -/
def LargestFit (cs : ConstraintSet) (d : UInt32) : Prop :=
  cs.framesize % d = 0 ∧ 1 < d ∧ cs.protocolOverhead + cs.applicationOverhead + d < cs.mtu ∧
    ∀ d' : UInt32, cs.framesize % d' = 0 → d < d' →
      ¬cs.protocolOverhead + cs.applicationOverhead + d' < cs.mtu

def DatagramByFrame (cs : ConstraintSet) (s : Solution) : Prop :=
  compressing s = false → cs.framesize % 8 = 0 ∧
    (cs.blocksize ≠ unconstrained → cs.blocksize ≤ cs.framesize →
      ∀ d, LargestFit cs d → (cs.blocksize - cs.blocksize % d) % 8 = 0)

theorem LargestFit.unique {cs : ConstraintSet} {d d' : UInt32} (h : LargestFit cs d)
    (h' : LargestFit cs d') : d = d' := by
  have hle : ¬d < d' := fun hlt => h.2.2.2 d' h'.1 hlt h'.2.2.1
  have hge : ¬d' < d := fun hlt => h'.2.2.2 d h.1 hlt h.2.2.1
  grind

theorem divisor_between {n d i : Nat} (hi : 0 < i) (hd : n % d = 0) (hle : d * i ≤ n)
    (hlt : n < d * (i + 1)) : n % i = 0 ∧ d = n / i := by
  obtain ⟨q, rfl⟩ := Nat.dvd_of_mod_eq_zero hd
  have hdpos : 0 < d := by
    apply Nat.pos_of_ne_zero
    rintro rfl
    simp at hlt
  have hq : q = i := by
    have hge := Nat.le_of_mul_le_mul_left hle hdpos
    have hlt' := Nat.lt_of_mul_lt_mul_left hlt
    omega
  rw [hq]
  exact ⟨Nat.mul_mod_left _ _, (Nat.mul_div_cancel _ hi).symm⟩

/-- The search finds a divisor that fits; without compression, the largest. -/
theorem searchReadSize_ok {cs : ConstraintSet} {s : Solution} (hs : FromSolver s)
    (hzero : compressing s = false → cs.compressOffset = 0)
    (hoff : cs.compressOffset % 8 = 0) {left : Nat} (hleft : left < cs.framesize.toNat)
    (hbefore : compressing s = false → ∀ d : UInt32, cs.framesize % d = 0 →
      cs.framesize.toNat < d.toNat * (cs.framesize.toNat - left) →
      ¬cs.protocolOverhead + cs.applicationOverhead + d < cs.mtu)
    {rd wr : UInt32} (h : searchReadSize cs s left = .ok (rd, wr)) :
    cs.framesize % rd = 0 ∧ 1 < rd ∧ rd ≤ cs.framesize ∧ 0 < wr ∧ wr ≤ rd ∧
      cs.protocolOverhead + cs.applicationOverhead + wr < cs.mtu ∧ cs.compressOffset < rd ∧
      (compressing s = true → rd % 8 = 0 ∧ wr % 8 = 0) ∧
      (compressing s = false → wr = rd ∧ LargestFit cs rd) := by
  induction left with
  | zero => cases h
  | succ left ih =>
    obtain ⟨i, hi⟩ : ∃ i, i = cs.framesize.toNat - (left + 1) := ⟨_, rfl⟩
    have hnext : cs.framesize.toNat - left = i + 1 := by omega
    have hipos : 0 < i := by omega
    obtain ⟨d, hd⟩ : ∃ d : UInt32, d = .ofNat (cs.framesize.toNat / i) := ⟨_, rfl⟩
    have hdnat : d.toNat = cs.framesize.toNat / i := by
      rw [hd]
      exact UInt32.toNat_ofNat_of_lt' (Nat.lt_of_le_of_lt (Nat.div_le_self _ _) cs.framesize.toNat_lt)
    -- a divisor above `framesize / (i + 1)` is `framesize / i`, or was tried before
    have hstep : (compressing s = false → cs.framesize.toNat % i = 0 →
          ¬cs.protocolOverhead + cs.applicationOverhead + d < cs.mtu) →
        compressing s = false → ∀ d' : UInt32, cs.framesize % d' = 0 →
          cs.framesize.toNat < d'.toNat * (cs.framesize.toNat - left) →
          ¬cs.protocolOverhead + cs.applicationOverhead + d' < cs.mtu := by
      intro hnot hc d' hdvd hlt
      rw [hnext] at hlt
      have hdvd' : cs.framesize.toNat % d'.toNat = 0 := by
        rw [← UInt32.toNat_mod, hdvd]
        rfl
      by_cases hold : cs.framesize.toNat < d'.toNat * i
      · exact hbefore hc d' hdvd (by rwa [← hi])
      · obtain ⟨hdiv, hquot⟩ := divisor_between hipos hdvd' (Nat.le_of_not_lt hold) hlt
        have hdd : d' = d := by rw [← UInt32.toNat_inj, hdnat, hquot]
        rw [hdd]
        exact hnot hc hdiv
    rw [searchReadSize, ← hi, ← hd] at h
    dsimp only at h
    split at h
    · rename_i hdvd
      have hq : i * d.toNat = cs.framesize.toNat := by
        rw [hdnat, Nat.mul_comm]
        exact Nat.div_mul_cancel (Nat.dvd_of_mod_eq_zero hdvd.1)
      split at h
      · cases h
      · rename_i hnlt
        obtain ⟨c, hcomp, h⟩ := Lib.Checked.bind_eq_ok.mp h
        obtain ⟨hle, hpos, hw8, hcw⟩ := compressedSize_ok hs hcomp
        split at h
        · rename_i haccept
          obtain ⟨rfl, rfl⟩ : d = rd ∧ c + cs.compressOffset = wr := by
            simpa using h
          have hdle : d ≤ cs.framesize := by
            rw [UInt32.le_iff_toNat_le, ← hq]
            exact Nat.le_mul_of_pos_left _ hipos
          have hone : 1 < d := by
            rw [UInt32.lt_iff_toNat_lt]
            have hone' : (1 : UInt32).toNat = 1 := rfl
            have hlti : i < cs.framesize.toNat := by omega
            rw [← hq] at hlti
            rw [hone']
            apply Nat.lt_of_not_le
            intro hsmall
            have hmul := Nat.mul_le_mul_left i hsmall
            omega
          have hmod : cs.framesize % d = 0 := by
            rw [← UInt32.toNat_inj, UInt32.toNat_mod, ← hq]
            exact Nat.mul_mod_left _ _
          have hoffd : cs.compressOffset < d := by
            by_cases hc : compressing s = true
            · have hless := haccept.2 hc
              grind
            · rw [hzero (by simpa using hc)]
              grind
          refine ⟨hmod, hone, hdle, by grind, by grind, haccept.1, hoffd, fun hc => ?_, fun hc => ?_⟩
          · have hd8 := hdvd.2 hc
            exact ⟨hd8, by grind⟩
          · have hraw : c = d - cs.compressOffset := by
              rw [compressedSize, if_neg (by simp [hc])] at hcomp
              exact (Except.ok.inj hcomp).symm
            have hwd : c + cs.compressOffset = d := by
              rw [hraw, hzero hc]
              grind
            refine ⟨hwd, hmod, hone, ?_, fun d' hd' hlt => ?_⟩
            · have hfits := haccept.1
              rwa [hwd] at hfits
            · refine hbefore hc d' hd' ?_
              rw [← hi, ← hq, Nat.mul_comm]
              exact Nat.mul_lt_mul_of_pos_right (UInt32.lt_iff_toNat_lt.mp hlt) hipos
        · rename_i hreject
          refine ih (by omega) (hstep fun hc _ hfits => hreject ?_) h
          have hraw : c = d - cs.compressOffset := by
            rw [compressedSize, if_neg (by simp [hc])] at hcomp
            exact (Except.ok.inj hcomp).symm
          have hwd : c + cs.compressOffset = d := by
            rw [hraw, hzero hc]
            grind
          rw [hwd]
          exact ⟨hfits, fun hc' => by simp [hc] at hc'⟩
    · rename_i hreject
      refine ih (by omega) (hstep fun hc hdvd _ => hreject ⟨hdvd, fun hc' => ?_⟩) h
      simp [hc] at hc'

theorem datagramBlocksize_ok {cs : ConstraintSet} {rd bs : UInt32} (hframe : cs.framesize ≠ 0)
    (hrd : 1 < rd) (hdvd : cs.framesize % rd = 0) (hle : rd ≤ cs.framesize)
    (h : datagramBlocksize cs rd = .ok bs) : rd ≤ bs ∧ bs % rd = 0 ∧
      (cs.framesize % 8 = 0 → rd % 8 = 0 → bs % 8 = 0) ∧
      (cs.framesize % 8 = 0 → (bs % 8 = 0 ↔ (cs.blocksize ≠ unconstrained →
        cs.blocksize ≤ cs.framesize → (cs.blocksize - cs.blocksize % rd) % 8 = 0))) := by
  have hne : rd ≠ 0 := by grind
  unfold datagramBlocksize at h
  split at h
  · rename_i hunset
    obtain rfl := Except.ok.inj h
    exact ⟨hle, hdvd, fun h8 _ => h8, fun h8 => ⟨fun _ hset => absurd hunset hset, fun _ => h8⟩⟩
  · rename_i hset
    split at h
    · rename_i hgt
      obtain rfl := Except.ok.inj h
      obtain ⟨-, hge, hmod, hwords⟩ := block_of_reads hframe (Std.le_of_lt hgt)
      have hrdb : (cs.blocksize - cs.blocksize % cs.framesize) % rd = 0 := by
        rw [← UInt32.toNat_inj, UInt32.toNat_mod] at hmod hdvd ⊢
        exact Nat.mod_eq_zero_of_dvd
          (Nat.dvd_trans (Nat.dvd_of_mod_eq_zero hdvd) (Nat.dvd_of_mod_eq_zero hmod))
      refine ⟨UInt32.le_trans hle hge, hrdb, fun h8 _ => hwords h8, fun h8 => ⟨fun _ _ hsmall => ?_,
        fun _ => hwords h8⟩⟩
      exact absurd hgt (UInt32.not_lt.mpr hsmall)
    · rename_i hnot
      split at h
      · rename_i hgt
        obtain rfl := Except.ok.inj h
        obtain ⟨-, hge, hmod, hwords⟩ := block_of_reads hne (Std.le_of_lt hgt)
        exact ⟨hge, hmod, fun _ => hwords, fun _ => ⟨fun h8 _ _ => h8,
          fun hall => hall hset (UInt32.not_lt.mp hnot)⟩⟩
      · cases h

theorem datagram_by_frame {cs rv : ConstraintSet} {s : Solution} (hs : FromSolver s)
    (hn : cs.nMtu = 1) (hzero : compressing s = false → cs.compressOffset = 0)
    (h : constrainByFramesize cs s = .ok rv) : rv.Valid ↔ cs.Given ∧ DatagramByFrame cs s := by
  obtain ⟨hwords, -, hset, hne, h⟩ := constrainByFramesize_guards h
  rw [hn, if_neg one_ne_unconstrained] at h
  obtain ⟨rd, wr, bs, hsearch, hbs, rfl⟩ := h
  have hfpos : 0 < cs.framesize.toNat := Nat.pos_of_ne_zero fun h0 => hne (UInt32.toNat_inj.mp h0)
  obtain ⟨hdvd, hrd, hle, hwpos, hwle, hsum, hoff, hcomp, hplain⟩ :=
    searchReadSize_ok hs hzero hwords (by omega) (fun _ d hd hlt => by
      rw [show cs.framesize.toNat - (cs.framesize.toNat - 1) = 1 by omega, Nat.mul_one] at hlt
      have hmod : cs.framesize.toNat % d.toNat = 0 := by
        rw [← UInt32.toNat_mod, hd]
        rfl
      rw [Nat.mod_eq_of_lt hlt] at hmod
      omega) hsearch
  obtain ⟨hge, hreads, hblock, hblockIff⟩ := datagramBlocksize_ok hne hrd hdvd hle hbs
  have hframe8 : rd % 8 = 0 → cs.framesize % 8 = 0 := by
    rw [← UInt32.toNat_inj, UInt32.toNat_mod] at hdvd
    rw [← UInt32.toNat_inj, UInt32.toNat_mod, ← UInt32.toNat_inj, UInt32.toNat_mod]
    intro h8
    exact Nat.mod_eq_zero_of_dvd
      (Nat.dvd_trans (Nat.dvd_of_mod_eq_zero h8) (Nat.dvd_of_mod_eq_zero hdvd))
  have hrdset : rd ≠ unconstrained := by
    rintro rfl
    exact hset (UInt32.le_antisymm (by unfold unconstrained; grind) hle)
  constructor
  · intro hv
    refine ⟨⟨hv.mtu_set, hv.protocolOverhead_set, hv.applicationOverhead_set⟩, fun hc => ?_⟩
    have hf8 := (hv.frame hset).2.1
    refine ⟨hf8, fun hbset hble d hd => ?_⟩
    rw [hd.unique (hplain hc).2]
    exact (hblockIff hf8).mp hv.blocksize_words hbset hble
  · rintro ⟨⟨hmtu, hproto, happ⟩, hcond⟩
    have h8 : cs.framesize % 8 = 0 ∧ bs % 8 = 0 := by
      by_cases hc : compressing s = true
      · have hrd8 := (hcomp hc).1
        exact ⟨hframe8 hrd8, hblock (hframe8 hrd8) hrd8⟩
      · rw [Bool.not_eq_true] at hc
        obtain ⟨hf8, hall⟩ := hcond hc
        exact ⟨hf8, (hblockIff hf8).mpr fun hbset hble => hall hbset hble rd (hplain hc).2⟩
    have hwrset : wr ≠ unconstrained := by
      by_cases hc : compressing s = true
      · exact multiple_ne_unconstrained (hcomp hc).2
      · rw [(hplain (by simpa using hc)).1]
        exact hrdset
    exact {
      blocksize_set := multiple_ne_unconstrained h8.2
      readSize_set := hrdset
      writeSize_set := hwrset
      mtu_set := hmtu
      protocolOverhead_set := hproto
      applicationOverhead_set := happ
      compressOffset_set := multiple_ne_unconstrained hwords
      blocksize_pos := by dsimp only; grind
      readSize_pos := by dsimp only; grind
      writeSize_pos := hwpos
      mtu_pos := by dsimp only; grind
      blocksize_words := h8.2
      compressOffset_words := hwords
      nMtu_one := Or.inl rfl
      read_le_block := hge
      block_reads := hreads
      offset_lt_read := hoff
      datagram := fun _ => Std.le_of_lt hsum
      write_le_read := hwle
      frame := fun _ => ⟨by dsimp only; grind, h8.1, hdvd⟩ }

/-! ## All together -/

/-- When the sizes that `constrain` returns are consistent. -/
def Consistent (cs : ConstraintSet) (s : Solution) : Prop :=
  cs.Given ∧
    (cs.framesize = unconstrained → cs.nMtu = unconstrained → StreamByBlock (withOffset cs s)) ∧
    (cs.framesize = unconstrained → cs.nMtu = 1 → DatagramByBlock (withOffset cs s) s) ∧
    (cs.framesize ≠ unconstrained → cs.nMtu = unconstrained → StreamByFrame (withOffset cs s)) ∧
    (cs.framesize ≠ unconstrained → cs.nMtu = 1 → DatagramByFrame (withOffset cs s) s)

theorem withOffset_fields (cs : ConstraintSet) (s : Solution) :
    withOffset cs s = { cs with compressOffset := (withOffset cs s).compressOffset } := by
  unfold withOffset
  split <;> rfl

theorem withOffset_zero {cs : ConstraintSet} {s : Solution} (h : compressing s = false) :
    (withOffset cs s).compressOffset = 0 := by
  rw [withOffset, if_pos (Or.inr (by simp [h]))]

/-- What `constrain` returns validates exactly when its input is one the solvers are right for. -/
theorem constrain_validates_iff (cs rv : ConstraintSet) (s : Solution)
    (hs : s = .empty ∨ ∃ mask, s = solve mask) (h : constrain cs s = .ok rv) :
    rv.validate = .ok () ↔ Consistent cs s := by
  have hs := fromSolver_of_solve hs
  have hzero := @withOffset_zero cs s
  have hfields := withOffset_fields cs s
  obtain ⟨lcl, hlcl⟩ : ∃ lcl, lcl = withOffset cs s := ⟨_, rfl⟩
  have hframe : lcl.framesize = cs.framesize := by rw [hlcl, hfields]
  have hmtu : lcl.nMtu = cs.nMtu := by rw [hlcl, hfields]
  have hgiven : lcl.Given ↔ cs.Given := by
    unfold ConstraintSet.Given
    rw [hlcl, hfields]
  rw [validate_iff_valid]
  unfold Consistent
  unfold constrain at h
  rw [← hgiven, ← hframe, ← hmtu]
  rw [← hlcl] at h hzero ⊢
  dsimp only at h
  split at h
  · rename_i hf
    rcases (constrainByBlocksize_guards h).2.2.1 with hn | hn
    · rw [datagram_by_block hs hf hn hzero h]
      simp [hf, hn, one_ne_unconstrained]
    · rw [stream_by_block hs hf hn h]
      simp [hf, hn, one_ne_unconstrained.symm]
  · rename_i hf
    rcases (constrainByFramesize_guards h).2.1 with hn | hn
    · rw [datagram_by_frame hs hn hzero h]
      simp [hf, hn, one_ne_unconstrained]
    · rw [stream_by_frame hs hn h]
      simp [hf, hn, one_ne_unconstrained.symm]

/-- UDP with 64-bit sequence numbers, an MTU of 9000 and blocks of 80000 bytes. -/
def udpsSizes : ConstraintSet where
  blocksize := 80000
  mtu := 9000
  applicationOverhead := 8
  protocolOverhead := 28
  nMtu := 1

theorem constrain_validates_udps : ∃ rv, constrain udpsSizes .empty = .ok rv ∧
    (rv.validate = .ok () ↔ Consistent udpsSizes .empty) :=
  ⟨_, rfl, constrain_validates_iff _ _ .empty (Or.inl rfl) rfl⟩

/-- TCP with frames of two blocks. -/
def tcpSizes : ConstraintSet where
  framesize := 160000
  blocksize := 80000
  mtu := 9000
  applicationOverhead := 0
  protocolOverhead := 44

/-- The block size is less than the read size. -/
theorem constrain_block_below_read : ∃ rv, constrain tcpSizes .empty = .ok rv ∧
    rv.blocksize = 80000 ∧ rv.readSize = 160000 ∧
    rv.validate = .error (.constraintError
      "constraint error: assertion 'GETCONSTRAINT(blocksize)>=GETCONSTRAINT(read_size)' fails!") :=
  ⟨_, rfl, rfl, rfl, rfl⟩

end Jive5ab.Constraints
