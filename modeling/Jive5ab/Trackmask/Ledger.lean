import Mathlib.Data.List.Nodup
import Mathlib.Data.List.ProdSigma
import Jive5ab.Lib.Machine
import Jive5ab.Trackmask.Sanitizing
import Jive5ab.Trackmask.Sizes

/-! # What the accepted steps move

The steps of a cycle, with the source word and the destination word each of them works on. The
solution keeps the two words in progress and how many are done; what it says of the steps is not
used, since `sanitize` writes them again. -/
namespace Jive5ab.Trackmask
open Lib Lib.Bits Solution

/-! ## The ledger -/

/-- The words are counted in the order in which they are worked on. -/
structure Place where
  word : Nat
  bit : Nat
  deriving DecidableEq

structure Entry where
  src : Place
  dst : Place
  deriving DecidableEq

def bits (x : Word) : List Nat := (List.range 64).filter x.getLsbD

/-- Each bit that is taken, and where its shift brings it. -/
def Solution.entries (s : Solution) (step : Step) : List Entry :=
  (bits step.maskFrom).map fun i => ⟨⟨s.nSrcdec, i⟩, ⟨s.nDstinc, (i + step.shift).toNat⟩⟩

structure Ledger where
  solution : Solution
  entries : List Entry

/-- Any step that the assertions let through. -/
def accepting (mask : Word) : Machine Ledger Step where
  init l := l = ⟨ofMask mask, []⟩
  step l step l' := l.solution.addStep step = some l'.solution ∧
    l'.entries = l.entries ++ l.solution.entries step

/-- The steps put the bits they take where their shift brings them. -/
def shifting (mask : Word) : Machine Ledger Step where
  init := (accepting mask).init
  step l step l' := (accepting mask).step l step l' ∧
    Shifts step.maskFrom step.maskTo step.shift

/-- A bit of `base`, in a word before word `n` or in that word and no longer in `left`. -/
def Done (base left : Word) (n : Nat) (p : Place) : Prop :=
  base.getLsbD p.bit = true ∧ (p.word < n ∨ p.word = n ∧ left.getLsbD p.bit = false)

/-- The bits that are done, each of them once. -/
structure Lists (base left : Word) (n : Nat) (ps : List Place) : Prop where
  nodup : ps.Nodup
  mem_iff : ∀ p, p ∈ ps ↔ Done base left n p

/-- When the cycle is complete there is no word in progress: the next one is untouched. -/
def Solution.sourceLeft (s : Solution) : Word := if s.complete then s.trackmask else s.maskIn

def Solution.placesLeft (s : Solution) : Word := if s.complete then ~~~s.trackmask else ~~~s.maskOut

/-- The bits of the mask that are gone from the source words are moved once, and the places outside
the mask that are taken in the destination words are filled from one bit. -/
structure Accounted (mask : Word) (l : Ledger) : Prop where
  consumed : Lists mask l.solution.sourceLeft l.solution.nSrcdec (l.entries.map Entry.src)
  filled : Lists (~~~mask) l.solution.placesLeft l.solution.nDstinc (l.entries.map Entry.dst)
  words : l.solution.complete = true →
    l.solution.nSrcdec * card mask = l.solution.nDstinc * (64 - card mask)

/-! ## Bits of a word -/

theorem mem_bits {x : Word} {i : Nat} : i ∈ bits x ↔ x.getLsbD i = true := by
  rw [bits, List.mem_filter, List.mem_range]
  exact ⟨And.right, fun h => ⟨BitVec.lt_of_getLsbD h, h⟩⟩

theorem nodup_bits (x : Word) : (bits x).Nodup := List.nodup_range.filter _

theorem length_bits (x : Word) : (bits x).length = card x := (List.countP_eq_length_filter ..).symm

theorem card_not (x : Word) : card (~~~x) = 64 - card x := by
  have hall : card (x ||| ~~~x) = 64 := by
    rw [BitVec.or_not_self]
    decide
  have hapart : Apart x (~~~x) := (apart_not (.refl (~~~x))).symm
  rw [card_or hapart] at hall
  omega

theorem shifts_bit {x y : Word} {n : Int} (h : Shifts x y n) {i : Nat} (hi : x.getLsbD i = true) :
    0 ≤ (i : Int) + n ∧ y.getLsbD ((i : Int) + n).toNat = true := by
  rw [h.2, shiftBy_getLsbD, Int.sub_neg, Bool.and_eq_true, Bool.and_eq_true, decide_eq_true_iff] at hi
  exact ⟨of_decide_eq_true hi.2.1, hi.2.2⟩

theorem nodup_map_place (n : Nat) {is : List Nat} (h : is.Nodup) : (is.map (Place.mk n)).Nodup :=
  List.Nodup.map (fun _ _ hij => (Place.mk.inj hij).2) h

/-! ## What one step moves -/

theorem map_src_entries (s : Solution) (step : Step) :
    (s.entries step).map Entry.src = (bits step.maskFrom).map (Place.mk s.nSrcdec) := by
  rw [Solution.entries, List.map_map]
  rfl

theorem map_dst_entries (s : Solution) (step : Step) :
    (s.entries step).map Entry.dst =
      ((bits step.maskFrom).map fun i : Nat => ((i : Int) + step.shift).toNat).map
        (Place.mk s.nDstinc) := by
  rw [Solution.entries, List.map_map, List.map_map]
  rfl

/-- The places that are filled, each of them once. -/
theorem nodup_shifted {x y : Word} {n : Int} (h : Shifts x y n) :
    ((bits x).map fun i : Nat => ((i : Int) + n).toNat).Nodup := by
  refine List.Nodup.map_on (fun i hi j hj hij => ?_) (nodup_bits x)
  obtain ⟨hile, -⟩ := shifts_bit h (mem_bits.mp hi)
  obtain ⟨hjle, -⟩ := shifts_bit h (mem_bits.mp hj)
  omega

theorem mem_shifted {x y : Word} {n : Int} (h : Shifts x y n) {j : Nat} :
    (j ∈ (bits x).map fun i : Nat => ((i : Int) + n).toNat) ↔ y.getLsbD j = true := by
  rw [List.mem_map]
  constructor
  · rintro ⟨i, hi, rfl⟩
    exact (shifts_bit h (mem_bits.mp hi)).2
  · intro hj
    obtain ⟨hle, hbit⟩ := shifts_bit h.symm hj
    refine ⟨_, mem_bits.mpr hbit, ?_⟩
    omega

theorem mem_map_place {n : Nat} {is : List Nat} {x : Word} (h : ∀ i, i ∈ is ↔ x.getLsbD i = true)
    (p : Place) : p ∈ is.map (Place.mk n) ↔ p.word = n ∧ x.getLsbD p.bit = true := by
  rw [List.mem_map]
  constructor
  · rintro ⟨i, hi, rfl⟩
    exact ⟨rfl, (h i).mp hi⟩
  · rintro ⟨rfl, hbit⟩
    exact ⟨p.bit, (h _).mpr hbit, rfl⟩

/-! ## One word after the other -/

/-- A word of which nothing is left gives way to the next. -/
def refill (base rest : Word) : Word := if rest = 0 then base else rest

theorem refill_within {base rest : Word} (h : Within rest base) : Within (refill base rest) base := by
  unfold refill
  split
  · exact .refl base
  · exact h

theorem done_take {base left taken : Word} (hleft : Within left base) (htaken : Within taken left)
    (n : Nat) (p : Place) :
    Done base (refill base (left &&& ~~~taken)) (n + (left &&& ~~~taken == 0).toNat) p ↔
      Done base left n p ∨ p.word = n ∧ taken.getLsbD p.bit = true := by
  have hbase := fun hi => hleft p.bit (htaken p.bit hi)
  unfold Done refill
  by_cases hempty : left &&& ~~~taken = 0
  · -- what was left of the word is what is taken
    have hall : left.getLsbD p.bit = taken.getLsbD p.bit := by
      refine Bool.eq_iff_iff.mpr ⟨fun hi => ?_, htaken p.bit⟩
      by_contra hnot
      have hbit : (left &&& ~~~taken).getLsbD p.bit = true := by
        rw [BitVec.getLsbD_and, BitVec.getLsbD_not, hi, Bool.eq_false_iff.mpr hnot]
        simpa using BitVec.lt_of_getLsbD hi
      rw [hempty, getLsbD_none] at hbit
      cases hbit
    rw [if_pos hempty, beq_iff_eq.mpr hempty, hall, Bool.toNat_true]
    grind
  · have hrest : (left &&& ~~~taken).getLsbD p.bit =
        (left.getLsbD p.bit && !taken.getLsbD p.bit) := by
      rw [BitVec.getLsbD_and, BitVec.getLsbD_not]
      cases hi : left.getLsbD p.bit with
      | false => rfl
      | true => simp [BitVec.lt_of_getLsbD hi]
    rw [if_neg hempty, beq_eq_false_iff_ne.mpr hempty, hrest, Bool.toNat_false]
    grind

theorem Lists.append {base left taken : Word} {n : Nat} {ps qs : List Place}
    (h : Lists base left n ps) (hleft : Within left base) (htaken : Within taken left)
    (hnodup : qs.Nodup) (hqs : ∀ p, p ∈ qs ↔ p.word = n ∧ taken.getLsbD p.bit = true) :
    Lists base (refill base (left &&& ~~~taken)) (n + (left &&& ~~~taken == 0).toNat) (ps ++ qs) where
  nodup := by
    refine List.nodup_append'.mpr ⟨h.nodup, hnodup, fun p hp hq => ?_⟩
    obtain ⟨hword, hbit⟩ := (hqs p).mp hq
    obtain ⟨-, hbefore | ⟨-, hgone⟩⟩ := (h.mem_iff p).mp hp
    · omega
    · rw [htaken p.bit hbit] at hgone
      cases hgone
  mem_iff p := by
    rw [List.mem_append, h.mem_iff, hqs, done_take hleft htaken]

/-- Whole words only. -/
theorem Lists.length {base : Word} {n : Nat} {ps : List Place} (h : Lists base base n ps) :
    ps.length = n * card base := by
  let all := (List.range n ×ˢ bits base).map fun q => Place.mk q.1 q.2
  have hnodup : all.Nodup := by
    refine List.Nodup.map (fun a b hab => ?_) (List.Nodup.product List.nodup_range (nodup_bits base))
    exact Prod.ext (Place.mk.inj hab).1 (Place.mk.inj hab).2
  have hperm : ps.Perm all := by
    refine (List.perm_ext_iff_of_nodup h.nodup hnodup).mpr fun p => ?_
    rw [h.mem_iff]
    constructor
    · rintro ⟨hbit, hword | ⟨-, hgone⟩⟩
      · exact List.mem_map.mpr ⟨(p.word, p.bit),
          List.mem_product.mpr ⟨List.mem_range.mpr hword, mem_bits.mpr hbit⟩, rfl⟩
      · rw [hbit] at hgone
        cases hgone
    · intro hp
      obtain ⟨q, hq, rfl⟩ := List.mem_map.mp hp
      obtain ⟨hword, hbit⟩ := List.mem_product.mp hq
      exact ⟨mem_bits.mp hbit, .inl (List.mem_range.mp hword)⟩
  rw [hperm.length_eq, List.length_map, List.length_product, List.length_range, length_bits]

/-! ## The invariant -/

structure Invariant (mask : Word) (l : Ledger) : Prop where
  trackmask : l.solution.trackmask = mask
  fullCycle : l.solution.fullCycle = true
  source : Within l.solution.sourceLeft mask
  dest : Within l.solution.placesLeft (~~~mask)
  consumed : Lists mask l.solution.sourceLeft l.solution.nSrcdec (l.entries.map Entry.src)
  filled : Lists (~~~mask) l.solution.placesLeft l.solution.nDstinc (l.entries.map Entry.dst)

theorem srcEmpty_iff {s : Solution} : s.srcEmpty = true ↔ s.maskIn = 0 := beq_iff_eq

theorem dstFull_iff {s : Solution} : s.dstFull = true ↔ ~~~s.maskOut = 0 := by
  rw [← full_iff]
  exact beq_iff_eq

theorem srcEmpty_of_complete {s : Solution} (h : s.complete = true) : s.maskIn = 0 := by
  rw [complete_eq, Bool.and_eq_true] at h
  exact srcEmpty_iff.mp h.1

theorem dstFull_of_complete {s : Solution} (hs : s.fullCycle = true) (h : s.complete = true) :
    ~~~s.maskOut = 0 := by
  rw [complete_eq, hs, if_pos rfl, Bool.and_eq_true] at h
  exact dstFull_iff.mp h.2

theorem sourceLeft_open {s : Solution} (h : s.complete = false) : s.sourceLeft = s.maskIn := by
  rw [sourceLeft, h, if_neg Bool.false_ne_true]

theorem placesLeft_open {s : Solution} (h : s.complete = false) : s.placesLeft = ~~~s.maskOut := by
  rw [placesLeft, h, if_neg Bool.false_ne_true]

theorem lists_nil (base : Word) : Lists base base 0 [] where
  nodup := List.nodup_nil
  mem_iff p := by
    simpa [Done] using fun hbit _ => hbit

theorem ofMask_complete (mask : Word) : (ofMask mask).complete = false := by
  refine Bool.eq_false_iff.mpr fun h => ?_
  have hzero : mask = 0 := srcEmpty_of_complete h
  have hones : ~~~mask = 0 := dstFull_of_complete (beq_self_eq_true mask) h
  rw [hzero] at hones
  revert hones
  decide

theorem invariant_start (mask : Word) : Invariant mask ⟨ofMask mask, []⟩ where
  trackmask := rfl
  fullCycle := beq_self_eq_true mask
  source := by
    rw [sourceLeft_open (ofMask_complete mask)]
    exact .refl mask
  dest := by
    rw [placesLeft_open (ofMask_complete mask)]
    exact .refl _
  consumed := by
    rw [sourceLeft_open (ofMask_complete mask)]
    exact lists_nil mask
  filled := by
    rw [placesLeft_open (ofMask_complete mask)]
    exact lists_nil (~~~mask)

/-- The word in progress after a step: what is left, or the next word. -/
theorem sourceLeft_record (s : Solution) (step : Step) :
    (s.record step).sourceLeft = refill s.trackmask s.maskIn := by
  unfold refill
  cases hc : s.complete with
  | true =>
    rw [sourceLeft, record_complete hc, if_pos rfl, if_pos (srcEmpty_of_complete hc)]
    rfl
  | false =>
    have hin := (@record_masks s step hc).1
    by_cases hempty : s.maskIn = 0
    · rw [if_pos (srcEmpty_iff.mpr hempty)] at hin
      rw [sourceLeft, hin, if_pos hempty]
      exact ite_self _
    · rw [if_neg (mt srcEmpty_iff.mp hempty)] at hin
      have hopen : (s.record step).complete = false :=
        Bool.eq_false_iff.mpr fun h => hempty (hin ▸ srcEmpty_of_complete h)
      rw [sourceLeft_open hopen, hin, if_neg hempty]

theorem placesLeft_record {s : Solution} (hs : s.fullCycle = true) (step : Step) :
    (s.record step).placesLeft = refill (~~~s.trackmask) (~~~s.maskOut) := by
  unfold refill
  cases hc : s.complete with
  | true =>
    rw [placesLeft, record_complete hc, if_pos rfl, if_pos (dstFull_of_complete hs hc)]
    rfl
  | false =>
    have hout := (@record_masks s step hc).2
    by_cases hfull : ~~~s.maskOut = 0
    · rw [if_pos (dstFull_iff.mpr hfull)] at hout
      rw [placesLeft, hout, if_pos hfull]
      exact ite_self _
    · rw [if_neg (mt dstFull_iff.mp hfull)] at hout
      have hopen : (s.record step).complete = false :=
        Bool.eq_false_iff.mpr fun h => hfull (hout ▸ dstFull_of_complete hs h)
      rw [placesLeft_open hopen, hout, if_neg hfull]

/-- An accepted step is a move of bits that are left to places that are left. -/
theorem addStep_spec {s s' : Solution} {step : Step} (h : s.addStep step = some s') :
    s.complete = false ∧ Within step.maskFrom s.maskIn ∧ Within step.maskTo (~~~s.maskOut) ∧
      s' = (s.move step).record step := by
  unfold addStep at h
  split at h
  · rename_i hif
    obtain ⟨hc, hfrom, hto⟩ := hif
    refine ⟨hc, ?_, ?_, (Option.some.inj h).symm⟩
    · rw [within_iff_and, BitVec.and_comm]
      exact hfrom
    · rw [within_iff_and, BitVec.and_comm]
      exact hto
  · cases h

theorem addStep_eq_some {s : Solution} {step : Step} (hc : s.complete = false)
    (hp : Possible s.maskIn (~~~s.maskOut) step) :
    s.addStep step = some ((s.move step).record step) := by
  have hfrom := within_iff_and.mp hp.source
  have hto := within_iff_and.mp hp.notdest
  rw [BitVec.and_comm] at hfrom hto
  rw [addStep, if_pos ⟨hc, hfrom, hto⟩]

theorem Invariant.step {mask : Word} {l l' : Ledger} {step : Step} (h : Invariant mask l)
    (hs : (shifting mask).step l step l') : Invariant mask l' := by
  obtain ⟨⟨hadd, hentries⟩, hshifts⟩ := hs
  obtain ⟨s, es⟩ := l
  obtain ⟨s', es'⟩ := l'
  obtain ⟨hc, hfrom, hto, rfl⟩ := addStep_spec hadd
  obtain rfl : es' = es ++ s.entries step := hentries
  have htm : (s.move step).trackmask = mask := h.trackmask
  have hfc : (s.move step).fullCycle = true := h.fullCycle
  obtain ⟨-, -, hsource, hdest, hconsumed, hfilled⟩ := h
  dsimp only at hadd hsource hdest hconsumed hfilled
  rw [sourceLeft_open hc] at hsource hconsumed
  rw [placesLeft_open hc] at hdest hfilled
  have hin : ((s.move step).record step).sourceLeft = refill mask (s.maskIn &&& ~~~step.maskFrom) := by
    rw [sourceLeft_record, htm]
    rfl
  have hout : ((s.move step).record step).placesLeft =
      refill (~~~mask) (~~~s.maskOut &&& ~~~step.maskTo) := by
    rw [placesLeft_record hfc, htm, ← BitVec.not_or]
    rfl
  have hdst : (s.move step).dstFull = (~~~s.maskOut &&& ~~~step.maskTo == 0) := by
    rw [← BitVec.not_or, Bool.eq_iff_iff, beq_iff_eq]
    exact dstFull_iff
  refine ⟨htm, hfc, ?_, ?_, ?_, ?_⟩
  · rw [hin]
    exact refill_within ((within_andNot _ _).trans hsource)
  · rw [hout]
    exact refill_within ((within_andNot _ _).trans hdest)
  · rw [hin, List.map_append, map_src_entries]
    exact hconsumed.append hsource hfrom (nodup_map_place _ (nodup_bits _))
      (mem_map_place fun _ => mem_bits)
  · rw [hout, List.map_append, map_dst_entries]
    show Lists _ _ (s.nDstinc + (s.move step).dstFull.toNat) _
    rw [hdst]
    exact hfilled.append hdest hto (nodup_map_place _ (nodup_shifted hshifts))
      (mem_map_place fun _ => mem_shifted hshifts)

theorem invariant_of_reachable {mask : Word} {l : Ledger} (h : (shifting mask).Reachable l) :
    Invariant mask l := by
  refine h.invariant (Invariant mask) ?_ fun _ _ _ hl hstep => hl.step hstep
  rintro l rfl
  exact invariant_start mask

theorem Invariant.accounted {mask : Word} {l : Ledger} (h : Invariant mask l) : Accounted mask l where
  consumed := h.consumed
  filled := h.filled
  words hc := by
    have hconsumed := h.consumed
    have hfilled := h.filled
    rw [sourceLeft, hc, if_pos rfl, h.trackmask] at hconsumed
    rw [placesLeft, hc, if_pos rfl, h.trackmask] at hfilled
    rw [← card_not, ← hconsumed.length, ← hfilled.length, List.length_map, List.length_map]

/-! ## The solver -/

theorem sanitize_steps (nested : Nat) (s : Solution) :
    ∃ steps, sanitize nested s = { s with steps := steps } := by
  cases nested with
  | zero => exact ⟨s.steps, rfl⟩
  | succ nested =>
    unfold sanitize sanitizeWith
    dsimp only
    split
    · exact ⟨_, rfl⟩
    · exact ⟨s.steps, rfl⟩

/-- But for the steps that are noted down, what the solver builds is what the steps make that it
added. -/
theorem Built.reached {mask : Word} {s : Solution} (h : Built mask s) :
    ∃ l, (shifting mask).Reachable l ∧ s = { l.solution with steps := s.steps } := by
  induction h with
  | start => exact ⟨⟨ofMask mask, []⟩, .init rfl, rfl⟩
  | @step s step _ hc hp ih =>
    obtain ⟨⟨t, es⟩, hreach, hs⟩ := ih
    have hin : s.maskIn = t.maskIn := by rw [hs]
    have hout : s.maskOut = t.maskOut := by rw [hs]
    have hopen : t.complete = false := by
      rw [hs] at hc
      exact hc
    have hadd := addStep_eq_some hopen (hin ▸ hout ▸ hp)
    refine ⟨⟨_, es ++ t.entries step⟩, hreach.step ⟨⟨hadd, rfl⟩, hp.shifts⟩, ?_⟩
    rw [hs]
    rfl
  | @sanitized s nested _ ih =>
    obtain ⟨l, hreach, hs⟩ := ih
    obtain ⟨steps, hsan⟩ := sanitize_steps nested s
    refine ⟨l, hreach, ?_⟩
    rw [hsan, hs]

theorem Built.words {mask : Word} {s : Solution} (h : Built mask s) (hc : s.complete = true) :
    s.nSrcdec * card mask = s.nDstinc * (64 - card mask) := by
  obtain ⟨l, hreach, hs⟩ := h.reached
  rw [hs] at hc ⊢
  exact (invariant_of_reachable hreach).accounted.words hc

/-- Every bit is moved once, every place filled once, and as many bits as places are done in a
complete cycle, however it was found; the solver ends, with such a cycle or without any, and it does
not matter how deep `sanitize` goes. -/
theorem steps_accounted (mask : Word) :
    (∀ l, (shifting mask).Reachable l → Accounted mask l) ∧
      (∀ s, Built mask s → s.complete = true →
        s.nSrcdec * card mask = s.nDstinc * (64 - card mask)) ∧
      (solve mask = empty ∨ (solve mask).complete = true ∧ Built mask (solve mask)) ∧
      ∀ s, Produced mask s → ∀ nested, sanitize (nested + 1) s = sanitize 1 s := by
  refine ⟨fun l hl => (invariant_of_reachable hl).accounted, fun s hs => hs.words, ?_, ?_⟩
  · rcases solve_cases mask with hempty | hsolved
    · exact .inl hempty
    · exact .inr ⟨hsolved.complete, solve_built hsolved.complete⟩
  · intro s hs nested
    obtain ⟨htm, hlegal⟩ := hs.legal
    exact sanitize_nested nested (htm ▸ hlegal)

/-- Every other bit: one step moves those of a word to the places between those of another. -/
theorem steps_accounted_half : ∃ l, (shifting 0x5555555555555555).Reachable l ∧
    l.solution.complete = true ∧ Accounted 0x5555555555555555 l := by
  have hstart : (shifting 0x5555555555555555).Reachable ⟨ofMask 0x5555555555555555, []⟩ := .init rfl
  have hmoved := hstart.step (a := .make 0x5555555555555555 0xaaaaaaaaaaaaaaaa 1) (t := ⟨_, _⟩)
    ⟨⟨rfl, rfl⟩, by decide, by decide⟩
  exact ⟨_, hmoved, by decide, (steps_accounted 0x5555555555555555).1 _ hmoved⟩

/-- The assertions do not compare the bits of a step with its places. -/
theorem one_bit_to_many : ¬∀ l, (accepting 1).Reachable l → Accounted 1 l := by
  intro h
  have hstart : (accepting 1).Reachable ⟨ofMask 1, []⟩ := .init rfl
  have hwords := (h _ (hstart.step (a := .make 1 (~~~1) 0) (t := ⟨_, _⟩) ⟨rfl, rfl⟩)).words
  revert hwords
  decide

end Jive5ab.Trackmask
