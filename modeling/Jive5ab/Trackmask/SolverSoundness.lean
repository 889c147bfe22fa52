import Jive5ab.Lib.Bits
import Jive5ab.Trackmask.Solver

/-! # What the solver's steps have in common

Whatever mask is solved, and whatever `sanitize` did to the steps: no step puts
bits where the destination word has bits already, no two steps take the same bit
of a source word, and the words are counted as the steps finish them. Nothing is
said about all bits being moved: `sanitize` may leave some behind. -/
namespace Jive5ab.Trackmask
open Lib.Bits Solution

/-! ## Legal sequences of steps -/

/-- The bits already taken from the source word and the places that are taken in
the destination word. -/
structure Track where
  gone : Word
  filled : Word

def Step.after (mask : Word) (t : Track) (s : Step) : Track where
  gone := if s.decSrc then 0 else t.gone ||| s.maskFrom
  filled := if s.incDst then mask else t.filled ||| s.maskTo

structure Step.Fits (t : Track) (s : Step) : Prop where
  shifts : Shifts s.maskFrom s.maskTo s.shift
  moves : s.maskFrom ≠ 0
  gone : Apart s.maskFrom t.gone
  filled : Apart s.maskTo t.filled

def Legal (mask : Word) : Track → List Step → Prop
  | _, [] => True
  | t, s :: ss => s.Fits t ∧ Legal mask (s.after mask t) ss

theorem legal_cons {mask : Word} {t : Track} {s : Step} {ss : List Step} :
    Legal mask t (s :: ss) ↔ s.Fits t ∧ Legal mask (s.after mask t) ss := Iff.rfl

def track (mask : Word) (t : Track) (ss : List Step) : Track := ss.foldl (Step.after mask) t

structure Track.Le (a b : Track) : Prop where
  gone : Within a.gone b.gone
  filled : Within a.filled b.filled

theorem Track.Le.refl (t : Track) : t.Le t := ⟨.refl _, .refl _⟩

theorem Track.Le.after {a b : Track} (h : a.Le b) (mask : Word) (s : Step) :
    (s.after mask a).Le (s.after mask b) where
  gone := by
    unfold Step.after
    dsimp only
    split
    · exact .refl _
    · exact .or_left (h.gone.trans (within_or_left _ _)) (within_or_right _ _)
  filled := by
    unfold Step.after
    dsimp only
    split
    · exact .refl _
    · exact .or_left (h.filled.trans (within_or_left _ _)) (within_or_right _ _)

theorem Step.Fits.mono {a b : Track} {s : Step} (h : s.Fits b) (hab : a.Le b) : s.Fits a :=
  ⟨h.shifts, h.moves, h.gone.mono (.refl _) hab.gone, h.filled.mono (.refl _) hab.filled⟩

theorem Track.Le.track {a b : Track} (h : a.Le b) (mask : Word) (ss : List Step) :
    (track mask a ss).Le (track mask b ss) := by
  induction ss generalizing a b with
  | nil => exact h
  | cons s ss ih => exact ih (h.after mask s)

theorem Legal.mono {mask : Word} {a b : Track} {ss : List Step} (h : Legal mask b ss) (hab : a.Le b) :
    Legal mask a ss := by
  induction ss generalizing a b with
  | nil => trivial
  | cons s ss ih => exact ⟨h.1.mono hab, ih h.2 (hab.after mask s)⟩

theorem legal_append {mask : Word} {t : Track} {xs ys : List Step} :
    Legal mask t (xs ++ ys) ↔ Legal mask t xs ∧ Legal mask (track mask t xs) ys := by
  induction xs generalizing t with
  | nil => exact ⟨fun h => ⟨trivial, h⟩, fun h => h.2⟩
  | cons s xs ih =>
    rw [List.cons_append, legal_cons, legal_cons, ih, and_assoc]
    rfl

theorem track_append (mask : Word) (t : Track) (xs ys : List Step) :
    track mask t (xs ++ ys) = track mask (track mask t xs) ys := List.foldl_append

/-! ## Within one source and one destination word -/

theorem eligible_iff {s : Step} : eligible s = true ↔ s.incDst = false ∧ s.decSrc = false := by
  unfold eligible
  cases s.incDst <;> cases s.decSrc <;> decide

theorem after_eligible {mask : Word} {t : Track} {s : Step} (h : eligible s = true) :
    s.after mask t = ⟨t.gone ||| s.maskFrom, t.filled ||| s.maskTo⟩ := by
  obtain ⟨hi, hd⟩ := eligible_iff.mp h
  unfold Step.after
  rw [hi, hd]
  rfl

/-- No two of the steps share a bit, at either end. -/
def Scattered (ss : List Step) : Prop :=
  ss.Pairwise fun a b => Apart b.maskFrom a.maskFrom ∧ Apart b.maskTo a.maskTo

theorem mem_fromsOf {s : Step} {ss : List Step} (h : s ∈ ss) : Within s.maskFrom (fromsOf ss) := by
  induction ss with
  | nil => cases h
  | cons x ss ih =>
    rcases List.mem_cons.mp h with rfl | h
    · exact within_or_left _ _
    · exact (ih h).trans (within_or_right _ _)

theorem fromsOf_within {ss : List Step} {y : Word} (h : ∀ s ∈ ss, Within s.maskFrom y) :
    Within (fromsOf ss) y := by
  induction ss with
  | nil => exact zero_within y
  | cons s ss ih =>
    exact .or_left (h s (by simp)) (ih fun x hx => h x (by simp [hx]))

theorem tosOf_within {ss : List Step} {y : Word} (h : ∀ s ∈ ss, Within s.maskTo y) :
    Within (tosOf ss) y := by
  induction ss with
  | nil => exact zero_within y
  | cons s ss ih =>
    exact .or_left (h s (by simp)) (ih fun x hx => h x (by simp [hx]))

theorem fromsOf_apart {ss : List Step} {y : Word} (h : ∀ s ∈ ss, Apart s.maskFrom y) :
    Apart (fromsOf ss) y := apart_not (fromsOf_within fun x hx => within_not _ _ (h x hx))

theorem tosOf_apart {ss : List Step} {y : Word} (h : ∀ s ∈ ss, Apart s.maskTo y) :
    Apart (tosOf ss) y := apart_not (tosOf_within fun x hx => within_not _ _ (h x hx))

/-- As many bits at the one end as at the other. -/
theorem card_fromsOf {ss : List Step} (h : Scattered ss)
    (hs : ∀ s ∈ ss, Shifts s.maskFrom s.maskTo s.shift) : card (tosOf ss) = card (fromsOf ss) := by
  induction ss with
  | nil => rfl
  | cons s ss ih =>
    obtain ⟨hhead, htail⟩ := List.pairwise_cons.mp h
    have hf : Apart (fromsOf ss) s.maskFrom := fromsOf_apart fun x hx => (hhead x hx).1
    have ht : Apart (tosOf ss) s.maskTo := tosOf_apart fun x hx => (hhead x hx).2
    show card (s.maskTo ||| tosOf ss) = card (s.maskFrom ||| fromsOf ss)
    rw [card_or ht.symm, card_or hf.symm, ih htail fun x hx => hs x (by simp [hx]),
      (hs s (by simp)).card]

/-- A range: every step but the last stays in the same two words. -/
theorem legal_range {mask : Word} {t : Track} {init : List Step} {l : Step}
    (hquiet : ∀ s ∈ init, eligible s = true) :
    Legal mask t (init ++ [l]) ↔ Scattered (init ++ [l]) ∧ ∀ s ∈ init ++ [l], s.Fits t := by
  induction init generalizing t with
  | nil =>
    refine ⟨fun h => ⟨by simp [Scattered], fun s hs => ?_⟩, fun h => ⟨h.2 l (by simp), trivial⟩⟩
    obtain rfl := List.mem_singleton.mp hs
    exact h.1
  | cons s init ih =>
    have hs : eligible s = true := hquiet s (by simp)
    rw [List.cons_append, legal_cons, ih fun x hx => hquiet x (by simp [hx]), after_eligible hs]
    constructor
    · intro ⟨hfit, hscat, hall⟩
      refine ⟨List.pairwise_cons.mpr ⟨fun x hx => ?_, hscat⟩, fun x hx => ?_⟩
      · exact ⟨(hall x hx).gone.mono (.refl _) (within_or_right _ _),
          (hall x hx).filled.mono (.refl _) (within_or_right _ _)⟩
      · rcases List.mem_cons.mp hx with rfl | hx
        · exact hfit
        · exact (hall x hx).mono ⟨within_or_left _ _, within_or_left _ _⟩
    · intro ⟨hscat, hall⟩
      obtain ⟨hhead, htail⟩ := List.pairwise_cons.mp hscat
      refine ⟨hall s (by simp), htail, fun x hx => ?_⟩
      have hx' := hall x (by simp [hx])
      exact ⟨hx'.shifts, hx'.moves, hx'.gone.or_right (hhead x hx).1,
        hx'.filled.or_right (hhead x hx).2⟩

theorem track_quiet (mask : Word) (t : Track) {ss : List Step}
    (hquiet : ∀ s ∈ ss, eligible s = true) :
    track mask t ss = ⟨t.gone ||| fromsOf ss, t.filled ||| tosOf ss⟩ := by
  induction ss generalizing t with
  | nil => simp [track, fromsOf, tosOf]
  | cons s ss ih =>
    show track mask (s.after mask t) ss = _
    rw [after_eligible (hquiet s (by simp)), ih _ fun x hx => hquiet x (by simp [hx])]
    show Track.mk _ _ = Track.mk (t.gone ||| (s.maskFrom ||| fromsOf ss))
      (t.filled ||| (s.maskTo ||| tosOf ss))
    rw [BitVec.or_assoc, BitVec.or_assoc]

theorem fromsOf_snoc (init : List Step) (l : Step) :
    fromsOf (init ++ [l]) = fromsOf init ||| l.maskFrom := by
  induction init with
  | nil => simp [fromsOf]
  | cons s init ih =>
    show s.maskFrom ||| fromsOf (init ++ [l]) = _
    rw [ih, ← BitVec.or_assoc]
    rfl

theorem tosOf_snoc (init : List Step) (l : Step) :
    tosOf (init ++ [l]) = tosOf init ||| l.maskTo := by
  induction init with
  | nil => simp [tosOf]
  | cons s init ih =>
    show s.maskTo ||| tosOf (init ++ [l]) = _
    rw [ih, ← BitVec.or_assoc]
    rfl

theorem track_range (mask : Word) (t : Track) {init : List Step} {l : Step}
    (hquiet : ∀ s ∈ init, eligible s = true) :
    track mask t (init ++ [l]) =
      ⟨if l.decSrc then 0 else t.gone ||| fromsOf (init ++ [l]),
        if l.incDst then mask else t.filled ||| tosOf (init ++ [l])⟩ := by
  rw [track_append, track_quiet mask t hquiet, fromsOf_snoc, tosOf_snoc, ← BitVec.or_assoc,
    ← BitVec.or_assoc]
  rfl

/-! ## Steps to choose from -/

theorem mem_mostBits {ss : List Step} {s : Step} (h : mostBits ss = some s) : s ∈ ss := by
  induction ss generalizing s with
  | nil => cases h
  | cons x ss ih =>
    unfold mostBits at h
    split at h
    · obtain rfl := Option.some.inj h
      simp
    · rename_i t ht
      split at h
      · obtain rfl := Option.some.inj h
        exact List.mem_cons_of_mem _ (ih ht)
      · obtain rfl := Option.some.inj h
        simp

/-- What the code checks of a step before it is put with the others. -/
structure Possible (source notdest : Word) (s : Step) : Prop where
  shifts : Shifts s.maskFrom s.maskTo s.shift
  moves : s.maskFrom ≠ 0
  source : Within s.maskFrom source
  notdest : Within s.maskTo notdest

theorem and_within_left (x y : Word) : Within (x &&& y) x := fun i hi => by
  rw [BitVec.getLsbD_and, Bool.and_eq_true] at hi
  exact hi.1

theorem and_within_right (x y : Word) : Within (x &&& y) y := fun i hi => by
  rw [BitVec.getLsbD_and, Bool.and_eq_true] at hi
  exact hi.2

theorem rightStep_possible {source notdest : Word} {k : Nat} {s : Step}
    (h : rightStep source notdest k = some s) : Possible source notdest s := by
  unfold rightStep at h
  dsimp only at h
  split at h
  · rename_i hne
    obtain rfl := Option.some.inj h
    obtain ⟨hshift, hsrc⟩ := shifts_right (and_within_left (source >>> k) notdest)
    exact ⟨hshift, hshift.ne_zero hne, hsrc, and_within_right _ _⟩
  · cases h

theorem leftStep_possible {source notdest : Word} {k : Nat} {s : Step}
    (h : leftStep source notdest k = some s) : Possible source notdest s := by
  unfold leftStep at h
  dsimp only at h
  split at h
  · rename_i hne
    obtain rfl := Option.some.inj h
    obtain ⟨hshift, hsrc⟩ := shifts_left (and_within_left (source <<< k) notdest)
    exact ⟨hshift, hshift.ne_zero hne, hsrc, and_within_right _ _⟩
  · cases h

theorem possible_of_mem {source notdest : Word} {s : Step}
    (h : s ∈ possibleSteps source notdest) : Possible source notdest s := by
  rcases List.mem_append.mp h with h | h
  · obtain ⟨k, -, hk⟩ := List.mem_filterMap.mp h
    exact rightStep_possible hk
  · obtain ⟨k, -, hk⟩ := List.mem_filterMap.mp h
    exact leftStep_possible hk

/-- A solution with one more step: the step was possible, and the words that are
done by it are counted. -/
theorem possibilities_spec {s s' : Solution} (h : possibilities s = some s') :
    s.complete = false ∧ ∃ step, Possible s.maskIn (~~~s.maskOut) step ∧
      s' = (s.move step).record step := by
  unfold possibilities at h
  obtain ⟨step, hbest, hadd⟩ := Option.bind_eq_some_iff.mp h
  unfold addStep at hadd
  split at hadd
  · rename_i hok
    exact ⟨hok.1, step, possible_of_mem (mem_mostBits hbest), (Option.some.inj hadd).symm⟩
  · cases hadd

/-! ## Ranges solved again -/

theorem full_iff {x : Word} : x = trackmaskFull ↔ ~~~x = 0 := by
  unfold trackmaskFull trackmaskEmpty
  constructor
  · intro h
    rw [h, BitVec.not_not]
  · intro h
    rw [← h, BitVec.not_not]

/-- A solution of moving the bits of `F` to those of `T`, at any time: one source
and one destination word, which are done together. -/
structure Moving (F T : Word) (s : Solution) : Prop where
  scattered : Scattered s.steps
  fits : ∀ x ∈ s.steps, x.Fits ⟨0, ~~~T⟩ ∧ Within x.maskFrom F
  quiet : ∀ x ∈ s.steps.dropLast, eligible x = true
  unfinished : s.complete = false → (∀ x ∈ s.steps, eligible x = true) ∧
    (∀ x ∈ s.steps, Apart s.maskIn x.maskFrom ∧ Within x.maskTo s.maskOut) ∧
    Within s.maskIn F ∧ Within (~~~T) s.maskOut ∧ card s.maskIn = card (~~~s.maskOut)

theorem moving_start {F T : Word} (h : card F = card T) : Moving F T (ofMove F (~~~T)) where
  scattered := .nil
  fits x hx := by cases hx
  quiet x hx := by cases hx
  unfinished _ := by
    refine ⟨fun x hx => (by cases hx), fun x hx => (by cases hx), .refl _, .refl _, ?_⟩
    show card F = card (~~~(~~~T))
    rw [BitVec.not_not, h]

theorem complete_eq (s : Solution) :
    s.complete = (s.srcEmpty && (if s.fullCycle then s.dstFull else true)) := rfl

theorem record_masks_complete {s : Solution} {step : Step} (h : s.complete = true) :
    (s.record step).maskIn = s.maskIn ∧ (s.record step).maskOut = s.maskOut := by
  unfold record
  rw [h, Bool.not_true, Bool.and_false, Bool.and_false]
  exact ⟨rfl, rfl⟩

theorem record_complete {s : Solution} {step : Step} (h : s.complete = true) :
    (s.record step).complete = true := by
  obtain ⟨hin, hout⟩ := @record_masks_complete s step h
  unfold complete
  rw [hin, hout]
  exact h

theorem record_quiet {s : Solution} {step : Step} (he : s.srcEmpty = false) (hf : s.dstFull = false) :
    s.record step =
      { s with steps := s.steps ++ [{ step with incDst := false, decSrc := false }] } := by
  unfold record
  rw [he, hf]
  rfl

/-- The two words are done together. -/
theorem Moving.even {F T : Word} {s : Solution} {step : Step} (h : Moving F T s)
    (hs : s.complete = false) (hp : Possible s.maskIn (~~~s.maskOut) step) :
    card (s.move step).maskIn = card (~~~(s.move step).maskOut) := by
  obtain ⟨-, -, -, -, hcard⟩ := h.unfinished hs
  have hin := card_andNot hp.source
  have hnot : ~~~(s.maskOut ||| step.maskTo) = ~~~s.maskOut &&& ~~~step.maskTo := BitVec.not_or
  have hout := card_andNot hp.notdest
  show card (s.maskIn &&& ~~~step.maskFrom) = card (~~~(s.maskOut ||| step.maskTo))
  rw [hnot]
  have hstep := hp.shifts.card
  omega

theorem dstFull_eq_srcEmpty {s : Solution} (h : card s.maskIn = card (~~~s.maskOut)) :
    s.dstFull = s.srcEmpty := by
  unfold dstFull srcEmpty
  rw [Bool.eq_iff_iff, beq_iff_eq, beq_iff_eq, full_iff, ← card_eq_zero, ← h, card_eq_zero]
  rfl

theorem Moving.record {F T : Word} {s : Solution} {step : Step} (h : Moving F T s)
    (hs : s.complete = false) (hp : Possible s.maskIn (~~~s.maskOut) step) :
    Moving F T ((s.move step).record step) := by
  obtain ⟨hquiet, hdone, hF, hT, -⟩ := h.unfinished hs
  have hboth := h.even hs hp
  have hfull := dstFull_eq_srcEmpty hboth
  refine ⟨?_, ?_, ?_, ?_⟩
  · refine List.pairwise_append.mpr ⟨h.scattered, by simp, fun a ha b hb => ?_⟩
    obtain rfl := List.mem_singleton.mp hb
    refine ⟨(hdone a ha).1.mono hp.source (.refl _), ?_⟩
    exact (apart_not hp.notdest).mono (.refl _) (hdone a ha).2
  · intro x hx
    rcases List.mem_append.mp hx with hx | hx
    · exact h.fits x hx
    · obtain rfl := List.mem_singleton.mp hx
      refine ⟨⟨hp.shifts, hp.moves, apart_zero _, ?_⟩, hp.source.trans hF⟩
      exact (apart_not hp.notdest).mono (.refl _) hT
  · intro x hx
    change x ∈ (s.steps ++ [_]).dropLast at hx
    rw [List.dropLast_concat] at hx
    exact hquiet x hx
  · cases he : (s.move step).srcEmpty with
    | true =>
      have hc : (s.move step).complete = true := by
        rw [complete_eq, he, hfull, he]
        cases (s.move step).fullCycle <;> rfl
      intro hnot
      rw [record_complete hc] at hnot
      cases hnot
    | false =>
      rw [he] at hfull
      rw [record_quiet he hfull]
      intro _
      refine ⟨fun x hx => ?_, fun x hx => ?_, ?_, ?_, hboth⟩
      · rcases List.mem_append.mp hx with hx | hx
        · exact hquiet x hx
        · obtain rfl := List.mem_singleton.mp hx
          rfl
      · rcases List.mem_append.mp hx with hx | hx
        · exact ⟨(hdone x hx).1.mono (within_andNot _ _) (.refl _),
            (hdone x hx).2.trans (within_or_left _ _)⟩
        · obtain rfl := List.mem_singleton.mp hx
          exact ⟨apart_andNot _ _, within_or_right _ _⟩
      · exact (within_andNot _ _).trans hF
      · exact hT.trans (within_or_left _ _)

/-- With no range to solve again, `sanitize` changes nothing. -/
theorem findEligibleRanges_flat (ss range : List Step) :
    (findEligibleRanges ss range).flatMap Prod.snd = range ++ ss := by
  induction ss generalizing range with
  | nil => simp [findEligibleRanges]
  | cons s ss ih =>
    unfold findEligibleRanges
    split
    · rw [ih, List.append_assoc]
      rfl
    · rw [List.flatMap_cons, ih, List.nil_append, List.append_assoc]
      rfl

theorem findEligibleRanges_quiet {ss : List Step} (h : ∀ x ∈ ss.dropLast, eligible x = true)
    (range : List Step) : ∀ b ∈ findEligibleRanges ss range, b.1 = false := by
  induction ss generalizing range with
  | nil =>
    intro b hb
    obtain rfl := List.mem_singleton.mp hb
    rfl
  | cons s ss ih =>
    cases ss with
    | nil =>
      unfold findEligibleRanges
      split
      · exact ih (by simp) _
      · intro b hb
        rcases List.mem_cons.mp hb with rfl | hb
        · simp
        · exact ih (by simp) [] b hb
    | cons x ss =>
      have hs : eligible s = true := h s (by simp)
      unfold findEligibleRanges
      rw [if_pos hs]
      exact ih (fun y hy => h y (by simp [List.dropLast_cons_of_ne_nil, hy])) _

theorem sanitizeWith_quiet {s : Solution} (solve : Solution → Option Solution)
    (h : ∀ x ∈ s.steps.dropLast, eligible x = true) : sanitizeWith solve s = s := by
  have hsame : (findEligibleRanges s.steps []).flatMap (resolve solve) = s.steps := by
    have hsnd : (findEligibleRanges s.steps []).flatMap (resolve solve) =
        (findEligibleRanges s.steps []).flatMap Prod.snd := by
      refine List.flatMap_congr fun b hb => ?_
      obtain ⟨b, ss⟩ := b
      obtain rfl : b = false := findEligibleRanges_quiet h [] (b, ss) hb
      rfl
    rw [hsnd, findEligibleRanges_flat, List.nil_append]
  unfold sanitizeWith
  rw [hsame]
  exact if_neg (Nat.lt_irrefl _)

theorem sanitize_quiet {s : Solution} (n : Nat) (h : ∀ x ∈ s.steps.dropLast, eligible x = true) :
    sanitize n s = s := by
  cases n with
  | zero => rfl
  | succ n => exact sanitizeWith_quiet _ h

theorem partialSolveWith_moving {F T : Word} {san : Solution → Solution} (left : Nat)
    {s s' : Solution} (hsan : ∀ t, Moving F T t → san t = t) (h : Moving F T s)
    (hs : partialSolveWith san left s = some s') :
    Moving F T s' ∧ (s.steps ≠ [] ∨ 0 < left ∧ s.complete = false → s'.steps ≠ []) := by
  induction left generalizing s with
  | zero =>
    obtain rfl := Option.some.inj hs
    rw [hsan s h]
    exact ⟨h, fun hne => hne.resolve_right fun hlt => absurd hlt.1 (Nat.lt_irrefl 0)⟩
  | succ left ih =>
    unfold partialSolveWith at hs
    split at hs
    · rename_i hc
      obtain rfl := Option.some.inj hs
      rw [hsan s h]
      exact ⟨h, fun hne => hne.resolve_right fun hlt => by rw [hc] at hlt; cases hlt.2⟩
    · obtain ⟨t, ht, hrest⟩ := Option.bind_eq_some_iff.mp hs
      obtain ⟨hc, step, hp, rfl⟩ := possibilities_spec ht
      obtain ⟨hm, hne⟩ := ih (h.record hc hp) hrest
      refine ⟨hm, fun _ => hne (.inl ?_)⟩
      show s.steps ++ [_] ≠ []
      simp

/-- The words that are done, in order. -/
def dones (ss : List Step) : List (Bool × Bool) :=
  (ss.filter fun s => !eligible s).map fun s => (s.incDst, s.decSrc)

theorem dones_append (xs ys : List Step) : dones (xs ++ ys) = dones xs ++ dones ys := by
  simp [dones]

theorem dones_quiet {ss : List Step} (h : ∀ s ∈ ss, eligible s = true) : dones ss = [] := by
  unfold dones
  rw [List.map_eq_nil_iff, List.filter_eq_nil_iff]
  intro s hs
  rw [h s hs]
  decide

/-- A range and what it is solved to: the same places, fewer bits at most, the same
words done. -/
structure Resolved (mask : Word) (t t' : Track) (old new : List Step) : Prop where
  legal : Legal mask t' new
  le : (track mask t' new).Le (track mask t old)
  dones : dones new = dones old

theorem Resolved.refl {mask : Word} {t t' : Track} {ss : List Step} (h : Legal mask t ss)
    (hle : t'.Le t) : Resolved mask t t' ss ss := ⟨h.mono hle, hle.track mask ss, rfl⟩

theorem setLast_concat (init range : List Step) (l o : Step) :
    setLast (init ++ [l]) (range ++ [o]).getLast? =
      init ++ [{ l with incDst := o.incDst, decSrc := o.decSrc }] := by
  unfold setLast
  rw [List.getLast?_concat, List.getLast?_concat, List.dropLast_concat]

/-- Steps that move bits of the range to places of the range may stand for it. -/
theorem resolved_of_moving {mask : Word} {t t' : Track} {range init : List Step} {l m : Step}
    (hquiet : ∀ s ∈ range, eligible s = true) (hlegal : Legal mask t (range ++ [l]))
    (hle : t'.Le t) {sout : Solution} (hsteps : sout.steps = init ++ [m])
    (h : Moving (fromsOf (range ++ [l])) (tosOf (range ++ [l])) sout) :
    Resolved mask t t' (range ++ [l])
      (init ++ [{ m with incDst := l.incDst, decSrc := l.decSrc }]) := by
  obtain ⟨-, hfits⟩ := (legal_range hquiet).mp hlegal
  have hgone : Apart (fromsOf (range ++ [l])) t'.gone :=
    (fromsOf_apart fun x hx => (hfits x hx).gone).mono (.refl _) hle.gone
  have hfilled : Apart (tosOf (range ++ [l])) t'.filled :=
    (tosOf_apart fun x hx => (hfits x hx).filled).mono (.refl _) hle.filled
  have hinit : ∀ s ∈ init, eligible s = true := by
    have hq := h.quiet
    rwa [hsteps, List.dropLast_concat] at hq
  have hto : ∀ x ∈ sout.steps, Within x.maskTo (tosOf (range ++ [l])) := fun x hx => by
    have hnot := within_not _ _ (h.fits x hx).1.filled
    rwa [BitVec.not_not] at hnot
  have hfit : ∀ x ∈ sout.steps, x.Fits t' := fun x hx =>
    ⟨(h.fits x hx).1.shifts, (h.fits x hx).1.moves, hgone.mono (h.fits x hx).2 (.refl _),
      hfilled.mono (hto x hx) (.refl _)⟩
  have hscat := h.scattered
  have hfrom := fromsOf_within fun x hx => (h.fits x hx).2
  have htos := tosOf_within hto
  rw [hsteps] at hfit hscat hfrom htos
  rw [fromsOf_snoc] at hfrom
  rw [tosOf_snoc] at htos
  refine ⟨(legal_range hinit).mpr ⟨?_, ?_⟩, ⟨?_, ?_⟩, ?_⟩
  · obtain ⟨hpre, -, hlast⟩ := List.pairwise_append.mp hscat
    refine List.pairwise_append.mpr ⟨hpre, by simp, fun a ha b hb => ?_⟩
    obtain rfl := List.mem_singleton.mp hb
    exact hlast a ha m (by simp)
  · intro x hx
    rcases List.mem_append.mp hx with hx | hx
    · exact hfit x (List.mem_append_left _ hx)
    · obtain rfl := List.mem_singleton.mp hx
      have hm := hfit m (by simp)
      exact ⟨hm.shifts, hm.moves, hm.gone, hm.filled⟩
  · rw [track_range mask t' hinit, track_range mask t hquiet, fromsOf_snoc]
    dsimp only
    split
    · exact .refl _
    · exact .or_left (hle.gone.trans (within_or_left _ _)) (hfrom.trans (within_or_right _ _))
  · rw [track_range mask t' hinit, track_range mask t hquiet, tosOf_snoc]
    dsimp only
    split
    · exact .refl _
    · exact .or_left (hle.filled.trans (within_or_left _ _)) (htos.trans (within_or_right _ _))
  · rw [dones_append, dones_append, dones_quiet hinit, dones_quiet hquiet]
    cases hi : l.incDst <;> cases hd : l.decSrc <;> simp [dones, eligible, hi, hd]

theorem moveOf_open {t : Track} {ss : List Step} (hfits : ∀ s ∈ ss, s.Fits t) {l : Step}
    (hl : l ∈ ss) : (moveOf ss).complete = false := by
  have hne : fromsOf ss ≠ 0 := fun hz => (hfits l hl).moves (Within.zero (hz ▸ mem_fromsOf hl))
  have hin : (moveOf ss).srcEmpty = false := beq_eq_false_iff_ne.mpr hne
  rw [complete_eq, hin, Bool.false_and]

theorem resolve_range {mask : Word} {t t' : Track} {range : List Step} {l : Step} (n : Nat)
    (hquiet : ∀ s ∈ range, eligible s = true) (hlegal : Legal mask t (range ++ [l]))
    (hle : t'.Le t) :
    Resolved mask t t' (range ++ [l])
      (resolve (partialSolveWith (sanitize n) 4) (true, range ++ [l])) := by
  obtain ⟨hscat, hfits⟩ := (legal_range hquiet).mp hlegal
  have hcard := card_fromsOf hscat fun x hx => (hfits x hx).shifts
  have hstart : Moving _ _ (moveOf (range ++ [l])) := moving_start hcard.symm
  have hopen := @moveOf_open t (range ++ [l]) hfits l (by simp)
  unfold resolve
  dsimp only
  split
  · rename_i sout hsout
    obtain ⟨hm, hne⟩ := partialSolveWith_moving 4 (fun t ht => sanitize_quiet n ht.quiet) hstart hsout
    obtain ⟨init, m, hsteps⟩ :=
      (List.eq_nil_or_concat sout.steps).resolve_left (hne (.inr ⟨by omega, hopen⟩))
    rw [List.concat_eq_append] at hsteps
    rw [hsteps, setLast_concat]
    exact resolved_of_moving hquiet hlegal hle hsteps hm
  · exact .refl hlegal hle

/-! ## `sanitize` -/

theorem Resolved.append {mask : Word} {t t' : Track} {xs xs' ys ys' : List Step}
    (h : Resolved mask t t' xs xs')
    (k : Resolved mask (track mask t xs) (track mask t' xs') ys ys') :
    Resolved mask t t' (xs ++ ys) (xs' ++ ys') where
  legal := legal_append.mpr ⟨h.legal, k.legal⟩
  le := by
    rw [track_append, track_append]
    exact k.le
  dones := by rw [dones_append, dones_append, h.dones, k.dones]

theorem ranges_resolved {mask : Word} (n : Nat) {t t' : Track} {ss range : List Step}
    (hquiet : ∀ s ∈ range, eligible s = true) (hlegal : Legal mask t (range ++ ss))
    (hle : t'.Le t) :
    Resolved mask t t' (range ++ ss)
      ((findEligibleRanges ss range).flatMap (resolve (partialSolveWith (sanitize n) 4))) := by
  induction ss generalizing t t' range with
  | nil =>
    rw [List.append_nil] at hlegal
    simp only [findEligibleRanges, List.flatMap_cons, List.flatMap_nil, List.append_nil, resolve]
    exact .refl hlegal hle
  | cons s ss ih =>
    have hsplit : range ++ s :: ss = (range ++ [s]) ++ ss := by simp
    rw [hsplit] at hlegal ⊢
    unfold findEligibleRanges
    split
    · rename_i hs
      refine ih (fun x hx => ?_) hlegal hle
      rcases List.mem_append.mp hx with hx | hx
      · exact hquiet x hx
      · obtain rfl := List.mem_singleton.mp hx
        exact hs
    · obtain ⟨hfirst, hrest⟩ := legal_append.mp hlegal
      rw [List.flatMap_cons]
      have hres : Resolved mask t t' (range ++ [s])
          (resolve (partialSolveWith (sanitize n) 4)
            (!range.isEmpty && !ss.isEmpty, range ++ [s])) := by
        cases !range.isEmpty && !ss.isEmpty with
        | true => exact resolve_range n hquiet hfirst hle
        | false => exact .refl hfirst hle
      have hnext := @ih (track mask t (range ++ [s])) _ [] (by simp) hrest hres.le
      exact hres.append hnext

/-- A last step that finishes a word is copied as it is. -/
theorem ranges_last (solve : Solution → Option Solution) {ss range : List Step} {l : Step}
    (hl : ss.getLast? = some l) (hdone : eligible l = false) :
    ((findEligibleRanges ss range).flatMap (resolve solve)).getLast? = some l := by
  induction ss generalizing range with
  | nil => cases hl
  | cons s ss ih =>
    cases ss with
    | nil =>
      obtain rfl : s = l := by simpa using hl
      unfold findEligibleRanges
      rw [if_neg (by rw [hdone]; decide)]
      simp [findEligibleRanges, resolve]
    | cons x ss =>
      rw [List.getLast?_cons_cons] at hl
      unfold findEligibleRanges
      split
      · exact ih hl
      · rw [List.flatMap_cons, List.getLast?_append, ih hl]
        rfl

theorem sanitizeWith_steps {s : Solution} (n : Nat) (t : Track)
    (h : Legal s.trackmask t s.steps) :
    ∃ steps, sanitizeWith (partialSolveWith (sanitize n) 4) s = { s with steps := steps } ∧
      Resolved s.trackmask t t s.steps steps ∧
      ∀ l, s.steps.getLast? = some l → eligible l = false → steps.getLast? = some l := by
  unfold sanitizeWith
  dsimp only
  split
  · refine ⟨_, rfl, ?_, fun l hl hdone => ranges_last _ hl hdone⟩
    exact ranges_resolved n (List.forall_mem_nil _) h (.refl t)
  · exact ⟨s.steps, rfl, .refl h (.refl t), fun l hl _ => hl⟩

theorem partialSolveWith_congr {F T : Word} (n : Nat) (left : Nat) {s : Solution}
    (h : Moving F T s) : partialSolveWith (sanitize n) left s = partialSolveWith (sanitize 0) left s := by
  induction left generalizing s with
  | zero => exact congrArg some (sanitize_quiet n h.quiet)
  | succ left ih =>
    unfold partialSolveWith
    rw [sanitize_quiet n h.quiet]
    split
    · rfl
    · cases hp : possibilities s with
      | none => rfl
      | some t =>
        obtain ⟨hc, step, hstep, rfl⟩ := possibilities_spec hp
        exact ih (h.record hc hstep)

/-- The steps of a range are legal where it starts. -/
theorem ranges_legal {mask : Word} {t : Track} {ss range : List Step}
    (hquiet : ∀ s ∈ range, eligible s = true) (hlegal : Legal mask t (range ++ ss)) :
    ∀ b ∈ findEligibleRanges ss range, b.1 = true → ∃ t' init l, b.2 = init ++ [l] ∧
      (∀ s ∈ init, eligible s = true) ∧ Legal mask t' (init ++ [l]) := by
  induction ss generalizing t range with
  | nil =>
    intro b hb htrue
    obtain rfl := List.mem_singleton.mp hb
    cases htrue
  | cons s ss ih =>
    have hsplit : range ++ s :: ss = (range ++ [s]) ++ ss := by simp
    rw [hsplit] at hlegal
    unfold findEligibleRanges
    split
    · rename_i hs
      refine ih (fun x hx => ?_) hlegal
      rcases List.mem_append.mp hx with hx | hx
      · exact hquiet x hx
      · obtain rfl := List.mem_singleton.mp hx
        exact hs
    · intro b hb htrue
      obtain ⟨hfirst, hrest⟩ := legal_append.mp hlegal
      rcases List.mem_cons.mp hb with rfl | hb
      · exact ⟨t, range, s, rfl, hquiet, hfirst⟩
      · exact ih (List.forall_mem_nil _) hrest b hb htrue

theorem mem_ranges {mask : Word} {t : Track} {ss range : List Step}
    (hquiet : ∀ s ∈ range, eligible s = true) (hlegal : Legal mask t (range ++ ss)) :
    ∀ b ∈ findEligibleRanges ss range, b.1 = true → card (tosOf b.2) = card (fromsOf b.2) := by
  intro b hb htrue
  obtain ⟨t', init, l, hrange, hinit, hfirst⟩ := ranges_legal hquiet hlegal b hb htrue
  obtain ⟨hscat, hfits⟩ := (legal_range hinit).mp hfirst
  rw [hrange]
  exact card_fromsOf hscat fun x hx => (hfits x hx).shifts

/-- What `sanitize` makes of its own solutions does not matter: they have no ranges. -/
theorem sanitize_nested {s : Solution} (n : Nat) {t : Track} (h : Legal s.trackmask t s.steps) :
    sanitize (n + 1) s = sanitize 1 s := by
  have hsame : (findEligibleRanges s.steps []).flatMap (resolve (partialSolveWith (sanitize n) 4)) =
      (findEligibleRanges s.steps []).flatMap (resolve (partialSolveWith (sanitize 0) 4)) := by
    refine List.flatMap_congr fun b hb => ?_
    have hcard := mem_ranges (List.forall_mem_nil _) h b hb
    obtain ⟨b, ss⟩ := b
    cases b with
    | false => rfl
    | true =>
      have hcongr : partialSolveWith (sanitize n) 4 (moveOf ss) =
          partialSolveWith (sanitize 0) 4 (moveOf ss) :=
        partialSolveWith_congr n 4 (moving_start (hcard rfl).symm)
      unfold resolve
      dsimp only
      rw [hcongr]
  show sanitizeWith _ s = sanitizeWith _ s
  unfold sanitizeWith
  rw [hsame]

/-! ## The solver -/

/-- A solution of a whole cycle, at any time. -/
structure Solving (mask : Word) (s : Solution) : Prop where
  trackmask : s.trackmask = mask
  fullCycle : s.fullCycle = true
  legal : Legal mask ⟨0, mask⟩ s.steps
  nDstinc : s.nDstinc = (dones s.steps).countP Prod.fst
  nSrcdec : s.nSrcdec = (dones s.steps).countP Prod.snd
  source : s.complete = false → Apart s.maskIn (track mask ⟨0, mask⟩ s.steps).gone
  dest : s.complete = false → Within (track mask ⟨0, mask⟩ s.steps).filled s.maskOut
  unfinished : s.complete = false → (true, true) ∉ dones s.steps
  finished : s.complete = true → ∃ init l, s.steps = init ++ [l] ∧ l.incDst = true ∧
    l.decSrc = true ∧ (true, true) ∉ dones init

theorem solving_start {mask : Word} (h : mask ≠ 0) : Solving mask (ofMask mask) where
  trackmask := rfl
  fullCycle := beq_self_eq_true mask
  legal := trivial
  nDstinc := rfl
  nSrcdec := rfl
  source _ := apart_zero mask
  dest _ := .refl mask
  unfinished _ hm := by cases hm
  finished hc := by
    rw [complete_eq] at hc
    have hin : (ofMask mask).srcEmpty = false := beq_eq_false_iff_ne.mpr h
    rw [hin] at hc
    cases hc

theorem Solving.sanitize {mask : Word} {s : Solution} (h : Solving mask s) (n : Nat) :
    Solving mask (sanitize n s) := by
  cases n with
  | zero => exact h
  | succ n =>
    have hlegal := h.legal
    rw [← h.trackmask] at hlegal
    obtain ⟨steps, heq, hres, hlast⟩ := sanitizeWith_steps n ⟨0, s.trackmask⟩ hlegal
    rw [h.trackmask] at hres
    show Solving mask (sanitizeWith _ s)
    rw [heq]
    refine ⟨h.trackmask, h.fullCycle, hres.legal, ?_, ?_, ?_, ?_, ?_, ?_⟩
    · rw [hres.dones]
      exact h.nDstinc
    · rw [hres.dones]
      exact h.nSrcdec
    · exact fun hc => (h.source hc).mono (.refl _) hres.le.gone
    · exact fun hc => hres.le.filled.trans (h.dest hc)
    · intro hc
      rw [hres.dones]
      exact h.unfinished hc
    · intro hc
      obtain ⟨init, l, hsteps, hinc, hdec, hnot⟩ := h.finished hc
      have hdone : eligible l = false := by
        unfold eligible
        rw [hinc, hdec]
        rfl
      have hget := hlast l (by rw [hsteps, List.getLast?_concat]) hdone
      obtain ⟨init', hinit'⟩ := List.getLast?_eq_some_iff.mp hget
      refine ⟨init', l, hinit', hinc, hdec, ?_⟩
      have hdones := hres.dones
      rw [hinit', hsteps, dones_append, dones_append] at hdones
      rw [List.append_cancel_right hdones]
      exact hnot

theorem dones_single_fst (x : Step) : (dones [x]).countP Prod.fst = x.incDst.toNat := by
  cases hi : x.incDst <;> cases hd : x.decSrc <;> simp [dones, eligible, hi, hd]

theorem dones_single_snd (x : Step) : (dones [x]).countP Prod.snd = x.decSrc.toNat := by
  cases hi : x.incDst <;> cases hd : x.decSrc <;> simp [dones, eligible, hi, hd]

theorem both_mem_single {x : Step} : (true, true) ∈ dones [x] ↔ x.incDst = true ∧ x.decSrc = true := by
  cases hi : x.incDst <;> cases hd : x.decSrc <;> simp [dones, eligible, hi, hd]

/-- The next words, when the step did not finish the cycle. -/
theorem record_masks {s : Solution} {step : Step} (h : s.complete = false) :
    (s.record step).maskIn = (if s.srcEmpty then s.trackmask else s.maskIn) ∧
      (s.record step).maskOut = if s.dstFull then s.trackmask else s.maskOut := by
  unfold record
  rw [h, Bool.not_false, Bool.and_true, Bool.and_true]
  exact ⟨rfl, rfl⟩

theorem record_open {s : Solution} {step : Step} (hmask : s.trackmask ≠ 0)
    (h : s.complete = false) : (s.record step).complete = false := by
  have hin : (s.record step).srcEmpty = false := by
    unfold srcEmpty
    rw [(record_masks h).1, beq_eq_false_iff_ne]
    split
    · exact hmask
    · rename_i hne
      exact fun hz => hne (beq_iff_eq.mpr hz)
  rw [complete_eq, hin, Bool.false_and]

theorem Solving.record {mask : Word} {s : Solution} {step : Step} (hmask : mask ≠ 0)
    (h : Solving mask s) (hs : s.complete = false)
    (hp : Possible s.maskIn (~~~s.maskOut) step) : Solving mask ((s.move step).record step) := by
  have htm : (s.move step).trackmask = mask := h.trackmask
  have hsrc := h.source hs
  have hdst := h.dest hs
  have hopen : ((s.move step).record step).complete = false → (s.move step).complete = false := by
    intro hc
    refine Bool.eq_false_iff.mpr fun hm => ?_
    rw [record_complete hm] at hc
    cases hc
  refine ⟨h.trackmask, h.fullCycle, ?_, ?_, ?_, ?_, ?_, ?_, ?_⟩
  · refine legal_append.mpr ⟨h.legal, ⟨hp.shifts, hp.moves, ?_, ?_⟩, trivial⟩
    · exact hsrc.mono hp.source (.refl _)
    · exact (apart_not hp.notdest).mono (.refl _) hdst
  · show s.nDstinc + _ = (dones (s.steps ++ [_])).countP Prod.fst
    rw [dones_append, List.countP_append, dones_single_fst, h.nDstinc]
  · show s.nSrcdec + _ = (dones (s.steps ++ [_])).countP Prod.snd
    rw [dones_append, List.countP_append, dones_single_snd, h.nSrcdec]
  · intro hc
    show Apart ((s.move step).record step).maskIn (track mask ⟨0, mask⟩ (s.steps ++ [_])).gone
    rw [(record_masks (hopen hc)).1, track_append]
    show Apart _ (if (s.move step).srcEmpty then 0 else _ ||| step.maskFrom)
    split
    · exact apart_zero _
    · exact (hsrc.mono (within_andNot _ _) (.refl _)).or_right (apart_andNot _ _)
  · intro hc
    show Within (track mask ⟨0, mask⟩ (s.steps ++ [_])).filled ((s.move step).record step).maskOut
    rw [(record_masks (hopen hc)).2, track_append, htm]
    show Within (if (s.move step).dstFull then mask else _ ||| step.maskTo) _
    split
    · exact .refl _
    · exact .or_left (hdst.trans (within_or_left _ _)) (within_or_right _ _)
  · intro hc
    have hm := hopen hc
    show (true, true) ∉ dones (s.steps ++ [_])
    rw [dones_append, List.mem_append, both_mem_single]
    intro hmem
    rcases hmem with hold | ⟨hfull, hempty⟩
    · exact h.unfinished hs hold
    · rw [complete_eq] at hm
      change (s.move step).dstFull = true at hfull
      change (s.move step).srcEmpty = true at hempty
      rw [hempty, hfull] at hm
      cases hfc : (s.move step).fullCycle <;> simp [hfc] at hm
  · intro hc
    have hm : (s.move step).complete = true := by
      cases hm : (s.move step).complete with
      | true => rfl
      | false =>
        rw [record_open (htm ▸ hmask) hm] at hc
        cases hc
    have hfc : (s.move step).fullCycle = true := h.fullCycle
    rw [complete_eq, hfc, if_pos rfl, Bool.and_eq_true] at hm
    exact ⟨s.steps, _, rfl, hm.2, hm.1, h.unfinished hs⟩

/-- What every step and `san` keep is kept by the partial solver. -/
theorem partialSolveWith_keeps {P : Solution → Prop} {san : Solution → Solution}
    (hstep : ∀ s step, P s → s.complete = false → Possible s.maskIn (~~~s.maskOut) step →
      P ((s.move step).record step))
    (hsan : ∀ s, P s → P (san s)) (left : Nat) {s s' : Solution} (h : P s)
    (hs : partialSolveWith san left s = some s') : P s' := by
  induction left generalizing s with
  | zero =>
    obtain rfl := Option.some.inj hs
    exact hsan s h
  | succ left ih =>
    unfold partialSolveWith at hs
    split at hs
    · obtain rfl := Option.some.inj hs
      exact hsan s h
    · obtain ⟨t, ht, hrest⟩ := Option.bind_eq_some_iff.mp hs
      obtain ⟨hc, step, hp, rfl⟩ := possibilities_spec ht
      exact ih (hstep s step h hc hp) hrest

theorem partialSolveWith_solving {mask : Word} (hmask : mask ≠ 0) {san : Solution → Solution}
    (hsan : ∀ t, Solving mask t → Solving mask (san t)) (left : Nat) {s s' : Solution}
    (h : Solving mask s) (hs : partialSolveWith san left s = some s') : Solving mask s' :=
  partialSolveWith_keeps (fun _ _ ht hc hp => ht.record hmask hc hp) hsan left h hs

theorem partialSolve_solving {mask : Word} (hmask : mask ≠ 0) (left : Nat) {s s' : Solution}
    (h : Solving mask s) (hs : partialSolve s left = some s') : Solving mask s' :=
  partialSolveWith_solving hmask (fun _ ht => ht.sanitize 2) left h hs

theorem solveLoop_solving {mask : Word} (hmask : mask ≠ 0) (niter : Nat) {s s' : Solution}
    (h : Solving mask s) (hs : solveLoop niter s = some s') :
    Solving mask s' ∧ s'.complete = true := by
  induction niter generalizing s with
  | zero =>
    unfold solveLoop at hs
    split at hs
    · rename_i hc
      obtain rfl := Option.some.inj hs
      exact ⟨h, hc⟩
    · cases hs
  | succ niter ih =>
    unfold solveLoop at hs
    split at hs
    · rename_i hc
      obtain rfl := Option.some.inj hs
      exact ⟨h, hc⟩
    · obtain ⟨t, ht, hrest⟩ := Option.bind_eq_some_iff.mp hs
      exact ih (partialSolve_solving hmask 3 h ht) hrest

/-- A complete solution, for whoever uses one: the last step alone finishes both words. -/
structure Solved (mask : Word) (s : Solution) : Prop where
  trackmask : s.trackmask = mask
  complete : s.complete = true
  legal : Legal mask ⟨0, mask⟩ s.steps
  nDstinc : s.nDstinc = (dones s.steps).countP Prod.fst
  nSrcdec : s.nSrcdec = (dones s.steps).countP Prod.snd
  last : ∃ init l, s.steps = init ++ [l] ∧ l.incDst = true ∧ l.decSrc = true ∧
    (true, true) ∉ dones init

/-! ## Any solution -/

/-- The solutions of a mask: a step that is possible may be added, whichever the solver
would take, and a solution may be sanitized. -/
inductive Built (mask : Word) : Solution → Prop where
  | start : Built mask (ofMask mask)
  | step {s : Solution} {step : Step} : Built mask s → s.complete = false →
      Possible s.maskIn (~~~s.maskOut) step → Built mask ((s.move step).record step)
  | sanitized {s : Solution} (nested : Nat) : Built mask s → Built mask (sanitize nested s)

theorem Built.solving {mask : Word} (hmask : mask ≠ 0) {s : Solution} (h : Built mask s) :
    Solving mask s := by
  induction h with
  | start => exact solving_start hmask
  | step _ hc hp ih => exact ih.record hmask hc hp
  | sanitized nested _ ih => exact ih.sanitize nested

/-- Nothing can be moved without bits to keep. -/
theorem Built.zero {s : Solution} (h : Built 0 s) : s = ofMask 0 := by
  induction h with
  | start => rfl
  | step _ _ hp ih =>
    rw [ih] at hp
    exact absurd (Within.zero hp.source) hp.moves
  | sanitized nested _ ih =>
    rw [ih]
    exact sanitize_quiet nested (List.forall_mem_nil _)

theorem Built.solved {mask : Word} {s : Solution} (h : Built mask s) (hc : s.complete = true) :
    Solved mask s := by
  have hmask : mask ≠ 0 := by
    rintro rfl
    rw [h.zero] at hc
    revert hc
    decide
  have hs := h.solving hmask
  exact ⟨hs.trackmask, hc, hs.legal, hs.nDstinc, hs.nSrcdec, hs.finished hc⟩

theorem solveLoop_built {mask : Word} (niter : Nat) {s s' : Solution} (h : Built mask s)
    (hs : solveLoop niter s = some s') : Built mask s' := by
  induction niter generalizing s with
  | zero =>
    unfold solveLoop at hs
    split at hs
    · obtain rfl := Option.some.inj hs
      exact h
    · cases hs
  | succ niter ih =>
    unfold solveLoop at hs
    split at hs
    · obtain rfl := Option.some.inj hs
      exact h
    · obtain ⟨t, ht, hrest⟩ := Option.bind_eq_some_iff.mp hs
      exact ih (partialSolveWith_keeps (fun _ _ hb hc hp => .step hb hc hp)
        (fun _ hb => .sanitized 2 hb) 3 h ht) hrest

theorem solve_built {mask : Word} (h : (solve mask).complete = true) : Built mask (solve mask) := by
  unfold solve at h ⊢
  cases hs : solveLoop 100 (ofMask mask) with
  | none =>
    rw [hs] at h
    cases h
  | some s => exact solveLoop_built 100 .start hs

theorem solve_solved {mask : Word} (hmask : mask ≠ 0) (h : (solve mask).complete = true) :
    Solved mask (solve mask) := by
  unfold solve at h ⊢
  cases hs : solveLoop 100 (ofMask mask) with
  | none =>
    rw [hs] at h
    cases h
  | some s =>
    obtain ⟨hsolving, hc⟩ := solveLoop_solving hmask 100 (solving_start hmask) hs
    exact ⟨hsolving.trackmask, hc, hsolving.legal, hsolving.nDstinc, hsolving.nSrcdec,
      hsolving.finished hc⟩

end Jive5ab.Trackmask
