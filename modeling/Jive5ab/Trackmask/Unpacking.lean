import Jive5ab.Trackmask.Packing

/-! # Runs of the packing and of the unpacking

A whole sequence of steps, up to the word where the two ends meet. The words in
front of it are packed, and their masked bits are left when they are unpacked; the
words behind it come back with what the steps took from them. -/
namespace Jive5ab.Trackmask
open Lib.Bits Env

variable {mask : Word} {w : Int → Word} {T : Word} {d p : Int} {fresh usetemp : Bool}

/-! ## The flags between steps -/

/-- `usetemp` after a step. -/
def Step.keeps (s : Step) (usetemp : Bool) : Bool := (usetemp || !s.decSrc) && !s.decSrc

theorem Step.keeps_eq (s : Step) (usetemp : Bool) : s.keeps usetemp = !s.decSrc := by
  unfold keeps
  cases usetemp <;> cases s.decSrc <;> rfl

theorem compressBody_cons (s : Step) (ss : List Step) :
    compressBody mask fresh usetemp (s :: ss) =
      compressStep mask fresh usetemp s ++ compressBody mask s.incDst (s.keeps usetemp) ss := rfl

theorem decompressBody_cons (distance : Int) (inLoop : Bool) (s : Step) (ss : List Step) :
    decompressBody mask distance inLoop fresh usetemp (s :: ss) =
      decompressStep mask distance inLoop fresh usetemp s ++
        decompressBody mask distance inLoop s.incDst (s.keeps usetemp) ss := rfl

def freshAfter (fresh : Bool) (ss : List Step) : Bool := ss.foldl (fun _ s => s.incDst) fresh

def usetempAfter (usetemp : Bool) (ss : List Step) : Bool := ss.foldl (fun u s => s.keeps u) usetemp

theorem compressBody_append (xs ys : List Step) :
    compressBody mask fresh usetemp (xs ++ ys) = compressBody mask fresh usetemp xs ++
      compressBody mask (freshAfter fresh xs) (usetempAfter usetemp xs) ys := by
  induction xs generalizing fresh usetemp with
  | nil => rfl
  | cons s xs ih =>
    rw [List.cons_append, compressBody_cons, compressBody_cons, ih, List.append_assoc]
    rfl

theorem decompressBody_append (distance : Int) (inLoop : Bool) (xs ys : List Step) :
    decompressBody mask distance inLoop fresh usetemp (xs ++ ys) =
      decompressBody mask distance inLoop fresh usetemp xs ++
        decompressBody mask distance inLoop (freshAfter fresh xs) (usetempAfter usetemp xs) ys := by
  induction xs generalizing fresh usetemp with
  | nil => rfl
  | cons s xs ih =>
    rw [List.cons_append, decompressBody_cons, decompressBody_cons, ih, List.append_assoc]
    rfl

/-! ## Compression -/

theorem Step.le_dst (s : Step) (d : Int) : d ≤ s.dst d := by
  unfold Step.dst
  split <;> omega

theorem Step.src_le (s : Step) (p : Int) : s.src p ≤ p := by
  unfold Step.src
  split <;> omega

/-- What the last destination word has got, after all the steps. -/
def lastT (mask : Word) (w : Int → Word) : Word → Int → Int → List Step → Word
  | T, _, _, [] => T
  | T, d, p, s :: ss => lastT mask w (nextT mask w T d p s) (s.dst d) (s.src p) ss

theorem packed_lastT (ss ys : List Step) {j : Int} (h : dstAfter d ss ≤ j) :
    packed mask w T d p (ss ++ ys) j =
      packed mask w (lastT mask w T d p ss) (dstAfter d ss) (srcAfter p ss) ys j := by
  induction ss generalizing T d p with
  | nil => simp [dstAfter, srcAfter, lastT]
  | cons s ss ih =>
    rw [dstAfter_cons] at h ⊢
    rw [srcAfter_cons, List.cons_append, packed_next (Int.le_trans (le_dstAfter _ ss) h), ih h]
    rfl

theorem moved_append (ss ys : List Step) (j : Int) :
    moved w d p (ss ++ ys) j = moved w d p ss j ||| moved w (dstAfter d ss) (srcAfter p ss) ys j := by
  induction ss generalizing d p with
  | nil => simp [moved, dstAfter, srcAfter]
  | cons s ss ih =>
    rw [List.cons_append, moved_cons, moved_cons, ih, dstAfter_cons, srcAfter_cons, BitVec.or_assoc]

/-- Words that are finished before the end are packed the same with more steps to come. -/
theorem packed_append (ss ys : List Step) {j : Int} (h : j < dstAfter d ss) :
    packed mask w T d p (ss ++ ys) j = packed mask w T d p ss j := by
  rw [packed, moved_append, moved_before h, or_zero, packed]

theorem Packs.run {e : Env} (h : Packs mask w T d p fresh usetemp e) (ss : List Step)
    (hmeet : dstAfter d ss ≤ srcAfter p ss) :
    let e' := e.exec (compressBody mask fresh usetemp ss)
    Packs mask w (lastT mask w T d p ss) (dstAfter d ss) (srcAfter p ss) (freshAfter fresh ss)
        (usetempAfter usetemp ss) e' ∧
      (∀ j, d ≤ j → j < dstAfter d ss → e'.mem j = packed mask w T d p ss j) ∧
      ∀ j, j < d → e'.mem j = e.mem j := by
  induction ss generalizing T d p fresh usetemp e with
  | nil =>
    refine ⟨?_, ?_, fun j _ => rfl⟩
    · simpa [dstAfter, srcAfter, lastT, freshAfter, usetempAfter, compressBody, exec] using h
    · intro j hj hlt
      simp [dstAfter] at hlt
      omega
  | cons s ss ih =>
    rw [dstAfter_cons, srcAfter_cons] at hmeet
    have hroom : d ≤ p := by
      have hdst := le_dstAfter (s.dst d) ss
      have hsrc := srcAfter_le (s.src p) ss
      have hd := s.le_dst d
      have hp := s.src_le p
      omega
    obtain ⟨hstep, hmem⟩ := h.step hroom s
    obtain ⟨hend, hdone, hbefore⟩ := ih hstep hmeet
    dsimp only
    rw [compressBody_cons, exec_append, dstAfter_cons, srcAfter_cons]
    refine ⟨hend, ?_, ?_⟩
    · intro j hj hlt
      by_cases hjd : s.dst d ≤ j
      · rw [packed_next hjd]
        exact hdone j hjd hlt
      · have hinc : s.incDst = true := by
          by_contra hno
          rw [Step.dst, if_neg hno] at hjd
          exact hjd hj
        have heq : j = d := by
          rw [Step.dst, if_pos hinc] at hjd
          omega
        refine (hbefore j (Int.not_le.mp hjd)).trans ?_
        rw [hmem, if_pos hinc, heq, Function.update_self, packed_done hinc]
    · intro j hj
      have hjd : j < s.dst d := Int.lt_of_lt_of_le hj (s.le_dst d)
      refine (hbefore j hjd).trans ?_
      rw [hmem]
      split
      · rw [Function.update_of_ne (by omega)]
      · rfl

/-! ## What the steps take and leave -/

theorem shiftBy_masked_within {t : Track} {s : Step} (h : s.Fits t) (x : Word) :
    Within (shiftBy (x &&& s.maskFrom) s.shift) s.maskTo := by
  have hfrom : Within (x &&& s.maskFrom) s.maskFrom := and_within_right x s.maskFrom
  rw [h.shifts.1]
  exact shiftBy_within hfrom

/-- Bits only go where the destination word has none yet. -/
theorem moved_apart {t : Track} {ss : List Step} (h : Legal mask t ss) :
    Apart (moved w d p ss d) t.filled := by
  induction ss generalizing t p with
  | nil => exact (apart_zero _).symm
  | cons s ss ih =>
    obtain ⟨hfits, hrest⟩ := h
    have hstep : Apart t.filled (shiftBy (w p &&& s.maskFrom) s.shift) :=
      (hfits.filled.mono (shiftBy_masked_within hfits _) (.refl _)).symm
    rw [moved_cons, if_pos rfl]
    cases hi : s.incDst with
    | true =>
      have hd : s.dst d = d + 1 := if_pos hi
      rw [hd, moved_before (by omega), or_zero]
      exact hstep.symm
    | false =>
      have hd : s.dst d = d := if_neg (by rw [hi]; decide)
      have hfilled : (s.after mask t).filled = t.filled ||| s.maskTo := if_neg (by rw [hi]; decide)
      have hlater : Apart t.filled (moved w d (s.src p) ss d) :=
        ((ih hrest).mono (.refl _) (by rw [hfilled]; exact within_or_left _ _)).symm
      rw [hd]
      exact (hstep.or_right hlater).symm

theorem after_filled {t : Track} (h : Within mask t.filled) (s : Step) :
    Within mask (s.after mask t).filled := by
  show Within mask (if s.incDst then mask else t.filled ||| s.maskTo)
  split
  · exact .refl _
  · exact h.trans (within_or_left _ _)

/-- The masked bits of a destination word stay what they are. -/
theorem moved_apart_mask {t : Track} {ss : List Step} (h : Legal mask t ss)
    (hmask : Within mask t.filled) (j : Int) : Apart mask (moved w d p ss j) := by
  induction ss generalizing t d p with
  | nil => exact apart_zero _
  | cons s ss ih =>
    obtain ⟨hfits, hrest⟩ := h
    rw [moved_cons]
    refine Apart.or_right ?_ (ih hrest (after_filled hmask s))
    split
    · exact (hfits.filled.mono (shiftBy_masked_within hfits _) hmask).symm
    · exact apart_zero _

theorem nextT_within {t : Track} {s : Step} (h : s.Fits t) (hT : Within T t.filled) :
    Within (nextT mask w T d p s) (s.after mask t).filled := by
  show Within _ (if s.incDst then mask else t.filled ||| s.maskTo)
  unfold nextT
  split
  · exact and_within_right _ _
  · exact (hT.trans (within_or_left _ _)).or_left
      ((shiftBy_masked_within h _).trans (within_or_right _ _))

/-- The bits that a step put into its destination word come back from it. -/
theorem moved_back {t : Track} {s : Step} {ss : List Step} (h : Legal mask t (s :: ss))
    (hT : Within T t.filled) :
    shiftBy (packed mask w T d p (s :: ss) d &&& s.maskTo) (-s.shift) = w p &&& s.maskFrom := by
  obtain ⟨hfits, hrest⟩ := h
  have hlater : Apart (moved w (s.dst d) (s.src p) ss d) s.maskTo := by
    cases hi : s.incDst with
    | true =>
      rw [moved_before (by rw [Step.dst, if_pos hi]; omega)]
      exact (apart_zero _).symm
    | false =>
      have hd : s.dst d = d := if_neg (by rw [hi]; decide)
      have hfilled : (s.after mask t).filled = t.filled ||| s.maskTo := if_neg (by rw [hi]; decide)
      rw [hd]
      exact (moved_apart hrest).mono (.refl _) (by rw [hfilled]; exact within_or_right _ _)
  have hbefore : T &&& s.maskTo = 0 :=
    apart_iff_and.mp (hfits.filled.symm.mono hT (.refl _))
  have hnow := within_iff_and.mp (shiftBy_masked_within hfits (w p))
  have hmoved : packed mask w T d p (s :: ss) d &&& s.maskTo =
      shiftBy (w p &&& s.maskFrom) s.shift := by
    rw [packed, moved_cons, if_pos rfl, if_pos rfl, BitVec.and_or_distrib_right,
      BitVec.and_or_distrib_right, hbefore, hnow, apart_iff_and.mp hlater, zero_or, or_zero]
  rw [hmoved]
  exact hfits.shifts.back (and_within_right _ _)

/-! ## Decompression -/

/-- The bits of the source word that are taken, after the step. -/
def Step.gone (s : Step) (g : Word) : Word := if s.decSrc then 0 else g ||| s.maskFrom

/-- The bits of word `j` that the steps take; `g` are those of word `p` that are gone before. -/
def taken : Word → Int → List Step → Int → Word
  | g, p, [], j => if j = p then g else 0
  | g, p, s :: ss, j =>
    if s.decSrc ∧ j = p then g ||| s.maskFrom else taken (s.gone g) (s.src p) ss j

theorem taken_above {g : Word} (ss : List Step) {j : Int} (h : p < j) : taken g p ss j = 0 := by
  induction ss generalizing g p with
  | nil => exact if_neg (by omega)
  | cons s ss ih =>
    rw [taken, if_neg (by omega)]
    exact ih (Int.lt_of_le_of_lt (s.src_le p) h)

theorem taken_append {g : Word} (ss ys : List Step) (j : Int) :
    taken g p (ss ++ ys) j =
      if srcAfter p ss < j then taken g p ss j
      else taken (taken g p ss (srcAfter p ss)) (srcAfter p ss) ys j := by
  induction ss generalizing g p with
  | nil =>
    have hsrc : srcAfter p [] = p := by simp [srcAfter]
    rw [hsrc, List.nil_append, taken, taken, if_pos rfl]
    split
    · rename_i hlt
      rw [taken_above ys hlt, if_neg (by omega)]
    · rfl
  | cons s ss ih =>
    have hle := srcAfter_le (s.src p) ss
    have hsrc : s.decSrc = true → s.src p = p - 1 := fun hdec => if_pos hdec
    rw [List.cons_append, taken, ih, srcAfter_cons, taken, taken]
    by_cases hdone : s.decSrc = true ∧ j = p
    · have hp := hsrc hdone.1
      rw [if_pos hdone, if_pos hdone, if_pos (by omega)]
    · have hlast : ¬(s.decSrc = true ∧ srcAfter (s.src p) ss = p) := by
        rintro ⟨hdec, heq⟩
        have hp := hsrc hdec
        omega
      rw [if_neg hdone, if_neg hdone, if_neg hlast]

theorem taken_single (g : Word) (l : Step) (j : Int) :
    taken g p [l] j = if j = p then g ||| l.maskFrom else 0 := by
  rw [taken, taken, Step.gone, Step.src]
  cases l.decSrc <;> simp

/-- Before a step of the decompression. `C` is what was packed, up to `lim`. -/
structure Unpacks (w C : Int → Word) (lim : Int) (gone : Word) (d p : Int) (fresh usetemp : Bool)
    (e : Env) : Prop where
  src : e.srcptr = d
  dst : e.dstptr = p
  held : fresh = false → e.tmpsrc = C d
  acc : if usetemp then e.tmpdst = w p &&& gone else gone = 0
  rest : ∀ j, d ≤ j → j ≤ p → e.mem j = if j < lim then C j else 0

theorem Unpacks.word {C : Int → Word} {lim : Int} {gone : Word} {e : Env}
    (h : Unpacks w C lim gone d p fresh usetemp e) (hdp : d ≤ p) (hd : d < lim) :
    C d = if fresh then e.mem e.srcptr else e.tmpsrc := by
  cases hf : fresh with
  | true => rw [if_pos rfl, h.src, h.rest d (Int.le_refl d) hdp, if_pos hd]
  | false => exact (h.held hf).symm

/-- What the destination has before a step, in the temporary or in memory that is still zero. -/
theorem Unpacks.bits {C : Int → Word} {lim : Int} {gone : Word} {e : Env} {s : Step}
    (h : Unpacks w C lim gone d p fresh usetemp e) (hdp : d ≤ p) (hp : s.decSrc = true → lim ≤ p) :
    w p &&& gone = if usetemp then e.tmpdst else if s.decSrc then e.mem e.dstptr else 0 := by
  have hacc := h.acc
  cases hu : usetemp with
  | true =>
    rw [hu, if_pos rfl] at hacc
    exact hacc.symm
  | false =>
    rw [hu, if_neg Bool.false_ne_true] at hacc
    rw [if_neg Bool.false_ne_true, hacc]
    split
    · rename_i hdec
      have hge := hp hdec
      rw [h.dst, h.rest p hdp (Int.le_refl p), if_neg (by omega)]
      simp
    · simp

theorem Unpacks.step {C : Int → Word} {lim : Int} {gone : Word} {e : Env} {s : Step} (inLoop : Bool)
    (h : Unpacks w C lim gone d p fresh usetemp e) (hdp : d ≤ p) (hd : d < lim)
    (hp : s.decSrc = true → lim ≤ p)
    (hback : shiftBy (C d &&& s.maskTo) (-s.shift) = w p &&& s.maskFrom) :
    let e' := e.exec (decompressStep mask 0 inLoop fresh usetemp s)
    let mem := if s.decSrc then Function.update e.mem p (w p &&& (gone ||| s.maskFrom)) else e.mem
    Unpacks w C lim (s.gone gone) (s.dst d) (s.src p) s.incDst (s.keeps usetemp) e' ∧
      e'.mem = if s.incDst then Function.update mem d (C d &&& mask) else mem := by
  have hC := h.word hdp hd
  have hA := h.bits hdp hp
  have hor : (w p &&& gone) ||| (w p &&& s.maskFrom) = w p &&& (gone ||| s.maskFrom) :=
    BitVec.and_or_distrib_left.symm
  dsimp only
  rw [decompressStep_exec hC hA, hback, hor, h.src, h.dst]
  refine ⟨⟨rfl, rfl, ?_, ?_, ?_⟩, rfl⟩
  · intro hi
    rw [Step.dst, if_neg (by rw [hi]; decide)]
  · rw [Step.keeps_eq]
    cases hdec : s.decSrc with
    | true => simp [Step.gone, hdec]
    | false => simp [Step.gone, Step.src, hdec]
  · intro j hj hlt
    rw [← h.rest j (Int.le_trans (s.le_dst d) hj) (Int.le_trans hlt (s.src_le p))]
    have hjd : s.incDst = true → j ≠ d := by
      intro hi
      rw [Step.dst, if_pos hi] at hj
      omega
    have hjp : s.decSrc = true → j ≠ p := by
      intro hdec
      rw [Step.src, if_pos hdec] at hlt
      omega
    cases hi : s.incDst <;> cases hdec : s.decSrc <;> simp_all

/-- The steps before the one at which the two ends meet. -/
theorem Unpacks.run {t : Track} {C : Int → Word} {lim : Int} {gone : Word} {e : Env} {ss : List Step}
    {l : Step} (inLoop : Bool) (h : Unpacks w C lim gone d p fresh usetemp e)
    (hlegal : Legal mask t (ss ++ [l])) (hT : Within T t.filled)
    (hC : ∀ j, d ≤ j → j < lim → C j = packed mask w T d p (ss ++ [l]) j)
    (hlim : lim = dstAfter d ss + 1) (hmeet : dstAfter d ss ≤ srcAfter p ss) :
    let e' := e.exec (decompressBody mask 0 inLoop fresh usetemp ss)
    Unpacks w C lim (taken gone p ss (srcAfter p ss)) (dstAfter d ss) (srcAfter p ss)
        (freshAfter fresh ss) (usetempAfter usetemp ss) e' ∧
      (∀ j, d ≤ j → j < dstAfter d ss → e'.mem j = C j &&& mask) ∧
      (∀ j, srcAfter p ss < j → j ≤ p → e'.mem j = w j &&& taken gone p ss j) ∧
      ∀ j, j < d ∨ p < j → e'.mem j = e.mem j := by
  induction ss generalizing t T gone d p fresh usetemp e with
  | nil =>
    have hdst : dstAfter d [] = d := by simp [dstAfter]
    have hsrc : srcAfter p [] = p := by simp [srcAfter]
    dsimp only
    rw [hdst, hsrc, taken, if_pos rfl]
    exact ⟨h, fun j hj hlt => by omega, fun j hj hlt => by omega, fun j _ => rfl⟩
  | cons s ss ih =>
    rw [dstAfter_cons] at hlim hmeet
    rw [srcAfter_cons] at hmeet
    have hdst := le_dstAfter (s.dst d) ss
    have hsrc := srcAfter_le (s.src p) ss
    have hd := s.le_dst d
    have hp := s.src_le p
    have hdec : s.decSrc = true → lim ≤ p := by
      intro hdec
      have hprev : s.src p = p - 1 := if_pos hdec
      omega
    have hback : shiftBy (C d &&& s.maskTo) (-s.shift) = w p &&& s.maskFrom := by
      rw [hC d (Int.le_refl d) (by omega)]
      exact moved_back hlegal hT
    obtain ⟨hstep, hmem⟩ := @step mask _ _ _ _ _ _ _ _ _ _ inLoop h (by omega) (by omega) hdec hback
    have hCnext : ∀ j, s.dst d ≤ j → j < lim → C j =
        packed mask w (nextT mask w T d p s) (s.dst d) (s.src p) (ss ++ [l]) j := by
      intro j hj hlt
      rw [hC j (by omega) hlt, List.cons_append, packed_next hj]
    obtain ⟨hend, hdone, hrestored, hother⟩ :=
      ih hstep hlegal.2 (nextT_within hlegal.1 hT) hCnext hlim hmeet
    dsimp only
    rw [decompressBody_cons, exec_append, dstAfter_cons, srcAfter_cons, taken]
    have hlast : ¬(s.decSrc = true ∧ srcAfter (s.src p) ss = p) := by
      rintro ⟨hdec', heq⟩
      have hprev : s.src p = p - 1 := if_pos hdec'
      omega
    rw [if_neg hlast]
    refine ⟨hend, ?_, ?_, ?_⟩
    · intro j hj hlt
      by_cases hjd : s.dst d ≤ j
      · exact hdone j hjd hlt
      · have hinc : s.incDst = true := by
          by_contra hno
          rw [Step.dst, if_neg hno] at hjd
          exact hjd hj
        have heq : j = d := by
          rw [Step.dst, if_pos hinc] at hjd
          omega
        refine (hother j (.inl (Int.not_le.mp hjd))).trans ?_
        rw [hmem, if_pos hinc, heq, Function.update_self]
    · intro j hj hle
      rw [taken]
      by_cases hjp : j ≤ s.src p
      · rw [if_neg]
        · exact hrestored j hj hjp
        · rintro ⟨hdec', heq⟩
          have hprev : s.src p = p - 1 := if_pos hdec'
          omega
      · have hdec' : s.decSrc = true := by
          by_contra hno
          rw [Step.src, if_neg hno] at hjp
          exact hjp hle
        have hprev : s.src p = p - 1 := if_pos hdec'
        obtain rfl : j = p := by omega
        rw [if_pos ⟨hdec', rfl⟩]
        refine (hother j (.inr (Int.not_le.mp hjp))).trans ?_
        rw [hmem, if_pos hdec']
        split
        · rw [Function.update_of_ne (by omega), Function.update_self]
        · rw [Function.update_self]
    · intro j hj
      refine (hother j (by omega)).trans ?_
      rw [hmem]
      cases hi : s.incDst <;> cases hdec' : s.decSrc <;>
        simp [Function.update_of_ne (show j ≠ d by omega), Function.update_of_ne (show j ≠ p by omega)]

/-! ## The step at which the ends meet -/

theorem lastT_within {t : Track} {ss : List Step} (h : Legal mask t ss) (hT : Within T t.filled) :
    Within (lastT mask w T d p ss) (track mask t ss).filled := by
  induction ss generalizing t T d p with
  | nil => exact hT
  | cons s ss ih => exact ih h.2 (nextT_within h.1 hT)

theorem packed_single (l : Step) :
    packed mask w T d p [l] d = T ||| shiftBy (w p &&& l.maskFrom) l.shift := by
  rw [packed, moved_cons, if_pos rfl, if_pos rfl, moved, or_zero]

theorem compressLeft_exec (e : Env) (l : Step) :
    e.exec (compressLeft (some l)) =
      if l.incDst then e
      else { e with mem := Function.update e.mem e.dstptr e.tmpdst, dstptr := e.dstptr + 1 } := by
  show e.exec (if l.incDst then [] else _) = _
  split <;> rfl

/-- Leftover bits are written like those of a full word, so the last word is packed
whatever finishes it. -/
theorem compress_run {n : Nat} {init : List Step} {l : Step} (mem : Int → Word) (tmps : Word × Word)
    (hmeet : dstAfter 0 init ≤ srcAfter (n - 1) init) :
    let e' := (⟨mem, n - 1, 0, tmps.1, tmps.2⟩ : Env).exec
      (compressBody mask true false (init ++ [l]) ++ compressLeft (some l))
    e'.dstptr = dstAfter 0 init + 1 ∧ ∀ j, 0 ≤ j → j ≤ dstAfter 0 init →
      e'.mem j = packed mask mem (mem 0 &&& mask) 0 (n - 1) (init ++ [l]) j := by
  have hstart : Packs mask mem (mem 0 &&& mask) 0 (n - 1) true false
      (⟨mem, n - 1, 0, tmps.1, tmps.2⟩ : Env) :=
    ⟨rfl, rfl, rfl, fun h => absurd h Bool.false_ne_true, fun _ _ => rfl⟩
  obtain ⟨hend, hdone, -⟩ := hstart.run init hmeet
  obtain ⟨hstep, hmem⟩ := hend.step hmeet l
  have hword : packed mask mem (mem 0 &&& mask) 0 (n - 1) (init ++ [l]) (dstAfter 0 init) =
      lastT mask mem (mem 0 &&& mask) 0 (n - 1) init |||
        shiftBy (mem (srcAfter (n - 1) init) &&& l.maskFrom) l.shift := by
    rw [packed_lastT init [l] (Int.le_refl _), packed_single]
  dsimp only
  rw [compressBody_append, List.append_assoc, exec_append, compressBody_cons, List.append_assoc,
    exec_append, exec_append, compressLeft_exec]
  set e₂ := Env.exec _ (compressStep mask (freshAfter true init) (usetempAfter false init) l) with he₂
  have hbody : e₂.exec (compressBody mask l.incDst (l.keeps (usetempAfter false init)) []) = e₂ := rfl
  have hdst : e₂.dstptr = l.dst (dstAfter 0 init) := hstep.dst
  rw [hbody]
  cases hi : l.incDst with
  | true =>
    rw [if_pos rfl, hdst, Step.dst, if_pos hi]
    refine ⟨rfl, fun j hj hle => ?_⟩
    rw [hmem, if_pos hi]
    rcases Int.lt_or_eq_of_le hle with hlt | rfl
    · rw [Function.update_of_ne (by omega), hdone j hj hlt, packed_append init [l] hlt]
    · rw [Function.update_self, hword]
  | false =>
    have hacc : nextT mask mem (lastT mask mem (mem 0 &&& mask) 0 (n - 1) init) (dstAfter 0 init)
        (srcAfter (n - 1) init) l = e₂.tmpdst := by
      have hacc := hstep.acc
      rwa [hi, if_neg Bool.false_ne_true] at hacc
    rw [nextT, if_neg (by rw [hi]; decide)] at hacc
    rw [if_neg Bool.false_ne_true]
    dsimp only
    rw [hdst, Step.dst, if_neg (by rw [hi]; decide)]
    refine ⟨rfl, fun j hj hle => ?_⟩
    rcases Int.lt_or_eq_of_le hle with hlt | rfl
    · rw [Function.update_of_ne (by omega), hmem, if_neg (by rw [hi]; decide), hdone j hj hlt,
        packed_append init [l] hlt]
    · rw [Function.update_self, hword, hacc]

theorem decompressLeft_exec (e : Env) (l : Step) :
    e.exec (decompressLeft mask 0 (some l)) =
      let mem := if l.decSrc then e.mem else Function.update e.mem e.dstptr e.tmpdst
      { mem := if l.incDst then mem else Function.update mem e.srcptr (e.tmpsrc &&& mask)
        srcptr := if l.incDst then e.srcptr else e.srcptr + 1
        dstptr := if l.decSrc then e.dstptr else e.dstptr - 1
        tmpsrc := e.tmpsrc
        tmpdst := e.tmpdst } := by
  cases hi : l.incDst <;> cases hd : l.decSrc <;>
    simp [decompressLeft, restoreMagnitudeBit, restoreSource, Env.exec, Env.execOne, Env.eval,
      Env.get, Env.put, Env.act, Var.ref, Var.plain, Action.move, hi, hd]

/-- The last step, with the code after it, when it empties its source word. -/
theorem Unpacks.last_emptied {C : Int → Word} {lim : Int} {gone : Word} {e : Env} {l : Step}
    (inLoop : Bool) (h : Unpacks w C lim gone d p fresh usetemp e) (hdp : d ≤ p) (hd : d < lim)
    (hdec : l.decSrc = true) (hp : d ≠ p → lim ≤ p)
    (hback : shiftBy (C d &&& l.maskTo) (-l.shift) = w p &&& l.maskFrom) (j : Int) :
    (e.exec (decompressStep mask 0 inLoop fresh usetemp l ++ decompressLeft mask 0 (some l))).mem j =
      if j = d then C d &&& mask else if j = p then w p &&& (gone ||| l.maskFrom) else e.mem j := by
  have hC := h.word hdp hd
  have hmem : (e.exec (decompressStep mask 0 inLoop fresh usetemp l ++
      decompressLeft mask 0 (some l))).mem =
        Function.update (Function.update e.mem p
          ((if usetemp then e.tmpdst else e.mem p) ||| (w p &&& l.maskFrom))) d (C d &&& mask) := by
    rw [exec_append, decompressStep_exec hC rfl, decompressLeft_exec, hback, h.src, h.dst, hdec]
    cases l.incDst <;> rfl
  rw [hmem]
  by_cases hj : j = d
  · rw [if_pos hj, hj, Function.update_self]
  · rw [if_neg hj, Function.update_of_ne hj]
    by_cases hjp : j = p
    · have hbits := h.bits hdp (s := l) fun _ => hp fun heq => hj (hjp.trans heq.symm)
      rw [hdec, if_pos rfl, h.dst] at hbits
      rw [if_pos hjp, hjp, Function.update_self, ← hbits, ← BitVec.and_or_distrib_left]
    · rw [if_neg hjp, Function.update_of_ne hjp]

/-- The last step when it only fills its destination word: what is in the temporary comes
after, into the same word. -/
theorem Unpacks.last_filled {C : Int → Word} {lim : Int} {gone : Word} {e : Env} {l : Step}
    (inLoop : Bool) (h : Unpacks w C lim gone d d fresh usetemp e) (hd : d < lim)
    (hinc : l.incDst = true) (hdec : l.decSrc = false)
    (hback : shiftBy (C d &&& l.maskTo) (-l.shift) = w d &&& l.maskFrom) (j : Int) :
    (e.exec (decompressStep mask 0 inLoop fresh usetemp l ++ decompressLeft mask 0 (some l))).mem j =
      if j = d then w d &&& (gone ||| l.maskFrom) else e.mem j := by
  have hC := h.word (Int.le_refl d) hd
  have hA := h.bits (s := l) (Int.le_refl d) fun hd => absurd hd (by rw [hdec]; decide)
  have hmem : (e.exec (decompressStep mask 0 inLoop fresh usetemp l ++
      decompressLeft mask 0 (some l))).mem =
        Function.update (Function.update e.mem d (C d &&& mask)) d (w d &&& (gone ||| l.maskFrom)) := by
    rw [exec_append, decompressStep_exec hC hA, decompressLeft_exec, hback, h.src, h.dst, hdec, hinc,
      BitVec.and_or_distrib_left]
    simp
  rw [hmem]
  by_cases hj : j = d
  · rw [if_pos hj, hj, Function.update_self]
  · rw [if_neg hj, Function.update_of_ne hj, Function.update_of_ne hj]

/-! ## Both ways -/

/-- The bits that word `j` has got back at the end: the words in front are masked, and so is
the word where the ends meet if the last step empties its source word. -/
def restored (mask : Word) (n : Nat) (init : List Step) (l : Step) (j : Int) : Word :=
  if j < dstAfter 0 init ∨ j = dstAfter 0 init ∧ l.decSrc then mask
  else taken 0 (n - 1) (init ++ [l]) j

theorem packed_mask {t : Track} {ss : List Step} (h : Legal mask t ss) (hmask : Within mask t.filled)
    (j : Int) : packed mask w (w d &&& mask) d p ss j &&& mask = w j &&& mask := by
  have hmoved := apart_iff_and.mp (moved_apart_mask (w := w) (d := d) (p := p) h hmask j).symm
  rw [packed, BitVec.and_or_distrib_right, hmoved, or_zero]
  split
  · rename_i hj
    rw [hj, BitVec.and_assoc, BitVec.and_self]
  · rw [BitVec.and_assoc, BitVec.and_self]

theorem decompress_run {n : Nat} {init : List Step} {l : Step} (inLoop : Bool) (w : Int → Word)
    {mem : Int → Word} (tmps : Word × Word) (hlegal : Legal mask ⟨0, mask⟩ (init ++ [l]))
    (hmeet : dstAfter 0 init ≤ srcAfter (n - 1) init)
    (hnear : dstAfter 0 init = srcAfter (n - 1) init ∧ (l.incDst ∨ l.decSrc) ∨
      srcAfter (n - 1) init = dstAfter 0 init + 1 ∧ l.decSrc)
    (hmem : ∀ j : Int, 0 ≤ j → j < n → mem j = if j < dstAfter 0 init + 1 then
      packed mask w (w 0 &&& mask) 0 (n - 1) (init ++ [l]) j else 0) {j : Int} (hj : 0 ≤ j) (hjn : j < n) :
    ((⟨mem, 0, n - 1, tmps.1, tmps.2⟩ : Env).exec (decompressBody mask 0 inLoop true false (init ++ [l]) ++
      decompressLeft mask 0 (some l))).mem j = w j &&& restored mask n init l j := by
  set C := packed mask w (w 0 &&& mask) 0 (n - 1) (init ++ [l]) with hCdef
  have hmask : ∀ j, C j &&& mask = w j &&& mask := packed_mask hlegal (.refl mask)
  have hstart : Unpacks w C (dstAfter 0 init + 1) 0 0 (n - 1) true false
      (⟨mem, 0, n - 1, tmps.1, tmps.2⟩ : Env) :=
    ⟨rfl, rfl, fun h => absurd h (by decide), rfl, fun j hj hle => hmem j hj (by omega)⟩
  obtain ⟨hend, hdone, hrestored, -⟩ := hstart.run inLoop hlegal (and_within_right _ _)
    (fun _ _ _ => rfl) rfl hmeet
  obtain ⟨hinit, hlast, -⟩ := legal_append.mp hlegal
  have hback : shiftBy (C (dstAfter 0 init) &&& l.maskTo) (-l.shift) =
      w (srcAfter (n - 1) init) &&& l.maskFrom := by
    rw [hCdef, packed_lastT init [l] (Int.le_refl _)]
    exact moved_back ⟨hlast, trivial⟩ (lastT_within hinit (and_within_right _ _))
  have hcode : decompressBody mask 0 inLoop true false (init ++ [l]) ++ decompressLeft mask 0 (some l) =
      decompressBody mask 0 inLoop true false init ++
        (decompressStep mask 0 inLoop (freshAfter true init) (usetempAfter false init) l ++
          decompressLeft mask 0 (some l)) := by
    rw [decompressBody_append, List.append_assoc, decompressBody_cons, List.append_assoc]
    rfl
  rw [hcode, exec_append]
  set e := Env.exec _ (decompressBody mask 0 inLoop true false init) with he
  have hfront : j < dstAfter 0 init → e.mem j = w j &&& restored mask n init l j := by
    intro hlt
    rw [restored, if_pos (.inl hlt), hdone j hj hlt, hmask]
  have hbehind : srcAfter (n - 1) init < j → e.mem j = w j &&& restored mask n init l j := by
    intro hlt
    rw [restored, if_neg (by omega), taken_append, if_pos hlt]
    exact hrestored j hlt (by omega)
  have htaken : taken 0 (n - 1) (init ++ [l]) (srcAfter (n - 1) init) =
      taken 0 (n - 1) init (srcAfter (n - 1) init) ||| l.maskFrom := by
    rw [taken_append, if_neg (by omega), taken_single, if_pos rfl]
  cases hdec : l.decSrc with
  | true =>
    rw [hend.last_emptied inLoop hmeet (by omega) hdec (by omega) hback j]
    split
    · rename_i hjd
      rw [restored, if_pos (.inr ⟨hjd, hdec⟩), hjd, hmask]
    · split
      · rename_i hjd hjp
        rw [restored, if_neg (by omega), hjp, htaken]
      · rename_i hjd hjp
        rcases Int.lt_or_gt_of_ne hjd with hlt | hgt
        · exact hfront hlt
        · exact hbehind (by omega)
  | false =>
    obtain ⟨heq, hlast⟩ : dstAfter 0 init = srcAfter (n - 1) init ∧ (l.incDst ∨ l.decSrc) := by
      rcases hnear with h | ⟨-, hd⟩
      · exact h
      · rw [hdec] at hd
        cases hd
    have hinc : l.incDst = true := hlast.resolve_right (by rw [hdec]; decide)
    rw [← heq] at hend hback htaken hbehind
    rw [hend.last_filled inLoop (by omega) hinc hdec hback j]
    split
    · rename_i hjd
      have hnot : ¬(j < dstAfter 0 init ∨ j = dstAfter 0 init ∧ l.decSrc = true) := by
        rintro (hlt | ⟨-, hd⟩)
        · omega
        · rw [hdec] at hd
          cases hd
      rw [restored, if_neg hnot, hjd, htaken]
    · rename_i hjd
      rcases Int.lt_or_gt_of_ne hjd with hlt | hgt
      · exact hfront hlt
      · exact hbehind (by omega)

end Jive5ab.Trackmask
