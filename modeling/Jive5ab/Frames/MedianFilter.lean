import Mathlib.Data.List.Induction
import Mathlib.Tactic.IntervalCases
import Jive5ab.Lib.OrderStatistics
import Jive5ab.Vdif.Reframe

/-! # The median filter

`medianfilter` keeps five frames and compares the whole second of the oldest with the median. The
queue behind it is never disabled. -/
namespace Jive5ab.Frames
open Lib
open Vdif (Frame)

/-- `n`, how many time stamps there are in `tsbuf`. -/
def tsbufLength : Nat := 5

/-- `tsbuf[ n/2 ]`, sorted. -/
def median (framebuf : List Frame) : Option Int :=
  orderStatistic (framebuf.map (·.frametime.tvSec)) (tsbufLength / 2)

/-- Is the first frame within a second of the median? -/
def nearMedian (framebuf : List Frame) : Bool :=
  match framebuf, median framebuf with
  | front :: _, some m => decide ((front.frametime.tvSec - m).natAbs ≤ 1)
  | _, _ => false

structure MedianState where
  framebuf : List Frame
  pushed : List Frame

def MedianState.step (s : MedianState) (frm : Frame) : MedianState :=
  let framebuf := s.framebuf ++ [frm]
  if framebuf.length < tsbufLength then { s with framebuf }
  else
    ⟨framebuf.tail, if nearMedian framebuf then s.pushed ++ framebuf.head?.toList else s.pushed⟩

def medianfilter (frames : List Frame) : List Frame :=
  let s := frames.foldl MedianState.step ⟨[], []⟩
  s.pushed ++ s.framebuf

/-! ## What is passed -/

def window (frames : List Frame) (i : Nat) : List Frame := slice frames i tsbufLength

/-- The positions of the frames that are passed: the last four are not judged. -/
def passed (frames : List Frame) : List Nat :=
  (List.range frames.length).filter fun i =>
    decide (frames.length < i + tsbufLength) || nearMedian (window frames i)

theorem filterMap_range' {α : Type*} (l : List α) {a n : Nat} (h : a + n = l.length) :
    (List.range' a n).filterMap (l[·]?) = l.drop a := by
  induction n generalizing a with
  | zero => rw [List.range'_zero, List.filterMap_nil, List.drop_eq_nil_of_le (by omega)]
  | succ n ih =>
    have ha : a < l.length := by omega
    rw [List.range'_succ, List.filterMap_cons_some (List.getElem?_eq_getElem ha), ih (by omega),
      List.drop_eq_getElem_cons ha]

theorem window_append {frames : List Frame} {i : Nat} (h : i + tsbufLength ≤ frames.length)
    (frm : Frame) : window (frames ++ [frm]) i = window frames i := by
  have hdrop : tsbufLength ≤ (frames.drop i).length := by
    rw [List.length_drop]
    omega
  unfold window slice
  rw [List.drop_append_of_le_length (by omega), List.take_append_of_le_length hdrop]

/-- What is left in the buffer, and which of the others have been pushed. -/
theorem run_eq (frames : List Frame) :
    frames.foldl MedianState.step ⟨[], []⟩ =
      ⟨frames.drop (frames.length - 4), ((List.range (frames.length - 4)).filter fun i =>
        nearMedian (window frames i)).filterMap (frames[·]?)⟩ := by
  induction frames using List.reverseRecOn with
  | nil => rfl
  | append_singleton frames frm ih =>
    rw [List.foldl_append, List.foldl_cons, List.foldl_nil, ih, List.length_append,
      List.length_singleton]
    have hbuf : frames.drop (frames.length - 4) ++ [frm] =
        (frames ++ [frm]).drop (frames.length - 4) := by
      rw [List.drop_append_of_le_length (by omega)]
    unfold MedianState.step
    dsimp only
    rw [hbuf, List.length_drop, List.length_append, List.length_singleton]
    by_cases hfew : frames.length < 4
    · have hnone : frames.length - 4 = 0 := by omega
      have hnone' : frames.length + 1 - 4 = 0 := by omega
      rw [hnone, hnone', if_pos (by unfold tsbufLength; omega)]
      rfl
    · obtain ⟨k, hk⟩ : ∃ k, frames.length = k + 4 := ⟨frames.length - 4, by omega⟩
      have hplace : k + 4 - 4 = k := rfl
      have hplace' : k + 4 + 1 - 4 = k + 1 := by omega
      rw [hk, hplace, hplace', if_neg (by unfold tsbufLength; omega), List.tail_drop,
        List.range_succ, List.filter_append, List.filterMap_append]
      have hwindow : (frames ++ [frm]).drop k = window (frames ++ [frm]) k := by
        unfold window slice
        rw [List.take_of_length_le]
        rw [List.length_drop, List.length_append, List.length_singleton, tsbufLength]
        omega
      have hold : (List.range k).filter (fun i => nearMedian (window (frames ++ [frm]) i)) =
          (List.range k).filter fun i => nearMedian (window frames i) := by
        refine List.filter_congr fun i hi => ?_
        have hi := List.mem_range.mp hi
        rw [window_append (by unfold tsbufLength; omega)]
      have hsame : ((List.range k).filter fun i => nearMedian (window frames i)).filterMap
          ((frames ++ [frm])[·]?) =
          ((List.range k).filter fun i => nearMedian (window frames i)).filterMap (frames[·]?) := by
        refine List.filterMap_congr fun i hi => ?_
        have hi := List.mem_range.mp (List.mem_filter.mp hi).1
        exact List.getElem?_append_left (by omega)
      rw [hold, hsame, List.head?_drop, hwindow]
      congr 1
      cases hnear : nearMedian (window (frames ++ [frm]) k) with
      | false =>
        rw [if_neg Bool.false_ne_true, List.filter_singleton, hnear]
        simp
      | true =>
        rw [if_pos rfl, List.filter_singleton, hnear]
        rw [cond_true]
        cases hget : (frames ++ [frm])[k]? with
        | none =>
          rw [List.filterMap_cons_none hget]
          rfl
        | some front =>
          rw [List.filterMap_cons_some hget]
          rfl

theorem medianfilter_eq (frames : List Frame) :
    medianfilter frames = (passed frames).filterMap (frames[·]?) := by
  have hrange : List.range frames.length =
      List.range (frames.length - 4) ++ List.range' (frames.length - 4) (min 4 frames.length) := by
    have hjoin := @List.range'_append_1 0 (frames.length - 4) (min 4 frames.length)
    have htotal : frames.length - 4 + min 4 frames.length = frames.length := by omega
    rw [List.range_eq_range', List.range_eq_range', ← htotal, ← hjoin, Nat.zero_add, htotal]
  have hjudged : (List.range (frames.length - 4)).filter (fun i =>
      decide (frames.length < i + tsbufLength) || nearMedian (window frames i)) =
      (List.range (frames.length - 4)).filter fun i => nearMedian (window frames i) := by
    refine List.filter_congr fun i hi => ?_
    have hi := List.mem_range.mp hi
    have hin : ¬frames.length < i + tsbufLength := by
      unfold tsbufLength
      omega
    rw [decide_eq_false hin, Bool.false_or]
  have hrest : (List.range' (frames.length - 4) (min 4 frames.length)).filter (fun i =>
      decide (frames.length < i + tsbufLength) || nearMedian (window frames i)) =
      List.range' (frames.length - 4) (min 4 frames.length) := by
    refine List.filter_eq_self.mpr fun i hi => ?_
    have hi := (List.mem_range'_1.mp hi).1
    have hlast : frames.length < i + tsbufLength := by
      unfold tsbufLength
      omega
    rw [decide_eq_true hlast, Bool.true_or]
  unfold medianfilter passed
  rw [run_eq, hrange, List.filter_append, hjudged, hrest, List.filterMap_append,
    filterMap_range' frames (by omega)]

/-! ## Outliers -/

def secondOf (frames : List Frame) (i : Nat) : Int :=
  ((frames[i]?).map (·.frametime.tvSec)).getD 0

/-- The positions of a window. -/
def windowAt (i : Nat) : List Nat := List.range' i tsbufLength

/-- Of the frames of a window three at least are correct, and these are a second apart at most. -/
structure Trusted (correct : Nat → Bool) (frames : List Frame) : Prop where
  majority : ∀ i, i + tsbufLength ≤ frames.length → 3 ≤ (windowAt i).countP correct
  close : ∀ i, i + tsbufLength ≤ frames.length → ∀ j ∈ windowAt i, ∀ k ∈ windowAt i,
    correct j = true → correct k = true → (secondOf frames j - secondOf frames k).natAbs ≤ 1

theorem map_window {frames : List Frame} {i : Nat} (h : i + tsbufLength ≤ frames.length) :
    (window frames i).map (·.frametime.tvSec) = (windowAt i).map (secondOf frames) := by
  unfold window windowAt slice
  generalize tsbufLength = n at h
  induction n generalizing i with
  | zero => rfl
  | succ n ih =>
    have hi : i < frames.length := by omega
    rw [List.drop_eq_getElem_cons hi, List.take_succ_cons, List.map_cons, ih (by omega),
      List.range'_succ, List.map_cons, secondOf, List.getElem?_eq_getElem hi]
    rfl

theorem nearMedian_iff {frames : List Frame} {i : Nat} {m : Int}
    (h : i + tsbufLength ≤ frames.length) (hm : median (window frames i) = some m) :
    nearMedian (window frames i) = true ↔ (secondOf frames i - m).natAbs ≤ 1 := by
  have hi : i < frames.length := by
    unfold tsbufLength at h
    omega
  have hwindow : window frames i = frames[i] :: (frames.drop (i + 1)).take 4 := by
    unfold window slice
    rw [List.drop_eq_getElem_cons hi, tsbufLength, List.take_succ_cons]
  unfold nearMedian
  rw [hm, hwindow]
  dsimp only
  rw [decide_eq_true_iff, secondOf, List.getElem?_eq_getElem hi]
  rfl

/-- The median is between two correct times. -/
theorem Trusted.median_between {correct : Nat → Bool} {frames : List Frame}
    (h : Trusted correct frames) {i : Nat} (hi : i + tsbufLength ≤ frames.length) :
    ∃ m, median (window frames i) = some m ∧
      (∃ j ∈ windowAt i, correct j = true ∧ secondOf frames j ≤ m) ∧
      ∃ k ∈ windowAt i, correct k = true ∧ m ≤ secondOf frames k := by
  have hlen : (windowAt i).length = 5 := List.length_range'
  have hmajority := h.majority i hi
  have hmedian : ∃ m, orderStatistic ((windowAt i).map (secondOf frames)) 2 = some m :=
    orderStatistic_isSome (by rw [List.length_map, hlen]; decide)
  obtain ⟨m, hm⟩ := hmedian
  refine ⟨m, ?_, exists_le_orderStatistic hm (by omega), exists_ge_orderStatistic hm (by omega)⟩
  unfold median
  rw [map_window hi]
  exact hm

theorem Trusted.passes {correct : Nat → Bool} {frames : List Frame} (h : Trusted correct frames)
    {i : Nat} (hi : i + tsbufLength ≤ frames.length) (hcorrect : correct i = true) :
    nearMedian (window frames i) = true := by
  have hself : i ∈ windowAt i := List.mem_range'_1.mpr ⟨Nat.le_refl i, by unfold tsbufLength; omega⟩
  obtain ⟨m, hm, ⟨j, hj, hcj, hjm⟩, k, hk, hck, hmk⟩ := h.median_between hi
  have hbelow := h.close i hi i hself j hj hcorrect hcj
  have habove := h.close i hi i hself k hk hcorrect hck
  rw [nearMedian_iff hi hm]
  omega

theorem mem_passed_iff {frames : List Frame} {i : Nat} (hi : i + tsbufLength ≤ frames.length) :
    i ∈ passed frames ↔ nearMedian (window frames i) = true := by
  have hlt : i < frames.length := by
    unfold tsbufLength at hi
    omega
  unfold passed
  rw [List.mem_filter, List.mem_range, decide_eq_false (by omega), Bool.false_or]
  exact and_iff_right hlt

def frameAt (sec : Int) : Frame := ⟨0, 32, ⟨sec, 0, Vdif.zero_lt_second⟩, []⟩

/-- Seven frames, of which one has jumped. -/
def jumping : List Frame := [10, 10, 99, 10, 11, 11, 11].map frameAt

theorem jumping_trusted : Trusted (fun i => i != 2) jumping := by
  refine ⟨fun i hi => ?_, fun i hi => ?_⟩
  · have hi : i + 5 ≤ 7 := hi
    have hi : i ≤ 2 := by omega
    interval_cases i <;> decide
  · have hi : i + 5 ≤ 7 := hi
    have hi : i ≤ 2 := by omega
    interval_cases i <;> decide

end Jive5ab.Frames
