import Mathlib.Data.List.Induction
import Mathlib.Data.List.Perm.Subperm
import Mathlib.Logic.Function.Basic
import Mathlib.Tactic.LinearCombination
import Mathlib.Tactic.Positivity
import Jive5ab.Vdif.Reframe

/-! # The frame filter

`framefilter` lets groups of `naccumulate` frames of one tag pass that begin at a multiple of the
frame length of the output, counted from the whole second as VDIF does. The queue behind it is
never disabled. -/
namespace Jive5ab.Frames
open Lib
open Vdif (Frame HighResTime den_eq_one_iff)

structure FrameFilterArgs where
  naccumulate : Nat
  framelength : ℚ≥0
  pos : 0 < framelength

/-- `tagstate_type`; the list has the last frame in front. -/
structure TagState where
  synced : Bool
  framelist : List Frame
  tagcounter : Nat

def TagState.init : TagState := ⟨false, [], 0⟩

namespace FrameFilterArgs

variable (args : FrameFilterArgs)

/-- `(tv_subsecond / framelength).denominator()==1` -/
def onGrid (f : Frame) : Bool := (f.frametime.tvSubsecond / args.framelength).den == 1

/-- One frame: the state of its tag, and what is pushed. -/
def tagStep (st : TagState) (tf : Frame) : TagState × List Frame :=
  if st.tagcounter = 0 then
    if args.onGrid tf then (⟨true, [tf], args.naccumulate - 1⟩, st.framelist.reverse)
    else (⟨false, [], 0⟩, [])
  else ({ st with framelist := tf :: st.framelist, tagcounter := st.tagcounter - 1 }, [])

def step (s : (Nat → TagState) × List Frame) (tf : Frame) : (Nat → TagState) × List Frame :=
  let (st, pushed) := args.tagStep (s.1 tf.tag) tf
  (Function.update s.1 tf.tag st, s.2 ++ pushed)

def run (frames : List Frame) : (Nat → TagState) × List Frame :=
  frames.foldl args.step (fun _ => .init, [])

def framefilter (frames : List Frame) : List Frame :=
  if args.naccumulate ≤ 1 then frames else (args.run frames).2

/-! ## One tag -/

def ofTag (t : Nat) (frames : List Frame) : List Frame := frames.filter fun f => f.tag == t

def tagRun (fs : List Frame) : TagState × List Frame :=
  fs.foldl (fun s tf => ((args.tagStep s.1 tf).1, s.2 ++ (args.tagStep s.1 tf).2)) (.init, [])

theorem tagRun_append (fs : List Frame) (tf : Frame) :
    args.tagRun (fs ++ [tf]) =
      ((args.tagStep (args.tagRun fs).1 tf).1,
        (args.tagRun fs).2 ++ (args.tagStep (args.tagRun fs).1 tf).2) := by
  unfold tagRun
  rw [List.foldl_append, List.foldl_cons, List.foldl_nil]

theorem run_append (frames : List Frame) (tf : Frame) :
    args.run (frames ++ [tf]) = args.step (args.run frames) tf := by
  unfold run
  rw [List.foldl_append, List.foldl_cons, List.foldl_nil]

variable {args}

theorem tagStep_mem {st : TagState} {tf f : Frame}
    (h : f ∈ (args.tagStep st tf).1.framelist ∨ f ∈ (args.tagStep st tf).2) :
    f = tf ∨ f ∈ st.framelist := by
  unfold tagStep at h
  split at h
  · split at h
    · obtain h | h := h
      · exact .inl (List.mem_singleton.mp h)
      · exact .inr (List.mem_reverse.mp h)
    · obtain h | h := h <;> cases h
  · obtain h | h := h
    · exact List.mem_cons.mp h
    · cases h

/-- What a tag has been given is what it keeps and passes. -/
theorem tagRun_mem {fs : List Frame} {f : Frame}
    (h : f ∈ (args.tagRun fs).1.framelist ∨ f ∈ (args.tagRun fs).2) : f ∈ fs := by
  induction fs using List.reverseRecOn with
  | nil => obtain h | h := h <;> cases h
  | append_singleton fs tf ih =>
    rw [tagRun_append] at h
    dsimp only at h
    rw [List.mem_append] at h
    have hstep (h : f ∈ (args.tagStep (args.tagRun fs).1 tf).1.framelist ∨
        f ∈ (args.tagStep (args.tagRun fs).1 tf).2) : f ∈ fs ++ [tf] := by
      obtain rfl | hold := tagStep_mem h
      · exact List.mem_append_right fs (List.mem_singleton_self f)
      · exact List.mem_append_left _ (ih (.inl hold))
    obtain h | h | h := h
    · exact hstep (.inl h)
    · exact List.mem_append_left _ (ih (.inr h))
    · exact hstep (.inr h)

/-- The frames of one tag are filtered as if there were no others. -/
theorem run_ofTag (frames : List Frame) (t : Nat) :
    (args.run frames).1 t = (args.tagRun (ofTag t frames)).1 ∧
      ofTag t (args.run frames).2 = (args.tagRun (ofTag t frames)).2 := by
  induction frames using List.reverseRecOn generalizing t with
  | nil => exact ⟨rfl, rfl⟩
  | append_singleton frames tf ih =>
    have hpushed : ∀ f ∈ (args.tagStep ((args.run frames).1 tf.tag) tf).2, f.tag = tf.tag := by
      intro f hf
      obtain rfl | hold := tagStep_mem (.inr hf)
      · rfl
      · rw [(ih tf.tag).1] at hold
        have hmem := (List.mem_filter.mp (tagRun_mem (.inl hold))).2
        exact beq_iff_eq.mp hmem
    rw [run_append]
    unfold step
    dsimp only
    obtain ⟨hstate, hout⟩ := ih t
    by_cases htag : tf.tag = t
    · subst htag
      have hsplit : ofTag tf.tag (frames ++ [tf]) = ofTag tf.tag frames ++ [tf] := by
        unfold ofTag
        rw [List.filter_append, List.filter_singleton, beq_self_eq_true, cond_true]
      have hall : ofTag tf.tag (args.tagStep ((args.run frames).1 tf.tag) tf).2 =
          (args.tagStep ((args.run frames).1 tf.tag) tf).2 :=
        List.filter_eq_self.mpr fun f hf => beq_iff_eq.mpr (hpushed f hf)
      rw [hsplit, tagRun_append, Function.update_self]
      refine ⟨by rw [hstate], ?_⟩
      unfold ofTag at hall hout ⊢
      rw [List.filter_append, hall, hout, hstate]
      rfl
    · have hsplit : ofTag t (frames ++ [tf]) = ofTag t frames := by
        unfold ofTag
        rw [List.filter_append, List.filter_singleton, beq_eq_false_iff_ne.mpr htag, cond_false,
          List.append_nil]
      have hnone : ofTag t (args.tagStep ((args.run frames).1 tf.tag) tf).2 = [] := by
        refine List.filter_eq_nil_iff.mpr fun f hf => ?_
        rw [hpushed f hf]
        simpa using htag
      rw [hsplit, Function.update_of_ne (Ne.symm htag)]
      refine ⟨hstate, ?_⟩
      unfold ofTag at hnone hout ⊢
      rw [List.filter_append, hnone, List.append_nil, hout]

/-! ## Groups -/

variable (args) in
def GridAt (fs : List Frame) (p : Nat) : Prop := ∃ f, fs[p]? = some f ∧ args.onGrid f = true

variable (args) in
/-- The positions at which the filter looks for the first frame of a group. -/
inductive Seeks (fs : List Frame) : Nat → Prop
  | zero : Seeks fs 0
  | skip {p : Nat} (hp : Seeks fs p) (hlt : p < fs.length) (hoff : ¬args.GridAt fs p) :
    Seeks fs (p + 1)
  | group {p : Nat} (hp : Seeks fs p) (hgrid : args.GridAt fs p)
    (hle : p + args.naccumulate ≤ fs.length) : Seeks fs (p + args.naccumulate)

variable (args) in
/-- A complete group begins at `s`. -/
structure Group (fs : List Frame) (s : Nat) : Prop where
  seeks : args.Seeks fs s
  grid : args.GridAt fs s
  le : s + args.naccumulate ≤ fs.length

variable {fs : List Frame} {p q s k : Nat}

/-- What is sought further on is behind the frame, or the group. -/
theorem Seeks.behind (hn : 1 < args.naccumulate) (hp : args.Seeks fs p) (hq : args.Seeks fs q)
    (hlt : p < q) :
    (args.GridAt fs p → p + args.naccumulate ≤ q) ∧ p + 1 ≤ q := by
  refine ⟨?_, hlt⟩
  induction q using Nat.strong_induction_on generalizing p with
  | _ q ih =>
    intro hgrid
    cases hq with
    | zero => exact absurd hlt (Nat.not_lt_zero p)
    | @skip r hr hrlt hoff =>
      obtain rfl | hpr : p = r ∨ p < r := by omega
      · exact absurd hgrid hoff
      · have := ih r (by omega) hp hr hpr hgrid
        omega
    | @group r hr hrgrid hle =>
      obtain hpr | rfl | hrp := Nat.lt_trichotomy p r
      · have := ih r (by omega) hp hr hpr hgrid
        omega
      · exact Nat.le_refl _
      · have := ih p hlt hr hp hrp hrgrid
        omega

variable (args) in
/-- What has been passed of the first `k` frames of a tag: the groups that were followed by a
frame on the grid. -/
structure Released (fs : List Frame) (k : Nat) (out : List Frame) (starts : List Nat) : Prop where
  out : out = starts.flatMap fun s => slice fs s args.naccumulate
  apart : starts.Pairwise fun s s' => s + args.naccumulate ≤ s'
  mem : ∀ s, s ∈ starts ↔
    args.Group fs s ∧ s + args.naccumulate < k ∧ args.GridAt fs (s + args.naccumulate)

variable (args) in
/-- What the state of a tag is after `k` frames: nothing collected, a complete group or a part. -/
inductive Collects (fs : List Frame) (k : Nat) : TagState → Prop
  | nothing (synced : Bool) (hseeks : args.Seeks fs k)
    (hnone : ∀ s, args.Group fs s → s + args.naccumulate ≠ k) : Collects fs k ⟨synced, [], 0⟩
  | complete {s : Nat} (synced : Bool) (hgroup : args.Group fs s) (hk : s + args.naccumulate = k) :
    Collects fs k ⟨synced, (slice fs s args.naccumulate).reverse, 0⟩
  | part {s : Nat} (synced : Bool) (hseeks : args.Seeks fs s) (hgrid : args.GridAt fs s) (hsk : s < k)
    (hk : k < s + args.naccumulate) :
    Collects fs k ⟨synced, (slice fs s (k - s)).reverse, s + args.naccumulate - k⟩

theorem slice_succ {α : Type*} {l : List α} {s n : Nat} {x : α} (h : l[s + n]? = some x) :
    slice l s (n + 1) = slice l s n ++ [x] := by
  unfold slice
  rw [List.take_add_one, List.getElem?_drop, h]
  rfl

/-- Where no group ends at `k`, or no frame on the grid follows, nothing is released. -/
theorem Released.keep {out : List Frame} {starts : List Nat} (h : args.Released fs k out starts)
    (hkeep : ∀ s, args.Group fs s → s + args.naccumulate = k → ¬args.GridAt fs k) :
    args.Released fs (k + 1) out starts := by
  refine ⟨h.out, h.apart, fun s => ?_⟩
  rw [h.mem]
  constructor
  · rintro ⟨hgroup, hlt, hgrid⟩
    exact ⟨hgroup, by omega, hgrid⟩
  · rintro ⟨hgroup, hlt, hgrid⟩
    obtain hlt | heq : s + args.naccumulate < k ∨ s + args.naccumulate = k := by omega
    · exact ⟨hgroup, hlt, hgrid⟩
    · exact absurd (heq ▸ hgrid) (hkeep s hgroup heq)

/-- A group that ends at `k` is released by a frame on the grid. -/
theorem Released.release {out : List Frame} {starts : List Nat} (hn : 1 < args.naccumulate)
    (h : args.Released fs k out starts) (hgroup : args.Group fs s) (hk : s + args.naccumulate = k)
    (hgrid : args.GridAt fs k) :
    args.Released fs (k + 1) (out ++ slice fs s args.naccumulate) (starts ++ [s]) := by
  refine ⟨?_, ?_, fun s' => ?_⟩
  · rw [List.flatMap_append, ← h.out, List.flatMap_singleton]
  · refine List.pairwise_append.mpr ⟨h.apart, List.pairwise_singleton _ _, fun s' hs' x hx => ?_⟩
    obtain rfl := List.mem_singleton.mp hx
    obtain ⟨hgroup', hlt, -⟩ := (h.mem s').mp hs'
    exact (hgroup'.seeks.behind hn hgroup.seeks (by omega)).1 hgroup'.grid
  · rw [List.mem_append, h.mem, List.mem_singleton]
    constructor
    · rintro (⟨hgroup', hlt, hgrid'⟩ | rfl)
      · exact ⟨hgroup', by omega, hgrid'⟩
      · exact ⟨hgroup, by omega, hk ▸ hgrid⟩
    · rintro ⟨hgroup', hlt, hgrid'⟩
      by_cases hlast : s' + args.naccumulate < k
      · exact .inl ⟨hgroup', hlast, hgrid'⟩
      · exact .inr (by omega)

theorem gridAt_iff {tf : Frame} (htf : fs[k]? = some tf) : args.GridAt fs k ↔ args.onGrid tf = true := by
  unfold GridAt
  rw [htf]
  simp

/-- A frame that is off the grid, where a group would begin. -/
theorem Collects.off {tf : Frame} (hn : 1 < args.naccumulate) (htf : fs[k]? = some tf)
    (hoff : args.onGrid tf = false) (hseeks : args.Seeks fs k) :
    args.Collects fs (k + 1) ⟨false, [], 0⟩ := by
  have hlt : k < fs.length := (List.getElem?_eq_some_iff.mp htf).1
  have hgrid : ¬args.GridAt fs k := fun h => by
    rw [(gridAt_iff htf).mp h] at hoff
    cases hoff
  refine .nothing false (.skip hseeks hlt hgrid) fun s hgroup hk => ?_
  have := (hgroup.seeks.behind hn hseeks (by omega)).1 hgroup.grid
  omega

/-- A frame on the grid, where a group begins. -/
theorem Collects.begin {tf : Frame} (hn : 1 < args.naccumulate) (htf : fs[k]? = some tf)
    (hon : args.onGrid tf = true) (hseeks : args.Seeks fs k) :
    args.Collects fs (k + 1) ⟨true, [tf], args.naccumulate - 1⟩ := by
  have hpart := @Collects.part args fs (k + 1) k true hseeks ((gridAt_iff htf).mpr hon)
    (Nat.lt_succ_self k) (by omega)
  have hone : k + 1 - k = 0 + 1 := by omega
  have hleft : k + args.naccumulate - (k + 1) = args.naccumulate - 1 := by omega
  rw [hone, hleft, slice_succ htf, slice_zero] at hpart
  exact hpart

theorem tagStep_collects {st : TagState} {tf : Frame} {out : List Frame} {starts : List Nat}
    (hn : 1 < args.naccumulate) (htf : fs[k]? = some tf) (hst : args.Collects fs k st)
    (hout : args.Released fs k out starts) :
    args.Collects fs (k + 1) (args.tagStep st tf).1 ∧
      ∃ starts, args.Released fs (k + 1) (out ++ (args.tagStep st tf).2) starts := by
  have hgrid := @gridAt_iff args fs k tf htf
  unfold tagStep
  cases hst with
  | nothing synced hseeks hnone =>
    have hkeep := hout.keep fun s hgroup hk => absurd hk (hnone s hgroup)
    rw [if_pos rfl]
    by_cases hon : args.onGrid tf = true
    · rw [if_pos hon]
      exact ⟨.begin hn htf hon hseeks, starts, by rwa [List.reverse_nil, List.append_nil]⟩
    · rw [if_neg hon]
      exact ⟨.off hn htf (Bool.eq_false_iff.mpr hon) hseeks, starts, by rwa [List.append_nil]⟩
  | @complete s synced hgroup hk =>
    have hseeks : args.Seeks fs k := hk ▸ .group hgroup.seeks hgroup.grid hgroup.le
    rw [if_pos rfl]
    by_cases hon : args.onGrid tf = true
    · rw [if_pos hon, List.reverse_reverse]
      exact ⟨.begin hn htf hon hseeks, _, hout.release hn hgroup hk (hgrid.mpr hon)⟩
    · rw [if_neg hon, List.append_nil]
      exact ⟨.off hn htf (Bool.eq_false_iff.mpr hon) hseeks, starts,
        hout.keep fun _ _ _ h => hon (hgrid.mp h)⟩
  | @part s synced hseeks hat hsk hk =>
    rw [if_neg (by dsimp only; omega), List.append_nil]
    have hlt : k < fs.length := (List.getElem?_eq_some_iff.mp htf).1
    have hkeep : args.Released fs (k + 1) out starts := by
      refine hout.keep fun s' hgroup hk' => ?_
      have := (hgroup.seeks.behind hn hseeks (by omega)).1 hgroup.grid
      omega
    have hplace : s + (k - s) = k := by omega
    have hcount : k + 1 - s = k - s + 1 := by omega
    have hlist : tf :: (slice fs s (k - s)).reverse = (slice fs s (k + 1 - s)).reverse := by
      rw [hcount, slice_succ (by rwa [hplace]), List.reverse_append]
      rfl
    have hleft : s + args.naccumulate - k - 1 = s + args.naccumulate - (k + 1) := by omega
    dsimp only
    rw [hlist, hleft]
    refine ⟨?_, starts, hkeep⟩
    by_cases hlast : k + 1 < s + args.naccumulate
    · exact .part synced hseeks hat (by omega) hlast
    · have hend : k + 1 = s + args.naccumulate := by omega
      have hall : k + 1 - s = args.naccumulate := by omega
      rw [hall, hend, Nat.sub_self]
      exact .complete synced ⟨hseeks, hat, by omega⟩ rfl

theorem tagRun_take {hn : 1 < args.naccumulate} (fs : List Frame) {k : Nat} (hk : k ≤ fs.length) :
    args.Collects fs k (args.tagRun (fs.take k)).1 ∧
      ∃ starts, args.Released fs k (args.tagRun (fs.take k)).2 starts := by
  induction k with
  | zero =>
    refine ⟨.nothing false .zero fun s hgroup hend => by omega, [], ?_⟩
    refine ⟨rfl, List.Pairwise.nil, fun s => ⟨fun h => (nomatch h), fun ⟨_, hlt, _⟩ => ?_⟩⟩
    exact absurd hlt (Nat.not_lt_zero _)
  | succ k ih =>
    obtain ⟨hst, starts, hout⟩ := ih (by omega)
    have htf : fs[k]? = some fs[k] := List.getElem?_eq_getElem (by omega)
    have htake : fs.take (k + 1) = fs.take k ++ [fs[k]] := by
      rw [List.take_add_one, htf]
      rfl
    rw [htake, tagRun_append]
    exact tagStep_collects hn htf hst hout

/-! ## What is passed -/

variable (args) in
/-- What is passed of one tag are groups of frames in a row that begin on the grid, no frame is
passed twice, and of the complete groups those that are followed by a frame on the grid, or by the
end, are passed. -/
def Grouped (fs out : List Frame) : Prop :=
  ∃ starts : List Nat, out = (starts.flatMap fun s => slice fs s args.naccumulate) ∧
    (starts.Pairwise fun s s' => s + args.naccumulate ≤ s') ∧ (∀ s ∈ starts, args.Group fs s) ∧
    ∀ s, args.Group fs s →
      s + args.naccumulate = fs.length ∨ args.GridAt fs (s + args.naccumulate) → s ∈ starts

theorem length_flatMap_groups {starts : List Nat} (h : ∀ s ∈ starts, args.Group fs s) :
    (starts.flatMap fun s => slice fs s args.naccumulate).length =
      starts.length * args.naccumulate := by
  induction starts with
  | nil => rw [List.flatMap_nil, List.length_nil, List.length_nil, Nat.zero_mul]
  | cons s starts ih =>
    have hle := (h s List.mem_cons_self).le
    rw [List.flatMap_cons, List.length_append, ih fun s' hs' => h s' (List.mem_cons_of_mem s hs'),
      length_slice, List.length_cons, Nat.succ_mul]
    omega

theorem grouped_iff (hn : 1 < args.naccumulate) (fs : List Frame) :
    args.Grouped fs (args.tagRun fs).2 ↔
      ¬∃ s, args.Group fs s ∧ s + args.naccumulate = fs.length := by
  obtain ⟨-, released, hout⟩ := @tagRun_take args hn fs fs.length (Nat.le_refl _)
  rw [List.take_length] at hout
  constructor
  · rintro ⟨starts, hstarts, hapart, hgroups, hall⟩ ⟨s, hgroup, hend⟩
    have hlen : starts.length = released.length := by
      have hlen := congrArg List.length (hstarts.symm.trans hout.out)
      rw [length_flatMap_groups hgroups,
        length_flatMap_groups fun s hs => ((hout.mem s).mp hs).1] at hlen
      exact Nat.eq_of_mul_eq_mul_right (by omega) hlen
    have hreleased : released.Nodup := hout.apart.imp fun hle => by omega
    have hfresh : s ∉ released := fun hs => by
      have := ((hout.mem s).mp hs).2.1
      omega
    have hsub : s :: released ⊆ starts := by
      intro s' hs'
      obtain rfl | hs' := List.mem_cons.mp hs'
      · exact hall s' hgroup (.inl hend)
      · obtain ⟨hgroup', -, hgrid'⟩ := (hout.mem s').mp hs'
        exact hall s' hgroup' (.inr hgrid')
    have hle := (List.subperm_of_subset (List.nodup_cons.mpr ⟨hfresh, hreleased⟩) hsub).length_le
    rw [List.length_cons] at hle
    omega
  · intro hnone
    refine ⟨released, hout.out, hout.apart, fun s hs => ((hout.mem s).mp hs).1, ?_⟩
    rintro s hgroup (hend | hgrid)
    · exact absurd ⟨s, hgroup, hend⟩ hnone
    · have hlt : s + args.naccumulate < fs.length := by
        obtain ⟨f, hf, -⟩ := hgrid
        exact (List.getElem?_eq_some_iff.mp hf).1
      exact (hout.mem s).mpr ⟨hgroup, hlt, hgrid⟩

/-- Where the frame length divides the second, the grid is that of the whole time. -/
theorem onGrid_iff {n : Nat} (hn : n * args.framelength = 1) (f : Frame) :
    args.onGrid f = true ↔ ∃ k : Int, f.frametime.value = k * args.framelength := by
  have hne : args.framelength ≠ 0 := args.pos.ne'
  have hn : (n : ℚ) * args.framelength = 1 := by exact_mod_cast hn
  unfold onGrid HighResTime.value
  rw [beq_iff_eq, den_eq_one_iff hne]
  constructor
  · rintro ⟨j, hj⟩
    refine ⟨f.frametime.tvSec * n + j, ?_⟩
    have hj : (f.frametime.tvSubsecond : ℚ) = j * args.framelength := by exact_mod_cast hj
    rw [hj]
    push_cast
    linear_combination -(f.frametime.tvSec : ℚ) * hn
  · rintro ⟨k, hk⟩
    have hsub : (f.frametime.tvSubsecond : ℚ) =
        ((k - f.frametime.tvSec * n : ℤ) : ℚ) * args.framelength := by
      push_cast
      linear_combination hk + f.frametime.tvSec * hn
    have hpos : (0 : ℚ) < args.framelength := by exact_mod_cast args.pos
    have hnonneg : 0 ≤ k - f.frametime.tvSec * n := by
      have hss : (0 : ℚ) ≤ f.frametime.tvSubsecond := f.frametime.tvSubsecond.2
      rw [hsub] at hss
      exact_mod_cast nonneg_of_mul_nonneg_left hss hpos
    obtain ⟨j, hj⟩ := Int.eq_ofNat_of_zero_le hnonneg
    rw [hj, Int.cast_natCast] at hsub
    exact ⟨j, NNRat.coe_inj.mp (by rw [hsub, NNRat.coe_mul, NNRat.coe_natCast])⟩

end FrameFilterArgs

def pairs : FrameFilterArgs := ⟨2, 1, by norm_num⟩

def plainFrame (tag : Nat) (sec : Int) : Frame := ⟨tag, 32, ⟨sec, 0, by norm_num⟩, []⟩

namespace FrameFilterArgs

theorem plainFrame_onGrid (tag : Nat) (sec : Int) : pairs.onGrid (plainFrame tag sec) = true := by
  have hzero : (0 : ℚ≥0) / pairs.framelength = 0 := zero_div _
  unfold onGrid plainFrame
  rw [hzero]
  rfl

end FrameFilterArgs

end Jive5ab.Frames
