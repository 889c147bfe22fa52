import Jive5ab.Trackmask.Blocks

/-! # Decompression and what the memory held before

`decompress` unpacks a block in place, so behind the compressed words there is
whatever the memory held. A word that more than one step puts together is assembled
in a temporary and assigned; a word that a single step restores is OR-ed in place,
unless magnitude bits are restored too. That is why the reader appends zeroes to
what it has read. -/
namespace Jive5ab.Trackmask
open Lib.Bits Env Solution

variable {mask : Word} {s : Solution} {w : Int → Word} {m d p distance : Int} {fresh usetemp : Bool}

/-- Word `j` is emptied by a single step. -/
def emptiedAtOnce : Bool → Int → List Step → Int → Bool
  | _, _, [], _ => false
  | usetemp, p, s :: ss, j =>
    (!usetemp && s.decSrc && decide (j = p)) || emptiedAtOnce (s.keeps usetemp) (s.src p) ss j

theorem emptiedAtOnce_cons (s : Step) (ss : List Step) (j : Int) :
    emptiedAtOnce usetemp p (s :: ss) j =
      ((!usetemp && s.decSrc && decide (j = p)) ||
        emptiedAtOnce (s.keeps usetemp) (s.src p) ss j) := rfl

theorem emptiedAtOnce_above {j : Int} (ss : List Step) (h : p < j) :
    emptiedAtOnce usetemp p ss j = false := by
  induction ss generalizing p usetemp with
  | nil => rfl
  | cons s ss ih =>
    have hne : decide (j = p) = false := decide_eq_false (by omega)
    rw [emptiedAtOnce_cons, ih (Int.lt_of_le_of_lt (s.src_le p) h), hne, Bool.and_false, Bool.or_self]

/-- The bits of the memory `w` that stay in a word behind the `m` compressed ones. -/
def staleBits (w : Int → Word) (m distance : Int) (once : Bool) (j : Int) : Word :=
  if m ≤ j ∧ distance = 0 ∧ once = true then w j else 0

theorem staleBits_false (j : Int) : staleBits w m distance false j = 0 :=
  if_neg fun h => Bool.false_ne_true h.2.2

theorem staleBits_front {once : Bool} {j : Int} (h : j < m) : staleBits w m distance once j = 0 :=
  if_neg fun hj => by omega

theorem magnitude_stale (x : Word) (once : Bool) (j : Int) :
    magnitude mask distance (x ||| staleBits w m distance once j) =
      magnitude mask distance x ||| staleBits w m distance once j := by
  unfold staleBits magnitude
  split
  · rfl
  · rename_i hne
    rw [if_neg (fun h => hne h.2.1), or_zero, or_zero]

/-- Two runs: `e` with the memory `w` behind the first `m` words, `e₀` with zeroes there. -/
structure Stale (w : Int → Word) (m d p : Int) (fresh usetemp : Bool) (e e₀ : Env) : Prop where
  src : e.srcptr = d ∧ e₀.srcptr = d
  dst : e.dstptr = p ∧ e₀.dstptr = p
  held : fresh = false → e.tmpsrc = e₀.tmpsrc
  acc : usetemp = true → e.tmpdst = e₀.tmpdst
  front : ∀ j, 0 ≤ j → j < m → e.mem j = e₀.mem j
  rest : ∀ j, m ≤ j → j ≤ p → e.mem j = e₀.mem j ||| w j

theorem Stale.word {e e₀ : Env} (h : Stale w m d p fresh usetemp e e₀) (hd : 0 ≤ d ∧ d < m) :
    (if fresh then e.mem e.srcptr else e.tmpsrc) =
      if fresh then e₀.mem e₀.srcptr else e₀.tmpsrc := by
  cases hf : fresh with
  | true =>
    rw [if_pos rfl, if_pos rfl, h.src.1, h.src.2]
    exact h.front d hd.1 hd.2
  | false => exact h.held hf

theorem Stale.bits {e e₀ : Env} (h : Stale w m d p fresh usetemp e e₀) (hp : 0 ≤ p) (st : Step) :
    (if usetemp then e.tmpdst
        else if st.decSrc = true ∧ distance = 0 then e.mem e.dstptr else 0) =
      (if usetemp then e₀.tmpdst
        else if st.decSrc = true ∧ distance = 0 then e₀.mem e₀.dstptr else 0) |||
      staleBits w m distance (!usetemp && st.decSrc) p := by
  cases hu : usetemp with
  | true =>
    rw [if_pos rfl, if_pos rfl, Bool.not_true, Bool.false_and, staleBits_false, or_zero]
    exact h.acc hu
  | false =>
    rw [if_neg Bool.false_ne_true, if_neg Bool.false_ne_true, Bool.not_false, Bool.true_and]
    by_cases hor : st.decSrc = true ∧ distance = 0
    · rw [if_pos hor, if_pos hor, h.dst.1, h.dst.2]
      by_cases hmp : m ≤ p
      · rw [staleBits, if_pos ⟨hmp, hor.2, hor.1⟩]
        exact h.rest p hmp (Int.le_refl p)
      · rw [staleBits_front (Int.not_le.mp hmp), or_zero]
        exact h.front p hp (Int.not_le.mp hmp)
    · rw [if_neg hor, if_neg hor, staleBits, if_neg fun hs => hor ⟨hs.2.2, hs.2.1⟩]
      rfl

/-- The memory after a step that may have written the words `d` and `p`. -/
theorem written_apply (st : Step) (mem : Int → Word) (x y : Word) (j : Int) :
    (if st.incDst then Function.update (if st.decSrc then Function.update mem p x else mem) d y
      else if st.decSrc then Function.update mem p x else mem) j =
      if st.incDst = true ∧ j = d then y else if st.decSrc = true ∧ j = p then x else mem j := by
  cases st.incDst <;> cases st.decSrc <;> simp [Function.update_apply]

theorem or_right_comm (x y z : Word) : x ||| y ||| z = x ||| z ||| y := by
  rw [BitVec.or_assoc, BitVec.or_comm y z, BitVec.or_assoc]

/-- One step of both: only a word that it fills alone takes bits of the old memory over. -/
theorem Stale.step {e e₀ : Env} (h : Stale w m d p fresh usetemp e e₀) (hd : 0 ≤ d ∧ d < m)
    (hp : 0 ≤ p) (st : Step) :
    let e' := e.exec (decompressStep mask distance false fresh usetemp st)
    let e₀' := e₀.exec (decompressStep mask distance false fresh usetemp st)
    Stale w m (st.dst d) (st.src p) st.incDst (st.keeps usetemp) e' e₀' ∧
      (st.decSrc = true → m ≤ p →
        e'.mem p = e₀'.mem p ||| staleBits w m distance (!usetemp && st.decSrc) p) ∧
      ∀ j, p < j → m ≤ j → e'.mem j = e.mem j ∧ e₀'.mem j = e₀.mem j := by
  obtain ⟨C, hC₀⟩ : ∃ C, C = if fresh then e₀.mem e₀.srcptr else e₀.tmpsrc := ⟨_, rfl⟩
  obtain ⟨A, hA₀⟩ : ∃ A, A = if usetemp then e₀.tmpdst
    else if st.decSrc = true ∧ distance = 0 then e₀.mem e₀.dstptr else 0 := ⟨_, rfl⟩
  have hC := h.word hd
  have hA := @Stale.bits w m d p distance fresh usetemp e e₀ h hp st
  rw [← hC₀] at hC
  rw [← hA₀] at hA
  obtain ⟨hmem, hsrc, hdst, htmpsrc, htmpdst⟩ :=
    @decompressStep_spec mask _ _ e fresh usetemp st distance hC.symm hA.symm
  obtain ⟨hmem₀, hsrc₀, hdst₀, htmpsrc₀, htmpdst₀⟩ :=
    @decompressStep_spec mask _ _ e₀ fresh usetemp st distance hC₀ hA₀
  rw [h.src.1] at hsrc hmem
  rw [h.src.2] at hsrc₀ hmem₀
  rw [h.dst.1] at hdst hmem
  rw [h.dst.2] at hdst₀ hmem₀
  rw [or_right_comm] at hmem htmpdst
  rw [magnitude_stale] at hmem
  have hstays : ∀ j, ¬(st.incDst = true ∧ j = d) → ¬(st.decSrc = true ∧ j = p) →
      (e.exec (decompressStep mask distance false fresh usetemp st)).mem j = e.mem j ∧
        (e₀.exec (decompressStep mask distance false fresh usetemp st)).mem j = e₀.mem j := by
    intro j hjd hjp
    rw [hmem, hmem₀, written_apply, written_apply, if_neg hjd, if_neg hjp, if_neg hjd, if_neg hjp]
    exact ⟨rfl, rfl⟩
  refine ⟨⟨⟨hsrc, hsrc₀⟩, ⟨hdst, hdst₀⟩, ?_, ?_, ?_, ?_⟩, ?_, ?_⟩
  · intro hi
    rw [htmpsrc hi, htmpsrc₀ hi]
  · intro hu
    rw [Step.keeps_eq, Bool.not_eq_true'] at hu
    rw [htmpdst hu, htmpdst₀ hu, hu, Bool.and_false, staleBits_false, or_zero]
  · intro j hj hjm
    rw [hmem, hmem₀, written_apply, written_apply]
    split
    · rfl
    · split
      · rename_i hjp
        rw [← hjp.2, staleBits_front hjm, or_zero]
      · exact h.front j hj hjm
  · intro j hmj hjp
    have hsrcp := st.src_le p
    obtain ⟨hone, hzero⟩ := hstays j (fun hj => by omega) fun hj => by
      rw [Step.src, if_pos hj.1] at hjp
      omega
    rw [hone, hzero]
    exact h.rest j hmj (by omega)
  · intro hdec hmp
    have hne : ¬(st.incDst = true ∧ p = d) := fun hj => by omega
    rw [hmem, hmem₀, written_apply, written_apply, if_neg hne, if_neg hne, if_pos ⟨hdec, rfl⟩,
      if_pos ⟨hdec, rfl⟩]
  · intro j hpj hmj
    exact hstays j (fun hj => by omega) fun hj => by omega

/-- The words that the steps restore differ in what is left of the old memory. -/
structure Restored (w : Int → Word) (m p distance : Int) (usetemp : Bool) (ss : List Step)
    (e e₀ e' e₀' : Env) : Prop where
  done : ∀ j, m ≤ j → srcAfter p ss < j → j ≤ p →
    e'.mem j = e₀'.mem j ||| staleBits w m distance (emptiedAtOnce usetemp p ss j) j
  above : ∀ j, m ≤ j → p < j → e'.mem j = e.mem j ∧ e₀'.mem j = e₀.mem j

theorem Restored.single {e e₀ e' e₀' : Env} (l : Step)
    (hdone : l.decSrc = true → m ≤ p →
      e'.mem p = e₀'.mem p ||| staleBits w m distance (!usetemp && l.decSrc) p)
    (habove : ∀ j, p < j → m ≤ j → e'.mem j = e.mem j ∧ e₀'.mem j = e₀.mem j) :
    Restored w m p distance usetemp [l] e e₀ e' e₀' where
  done j hmj hlt hle := by
    have hdec : l.decSrc = true := by
      by_contra hno
      rw [srcAfter, List.countP_singleton, if_neg hno] at hlt
      simp at hlt
      omega
    rw [srcAfter, List.countP_singleton, if_pos hdec] at hlt
    obtain rfl : j = p := by
      push_cast at hlt
      omega
    rw [emptiedAtOnce, emptiedAtOnce, decide_eq_true rfl, Bool.and_true, Bool.or_false]
    exact hdone hdec hmj
  above j hmj hpj := habove j hpj hmj

theorem Restored.cons {e e₀ e₁ e₁₀ e' e₀' : Env} {st : Step} {ss : List Step}
    (hdone : st.decSrc = true → m ≤ p →
      e₁.mem p = e₁₀.mem p ||| staleBits w m distance (!usetemp && st.decSrc) p)
    (habove : ∀ j, p < j → m ≤ j → e₁.mem j = e.mem j ∧ e₁₀.mem j = e₀.mem j)
    (h : Restored w m (st.src p) distance (st.keeps usetemp) ss e₁ e₁₀ e' e₀') :
    Restored w m p distance usetemp (st :: ss) e e₀ e' e₀' where
  done j hmj hlt hle := by
    rw [srcAfter_cons] at hlt
    rw [emptiedAtOnce_cons]
    by_cases hj : j ≤ st.src p
    · have hnot : (!usetemp && st.decSrc && decide (j = p)) = false := by
        cases hdec : st.decSrc with
        | false => simp
        | true =>
          rw [Step.src, if_pos hdec] at hj
          simp [show j ≠ p by omega]
      rw [hnot, Bool.false_or]
      exact h.done j hmj hlt hj
    · have hdec : st.decSrc = true := by
        by_contra hno
        rw [Step.src, if_neg hno] at hj
        exact hj hle
      have hsrc : st.src p = p - 1 := if_pos hdec
      obtain rfl : j = p := by omega
      obtain ⟨hone, hzero⟩ := h.above j hmj (by omega)
      rw [hone, hzero, emptiedAtOnce_above ss (by omega), decide_eq_true rfl, Bool.and_true,
        Bool.or_false]
      exact hdone hdec hmj
  above j hmj hpj := by
    have hsrc := st.src_le p
    obtain ⟨hone, hzero⟩ := h.above j hmj (by omega)
    obtain ⟨hone', hzero'⟩ := habove j hpj hmj
    exact ⟨hone.trans hone', hzero.trans hzero'⟩

theorem Stale.run {e e₀ : Env} (h : Stale w m d p fresh usetemp e e₀) (ss : List Step) (l : Step)
    (hd : 0 ≤ d) (hdm : dstAfter d ss < m) (hp : 0 ≤ srcAfter p ss) :
    let e' := e.exec (decompressBody mask distance false fresh usetemp (ss ++ [l]))
    let e₀' := e₀.exec (decompressBody mask distance false fresh usetemp (ss ++ [l]))
    Stale w m (dstAfter d (ss ++ [l])) (srcAfter p (ss ++ [l])) l.incDst (!l.decSrc) e' e₀' ∧
      Restored w m p distance usetemp (ss ++ [l]) e e₀ e' e₀' := by
  induction ss generalizing d p fresh usetemp e e₀ with
  | nil =>
    have hdst := le_dstAfter d []
    have hsrc := srcAfter_le p []
    obtain ⟨hstep, hdone, habove⟩ :=
      @Stale.step mask w m d p distance fresh usetemp e e₀ h (by omega) (by omega) l
    have hcode : decompressBody mask distance false fresh usetemp [l] =
        decompressStep mask distance false fresh usetemp l := List.append_nil _
    have hend : dstAfter d [l] = l.dst d ∧ srcAfter p [l] = l.src p := by
      rw [dstAfter_cons, srcAfter_cons]
      exact ⟨by simp [dstAfter], by simp [srcAfter]⟩
    dsimp only
    rw [List.nil_append, hcode, hend.1, hend.2, ← l.keeps_eq usetemp]
    exact ⟨hstep, .single l hdone habove⟩
  | cons st ss ih =>
    rw [dstAfter_cons] at hdm
    rw [srcAfter_cons] at hp
    have hle := st.le_dst d
    have hge := st.src_le p
    have hdst := le_dstAfter (st.dst d) ss
    have hsrc := srcAfter_le (st.src p) ss
    obtain ⟨hstep, hdone, habove⟩ :=
      @Stale.step mask w m d p distance fresh usetemp e e₀ h (by omega) (by omega) st
    obtain ⟨hend, hrest⟩ := ih hstep (by omega) hdm hp
    dsimp only
    rw [List.cons_append, decompressBody_cons, exec_append, exec_append, dstAfter_cons, srcAfter_cons]
    exact ⟨hend, .cons hdone habove hrest⟩

/-! ## The code after the last step -/

theorem decompressLeft_mem (distance : Int) (e : Env) (l : Step) :
    (e.exec (decompressLeft mask distance (some l))).mem =
      let mem := Function.update e.mem e.dstptr
        (if l.decSrc then magnitude mask distance (e.mem e.dstptr)
          else magnitude mask distance e.tmpdst)
      if l.incDst then mem
      else Function.update mem e.srcptr (magnitude mask distance (e.tmpsrc &&& mask)) := by
  by_cases hdist : distance = 0 <;> cases hi : l.incDst <;> cases hd : l.decSrc <;>
    simp [decompressLeft, restoreMagnitudeBit, restoreSource, magnitude, exec, execOne, eval, Env.get,
      put, act, Var.ref, Var.plain, Action.move, hi, hd, hdist]

/-- It only writes compressed words, or before the block. -/
theorem Stale.left {e e₀ : Env} (l : Step)
    (h : Stale w m d p l.incDst (!l.decSrc) e e₀) (hd : l.incDst = false → d < m) (hp : p < m) :
    let e' := e.exec (decompressLeft mask distance (some l))
    let e₀' := e₀.exec (decompressLeft mask distance (some l))
    (∀ j, 0 ≤ j → j < m → e'.mem j = e₀'.mem j) ∧
      ∀ j, m ≤ j → e'.mem j = e.mem j ∧ e₀'.mem j = e₀.mem j := by
  have hword : ∀ j, 0 ≤ j → j = p →
      (if l.decSrc then magnitude mask distance (e.mem p) else magnitude mask distance e.tmpdst) =
        if l.decSrc then magnitude mask distance (e₀.mem p)
        else magnitude mask distance e₀.tmpdst := by
    rintro j hj rfl
    cases hdec : l.decSrc with
    | true => rw [if_pos rfl, if_pos rfl, h.front j hj hp]
    | false =>
      rw [if_neg Bool.false_ne_true, if_neg Bool.false_ne_true,
        h.acc (by rw [hdec]; rfl)]
  dsimp only
  rw [decompressLeft_mem, decompressLeft_mem, h.src.1, h.src.2, h.dst.1, h.dst.2]
  dsimp only
  cases hi : l.incDst with
  | true =>
    rw [if_pos rfl, if_pos rfl]
    refine ⟨fun j hj hjm => ?_, fun j hmj => ?_⟩
    · rw [Function.update_apply, Function.update_apply]
      split
      · exact hword j hj ‹_›
      · exact h.front j hj hjm
    · rw [Function.update_of_ne (by omega), Function.update_of_ne (by omega)]
      exact ⟨rfl, rfl⟩
  | false =>
    have hdm := hd hi
    rw [if_neg Bool.false_ne_true, if_neg Bool.false_ne_true, h.held hi]
    refine ⟨fun j hj hjm => ?_, fun j hmj => ?_⟩
    · by_cases hjd : j = d
      · rw [hjd, Function.update_self, Function.update_self]
      · rw [Function.update_of_ne hjd, Function.update_of_ne hjd, Function.update_apply,
          Function.update_apply]
        split
        · exact hword j hj ‹_›
        · exact h.front j hj hjm
    · rw [Function.update_of_ne (by omega), Function.update_of_ne (by omega),
        Function.update_of_ne (by omega), Function.update_of_ne (by omega)]
      exact ⟨rfl, rfl⟩

/-! ## A block -/

/-- The block that comes out, against the one from memory that was zero. -/
theorem Solved.decompress_stale (h : Solved mask s) {n : Nat} (hn : 0 < n) (distance : Int) :
    ∃ g, generateCode s n false distance = some g ∧
      ∀ (mem mem₀ : Int → Word) (tmps tmps' : Word × Word),
        (∀ j : Int, 0 ≤ j → j < s.compressedWords n → mem j = mem₀ j) →
        (∀ j : Int, s.compressedWords n ≤ j → j < n → mem₀ j = 0) →
        ∀ j : Int, 0 ≤ j → j < n → g.runDecompress mem tmps j = g.runDecompress mem₀ tmps' j |||
          staleBits mem (s.compressedWords n) distance
            (emptiedAtOnce false (n - 1) (s.allSteps n) j) j := by
  obtain ⟨init, l, hsplit⟩ := h.splits hn
  obtain ⟨g, hg, hnumwords, -, hdecompress⟩ := generateCode_steps h hn hsplit distance
  have hm := hsplit.compressedWords h
  have hdst := le_dstAfter 0 init
  have hmeet : dstAfter 0 init ≤ srcAfter (n - 1) init ∧
      srcAfter (n - 1) (init ++ [l]) < s.compressedWords n := by
    have hend : srcAfter (n - 1) (init ++ [l]) =
        srcAfter (n - 1) init - if l.decSrc then 1 else 0 := by
      rw [srcAfter, srcAfter, List.countP_append, List.countP_singleton]
      split <;> push_cast <;> omega
    rw [hend]
    rcases hsplit.meet with ⟨heq, -⟩ | ⟨heq, hdec⟩
    · split <;> omega
    · rw [if_pos hdec]
      omega
  refine ⟨g, hg, fun mem mem₀ tmps tmps' hfront hzero j hj hjn => ?_⟩
  have hstart : Stale mem (s.compressedWords n) 0 (n - 1) true false
      ⟨mem, 0, n - 1, tmps.1, tmps.2⟩ ⟨mem₀, 0, n - 1, tmps'.1, tmps'.2⟩ := by
    refine ⟨⟨rfl, rfl⟩, ⟨rfl, rfl⟩, fun hf => ?_, fun hu => ?_, hfront, fun i hmi hin => ?_⟩
    · cases hf
    · cases hu
    · show mem i = mem₀ i ||| mem i
      rw [hzero i hmi (by omega), zero_or]
  obtain ⟨hend, hrestored⟩ := @Stale.run mask mem (s.compressedWords n) 0 (n - 1) distance true false
    _ _ hstart init l (Int.le_refl 0) (by omega) (by omega)
  rw [Generated.runDecompress, Generated.runDecompress, Code.run_eq, Code.run_eq, hdecompress,
    hnumwords, exec_append, exec_append, hsplit.steps]
  set e := Env.exec ⟨mem, 0, n - 1, tmps.1, tmps.2⟩
    (decompressBody mask distance false true false (init ++ [l])) with he
  set e₀ := Env.exec ⟨mem₀, 0, n - 1, tmps'.1, tmps'.2⟩
    (decompressBody mask distance false true false (init ++ [l])) with he₀
  have hbody : s.compressedWords n ≤ j → e.mem j = e₀.mem j |||
      staleBits mem (s.compressedWords n) distance
        (emptiedAtOnce false (n - 1) (init ++ [l]) j) j :=
    fun hmj => hrestored.done j hmj (by omega) (by omega)
  have hleft : ∀ code, (∀ i : Int, 0 ≤ i → i < s.compressedWords n →
        (e.exec code).mem i = (e₀.exec code).mem i) ∧
      (∀ i : Int, s.compressedWords n ≤ i → (e.exec code).mem i = e.mem i ∧
        (e₀.exec code).mem i = e₀.mem i) →
      (e.exec code).mem j = (e₀.exec code).mem j |||
        staleBits mem (s.compressedWords n) distance
          (emptiedAtOnce false (n - 1) (init ++ [l]) j) j := by
    rintro code ⟨hin, hout⟩
    by_cases hmj : s.compressedWords n ≤ j
    · obtain ⟨hone, hnone⟩ := hout j hmj
      rw [hone, hnone]
      exact hbody hmj
    · rw [hin j hj (by omega), staleBits_front (by omega), or_zero]
  rcases hsplit.near with ⟨-, -, hlast⟩ | ⟨-, -, -, hnil⟩
  · rw [hlast]
    refine hleft _ (hend.left l (fun hi => ?_) hmeet.2)
    have hsame : dstAfter 0 (init ++ [l]) = dstAfter 0 init := by
      rw [dstAfter, dstAfter, List.countP_append, List.countP_singleton, hi]
      simp
    omega
  · rw [hnil]
    exact hleft [] ⟨hend.front, fun _ _ => ⟨rfl, rfl⟩⟩

/-- The decompressed block does not depend on the words behind the compressed ones, apart from
words that a single step empties when no magnitude bits are restored. -/
theorem decompress_independent (mask : Word) (s : Solution) (h : Built mask s)
    (hcomplete : s.complete = true) (n : Nat) (hn : 0 < n) (h32 : n < 2 ^ 32) (distance : Int) :
    ∃ g m, generateCode s n false distance = some g ∧ s.outputsize n = some m ∧
      ∀ (mem mem' : Int → Word) (tmps tmps' : Word × Word),
        (∀ j : Int, 0 ≤ j → j < m → mem j = mem' j) →
        (distance = 0 → ∀ j : Int, m ≤ j → j < n →
          emptiedAtOnce false (n - 1) (s.allSteps n) j = true → mem j = mem' j) →
        ∀ j : Int, 0 ≤ j → j < n → g.runDecompress mem tmps j = g.runDecompress mem' tmps' j := by
  have hs := h.solved hcomplete
  obtain ⟨g, hg, hstale⟩ := hs.decompress_stale hn distance
  have hsize := hs.compressedWords_le n
  refine ⟨g, s.compressedWords n, hg, ?_, fun mem mem' tmps tmps' hfront hrest j hj hjn => ?_⟩
  · rw [hs.outputsize_eq, Nat.mod_eq_of_lt (by omega)]
  · have hcut : ∀ i : Int, i < s.compressedWords n →
        mem i = if i < s.compressedWords n then mem i else 0 := fun i hi => (if_pos hi).symm
    have hbits : staleBits mem (s.compressedWords n) distance
          (emptiedAtOnce false (n - 1) (s.allSteps n) j) j =
        staleBits mem' (s.compressedWords n) distance
          (emptiedAtOnce false (n - 1) (s.allSteps n) j) j := by
      unfold staleBits
      split
      · rename_i hj
        exact hrest hj.2.1 j hj.1 hjn hj.2.2
      · rfl
    have hone := hstale mem (fun i => if i < s.compressedWords n then mem i else 0) tmps (0, 0)
      (fun i _ hi => hcut i hi) (fun i hi _ => if_neg (by omega)) j hj hjn
    have htwo := hstale mem' (fun i => if i < s.compressedWords n then mem i else 0) tmps' (0, 0)
      (fun i hi him => (hfront i hi him).symm.trans (hcut i him)) (fun i hi _ => if_neg (by omega)) j
      hj hjn
    rw [hone, htwo, hbits]

theorem decompress_independent_four : ∃ g m,
    generateCode (solve 0x0000FFFFFFFFFFFF) 4 false 0 = some g ∧
      (solve 0x0000FFFFFFFFFFFF).outputsize 4 = some m ∧
      ∀ (mem mem' : Int → Word) (tmps tmps' : Word × Word),
        (∀ j : Int, 0 ≤ j → j < m → mem j = mem' j) →
        ((0 : Int) = 0 → ∀ j : Int, m ≤ j → j < (4 : Nat) →
          emptiedAtOnce false ((4 : Nat) - 1) ((solve 0x0000FFFFFFFFFFFF).allSteps 4) j = true →
            mem j = mem' j) →
        ∀ j : Int, 0 ≤ j → j < (4 : Nat) → g.runDecompress mem tmps j = g.runDecompress mem' tmps' j :=
  have hcomplete : (solve 0x0000FFFFFFFFFFFF).complete = true := by decide +kernel
  decompress_independent 0x0000FFFFFFFFFFFF _ (solve_built hcomplete) hcomplete 4 (by decide)
    (by decide) 0

/-- With a mask of half the bits the second of two words is restored by a single step, into
what the memory held. -/
theorem decompress_keeps_stale : (solve 0xFFFFFFFF).complete = true ∧
    (solve 0xFFFFFFFF).outputsize 2 = some 1 ∧
    ∃ g, generateCode (solve 0xFFFFFFFF) 2 false 0 = some g ∧
      g.runDecompress (fun _ => 0) (0, 0) 1 ≠
        g.runDecompress (fun j => if j = 1 then 1 <<< 63 else 0) (0, 0) 1 := by
  refine ⟨by decide +kernel, by decide +kernel, ?_⟩
  have hsome : (generateCode (solve 0xFFFFFFFF) 2 false 0).isSome := by decide +kernel
  obtain ⟨g, hg⟩ := Option.isSome_iff_exists.mp hsome
  refine ⟨g, hg, ?_⟩
  have hdiffer : ((generateCode (solve 0xFFFFFFFF) 2 false 0).all fun g =>
      g.runDecompress (fun _ => 0) (0, 0) 1 !=
        g.runDecompress (fun j => if j = 1 then 1 <<< 63 else 0) (0, 0) 1) = true := by
    decide +kernel
  rw [hg, Option.all_some] at hdiffer
  exact bne_iff_ne.mp hdiffer

end Jive5ab.Trackmask
