import Jive5ab.Blocks.Operations

/-! # No memory for two

What holds in every run in which no counter gets to the end of its 32 bits. -/
namespace Jive5ab.Blocks
open Lib (Machine Tally)
open State

variable {st st' : State} {pending : List Object} {x t b k : Nat} {bp : Blockpool}

/-! ## The garbage can -/

theorem usecount_eq (st : State) (b k : Nat) : st.usecount b k =
    match st.shape b k with
    | some (nblock, _) => ((List.range nblock).map fun i => st.cells (.use_cnt b k i)).sum
    | none => 0 := by
  unfold State.usecount State.shape
  cases st.pool? b k <;> rfl

theorem usecount_setBlockpool {bp bp' : Blockpool} (hb : st.blockpools b = some bp)
    (hshapes : bp'.pools.map Pool.shape = bp.pools.map Pool.shape) (p k : Nat) :
    State.usecount { st with blockpools := Function.update st.blockpools b (some bp') } p k =
      st.usecount p k := by
  rw [usecount_eq, usecount_eq, shape_setBlockpool hb hshapes]

/-- In a pool whose use counts are all zero nobody has a block. -/
theorem Inv.none_of_usecount (h : Inv st pending) (hzero : st.usecount b k = 0) :
    ∀ o, st.Holds pending o → o.block.refcountptr.area ≠ .memory b k := by
  intro o ho harea
  have hplaced := h.placed o ho
  cases hc : o.block.refcountptr with
  | dummy_counter =>
    rw [hc] at harea
    cases harea
  | own a =>
    rw [hc] at harea
    cases harea
  | use_cnt p n i =>
    rw [hc] at harea
    cases harea
    have hvalid := Placed.valid hplaced (by rw [hc]; exact fun heq => by cases heq)
    unfold Placed at hplaced
    rw [hc] at hplaced hvalid
    obtain ⟨-, -, nblock, size, offset, hshape, hi, -⟩ := hplaced
    rw [usecount_eq, hshape] at hzero
    have hcell := List.sum_eq_zero_iff_forall_eq_nat.mp hzero (st.cells (.use_cnt b k i))
      (List.mem_map.mpr ⟨i, List.mem_range.mpr hi, rfl⟩)
    exact h.none_of_zero hvalid hcell o ho hc

/-- The sum of the use counts of those pools fits in its 32 bits. -/
def CanFits (st : State) : Prop := ∀ p ∈ st.garbagecan, st.usecount p.1 p.2 < 2 ^ 32

theorem try_delete_iff {p : Nat × Nat} (hfits : st.usecount p.1 p.2 < 2 ^ 32) :
    st.try_delete p = true ↔ st.usecount p.1 p.2 = 0 := by
  unfold State.try_delete
  rw [beq_iff_eq, Nat.mod_eq_of_lt hfits]

theorem Inv.check_garbage (h : Inv st pending) (hfits : CanFits st) :
    Inv st.check_garbage pending := by
  have hfree := @Inv.free st pending
    (fun a => st.freed a || (st.garbagecan.filter st.try_delete).any fun p => a == .memory p.1 p.2)
    h (fun a ha => (Bool.or_eq_false_iff.mp ha).1) (fun a ha hbefore => ?_)
  · exact ⟨hfree.word, hfree.counts, hfree.placed, hfree.origins, hfree.alive,
      fun p hp => hfree.can p (List.mem_of_mem_filter hp)⟩
  · simp only [hbefore, Bool.false_or, List.any_eq_true, List.mem_filter, beq_iff_eq] at ha
    obtain ⟨p, ⟨hp, hdelete⟩, rfl⟩ := ha
    refine ⟨fun o ho _ => h.none_of_usecount ((try_delete_iff (hfits p hp)).mp hdelete) o ho, ?_⟩
    intro b bp k hb halive heq
    obtain ⟨rfl, rfl⟩ := Area.memory.inj heq
    obtain ⟨bp', hbp', hdead⟩ := h.can p hp
    rw [hb] at hbp'
    cases hbp'
    rw [halive] at hdead
    cases hdead

theorem Inv.maybe_add_to_can {p : Nat × Nat} (h : Inv st pending) (hfits : CanFits st)
    (hp : st.usecount p.1 p.2 < 2 ^ 32) (hb : st.blockpools p.1 = some bp)
    (hdead : bp.alive = false) : Inv (st.maybe_add_to_can p) pending := by
  have hcheck := h.check_garbage hfits
  unfold State.maybe_add_to_can
  dsimp only
  split
  · rename_i hdelete
    have hzero : st.check_garbage.usecount p.1 p.2 = 0 := (try_delete_iff hp).mp hdelete
    refine hcheck.free (fun a ha => ?_) (fun a ha hbefore => ?_)
    · by_cases hap : a = .memory p.1 p.2
      · simp [hap] at ha
      · rwa [Function.update_of_ne hap] at ha
    · obtain rfl : a = .memory p.1 p.2 := by
        by_contra hap
        rw [Function.update_of_ne hap, hbefore] at ha
        cases ha
      refine ⟨fun o ho _ => hcheck.none_of_usecount hzero o ho, fun b bp' k hb' halive heq => ?_⟩
      obtain ⟨rfl, rfl⟩ := Area.memory.inj heq
      have hsame : some bp = some bp' := hb.symm.trans hb'
      cases hsame
      rw [halive] at hdead
      cases hdead
  · refine ⟨hcheck.word, hcheck.counts, hcheck.placed, hcheck.origins, hcheck.alive, fun q hq => ?_⟩
    rcases List.mem_append.mp hq with hold | hnew
    · exact hcheck.can q hold
    · rw [List.mem_singleton.mp hnew]
      exact ⟨bp, hb, hdead⟩

/-! ## A pool more -/

/-- What is done once the garbage is gone. -/
def State.addPool (st : State) (b : Nat) (bp : Blockpool) : State :=
  { st with
    cells := fun c =>
      match c with
      | .use_cnt b' k' i => if b' = b ∧ k' = bp.pools.length then 0 else st.cells (.use_cnt b' k' i)
      | c => st.cells c
    freed := Function.update st.freed (.memory b bp.pools.length) false
    blockpools := Function.update st.blockpools b (some { bp with
      pools := bp.pools ++ [⟨bp.nblock_p_pool, ⟨0, bp.nblock_pos⟩, bp.blocksize⟩]
      curpool := bp.pools.length }) }

theorem newPool_eq (st : State) (b : Nat) (bp : Blockpool) :
    st.newPool b bp = st.check_garbage.addPool b bp := rfl

/-- The list of a blockpool that is there, or is about to be. -/
structure Extends (st : State) (b : Nat) (bp : Blockpool) : Prop where
  shape : ∀ k, st.shape b k = (bp.pools.map Pool.shape)[k]?
  alive : bp.alive = true
  before : ∀ bp', st.blockpools b = some bp' → bp'.alive = true

theorem Extends.none (h : Extends st b bp) (hk : bp.pools.length ≤ k) : st.shape b k = none := by
  rw [h.shape, List.getElem?_eq_none (by rwa [List.length_map])]

theorem addPool_shape (h : Extends st b bp) {p n : Nat}
    (hother : ¬(p = b ∧ n = bp.pools.length)) : (st.addPool b bp).shape p n = st.shape p n := by
  rw [State.addPool, shape_eq]
  dsimp only
  by_cases hp : p = b
  · subst hp
    rw [h.shape, Function.update_self, Option.bind_some, List.map_append]
    rcases Nat.lt_trichotomy n bp.pools.length with hlt | heq | hgt
    · rw [List.getElem?_append_left (by rwa [List.length_map])]
    · exact absurd ⟨rfl, heq⟩ hother
    · rw [List.getElem?_eq_none (by simp; omega), List.getElem?_eq_none (by simp; omega)]
  · rw [Function.update_of_ne hp]
    exact (shape_eq st p n).symm

/-- No block is in memory that is not there yet. -/
theorem Inv.none_of_shape (h : Inv st pending) (hnone : st.shape b k = none) :
    ∀ o, st.Holds pending o → o.block.refcountptr.area ≠ .memory b k := by
  intro o ho harea
  have hplaced := h.placed o ho
  unfold Placed at hplaced
  cases hc : o.block.refcountptr with
  | dummy_counter =>
    rw [hc] at harea
    cases harea
  | own a =>
    rw [hc] at harea
    cases harea
  | use_cnt p n i =>
    rw [hc] at harea hplaced
    cases harea
    obtain ⟨-, -, nblock, size, offset, hshape, -⟩ := hplaced
    rw [hnone] at hshape
    cases hshape

theorem Inv.addPool (h : Inv st pending) (hext : Extends st b bp) :
    Inv (st.addPool b bp) pending := by
  have hnobody := h.none_of_shape (hext.none le_rfl)
  have hfreed {a : Area} (ha : a ≠ .memory b bp.pools.length) :
      (st.addPool b bp).freed a = st.freed a := Function.update_of_ne ha _ _
  refine ⟨fun c => ?_, fun c hvalid => ?_, fun o ho => ?_, h.origins,
    fun p bp' hp halive n hgone => ?_, fun p hp => ?_⟩
  · cases c with
    | use_cnt p n i =>
      simp only [State.addPool]
      split
      · decide
      · exact h.word _
    | dummy_counter => exact h.word .dummy_counter
    | own a => exact h.word (.own a)
  · obtain ⟨hnot, hrest⟩ := hvalid
    cases c with
    | dummy_counter => exact hrest.elim
    | own a => exact h.counts (.own a) ⟨by rwa [hfreed (by simp [Counter.area])] at hnot, hrest⟩
    | use_cnt p n i =>
      by_cases hnew : p = b ∧ n = bp.pools.length
      · obtain ⟨htally, hzero⟩ := counts_nothing (c := .use_cnt p n i) fun o ho hc =>
          hnobody o ho (by rw [hc, hnew.1, hnew.2]; rfl)
        refine ⟨0, htally, ?_⟩
        rw [hzero]
        exact if_pos hnew
      · have harea : Counter.area (.use_cnt p n i) ≠ .memory b bp.pools.length := by
          intro heq
          obtain ⟨rfl, rfl⟩ := Area.memory.inj heq
          exact hnew ⟨rfl, rfl⟩
        rw [hfreed harea] at hnot
        have hsome : (st.shape p n).isSome = true := by
          rw [← addPool_shape hext hnew]
          exact hrest
        obtain ⟨m, htally, hcount⟩ := h.counts (.use_cnt p n i) ⟨hnot, hsome⟩
        refine ⟨m, htally, ?_⟩
        rw [← hcount]
        exact if_neg hnew
  · refine Placed.mono (h.placed o ho) (fun p n s hs => ?_) (fun hnot => ?_) le_rfl
    · have hother : ¬(p = b ∧ n = bp.pools.length) := by
        rintro ⟨rfl, rfl⟩
        rw [hext.none le_rfl] at hs
        cases hs
      exact (addPool_shape hext hother).trans hs
    · rwa [hfreed (hnobody o ho)]
  · have hother : ¬(p = b ∧ n = bp.pools.length) := by
      rintro ⟨rfl, rfl⟩
      rw [show (st.addPool p bp).freed (.memory p bp.pools.length) = false from
        Function.update_self _ _ _] at hgone
      cases hgone
    have harea : Area.memory p n ≠ .memory b bp.pools.length := by
      intro heq
      obtain ⟨rfl, rfl⟩ := Area.memory.inj heq
      exact hother ⟨rfl, rfl⟩
    rw [hfreed harea] at hgone
    rw [addPool_shape hext hother]
    cases hbefore : st.blockpools p with
    | none =>
      rw [shape_eq, hbefore]
      rfl
    | some bp₀ =>
      refine h.alive p bp₀ hbefore ?_ n hgone
      by_cases hpb : p = b
      · subst hpb
        exact hext.before bp₀ hbefore
      · have hsame : (st.addPool b bp).blockpools p = st.blockpools p :=
          Function.update_of_ne hpb _ _
        rw [hsame, hbefore] at hp
        cases hp
        exact halive
  · obtain ⟨bp₀, hbp₀, hdead⟩ := h.can p hp
    refine ⟨bp₀, ?_, hdead⟩
    have hpb : p.1 ≠ b := by
      intro hpb
      rw [hext.before bp₀ (by rw [← hpb]; exact hbp₀)] at hdead
      cases hdead
    rw [← hbp₀]
    exact Function.update_of_ne hpb _ _

theorem Inv.newPool (h : Inv st pending) (hfits : CanFits st) (hext : Extends st b bp) :
    Inv (st.newPool b bp) pending :=
  (h.check_garbage hfits).addPool ⟨hext.shape, hext.alive, hext.before⟩

/-! ## A block from a blockpool -/

theorem extends_of_alive (hb : st.blockpools b = some bp) (halive : bp.alive = true) :
    Extends st b bp := by
  refine ⟨fun k => ?_, halive, fun bp' hbp' => ?_⟩
  · rw [shape_eq, hb, Option.bind_some]
  · rw [hb] at hbp'
    cases hbp'
    exact halive

theorem Kept.valid {c : Counter} (h : Kept st st') (hvalid : st.Valid c) (hc : ∀ a, c ≠ .own a) :
    st'.Valid c := by
  refine ⟨by rw [h.freed]; exact hvalid.1, ?_⟩
  have hrest := hvalid.2
  cases c with
  | dummy_counter => exact hrest
  | use_cnt p k i =>
    show (st'.shape p k).isSome = true
    rw [h.shape]
    exact hrest
  | own a => exact absurd rfl (hc a)

theorem HandedOut.of_kept {st'' : State} {i : Nat} (hkept : Kept st st')
    (h : HandedOut st' st'' x (.use_cnt b k i)) : HandedOut st st'' x (.use_cnt b k i) := by
  refine ⟨fun y hy => ?_, h.slot, fun hvalid => ?_, fun y o hy ho => ?_⟩
  · rw [h.others y hy, hkept.objects]
  · rw [← hkept.cells _ (by simp)]
    exact h.zero (hkept.valid hvalid (by simp))
  · exact h.nobody y o hy (by rwa [hkept.objects])

theorem Kept.canFits (h : Kept st st') (hfits : CanFits st) : CanFits st' := by
  intro p hp
  rw [h.can] at hp
  have hsame : st'.usecount p.1 p.2 = st.usecount p.1 p.2 := by
    rw [usecount_eq, usecount_eq, h.shape]
    cases st.shape p.1 p.2 with
    | none => rfl
    | some s =>
      dsimp only
      congr 1
      exact List.map_congr_left fun i _ => h.cells _ (by simp)
  rw [hsame]
  exact hfits p hp

theorem kept_nextPool (hb : st.blockpools b = some bp) : Kept st (st.nextPool b) ∧
    ∀ {pending : List Object}, Inv st pending → Inv (st.nextPool b) pending := by
  unfold State.nextPool
  rw [hb]
  refine ⟨⟨rfl, fun _ _ => rfl, rfl, shape_setBlockpool hb rfl, rfl, fun p bp' hp => ?_⟩,
    fun h => h.setBlockpool hb rfl id⟩
  by_cases hpb : p = b
  · subst hpb
    rw [hb] at hp
    cases hp
    exact ⟨_, Function.update_self _ _ _, rfl⟩
  · exact ⟨bp', by rw [← hp]; exact Function.update_of_ne hpb _ _, rfl⟩

theorem HandedOut.not_empty {c : Counter} (h : HandedOut st st' x c) : st'.isEmpty x = false := by
  obtain ⟨o, ho, -, hbase⟩ := h.slot
  unfold State.isEmpty Block.empty
  rw [ho]
  cases hb : o.block.iov_base with
  | none => simp [hb] at hbase
  | some p =>
    dsimp only
    rw [hb]
    rfl

theorem isEmpty_of_default (hx : st.objects x = some ⟨block, 0⟩) : st.isEmpty x = true := by
  unfold State.isEmpty
  rw [hx]
  rfl

/-- Until a pool has a free slot nothing happens; the slot is in a pool of that blockpool. -/
theorem Inv.drawAny {oldcurpool left : Nat} (h : Inv st [])
    (hx : st.objects x = some ⟨block, 0⟩) (ht : st.objects t = none) (hxt : x ≠ t)
    (hb : ∃ bp, st.blockpools b = some bp ∧ bp.alive = true) :
    Inv (drawAny b x t oldcurpool left st) [] ∧
    (Kept st (drawAny b x t oldcurpool left st) ∨
      ∃ k i, HandedOut st (drawAny b x t oldcurpool left st) x (.use_cnt b k i)) := by
  induction left generalizing st with
  | zero => exact ⟨h, .inl (.refl st)⟩
  | succ left ih =>
    obtain ⟨bp, hbp, halive⟩ := hb
    obtain ⟨hinv, ⟨hkept, -⟩ | ⟨i, hout⟩⟩ := h.draw hx ht hxt hbp halive
    · have hx' : (st.draw b x t).objects x = some ⟨block, 0⟩ := by rw [hkept.objects, hx]
      obtain ⟨bp', hbp', halive'⟩ := hkept.alive b bp hbp
      obtain ⟨hnext, hkeep⟩ := kept_nextPool hbp'
      have hkept' := hkept.trans hnext
      rw [State.drawAny]
      simp only [isEmpty_of_default hx', Bool.not_true, Bool.false_eq_true, if_false]
      split
      · obtain ⟨bp'', hbp'', halive''⟩ := hkept'.alive b bp hbp
        obtain ⟨hfinal, hcases⟩ := ih (hkeep hinv) (by rw [hkept'.objects, hx])
          (by rw [hkept'.objects, ht]) ⟨bp'', hbp'', halive''.trans halive⟩
        refine ⟨hfinal, hcases.imp hkept'.trans ?_⟩
        rintro ⟨k, i, hout⟩
        exact ⟨k, i, hout.of_kept hkept'⟩
      · exact ⟨hkeep hinv, .inl hkept'⟩
    · rw [State.drawAny]
      simp only [hout.not_empty, Bool.not_false, if_true]
      exact ⟨hinv, .inr ⟨_, i, hout⟩⟩

theorem construct_objects : (st.construct x).objects x = some ⟨block, 0⟩ := Function.update_self _ _ _

/-- A block is always found: in the end in a pool that is new. -/
theorem Inv.get (h : Inv st []) (hfits : CanFits st) (hb : st.blockpools b = some bp)
    (halive : bp.alive = true) (hx : st.objects x = none) (ht : st.objects t = none) (hxt : x ≠ t) :
    Inv (st.get b x t bp) [] ∧ ∃ c, HandedOut (st.construct x) (st.get b x t bp) x c := by
  have hstart := h.construct hx
  have ht' : (st.construct x).objects t = none := by
    rw [← ht]
    exact Function.update_of_ne (Ne.symm hxt) _ _
  have hloop := @Inv.drawAny (st.construct x) x t b bp.curpool bp.pools.length hstart
    construct_objects ht' hxt ⟨bp, hb, halive⟩
  unfold State.get
  generalize State.drawAny b x t bp.curpool bp.pools.length (st.construct x) = s at *
  obtain ⟨hinv, hkept | ⟨k, i, hout⟩⟩ := hloop
  · have hx' : s.objects x = some ⟨block, 0⟩ := by rw [hkept.objects, construct_objects]
    obtain ⟨bp', hbp', halive'⟩ := hkept.alive b bp hb
    have hext := extends_of_alive hbp' (halive'.trans halive)
    have hnew := hinv.newPool (hkept.canFits hfits) hext
    simp only [isEmpty_of_default hx', if_true, hbp']
    obtain ⟨hfinal, ⟨-, hfull⟩ | ⟨i, hout⟩⟩ := hnew.draw hx'
      (show (s.newPool b bp').objects t = none by rw [← ht', ← hkept.objects]; rfl) hxt
      (Function.update_self _ _ _) (halive'.trans halive)
    · refine absurd ?_ (hfull _ List.getElem?_concat_length 0 bp'.nblock_pos)
      exact if_pos ⟨rfl, rfl⟩
    · refine ⟨hfinal, _, fun y hy => ?_, hout.slot, fun hvalid => ?_, fun y o hy ho => ?_⟩
      · rw [hout.others y hy, ← hkept.objects]
        rfl
      · have hnone := hext.none le_rfl
        rw [hkept.shape] at hnone
        have hsome : ((st.construct x).shape b bp'.pools.length).isSome = true := hvalid.2
        rw [hnone] at hsome
        cases hsome
      · exact hout.nobody y o hy (by rw [← ho, ← hkept.objects]; rfl)
  · simp only [hout.not_empty, Bool.false_eq_true, if_false]
    exact ⟨hinv, _, hout⟩

/-! ## The end of a blockpool -/

theorem maybe_add_to_can_same (st : State) (p : Nat × Nat) :
    (st.maybe_add_to_can p).blockpools = st.blockpools ∧
    (∀ b k, (st.maybe_add_to_can p).usecount b k = st.usecount b k) ∧
    ∀ q ∈ (st.maybe_add_to_can p).garbagecan, q ∈ st.garbagecan ∨ q = p := by
  unfold State.maybe_add_to_can
  dsimp only
  split
  · exact ⟨rfl, fun _ _ => rfl, fun q hq => .inl (List.mem_of_mem_filter hq)⟩
  · refine ⟨rfl, fun _ _ => rfl, fun q hq => ?_⟩
    rcases List.mem_append.mp hq with hold | hnew
    · exact .inl (List.mem_of_mem_filter hold)
    · exact .inr (List.mem_singleton.mp hnew)

theorem Inv.deletePools {ks : List Nat} (h : Inv st pending) (hfits : CanFits st)
    (hown : ∀ k, st.usecount b k < 2 ^ 32) (hb : st.blockpools b = some bp)
    (hdead : bp.alive = false) : Inv (deletePools b ks st) pending := by
  induction ks generalizing st with
  | nil => exact h
  | cons k ks ih =>
    obtain ⟨hpools, hcount, hcan⟩ := maybe_add_to_can_same st (b, k)
    refine ih (h.maybe_add_to_can hfits (hown k) hb hdead) (fun p hp => ?_) (fun n => ?_)
      (by rw [hpools, hb])
    · rw [hcount]
      rcases hcan p hp with hold | rfl
      · exact hfits p hold
      · exact hown k
    · rw [hcount]
      exact hown n

theorem Inv.destroyBlockpool (h : Inv st pending) (hfits : CanFits st)
    (hown : ∀ k, st.usecount b k < 2 ^ 32) (hb : st.blockpools b = some bp) :
    Inv (st.destroyBlockpool b bp) pending := by
  have hset : Inv { st with
      blockpools := Function.update st.blockpools b (some { bp with alive := false }) } pending :=
    h.setBlockpool hb rfl fun heq => by cases heq
  refine hset.deletePools (fun p hp => ?_) (fun k => ?_) (Function.update_self _ _ _) rfl
  · refine lt_of_eq_of_lt (usecount_setBlockpool hb ?_ p.1 p.2) (hfits p hp)
    rfl
  · refine lt_of_eq_of_lt (usecount_setBlockpool hb ?_ b k) (hown k)
    rfl

/-! ## Every run -/

/-- No counter gets to the end of its 32 bits, and no slice beyond them. -/
def StepOk (st : State) : Op → Prop
  | .newBlockpool _ _ _ | .get _ _ _ => CanFits st
  | .destroyBlockpool b => CanFits st ∧ ∀ k, st.usecount b k < 2 ^ 32
  | .copy _ y | .assign _ y => ∀ o, st.objects y = some o → Room st o.block.refcountptr
  | .sub _ y offset length =>
    offset + length < 2 ^ 32 ∧ ∀ o, st.objects y = some o → Room st o.block.refcountptr
  | .construct _ | .allocate _ _ | .destroy _ => True

def within : Machine State Op where
  init := machine.init
  step st a st' := machine.step st a st' ∧ StepOk st a

def Block.Has (b : Block) (a : Area) (n : Nat) : Prop :=
  ∃ base, b.iov_base = some (a, base) ∧ base ≤ n ∧ n < base + b.iov_len

/-- Use counts are numbers of live blocks, the memory of these is there, `get` takes what nobody
has, and what comes from two calls of it has no byte in common. -/
structure Exclusive (st : State) : Prop where
  counts : ∀ c, st.Valid c → Tally st.objects (RefersTo c) (st.cells c)
  there : ∀ x o, st.objects x = some o → o.block.refcountptr ≠ .dummy_counter →
    st.Valid o.block.refcountptr
  apart : ∀ x y o o', st.objects x = some o → st.objects y = some o' → o.origin ≠ o'.origin →
    ∀ a n, o.block.Has a n → ¬o'.block.Has a n

theorem start_inv : Inv start [] := by
  refine ⟨fun c => ?_, fun c hvalid => ?_, fun o ho => ?_, fun o o' ho => ?_, fun b bp hb => ?_,
    fun p hp => ?_⟩
  · show (if c = .dummy_counter then 1 else 0) < 2 ^ 32
    split <;> decide
  · exfalso
    have hrest := hvalid.2
    cases c with
    | dummy_counter => exact hrest
    | use_cnt b k i => cases hrest
    | own a => exact absurd hrest (Nat.not_lt_zero a)
  · rcases ho with ⟨x, hx⟩ | hmem
    · cases hx
    · cases hmem
  · rcases ho with ⟨x, hx⟩ | hmem
    · cases hx
    · cases hmem
  · cases hb
  · cases hp

theorem Inv.step {a : Op} (h : Inv st []) (hok : StepOk st a) (hstep : step st a = some st') :
    Inv st' [] := by
  cases a with
  | newBlockpool b bs nb =>
    simp only [Blocks.step] at hstep
    split at hstep
    · rename_i hnone
      cases hstep
      unfold State.newBlockpool
      split
      · refine h.newPool hok ⟨fun k => ?_, rfl, fun bp' hb => ?_⟩
        · rw [shape_eq, Option.isNone_iff_eq_none.mp hnone]
          rfl
        · rw [hb] at hnone
          cases hnone
      · exact h
    · cases hstep
  | destroyBlockpool b =>
    simp only [Blocks.step, Option.bind_eq_bind, Option.bind_eq_some_iff] at hstep
    obtain ⟨bp, hb, hstep⟩ := hstep
    split at hstep
    · cases hstep
      exact h.destroyBlockpool hok.1 hok.2 hb
    · cases hstep
  | get b x t =>
    simp only [Blocks.step, Option.bind_eq_bind, Option.bind_eq_some_iff] at hstep
    obtain ⟨bp, hb, hstep⟩ := hstep
    split at hstep
    · rename_i hguard
      cases hstep
      obtain ⟨halive, hx, ht, hxt⟩ := hguard
      exact (h.get hok hb halive (Option.isNone_iff_eq_none.mp hx)
        (Option.isNone_iff_eq_none.mp ht) hxt).1
    · cases hstep
  | construct x =>
    simp only [Blocks.step] at hstep
    split at hstep
    · rename_i hx
      cases hstep
      exact h.construct (Option.isNone_iff_eq_none.mp hx)
    · cases hstep
  | allocate x size =>
    simp only [Blocks.step] at hstep
    split at hstep
    · rename_i hx
      cases hstep
      exact h.allocate (Option.isNone_iff_eq_none.mp hx)
    · cases hstep
  | copy x y =>
    simp only [Blocks.step, Option.bind_eq_bind, Option.bind_eq_some_iff] at hstep
    obtain ⟨other, hy, hstep⟩ := hstep
    split at hstep
    · rename_i hx
      cases hstep
      exact h.copy (Option.isNone_iff_eq_none.mp hx) (.inl ⟨y, hy⟩) (hok other hy)
    · cases hstep
  | assign x y =>
    simp only [Blocks.step, Option.bind_eq_bind, Option.bind_eq_some_iff] at hstep
    obtain ⟨this, hx, other, hy, hstep⟩ := hstep
    cases hstep
    exact h.assign hx hy (hok other hy)
  | sub x y offset length =>
    simp only [Blocks.step, Option.bind_eq_bind, Option.bind_eq_some_iff] at hstep
    obtain ⟨this, hy, hstep⟩ := hstep
    split at hstep
    · rename_i hx
      cases hstep
      exact h.sub (Option.isNone_iff_eq_none.mp hx) (.inl ⟨y, hy⟩) (hok.2 this hy) hok.1
    · cases hstep
  | destroy x =>
    simp only [Blocks.step, Option.bind_eq_bind, Option.bind_eq_some_iff] at hstep
    obtain ⟨this, hx, hstep⟩ := hstep
    cases hstep
    exact h.destroy hx

/-- Different slots, or memory that is not the same at all. -/
theorem Placed.apart {b b' : Block} (h : st.Placed b) (h' : st.Placed b')
    (hne : b.refcountptr = b'.refcountptr → b.refcountptr = .dummy_counter) {a : Area} {n : Nat}
    (hhas : b.Has a n) : ¬b'.Has a n := by
  rintro ⟨base', hbase', hlow', hhigh'⟩
  obtain ⟨base, hbase, hlow, hhigh⟩ := hhas
  unfold Placed at h h'
  cases hc : b.refcountptr with
  | dummy_counter =>
    rw [hc] at h
    rw [h.1] at hbase
    cases hbase
  | use_cnt p k i =>
    rw [hc] at h
    obtain ⟨-, -, nblock, size, offset, hshape, -, hat, hfrom, hto⟩ := h
    rw [hat] at hbase
    cases hbase
    cases hc' : b'.refcountptr with
    | dummy_counter =>
      rw [hc'] at h'
      rw [h'.1] at hbase'
      cases hbase'
    | own a' =>
      rw [hc'] at h'
      obtain ⟨-, -, offset', hat'⟩ := h'
      rw [hat'] at hbase'
      cases hbase'
    | use_cnt p' k' i' =>
      rw [hc'] at h'
      obtain ⟨-, -, nblock', size', offset', hshape', -, hat', hfrom', hto'⟩ := h'
      rw [hat'] at hbase'
      cases hbase'
      have hsame : some (nblock, size) = some (nblock', size') := hshape.symm.trans hshape'
      cases hsame
      rcases Nat.lt_trichotomy i i' with hlt | heq | hgt
      · have hmul : (i + 1) * size ≤ i' * size := Nat.mul_le_mul_right _ hlt
        rw [Nat.add_mul, Nat.one_mul] at hmul
        omega
      · subst heq
        have hdummy := hne (by rw [hc, hc'])
        rw [hc] at hdummy
        cases hdummy
      · have hmul : (i' + 1) * size ≤ i * size := Nat.mul_le_mul_right _ hgt
        rw [Nat.add_mul, Nat.one_mul] at hmul
        omega
  | own a' =>
    rw [hc] at h
    obtain ⟨-, -, offset, hat⟩ := h
    rw [hat] at hbase
    cases hbase
    cases hc' : b'.refcountptr with
    | dummy_counter =>
      rw [hc'] at h'
      rw [h'.1] at hbase'
      cases hbase'
    | use_cnt p' k' i' =>
      rw [hc'] at h'
      obtain ⟨-, -, nblock', size', offset', hshape', -, hat', -⟩ := h'
      rw [hat'] at hbase'
      cases hbase'
    | own a'' =>
      rw [hc'] at h'
      obtain ⟨-, -, offset', hat'⟩ := h'
      rw [hat'] at hbase'
      cases hbase'
      have hdummy := hne (by rw [hc, hc'])
      rw [hc] at hdummy
      cases hdummy

theorem Inv.exclusive (h : Inv st []) : Exclusive st := by
  refine ⟨fun c hvalid => ?_, fun x o ho hdummy => Placed.valid (h.placed o (.inl ⟨x, ho⟩)) hdummy,
    fun x y o o' ho ho' hne a n => ?_⟩
  · obtain ⟨n, htally, hcount⟩ := h.counts c hvalid
    have hall : st.cells c = n := hcount
    rwa [hall]
  · refine Placed.apart (h.placed o (.inl ⟨x, ho⟩)) (h.placed o' (.inl ⟨y, ho'⟩)) fun hsame => ?_
    by_contra hdummy
    exact hne (h.origins o o' (.inl ⟨x, ho⟩) (.inl ⟨y, ho'⟩) hsame hdummy)

/-- What `get` hands out: a block, from a slot that counts zero and that no live block is in. -/
def HandsOut (st st' : State) (x : Nat) : Prop :=
  ∃ o, st'.objects x = some o ∧ o.block.iov_base.isSome = true ∧
    (st.Valid o.block.refcountptr → st.cells o.block.refcountptr = 0) ∧
    ∀ y o', st.objects y = some o' → o'.block.refcountptr ≠ o.block.refcountptr

theorem Inv.handsOut {b x t : Nat} (h : Inv st []) (hok : StepOk st (.get b x t))
    (hstep : Blocks.step st (.get b x t) = some st') : HandsOut st st' x := by
  simp only [Blocks.step, Option.bind_eq_bind, Option.bind_eq_some_iff] at hstep
  obtain ⟨bp, hb, hstep⟩ := hstep
  split at hstep
  · rename_i hguard
    cases hstep
    obtain ⟨halive, hx, ht, hxt⟩ := hguard
    rw [Option.isNone_iff_eq_none] at hx ht
    obtain ⟨-, c, hout⟩ := h.get hok hb halive hx ht hxt
    obtain ⟨o, ho, hc, hbase⟩ := hout.slot
    refine ⟨o, ho, hbase, fun hvalid => ?_, fun y o' hy => ?_⟩
    · rw [hc] at hvalid ⊢
      exact hout.zero hvalid
    · have hyx : y ≠ x := by
        rintro rfl
        rw [hx] at hy
        cases hy
      rw [hc]
      exact hout.nobody y o' hyx (by rw [← hy]; exact Function.update_of_ne hyx _ _)
  · cases hstep

theorem within_inv (h : within.Reachable st) : Inv st [] := by
  refine Machine.Reachable.invariant (M := within) (fun st => Inv st []) ?_ ?_ h
  · rintro s rfl
    exact start_inv
  · intro s a s' hinv hstep
    exact hinv.step hstep.2 hstep.1

/-- In every run within 32 bits. -/
theorem exclusive_of_within {st₀ : State} {ops : List Op} (hstart : within.init st₀)
    (hrun : within.Run st₀ ops st) :
    Exclusive st ∧ ∀ b x t st', within.step st (.get b x t) st' → HandsOut st st' x := by
  have hinv := within_inv (hrun.reachable hstart)
  exact ⟨hinv.exclusive, fun b x t st' hstep => hinv.handsOut hstep.2 hstep.1⟩

/-- Two blocks of one pool. -/
theorem exclusive_two_blocks : ∃ st, (st.objects 0).isSome = true ∧ (st.objects 1).isSome = true ∧
    Exclusive st ∧ ∀ b x t st', within.step st (.get b x t) st' → HandsOut st st' x := by
  have hadd {s s' : State} {ops : List Op} {a : Op} (hrun : within.Run start ops s)
      (hstep : step s a = some s') (hok : StepOk s a) : within.Run start (ops ++ [a]) s' :=
    hrun.snoc ⟨hstep, hok⟩
  have hempty {s : State} (hs : s.garbagecan = []) : CanFits s := by
    intro p hp
    rw [hs] at hp
    cases hp
  have hmade := hadd (a := .newBlockpool 0 100 2) (.refl start) rfl (hempty rfl)
  have hfirst := hadd (a := .get 0 0 2) hmade rfl (hempty rfl)
  have hsecond := hadd (a := .get 0 1 2) hfirst rfl (hempty rfl)
  exact ⟨_, rfl, rfl, exclusive_of_within rfl hsecond⟩

/-! ## Beyond 32 bits -/

/-- A slice whose bounds are compared after their sum has wrapped. -/
def longSlice : List Op :=
  [.newBlockpool 0 100 2, .get 0 0 2, .get 0 1 2, .sub 2 0 50 4294967295]

/-- Two blocks' worth of memory, and one block that is copied again and again. -/
def manyCopies (n : Nat) : List Op :=
  [.newBlockpool 0 100 2, .get 0 0 1] ++ (List.range n).map fun i => .copy (i + 1) 0

theorem copy_objects {o : Object} {y : Nat} (h : y ≠ x) : (st.copy x o).objects y = st.objects y :=
  Function.update_of_ne h _ _

theorem manyCopies_run (n : Nat) : ∃ st o, (manyCopies n).foldlM step start = some st ∧
    st.objects 0 = some o ∧ o.block.refcountptr = .use_cnt 0 0 0 ∧ (∀ y, n < y → st.objects y = none) ∧
    st.Valid (.use_cnt 0 0 0) ∧ st.cells (.use_cnt 0 0 0) = (n + 1) % 2 ^ 32 := by
  induction n with
  | zero =>
    refine ⟨_, _, rfl, rfl, rfl, fun y hy => ?_, ⟨rfl, rfl⟩, rfl⟩
    obtain ⟨y, rfl⟩ : ∃ z, y = z + 1 := ⟨y - 1, by omega⟩
    cases y with
    | zero => rfl
    | succ y => rfl
  | succ n ih =>
    obtain ⟨st, o, hrun, ho, hc, hfree, hvalid, hcells⟩ := ih
    have hstep : step st (.copy (n + 1) 0) = some (st.copy (n + 1) o) := by
      simp only [step, ho, Option.bind_eq_bind, Option.bind_some, hfree (n + 1) (by omega),
        Option.isNone_none, if_true]
    refine ⟨st.copy (n + 1) o, o, ?_, ?_, hc, fun y hy => ?_, hvalid, ?_⟩
    · rw [manyCopies, List.range_succ, List.map_append, ← List.append_assoc, List.foldlM_append]
      rw [manyCopies] at hrun
      rw [hrun]
      simpa using hstep
    · rw [copy_objects (by omega), ho]
    · rw [copy_objects (by omega), hfree y (by omega)]
    · show inc st.cells o.block.refcountptr _ = _
      rw [hc, inc, Function.update_self, hcells, Nat.mod_add_mod]

/-- The slice of the one block is over the other one; after so many copies the count is zero. -/
theorem beyond_words :
    (∃ st, machine.Run start longSlice st ∧ ¬Exclusive st) ∧
    ∃ st, machine.Run start (manyCopies 4294967295) st ∧ ¬Exclusive st := by
  constructor
  · obtain ⟨st, hrun⟩ : ∃ st, longSlice.foldlM step start = some st := ⟨_, rfl⟩
    refine ⟨st, Lib.ofFn_run hrun, fun hexcl => ?_⟩
    cases hrun
    refine hexcl.apart 2 1 _ _ rfl rfl (by decide) (.memory 0 0) 100 ⟨50, rfl, ?_, ?_⟩
      ⟨100, rfl, ?_, ?_⟩
    · decide
    · decide
    · decide
    · decide
  · obtain ⟨st, o, hrun, ho, hc, -, hvalid, hcells⟩ := manyCopies_run 4294967295
    refine ⟨st, Lib.ofFn_run hrun, fun hexcl => ?_⟩
    have htally := hexcl.counts _ hvalid
    rw [hcells] at htally
    refine htally.none 0 ?_
    rw [ho]
    exact hc

end Jive5ab.Blocks
