import Jive5ab.Blocks.Counting

/-! # The operations keep the count -/
namespace Jive5ab.Blocks
open State

variable {st : State} {pending : List Object} {o this other temporary : Object} {x y t b k : Nat}

/-! ## Block members -/

theorem drop_release (st : State) (b : Block) (x : Nat) :
    (st.drop x).release b = (st.release b).drop x := by
  unfold State.release State.drop
  dsimp only
  split <;> rfl

theorem drop_put (st : State) (x : Nat) (o : Object) : (st.drop x).put x o = st.put x o := by
  unfold State.drop State.put
  dsimp only
  rw [Function.update_idem]

theorem Inv.construct (h : Inv st pending) (hx : st.objects x = none) :
    Inv (st.construct x) pending := h.default.put hx

theorem Inv.copy (h : Inv st pending) (hx : st.objects x = none) (ho : st.Holds pending other)
    (hroom : Room st other.block.refcountptr) : Inv (st.copy x other) pending :=
  (h.retain ho hroom).put hx

theorem Inv.assign (h : Inv st pending) (hx : st.objects x = some this)
    (hy : st.objects y = some other) (hroom : Room st other.block.refcountptr) :
    Inv (st.assign x y this other) pending := by
  unfold State.assign
  split
  · exact h
  · have hretain := h.retain (.inl ⟨y, hy⟩) hroom
    have hdrop := hretain.drop (x := x) hx
    have hput := hdrop.release.put (x := x) (by
      rw [drop_release]
      exact Function.update_self _ _ _)
    rwa [drop_release, drop_put] at hput

theorem Inv.destroy (h : Inv st pending) (hx : st.objects x = some this) :
    Inv (st.destroy x this) pending := by
  have hrelease := (h.drop hx).release
  rwa [drop_release] at hrelease

theorem Placed.slice {b slice : Block} {offset length : Nat} (h : st.Placed b)
    (hsum : offset + length < 2 ^ 32) (hslice : b.slice offset length = some slice) :
    slice.refcountptr = b.refcountptr ∧ st.Placed slice := by
  unfold Block.slice at hslice
  rw [Nat.mod_eq_of_lt hsum] at hslice
  split at hslice
  · rename_i hfits
    cases hslice
    refine ⟨rfl, ?_⟩
    unfold Placed at h ⊢
    dsimp only
    cases hc : b.refcountptr with
    | dummy_counter =>
      rw [hc] at h
      obtain ⟨hbase, hlen, hmy⟩ := h
      refine ⟨?_, by omega, hmy⟩
      rw [hbase]
      rfl
    | use_cnt p k i =>
      rw [hc] at h
      obtain ⟨hfreed, hmy, nblock, size, start, hshape, hi, hbase, hlow, hhigh⟩ := h
      refine ⟨hfreed, hmy, nblock, size, start + offset, hshape, hi, ?_, by omega, by omega⟩
      rw [hbase]
      rfl
    | own a =>
      rw [hc] at h
      obtain ⟨hfreed, ha, start, hbase⟩ := h
      refine ⟨hfreed, ha, start + offset, ?_⟩
      rw [hbase]
      rfl
  · cases hslice

theorem Inv.sub {offset length : Nat} (h : Inv st pending) (hx : st.objects x = none)
    (hy : st.Holds pending this) (hroom : Room st this.block.refcountptr)
    (hsum : offset + length < 2 ^ 32) : Inv (st.sub x offset length this) pending := by
  unfold State.sub
  cases hslice : this.block.slice offset length with
  | none => exact h
  | some slice =>
    have hretain := h.retain hy hroom
    obtain ⟨hsame, hplaced⟩ := Placed.slice (h.placed this hy) hsum hslice
    refine (hretain.slice hsame ?_).put hx
    exact Placed.mono hplaced (fun _ _ _ hs => hs) id le_rfl

theorem Inv.allocate {size : Nat} (h : Inv st pending) (hx : st.objects x = none) :
    Inv (st.allocate x size) pending := by
  have hnone : ∀ o', st.Holds pending o' → o'.block.refcountptr ≠ .own st.allocations := by
    intro o' ho' hc
    have hplaced := h.placed o' ho'
    unfold Placed at hplaced
    rw [hc] at hplaced
    exact absurd hplaced.2.1 (Nat.lt_irrefl _)
  have hfirst := Inv.first (n := st.allocations + 1) (o :=
    { block :=
        { iov_base := some (.own st.allocations, 0), iov_len := size, myMemory := true
          refcountptr := .own st.allocations }
      origin := st.calls }) h (by simp) (by omega) (fun c hc => ?_) hnone
    ⟨by simp [State.first, Counter.area], by simp [State.first], 0, rfl⟩
  · exact hfirst.put hx
  · obtain ⟨hfreed, hrest⟩ := hc
    by_cases hnew : c = .own st.allocations
    · exact .inl hnew
    · refine .inr ⟨?_, ?_⟩
      · have harea : c.area ≠ .own st.allocations := by
          intro heq
          cases c with
          | dummy_counter => cases heq
          | use_cnt p k i => cases heq
          | own a =>
            cases heq
            exact hnew rfl
        change Function.update st.freed (.own st.allocations) false c.area = false at hfreed
        rwa [Function.update_of_ne harea] at hfreed
      · cases c with
        | dummy_counter => exact hrest
        | use_cnt p k i => exact hrest
        | own a =>
          have hne : a ≠ st.allocations := fun heq => hnew (by rw [heq])
          have hlt : a < st.allocations + 1 := hrest
          show a < st.allocations
          omega

/-! ## The slots of a pool -/

theorem scan_unused {n : Nat} {used : Fin n → Bool} {previous next next' i : Fin n} {left : Nat}
    (h : scan used previous left next = (some i, next')) : used i = false := by
  induction left generalizing next with
  | zero => simp [scan] at h
  | succ left ih =>
    rw [scan] at h
    cases hused : used next with
    | true =>
      simp only [hused, if_true, Option.isNone_none, true_and] at h
      split at h
      · exact ih h
      · cases h
    | false =>
      simp [hused] at h
      rw [← h.1]
      exact hused

/-- Where the round ends without a slot, all those that were looked at are in use. -/
theorem scan_none {n : Nat} {used : Fin n → Bool} {previous next next' : Fin n} {left : Nat}
    (hleft : (next + left : Nat) = previous + n ∨ next + left = previous.val) (hle : left ≤ n)
    (h : scan used previous left next = (none, next')) (i : Fin n)
    (hi : ∃ m < left, (next + m) % n = i) : used i = true := by
  induction left generalizing next with
  | zero => omega
  | succ left ih =>
    have hn := next.isLt
    have hp := previous.isLt
    rw [scan] at h
    cases hused : used next with
    | false => simp [hused] at h
    | true =>
      obtain ⟨m, hm, hmi⟩ := hi
      rcases Nat.eq_zero_or_pos m with rfl | hmpos
      · obtain rfl : next = i := by
          refine Fin.ext ?_
          rw [← hmi, Nat.add_zero, Nat.mod_eq_of_lt hn]
        exact hused
      have hcirc : (circNext next).val = (next + 1) % n := rfl
      have hmore : circNext next ≠ previous := by
        intro heq
        rw [heq] at hcirc
        rcases Nat.lt_or_ge (next + 1) n with hlt | hge
        · rw [Nat.mod_eq_of_lt hlt] at hcirc
          omega
        · obtain heq' : next.val + 1 = n := by omega
          rw [heq', Nat.mod_self] at hcirc
          omega
      rw [if_pos (by simp [hused, hmore])] at h
      refine ih ?_ (by omega) h ⟨m - 1, by omega, ?_⟩
      · rcases Nat.lt_or_ge (next + 1) n with hlt | hge
        · rw [hcirc, Nat.mod_eq_of_lt hlt]
          omega
        · obtain heq' : next.val + 1 = n := by omega
          rw [hcirc, heq', Nat.mod_self]
          omega
      · rw [hcirc, Nat.mod_add_mod, ← hmi]
        congr 1
        omega

/-! ## Pools -/

theorem shape_eq (st : State) (b k : Nat) :
    st.shape b k = (st.blockpools b).bind fun bp => (bp.pools.map Pool.shape)[k]? := by
  unfold State.shape State.pool?
  cases st.blockpools b with
  | none => rfl
  | some bp => rw [Option.bind_some, Option.bind_some, List.getElem?_map]

theorem shape_setBlockpool {bp bp' : Blockpool} (hb : st.blockpools b = some bp)
    (hshapes : bp'.pools.map Pool.shape = bp.pools.map Pool.shape) (p k : Nat) :
    ({ st with blockpools := Function.update st.blockpools b (some bp') } : State).shape p k =
      st.shape p k := by
  rw [shape_eq, shape_eq]
  dsimp only
  by_cases hp : p = b
  · subst hp
    rw [hb, Function.update_self, Option.bind_some, Option.bind_some, hshapes]
  · rw [Function.update_of_ne hp]

theorem Inv.setBlockpool {bp bp' : Blockpool} (h : Inv st pending)
    (hb : st.blockpools b = some bp)
    (hshapes : bp'.pools.map Pool.shape = bp.pools.map Pool.shape)
    (halive : bp'.alive = true → bp.alive = true) :
    Inv { st with blockpools := Function.update st.blockpools b (some bp') } pending := by
  have hshape := shape_setBlockpool hb hshapes
  refine ⟨h.word, fun c hvalid => h.counts c ?_, fun o ho => ?_, h.origins,
    fun p bp₁ hp hp' k hgone => ?_, fun p hp => ?_⟩
  · refine ⟨hvalid.1, ?_⟩
    have hrest := hvalid.2
    cases c with
    | dummy_counter => exact hrest
    | use_cnt p k i =>
      show (st.shape p k).isSome = true
      rw [← hshape]
      exact hrest
    | own a => exact hrest
  · exact Placed.mono (h.placed o ho) (fun p k s hs => by rwa [hshape]) id le_rfl
  · rw [hshape]
    by_cases hpb : p = b
    · subst hpb
      simp only [Function.update_self, Option.some.injEq] at hp
      subst hp
      exact h.alive p bp hb (halive hp') k hgone
    · simp only [Function.update_of_ne hpb] at hp
      exact h.alive p bp₁ hp hp' k hgone
  · obtain ⟨bp₁, hbp₁, hdead⟩ := h.can p hp
    by_cases hpb : p.1 = b
    · refine ⟨bp', by rw [hpb]; exact Function.update_self _ _ _, ?_⟩
      rw [hpb, hb] at hbp₁
      cases hbp₁
      cases halive' : bp'.alive with
      | false => rfl
      | true => rw [halive halive'] at hdead; cases hdead
    · exact ⟨bp₁, by rw [← hbp₁]; exact Function.update_of_ne hpb _ _, hdead⟩

theorem pool?_eq_some {pool : Pool} : st.pool? b k = some pool ↔
    ∃ bp, st.blockpools b = some bp ∧ bp.pools[k]? = some pool := by
  unfold State.pool?
  rw [Option.bind_eq_some_iff]

/-- With the next slot to look at, and nothing else, changed. -/
theorem setPool_shapes {bp : Blockpool} {pool : Pool} (hpool : bp.pools[k]? = some pool)
    (pool' : Pool) (hsame : pool'.shape = pool.shape) :
    (bp.pools.set k pool').map Pool.shape = bp.pools.map Pool.shape := by
  refine List.ext_getElem? fun n => ?_
  rw [List.getElem?_map, List.getElem?_map, List.getElem?_set]
  split
  · rename_i hn
    subst hn
    have hlt : k < bp.pools.length := (List.getElem?_eq_some_iff.mp hpool).1
    rw [if_pos hlt, hpool, Option.map_some, Option.map_some, hsame]
  · rfl

theorem setPool_eq {bp : Blockpool} {pool : Pool} (hb : st.blockpools b = some bp) :
    st.setPool b k pool = { st with
      blockpools := Function.update st.blockpools b (some { bp with pools := bp.pools.set k pool }) } := by
  rw [State.setPool, hb]

theorem shape_setPool {pool : Pool} (hpool : st.pool? b k = some pool) (next : Fin pool.nblock)
    (p n : Nat) : (st.setPool b k { pool with next_alloc := next }).shape p n = st.shape p n := by
  obtain ⟨bp, hb, hk⟩ := pool?_eq_some.mp hpool
  rw [setPool_eq hb]
  exact shape_setBlockpool hb (setPool_shapes hk { pool with next_alloc := next } rfl) p n

theorem Inv.setPool {pool : Pool} (h : Inv st pending) (hpool : st.pool? b k = some pool)
    (next : Fin pool.nblock) :
    Inv (st.setPool b k { pool with next_alloc := next }) pending := by
  obtain ⟨bp, hb, hk⟩ := pool?_eq_some.mp hpool
  rw [setPool_eq hb]
  exact h.setBlockpool hb (setPool_shapes hk { pool with next_alloc := next } rfl) id

/-- The block that `get` makes of a slot. -/
def slotBlock (st : State) (b k : Nat) (pool : Pool) (i : Nat) : Object where
  block :=
    { iov_base := some (.memory b k, i * pool.block_size), iov_len := pool.block_size
      myMemory := false, refcountptr := .use_cnt b k i }
  origin := st.calls

theorem poolGet_none {pool : Pool} {next : Fin pool.nblock}
    (h : st.found b k pool = (none, next)) :
    st.poolGet b k x pool = (st.setPool b k { pool with next_alloc := next }).construct x := by
  unfold State.poolGet
  rw [h]

theorem poolGet_some {pool : Pool} {i next : Fin pool.nblock}
    (h : st.found b k pool = (some i, next))
    (hlive : (st.setPool b k { pool with next_alloc := next }).freed (.memory b k) = false) :
    st.poolGet b k x pool =
      ((st.setPool b k { pool with next_alloc := next }).first (.use_cnt b k i)
          (st.setPool b k { pool with next_alloc := next }).allocations).put x
        (slotBlock (st.setPool b k { pool with next_alloc := next }) b k pool i) := by
  unfold State.poolGet
  rw [h]
  have hkeep : Function.update (st.setPool b k { pool with next_alloc := next }).freed
      (.memory b k) false = (st.setPool b k { pool with next_alloc := next }).freed :=
    Function.update_eq_self_iff.mpr hlive.symm
  unfold State.first State.put Counter.area
  dsimp only
  rw [hkeep]
  rfl

theorem found_unused {pool : Pool} {i next : Fin pool.nblock}
    (h : st.found b k pool = (some i, next)) : st.cells (.use_cnt b k i) = 0 := by
  have hunused := scan_unused h
  simpa using hunused

/-- A round without a slot has seen all of them. -/
theorem found_none {pool : Pool} {next : Fin pool.nblock} {i : Nat}
    (h : st.found b k pool = (none, next)) (hi : i < pool.nblock) :
    st.cells (.use_cnt b k i) ≠ 0 := by
  have hstart := pool.next_alloc.isLt
  have hused := scan_none (.inl rfl) le_rfl h ⟨i, hi⟩ (by
    rcases Nat.lt_or_ge i pool.next_alloc with hlt | hge
    · refine ⟨i + pool.nblock - pool.next_alloc, by omega, ?_⟩
      rw [Nat.add_sub_cancel' (by omega), Nat.add_mod_right, Nat.mod_eq_of_lt hi]
    · refine ⟨i - pool.next_alloc, by omega, ?_⟩
      rw [Nat.add_sub_cancel' hge, Nat.mod_eq_of_lt hi])
  simpa using hused

/-- What a pool that only has another slot to look at next shares with the one before. -/
theorem setPool_same {pool : Pool} (hpool : st.pool? b k = some pool) (next : Fin pool.nblock) :
    (st.setPool b k { pool with next_alloc := next }).objects = st.objects ∧
    (st.setPool b k { pool with next_alloc := next }).cells = st.cells ∧
    (st.setPool b k { pool with next_alloc := next }).freed = st.freed ∧
    (st.setPool b k { pool with next_alloc := next }).shape b k = some pool.shape := by
  have hshape : (st.setPool b k { pool with next_alloc := next }).shape b k = some pool.shape := by
    rw [shape_setPool hpool next, State.shape, hpool, Option.map_some]
  obtain ⟨bp, hb, -⟩ := pool?_eq_some.mp hpool
  rw [setPool_eq hb] at hshape ⊢
  exact ⟨rfl, rfl, rfl, hshape⟩

theorem Inv.poolGet {pool : Pool} (h : Inv st pending) (hpool : st.pool? b k = some pool)
    (hlive : st.freed (.memory b k) = false) (hx : st.objects x = none) :
    Inv (st.poolGet b k x pool) pending := by
  cases hfound : st.found b k pool with
  | mk slot next =>
    have hset := h.setPool hpool next
    obtain ⟨hobjects, hcells, hfreed, hshape⟩ := setPool_same hpool next
    cases slot with
    | none =>
      rw [poolGet_none hfound]
      exact hset.construct (by rw [hobjects, hx])
    | some i =>
      rw [poolGet_some hfound (by rw [hfreed, hlive])]
      have hzero := found_unused hfound
      generalize st.setPool b k { pool with next_alloc := next } = s at *
      have hvalid : s.Valid (.use_cnt b k i) := ⟨by rw [hfreed]; exact hlive, by simp [hshape]⟩
      refine (Inv.first (o := slotBlock s b k pool i) hset (by simp [slotBlock]) le_rfl
        (fun c hc => .inr ⟨?_, hc.2⟩) (hset.none_of_zero hvalid (by rw [hcells]; exact hzero)) ?_).put
        (by rw [← hx, ← hobjects]; rfl)
      · have hafter := hc.1
        change Function.update s.freed (.memory b k) false c.area = false at hafter
        by_cases harea : c.area = .memory b k
        · rw [harea, hfreed]
          exact hlive
        · rwa [Function.update_of_ne harea] at hafter
      · exact ⟨Function.update_self _ _ _, rfl, _, _, _, hshape, i.isLt, rfl, le_rfl, le_rfl⟩

/-! ## A block from one of the pools -/

/-- Only the counter of blocks without memory, and where pools go on, may have changed. -/
structure Kept (st st' : State) : Prop where
  objects : st'.objects = st.objects
  cells : ∀ c, c ≠ .dummy_counter → st'.cells c = st.cells c
  freed : st'.freed = st.freed
  shape : ∀ b k, st'.shape b k = st.shape b k
  can : st'.garbagecan = st.garbagecan
  alive : ∀ b bp, st.blockpools b = some bp →
    ∃ bp', st'.blockpools b = some bp' ∧ bp'.alive = bp.alive

theorem Kept.refl (st : State) : Kept st st :=
  ⟨rfl, fun _ _ => rfl, rfl, fun _ _ => rfl, rfl, fun _ bp h => ⟨bp, h, rfl⟩⟩

theorem Kept.trans {st st' st'' : State} (h : Kept st st') (h' : Kept st' st'') : Kept st st'' := by
  refine ⟨h'.objects.trans h.objects, fun c hc => (h'.cells c hc).trans (h.cells c hc),
    h'.freed.trans h.freed, fun b k => (h'.shape b k).trans (h.shape b k), h'.can.trans h.can,
    fun b bp hb => ?_⟩
  obtain ⟨bp', hb', halive'⟩ := h.alive b bp hb
  obtain ⟨bp'', hb'', halive''⟩ := h'.alive b bp' hb'
  exact ⟨bp'', hb'', halive''.trans halive'⟩

theorem dec_inc {cells : Counter → Nat} {c : Counter} (h : cells c < 2 ^ 32) :
    dec (inc cells c) c = cells := by
  unfold dec inc
  rw [Function.update_idem, Function.update_self]
  refine Function.update_eq_self_iff.mpr ?_
  omega

theorem dec_comm (cells : Counter → Nat) (c d : Counter) : dec (dec cells c) d = dec (dec cells d) c := by
  by_cases hcd : c = d
  · rw [hcd]
  · unfold dec
    rw [Function.update_comm hcd, Function.update_of_ne hcd, Function.update_of_ne (Ne.symm hcd)]

/-- From a temporary into an empty block. -/
theorem move_eq (hx : st.objects x = some ⟨block, 0⟩) (ht : st.objects t = some temporary)
    (hxt : x ≠ t) (hmy : temporary.block.myMemory = false)
    (hword : st.cells temporary.block.refcountptr < 2 ^ 32) :
    st.move x t = { st with
      objects := Function.update (Function.update st.objects x (some temporary)) t none
      cells := dec st.cells .dummy_counter } := by
  unfold State.move
  rw [hx, ht]
  dsimp only
  unfold State.assign State.destroy State.release State.retain State.put State.drop
  rw [if_neg hxt]
  simp only [hmy, block, Bool.false_and, Bool.false_eq_true, if_false]
  rw [dec_comm, dec_inc hword]

theorem dec_dummy_of_ne {cells : Counter → Nat} {c : Counter} (hc : c ≠ .dummy_counter) :
    dec cells .dummy_counter c = cells c := Function.update_of_ne hc _ _

theorem kept_setPool {pool : Pool} (hpool : st.pool? b k = some pool) (next : Fin pool.nblock) :
    Kept st (st.setPool b k { pool with next_alloc := next }) := by
  have hshape := shape_setPool hpool next
  obtain ⟨bp, hb, -⟩ := pool?_eq_some.mp hpool
  rw [setPool_eq hb] at hshape ⊢
  refine ⟨rfl, fun _ _ => rfl, rfl, hshape, rfl, fun p bp' hp => ?_⟩
  by_cases hpb : p = b
  · subst hpb
    rw [hb] at hp
    cases hp
    exact ⟨_, Function.update_self _ _ _, rfl⟩
  · exact ⟨bp', by rw [← hp]; exact Function.update_of_ne hpb _ _, rfl⟩

theorem assign_objects (hxt : x ≠ t) (ht : st.objects t = some temporary) :
    (st.assign x t this temporary).objects t = some temporary := by
  unfold State.assign State.put
  rw [if_neg hxt]
  have hrelease : ((st.retain temporary.block.refcountptr).release this.block).objects =
      st.objects := by
    unfold State.release
    dsimp only
    split <;> rfl
  simp only [Function.update_of_ne (Ne.symm hxt), hrelease, ht]

theorem Inv.move (h : Inv st pending) (hx : st.objects x = some this)
    (ht : st.objects t = some temporary) (hxt : x ≠ t)
    (hroom : Room st temporary.block.refcountptr) : Inv (st.move x t) pending := by
  unfold State.move
  rw [hx, ht]
  exact (h.assign hx ht hroom).destroy (assign_objects hxt ht)

/-- The place of the temporary is free again. -/
theorem update_temporary {objects : Nat → Option Object} {a c : Option Object} (hxt : x ≠ t)
    (ht : objects t = none) :
    Function.update (Function.update (Function.update objects t a) x c) t none =
      Function.update objects x c := by
  rw [Function.update_comm hxt, Function.update_idem]
  congr 1
  exact Function.update_eq_self_iff.mpr ht.symm

/-- The object `x` has got a block that nobody had. -/
structure HandedOut (st st' : State) (x : Nat) (c : Counter) : Prop where
  others : ∀ y, y ≠ x → st'.objects y = st.objects y
  slot : ∃ o, st'.objects x = some o ∧ o.block.refcountptr = c ∧ o.block.iov_base.isSome
  zero : st.Valid c → st.cells c = 0
  nobody : ∀ y o, y ≠ x → st.objects y = some o → o.block.refcountptr ≠ c

variable {bp : Blockpool} {pool : Pool}

theorem draw_eq (hb : st.blockpools b = some bp) (hpool : bp.pools[bp.curpool]? = some pool) :
    st.draw b x t = (st.poolGet b bp.curpool t pool).move x t := by
  unfold State.draw
  rw [hb]
  dsimp only
  rw [hpool]

theorem Inv.draw (h : Inv st []) (hx : st.objects x = some ⟨block, 0⟩) (ht : st.objects t = none)
    (hxt : x ≠ t) (hb : st.blockpools b = some bp) (halive : bp.alive = true) :
    Inv (st.draw b x t) [] ∧ ((Kept st (st.draw b x t) ∧
        ∀ pool, bp.pools[bp.curpool]? = some pool → ∀ i < pool.nblock,
          st.cells (.use_cnt b bp.curpool i) ≠ 0) ∨
      ∃ i, HandedOut st (st.draw b x t) x (.use_cnt b bp.curpool i)) := by
  cases hpool : bp.pools[bp.curpool]? with
  | none =>
    have hsame : st.draw b x t = st := by
      unfold State.draw
      rw [hb]
      dsimp only
      rw [hpool]
    rw [hsame]
    exact ⟨h, .inl ⟨.refl st, fun pool hsome => by cases hsome⟩⟩
  | some pool =>
    have hpool' : st.pool? b bp.curpool = some pool := pool?_eq_some.mpr ⟨bp, hb, hpool⟩
    have hshape : st.shape b bp.curpool = some pool.shape := by
      rw [State.shape, hpool', Option.map_some]
    have hlive : st.freed (.memory b bp.curpool) = false := by
      cases hfreed : st.freed (.memory b bp.curpool) with
      | false => rfl
      | true => simp [h.alive b bp hb halive _ hfreed] at hshape
    have hget := h.poolGet (x := t) hpool' hlive ht
    rw [draw_eq hb hpool]
    cases hfound : st.found b bp.curpool pool with
    | mk slot next =>
      obtain ⟨hobjects, hcells, hfreed, -⟩ := setPool_same hpool' next
      have hkept := kept_setPool hpool' next
      cases slot with
      | none =>
        rw [poolGet_none hfound] at hget ⊢
        generalize st.setPool b bp.curpool { pool with next_alloc := next } = s at *
        have hx' : (s.construct t).objects x = some ⟨block, 0⟩ := by
          rw [← hx, ← hobjects]
          exact Function.update_of_ne hxt _ _
        have ht' : (s.construct t).objects t = some ⟨block, 0⟩ := Function.update_self _ _ _
        refine ⟨hget.move hx' ht' hxt (fun hne => absurd rfl hne), .inl ⟨?_, fun pool' hsome i hi => ?_⟩⟩
        · rw [move_eq hx' ht' hxt rfl (hget.word _)]
          refine hkept.trans ⟨?_, fun c hc => dec_dummy_of_ne hc, rfl, fun _ _ => rfl, rfl,
            fun _ bp h => ⟨bp, h, rfl⟩⟩
          show Function.update (Function.update (Function.update s.objects t _) x _) t none = _
          rw [update_temporary hxt (by rw [hobjects, ht])]
          exact Function.update_eq_self_iff.mpr (by rw [hobjects, hx])
        · cases hsome
          exact found_none hfound hi
      | some i =>
        have hzero := found_unused hfound
        rw [poolGet_some hfound (by rw [hfreed, hlive])] at hget ⊢
        generalize st.setPool b bp.curpool { pool with next_alloc := next } = s at *
        generalize hs' : (s.first (.use_cnt b bp.curpool i) s.allocations).put t
          (slotBlock s b bp.curpool pool i) = s' at *
        have hx' : s'.objects x = some ⟨block, 0⟩ := by
          rw [← hx, ← hobjects, ← hs']
          exact Function.update_of_ne hxt _ _
        have ht' : s'.objects t = some (slotBlock s b bp.curpool pool i) := by
          rw [← hs']
          exact Function.update_self _ _ _
        have hone : s'.cells (.use_cnt b bp.curpool i) = 1 := by
          rw [← hs']
          exact Function.update_self _ _ _
        refine ⟨hget.move hx' ht' hxt (fun _ => ?_), .inr ?_⟩
        · rw [show (slotBlock s b bp.curpool pool i).block.refcountptr = .use_cnt b bp.curpool i
            from rfl, hone]
          decide
        rw [move_eq hx' ht' hxt rfl (hget.word _)]
        have hafter : Function.update (Function.update s'.objects x
            (some (slotBlock s b bp.curpool pool i))) t none =
            Function.update st.objects x (some (slotBlock s b bp.curpool pool i)) := by
          rw [← hs', ← hobjects]
          exact update_temporary hxt (by rw [← ht, ← hobjects]; rfl)
        have hvalid : st.Valid (.use_cnt b bp.curpool i) := ⟨hlive, by simp [hshape]⟩
        refine ⟨i, fun y hy => ?_, ⟨slotBlock s b bp.curpool pool i, ?_, rfl, rfl⟩, fun _ => hzero,
          fun y o' _ ho' => ?_⟩
        · rw [hafter]
          exact Function.update_of_ne hy _ _
        · rw [hafter]
          exact Function.update_self _ _ _
        · exact h.none_of_zero hvalid hzero o' (.inl ⟨y, ho'⟩)

end Jive5ab.Blocks
