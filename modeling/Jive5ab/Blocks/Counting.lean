import Jive5ab.Blocks.Pools
import Jive5ab.Lib.Tally

/-! # Counters count

In the middle of an operation a reference is counted that is in no object yet, or not any more:
it is pending. -/
namespace Jive5ab.Blocks
open Lib (Tally)

def RefersTo (c : Counter) : Option Object → Prop
  | some o => o.block.refcountptr = c
  | none => False

/-- The number of slots and the size of one. -/
def Pool.shape (pool : Pool) : Nat × Nat := (pool.nblock, pool.block_size)

namespace State

def shape (st : State) (b k : Nat) : Option (Nat × Nat) := (st.pool? b k).map Pool.shape

/-- Counters of memory that has not been given back. -/
def Valid (st : State) (c : Counter) : Prop :=
  st.freed c.area = false ∧
    match c with
    | .dummy_counter => False
    | .use_cnt b k _ => (st.shape b k).isSome
    | .own a => a < st.allocations

/-- A block is in the memory whose users its counter counts. -/
def Placed (st : State) (b : Block) : Prop :=
  match b.refcountptr with
  | .dummy_counter => b.iov_base = none ∧ b.iov_len = 0 ∧ b.myMemory = false
  | .use_cnt p k i =>
    st.freed (.memory p k) = false ∧ b.myMemory = false ∧
      ∃ nblock size offset, st.shape p k = some (nblock, size) ∧ i < nblock ∧
        b.iov_base = some (.memory p k, offset) ∧ i * size ≤ offset ∧
        offset + b.iov_len ≤ i * size + size
  | .own a =>
    st.freed (.own a) = false ∧ a < st.allocations ∧ ∃ offset, b.iov_base = some (.own a, offset)

/-- In an object, or pending. -/
def Holds (st : State) (pending : List Object) (o : Object) : Prop :=
  (∃ x, st.objects x = some o) ∨ o ∈ pending

/-- References that are pending. -/
def counted (pending : List Object) (c : Counter) : Nat :=
  pending.countP fun o => o.block.refcountptr = c

end State

open State

structure Inv (st : State) (pending : List Object) : Prop where
  word : ∀ c, st.cells c < 2 ^ 32
  counts : ∀ c, st.Valid c → ∃ n, Tally st.objects (RefersTo c) n ∧ st.cells c = n + counted pending c
  placed : ∀ o, st.Holds pending o → st.Placed o.block
  origins : ∀ o o', st.Holds pending o → st.Holds pending o' →
    o.block.refcountptr = o'.block.refcountptr → o.block.refcountptr ≠ .dummy_counter →
    o.origin = o'.origin
  alive : ∀ b bp, st.blockpools b = some bp → bp.alive = true → ∀ k, st.freed (.memory b k) = true →
    st.shape b k = none
  can : ∀ p ∈ st.garbagecan, ∃ bp, st.blockpools p.1 = some bp ∧ bp.alive = false

variable {st : State} {pending : List Object} {o : Object} {x : Nat}

theorem counted_cons (o : Object) (pending : List Object) (c : Counter) :
    counted (o :: pending) c = counted pending c + if o.block.refcountptr = c then 1 else 0 := by
  simp [counted, List.countP_cons]

/-- A counter nobody refers to counts zero. -/
theorem counts_nothing {c : Counter}
    (h : ∀ o, st.Holds pending o → o.block.refcountptr ≠ c) :
    Tally st.objects (RefersTo c) 0 ∧ counted pending c = 0 := by
  refine ⟨Tally.zero fun y => ?_, List.countP_eq_zero.mpr fun o ho => ?_⟩
  · cases hy : st.objects y with
    | none => exact id
    | some o => exact h o (.inl ⟨y, hy⟩)
  · simpa using h o (.inr ho)

theorem Placed.valid {b : Block} (h : st.Placed b) (hdummy : b.refcountptr ≠ .dummy_counter) :
    st.Valid b.refcountptr := by
  unfold Placed at h
  unfold Valid
  cases hc : b.refcountptr with
  | dummy_counter => exact absurd hc hdummy
  | use_cnt p k i =>
    rw [hc] at h
    obtain ⟨hfreed, -, nblock, size, offset, hshape, -⟩ := h
    exact ⟨hfreed, by simp [hshape]⟩
  | own a =>
    rw [hc] at h
    exact ⟨h.1, h.2.1⟩

/-! ## One reference at a time -/

/-- What counts a reference has to have room for it. -/
def Room (st : State) (c : Counter) : Prop := c ≠ .dummy_counter → st.cells c + 1 < 2 ^ 32

theorem Inv.retain (h : Inv st pending) (ho : st.Holds pending o)
    (hroom : Room st o.block.refcountptr) :
    Inv (st.retain o.block.refcountptr) (o :: pending) := by
  have hholds {o' : Object} (h' : st.Holds (o :: pending) o') : st.Holds pending o' := by
    rcases h' with hlive | hmem
    · exact .inl hlive
    · rcases List.mem_cons.mp hmem with rfl | hmem
      · exact ho
      · exact .inr hmem
  refine ⟨fun c => ?_, fun c hvalid => ?_, fun o' h' => h.placed o' (hholds h'),
    fun o' o'' h' h'' => h.origins o' o'' (hholds h') (hholds h''), h.alive, h.can⟩
  · by_cases hc : c = o.block.refcountptr
    · subst hc
      simp only [State.retain, inc, Function.update_self]
      omega
    · simp only [State.retain, inc, Function.update_of_ne hc]
      exact h.word c
  · obtain ⟨n, htally, hcount⟩ := h.counts c hvalid
    refine ⟨n, htally, ?_⟩
    rw [counted_cons]
    by_cases hc : c = o.block.refcountptr
    · subst hc
      have hdummy : o.block.refcountptr ≠ .dummy_counter := by
        intro heq
        rw [heq] at hvalid
        exact hvalid.2
      have hlt := hroom hdummy
      simp only [State.retain, inc, Function.update_self, if_pos]
      omega
    · simp only [State.retain, inc, Function.update_of_ne hc, if_neg (Ne.symm hc)]
      omega

theorem Inv.put (h : Inv st (o :: pending)) (hx : st.objects x = none) :
    Inv (st.put x o) pending := by
  have hholds {o' : Object} (h' : (st.put x o).Holds pending o') : st.Holds (o :: pending) o' := by
    rcases h' with ⟨y, hy⟩ | hmem
    · by_cases hyx : y = x
      · subst hyx
        simp only [State.put, Function.update_self, Option.some.injEq] at hy
        exact .inr (List.mem_cons.mpr (.inl hy.symm))
      · simp only [State.put, Function.update_of_ne hyx] at hy
        exact .inl ⟨y, hy⟩
    · exact .inr (List.mem_cons_of_mem _ hmem)
  refine ⟨h.word, fun c hvalid => ?_, fun o' h' => h.placed o' (hholds h'),
    fun o' o'' h' h'' => h.origins o' o'' (hholds h') (hholds h''), h.alive, h.can⟩
  obtain ⟨n, htally, hcount⟩ := h.counts c hvalid
  rw [counted_cons] at hcount
  have hold : ¬RefersTo c (st.objects x) := by
    rw [hx]
    exact id
  by_cases hc : o.block.refcountptr = c
  · refine ⟨n + 1, htally.gain hold hc, ?_⟩
    rw [if_pos hc] at hcount
    show st.cells c = _
    omega
  · refine ⟨n, htally.keep ⟨fun hnew => absurd hnew hc, fun h => absurd h hold⟩, ?_⟩
    rw [if_neg hc] at hcount
    exact hcount

theorem Inv.drop (h : Inv st pending) (hx : st.objects x = some o) :
    Inv (st.drop x) (o :: pending) := by
  have hholds {o' : Object} (h' : (st.drop x).Holds (o :: pending) o') : st.Holds pending o' := by
    rcases h' with ⟨y, hy⟩ | hmem
    · by_cases hyx : y = x
      · subst hyx
        simp [State.drop] at hy
      · simp only [State.drop, Function.update_of_ne hyx] at hy
        exact .inl ⟨y, hy⟩
    · rcases List.mem_cons.mp hmem with rfl | hmem
      · exact .inl ⟨x, hx⟩
      · exact .inr hmem
  refine ⟨h.word, fun c hvalid => ?_, fun o' h' => h.placed o' (hholds h'),
    fun o' o'' h' h'' => h.origins o' o'' (hholds h') (hholds h''), h.alive, h.can⟩
  obtain ⟨n, htally, hcount⟩ := h.counts c hvalid
  rw [counted_cons]
  by_cases hc : o.block.refcountptr = c
  · have hold : RefersTo c (st.objects x) := by
      rw [hx]
      exact hc
    obtain ⟨m, rfl⟩ : ∃ m, n = m + 1 := Nat.exists_eq_add_of_lt (htally.pos hold) |>.imp (by omega)
    refine ⟨m, htally.lose hold id, ?_⟩
    rw [if_pos hc]
    show st.cells c = _
    omega
  · have hold : ¬RefersTo c (st.objects x) := by
      rw [hx]
      exact hc
    refine ⟨n, htally.keep ⟨fun hnew => absurd hnew id, fun h => absurd h hold⟩, ?_⟩
    rw [if_neg hc]
    exact hcount

/-- Pools only get more, and the memory of this block is still there. -/
theorem Placed.mono {st st' : State} {b : Block} (h : st.Placed b)
    (hshape : ∀ p k s, st.shape p k = some s → st'.shape p k = some s)
    (hfreed : st.freed b.refcountptr.area = false → st'.freed b.refcountptr.area = false)
    (hallocations : st.allocations ≤ st'.allocations) : st'.Placed b := by
  unfold Placed at h ⊢
  cases hc : b.refcountptr with
  | dummy_counter =>
    rw [hc] at h
    exact h
  | use_cnt p k i =>
    rw [hc] at h hfreed
    obtain ⟨hnot, hmy, nblock, size, offset, hsome, hrest⟩ := h
    exact ⟨hfreed hnot, hmy, nblock, size, offset, hshape p k _ hsome, hrest⟩
  | own a =>
    rw [hc] at h hfreed
    exact ⟨hfreed h.1, by omega, h.2.2⟩

/-- Only memory that nobody uses is given back. -/
theorem Inv.free {freed : Area → Bool} (h : Inv st pending)
    (hmore : ∀ a, freed a = false → st.freed a = false)
    (hunused : ∀ a, freed a = true → st.freed a = false →
      (∀ o, st.Holds pending o → o.block.refcountptr ≠ .dummy_counter →
        o.block.refcountptr.area ≠ a) ∧
      ∀ b bp k, st.blockpools b = some bp → bp.alive = true → a = .memory b k →
        st.shape b k = none) :
    Inv { st with freed := freed } pending := by
  refine ⟨h.word, fun c hvalid => h.counts c ⟨hmore _ hvalid.1, hvalid.2⟩, fun o ho => ?_, h.origins,
    fun b bp hb halive k hfreed => ?_, h.can⟩
  · by_cases hdummy : o.block.refcountptr = .dummy_counter
    · have hplaced := h.placed o ho
      unfold Placed at hplaced ⊢
      rw [hdummy] at hplaced ⊢
      exact hplaced
    · refine Placed.mono (h.placed o ho) (fun _ _ _ hs => hs) (fun hnot => ?_) le_rfl
      cases hgone : freed o.block.refcountptr.area with
      | false => exact hgone
      | true => exact absurd rfl ((hunused _ hgone hnot).1 o ho hdummy)
  · cases hbefore : st.freed (.memory b k) with
    | true => exact h.alive b bp hb halive k hbefore
    | false => exact (hunused _ hfreed hbefore).2 b bp k hb halive rfl

/-- Nobody refers to a counter of zero. -/
theorem Inv.none_of_zero (h : Inv st pending) {c : Counter} (hvalid : st.Valid c)
    (hzero : st.cells c = 0) : ∀ o, st.Holds pending o → o.block.refcountptr ≠ c := by
  intro o ho hc
  obtain ⟨n, htally, hcount⟩ := h.counts c hvalid
  rcases ho with ⟨x, hx⟩ | hmem
  · have hpos := htally.pos (t := x) (by rw [hx]; exact hc)
    omega
  · have hpos : 0 < counted pending c :=
      List.countP_pos_iff.mpr ⟨o, hmem, by simpa using hc⟩
    omega

theorem Inv.dec (h : Inv st (o :: pending)) :
    Inv { st with cells := Blocks.dec st.cells o.block.refcountptr } pending := by
  have hholds {o' : Object} (h' : st.Holds pending o') : st.Holds (o :: pending) o' :=
    h'.imp id (List.mem_cons_of_mem _)
  refine ⟨fun c => ?_, fun c hvalid => ?_, fun o' h' => h.placed o' (hholds h'),
    fun o' o'' h' h'' => h.origins o' o'' (hholds h') (hholds h''), h.alive, h.can⟩
  · by_cases hc : c = o.block.refcountptr
    · subst hc
      simp only [Blocks.dec, Function.update_self]
      omega
    · simp only [Blocks.dec, Function.update_of_ne hc]
      exact h.word c
  · obtain ⟨n, htally, hcount⟩ := h.counts c hvalid
    have hword := h.word c
    refine ⟨n, htally, ?_⟩
    rw [counted_cons] at hcount
    by_cases hc : c = o.block.refcountptr
    · subst hc
      rw [if_pos rfl] at hcount
      simp only [Blocks.dec, Function.update_self]
      omega
    · rw [if_neg (Ne.symm hc)] at hcount
      simp only [Blocks.dec, Function.update_of_ne hc]
      exact hcount

theorem Inv.release (h : Inv st (o :: pending)) : Inv (st.release o.block) pending := by
  have hdec := h.dec
  have hplaced := h.placed o (.inr List.mem_cons_self)
  unfold State.release
  dsimp only
  split
  · rename_i hlast
    simp only [Bool.and_eq_true, beq_iff_eq] at hlast
    obtain ⟨hmy, hzero⟩ := hlast
    cases hc : o.block.refcountptr with
    | dummy_counter =>
      unfold Placed at hplaced
      rw [hc, hmy] at hplaced
      exact absurd hplaced.2.2 (by decide)
    | use_cnt p k i =>
      unfold Placed at hplaced
      rw [hc, hmy] at hplaced
      exact absurd hplaced.2.1 (by decide)
    | own a =>
      have hvalid := Placed.valid hplaced (by rw [hc]; exact fun h => by cases h)
      rw [hc] at hdec hzero hvalid
      refine hdec.free (fun a' ha' => ?_) (fun a' ha' hbefore => ?_)
      · by_cases hsame : a' = .own a
        · simp [hsame, Counter.area] at ha'
        · simpa [Counter.area, Function.update_of_ne hsame] using ha'
      · obtain rfl : a' = .own a := by
          by_contra hother
          simp only [Counter.area, Function.update_of_ne hother] at ha'
          exact absurd hbefore (by simp [ha'])
        refine ⟨fun o' ho' hdummy harea => ?_, fun b bp k _ _ heq => by cases heq⟩
        have hno := hdec.none_of_zero hvalid hzero o' ho'
        cases hc' : o'.block.refcountptr with
        | dummy_counter => exact hdummy hc'
        | use_cnt p k i =>
          rw [hc'] at harea
          cases harea
        | own a' =>
          rw [hc'] at harea hno
          cases harea
          exact hno rfl
  · exact hdec

/-- Another slice of the same memory. -/
theorem Inv.slice {b : Block} (h : Inv st (o :: pending))
    (hsame : b.refcountptr = o.block.refcountptr) (hplaced : st.Placed b) :
    Inv st ({ o with block := b } :: pending) := by
  have hholds {o' : Object} (h' : st.Holds ({ o with block := b } :: pending) o') :
      ∃ o'', st.Holds (o :: pending) o'' ∧ o''.block.refcountptr = o'.block.refcountptr ∧
        o''.origin = o'.origin ∧ (st.Placed o''.block → st.Placed o'.block) := by
    rcases h' with hlive | hmem
    · exact ⟨o', .inl hlive, rfl, rfl, id⟩
    · rcases List.mem_cons.mp hmem with rfl | hmem
      · exact ⟨o, .inr List.mem_cons_self, hsame.symm, rfl, fun _ => hplaced⟩
      · exact ⟨o', .inr (List.mem_cons_of_mem _ hmem), rfl, rfl, id⟩
  refine ⟨h.word, fun c hvalid => ?_, fun o' h' => ?_, fun o₁ o₂ h₁ h₂ href hdummy => ?_, h.alive,
    h.can⟩
  · obtain ⟨n, htally, hcount⟩ := h.counts c hvalid
    refine ⟨n, htally, ?_⟩
    rw [counted_cons] at hcount ⊢
    rwa [hsame]
  · obtain ⟨o'', ho'', -, -, himp⟩ := hholds h'
    exact himp (h.placed o'' ho'')
  · obtain ⟨p₁, hp₁, href₁, horigin₁, -⟩ := hholds h₁
    obtain ⟨p₂, hp₂, href₂, horigin₂, -⟩ := hholds h₂
    rw [← horigin₁, ← horigin₂]
    exact h.origins p₁ p₂ hp₁ hp₂ (by rw [href₁, href₂, href]) (by rwa [href₁])

/-- A new block without memory refers to nothing that is counted. -/
theorem Inv.default (h : Inv st pending) : Inv st (⟨block, 0⟩ :: pending) := by
  have hholds {o : Object} (h' : st.Holds (⟨block, 0⟩ :: pending) o) :
      o = ⟨block, 0⟩ ∨ st.Holds pending o := by
    rcases h' with hlive | hmem
    · exact .inr (.inl hlive)
    · rcases List.mem_cons.mp hmem with rfl | hmem
      · exact .inl rfl
      · exact .inr (.inr hmem)
  refine ⟨h.word, fun c hvalid => ?_, fun o ho => ?_, fun o o' ho ho' href hdummy => ?_, h.alive,
    h.can⟩
  · obtain ⟨n, htally, hcount⟩ := h.counts c hvalid
    have hc : Counter.dummy_counter ≠ c := by
      rintro rfl
      exact hvalid.2
    exact ⟨n, htally, by rw [counted_cons, hcount]; simp [block, hc]⟩
  · rcases hholds ho with rfl | hold
    · exact ⟨rfl, rfl, rfl⟩
    · exact h.placed o hold
  · rcases hholds ho with rfl | hold
    · exact absurd rfl hdummy
    rcases hholds ho' with rfl | hold'
    · exact absurd href hdummy
    · exact h.origins o o' hold hold' href hdummy

/-- A counter that nobody refers to, with its memory, before a new block is there. -/
def State.first (st : State) (c : Counter) (allocations : Nat) : State :=
  { st with
    cells := Function.update st.cells c 1
    freed := Function.update st.freed c.area false
    allocations := allocations
    calls := st.calls + 1 }

theorem Inv.first {n : Nat} (h : Inv st pending) (hdummy : o.block.refcountptr ≠ .dummy_counter)
    (hn : st.allocations ≤ n)
    (hvalid : ∀ c, (st.first o.block.refcountptr n).Valid c →
      c = o.block.refcountptr ∨ st.Valid c)
    (hnone : ∀ o', st.Holds pending o' → o'.block.refcountptr ≠ o.block.refcountptr)
    (hplaced : (st.first o.block.refcountptr n).Placed o.block) :
    Inv (st.first o.block.refcountptr n) (o :: pending) := by
  have hholds {o' : Object} (h' : (st.first o.block.refcountptr n).Holds (o :: pending) o') :
      o' = o ∨ st.Holds pending o' := by
    rcases h' with hlive | hmem
    · exact .inr (.inl hlive)
    · rcases List.mem_cons.mp hmem with rfl | hmem
      · exact .inl rfl
      · exact .inr (.inr hmem)
  have hfreed {a : Area} (hnot : st.freed a = false) :
      (st.first o.block.refcountptr n).freed a = false := by
    simp only [State.first]
    by_cases ha : a = o.block.refcountptr.area
    · rw [ha, Function.update_self]
    · rwa [Function.update_of_ne ha]
  refine ⟨fun c => ?_, fun c hc => ?_, fun o' h' => ?_, fun o₁ o₂ h₁ h₂ href hne => ?_,
    fun b bp hb hbp k hgone => h.alive b bp hb hbp k ?_, h.can⟩
  · simp only [State.first]
    by_cases hc : c = o.block.refcountptr
    · simp [hc]
    · rw [Function.update_of_ne hc]
      exact h.word c
  · simp only [State.first, counted_cons]
    by_cases hnew : c = o.block.refcountptr
    · subst hnew
      obtain ⟨htally, hzero⟩ := counts_nothing hnone
      exact ⟨0, htally, by rw [hzero, Function.update_self, if_pos rfl]⟩
    · obtain ⟨m, htally, hcount⟩ := h.counts c ((hvalid c hc).resolve_left hnew)
      exact ⟨m, htally, by rw [Function.update_of_ne hnew, if_neg (Ne.symm hnew), hcount]; omega⟩
  · rcases hholds h' with rfl | hold
    · exact hplaced
    · exact Placed.mono (h.placed o' hold) (fun _ _ _ hs => hs) hfreed hn
  · rcases hholds h₁ with rfl | hold₁
    · rcases hholds h₂ with rfl | hold₂
      · rfl
      · exact absurd href.symm (hnone o₂ hold₂)
    rcases hholds h₂ with rfl | hold₂
    · exact absurd href (hnone o₁ hold₁)
    · exact h.origins o₁ o₂ hold₁ hold₂ href hne
  · cases hold : st.freed (.memory b k) with
    | true => rfl
    | false => exact absurd (hfreed hold) (by rw [hgone]; decide)

end Jive5ab.Blocks
