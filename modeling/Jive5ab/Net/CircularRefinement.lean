import Jive5ab.Net.CircularBuffer
import Jive5ab.Lib.Checked

/-! # `circular_buffer` keeps the most recent elements

The invariant says where in the ring the list lies. Every call keeps it while
twice the capacity is an `unsigned int`; from `2^31` elements on the count of a
full buffer wraps when it is filled again. -/
namespace Jive5ab.Net

open Jive5ab.Lib

variable {α : Type} {c : Nat}

theorem ok_bind {β : Type} (x : α) (f : α → Except CircularError β) : (Except.ok x >>= f) = f x := rfl

/-- The buffer holds `l`, oldest first. -/
structure Stores (c : Nat) (b : CircularBuffer α) (l : List α) : Prop where
  capacity : b.capacity = c
  cells : b.elements.size = c + 1
  count : b.nelements = l.length
  fits : l.length ≤ c
  read : b.readPtr ≤ c
  write : b.writePtr ≤ c
  behind : b.writePtr ≡ b.readPtr + l.length [MOD c]
  holds : Ring.Holds b.elements.cell c b.readPtr l

namespace Stores

theorem make (hmax : c < 2 ^ 31) : Stores c (CircularBuffer.make c : CircularBuffer α) [] where
  capacity := rfl
  cells := plus_eq (by omega)
  count := rfl
  fits := Nat.zero_le c
  read := Nat.zero_le c
  write := Nat.zero_le c
  behind := rfl
  holds := Ring.Holds.nil _ _ _

variable {b : CircularBuffer α} {l : List α}

theorem clear (h : Stores c b l) : Stores c b.clear [] where
  capacity := h.capacity
  cells := h.cells
  count := rfl
  fits := Nat.zero_le c
  read := Nat.zero_le c
  write := Nat.zero_le c
  behind := rfl
  holds := Ring.Holds.nil _ _ _

theorem copyOf_eq (h : Stores c b l) (hmax : c < 2 ^ 31) : b.copyOf =
    .ok { b with elements := ⟨c + 1, fun j => if j < c then b.elements.cell j else none⟩ } := by
  have hsize : plus b.capacity 1 = c + 1 := by rw [h.capacity, plus_eq (by omega)]
  have hcopy := Elements.copy_eq (Elements.new (c + 1)) b.elements.cell
    (show 0 + c ≤ (Elements.new (c + 1) : Elements α).size by simp [Elements.new])
  rw [CircularBuffer.copyOf, hsize, h.capacity, hcopy]
  simp only [Nat.zero_le, true_and, Nat.zero_add, Nat.sub_zero, Elements.new]
  rfl

theorem copyOf (h : Stores c b l) (hc : 1 ≤ c) (hmax : c < 2 ^ 31) :
    ∃ b', b.copyOf = .ok b' ∧ Stores c b' l := by
  refine ⟨_, h.copyOf_eq hmax, h.capacity, rfl, h.count, h.fits, h.read, h.write, h.behind,
    fun i hi => ?_⟩
  have hlt : (b.readPtr + i) % c < c := Nat.mod_lt _ hc
  simp only [hlt, if_true]
  exact h.holds i hi

/-! ## `pop` -/

/-- Up to the end of the ring, then from its beginning. -/
theorem readAll (h : Stores c b l) {n : Nat} (hn : n ≤ l.length) :
    b.elements.read b.readPtr (min (c - b.readPtr) n) = .ok ((l.take n).take (c - b.readPtr)) ∧
    b.elements.read 0 (n - min (c - b.readPtr) n) = .ok ((l.take n).drop (c - b.readPtr)) := by
  have hfits := h.fits
  have hread := h.read
  have hcells := h.cells
  constructor
  · have hlen : ((l.take n).take (c - b.readPtr)).length = min (c - b.readPtr) n := by
      simp only [List.length_take]
      omega
    rw [← hlen]
    refine Elements.read_eq (by rw [hlen, hcells]; omega) fun i hi => ?_
    rw [hlen] at hi
    have hat := h.holds i (by omega)
    rw [Nat.mod_eq_of_lt (by omega)] at hat
    simp [hat]
  · have hlen : ((l.take n).drop (c - b.readPtr)).length = n - min (c - b.readPtr) n := by
      simp only [List.length_drop, List.length_take]
      omega
    rw [← hlen]
    refine Elements.read_eq (by rw [hlen, hcells]; omega) fun i hi => ?_
    rw [hlen] at hi
    have hat := h.holds (c - b.readPtr + i) (by omega)
    rw [show b.readPtr + (c - b.readPtr + i) = c + i by omega, Nat.add_mod_left,
      Nat.mod_eq_of_lt (by omega)] at hat
    simp [hat]

/-- The position one past the last cell is kept, further ones start again. -/
def advanced (c p n : Nat) : Nat := if c < p + n then p + n - c else p + n

theorem advanced_le {p n : Nat} (hp : p ≤ c) (hn : n ≤ c) : advanced c p n ≤ c := by
  unfold advanced
  split <;> omega

theorem advanced_modEq (p n : Nat) : advanced c p n ≡ p + n [MOD c] := by
  unfold advanced
  split
  case isTrue h =>
    exact (Nat.mod_eq_sub_mod (by omega)).symm
  case isFalse h => rfl

theorem pop_eq (h : Stores c b l) (hmax : c < 2 ^ 31) {n : Nat} (hn : n ≤ l.length) :
    b.pop n = (.ok (l.take n),
      { b with readPtr := advanced c b.readPtr n, nelements := l.length - n }) := by
  have hfits := h.fits
  have hread := h.read
  obtain ⟨hfront, hback⟩ := h.readAll hn
  have hend : minus c b.readPtr = c - b.readPtr := minus_eq h.read (by omega)
  have hbegin : minus n (min (c - b.readPtr) n) = n - min (c - b.readPtr) n :=
    minus_eq (by omega) (by omega)
  have hnext : plus b.readPtr n = b.readPtr + n := plus_eq (by omega)
  have hcount : minus b.nelements n = l.length - n := by rw [h.count, minus_eq hn (by omega)]
  have hle : ¬ b.nelements < n := by rw [h.count]; omega
  have hptr : (if c < b.readPtr + n then n - min (c - b.readPtr) n else b.readPtr + n) =
      advanced c b.readPtr n := by
    unfold advanced
    split <;> omega
  rw [CircularBuffer.pop, if_neg hle]
  simp only [h.capacity, hend, hbegin, hnext, hcount, Nat.zero_max, hfront, hback, hptr]
  change (Except.ok (_ ++ _), _) = _
  rw [List.take_append_drop]

theorem pop (h : Stores c b l) (hmax : c < 2 ^ 31) {n : Nat} (hn : n ≤ l.length) :
    ∃ b', b.pop n = (.ok (l.take n), b') ∧ Stores c b' (l.drop n) := by
  have hfits := h.fits
  refine ⟨_, h.pop_eq hmax hn, h.capacity, h.cells, ?_, ?_, ?_, h.write, ?_, ?_⟩
  · rw [List.length_drop]
  · rw [List.length_drop]
    omega
  · exact advanced_le h.read (by omega)
  · have hsum : b.readPtr + n + (l.length - n) = b.readPtr + l.length := by omega
    calc b.writePtr ≡ b.readPtr + l.length [MOD c] := h.behind
      _ = b.readPtr + n + (l.drop n).length := by rw [List.length_drop, hsum]
      _ ≡ advanced c b.readPtr n + (l.drop n).length [MOD c] :=
        (advanced_modEq b.readPtr n).symm.add_right _
  · exact (h.holds.drop n).congr (advanced_modEq b.readPtr n)

/-! ## `push` -/

/-- More than the whole ring: only the last elements are written, into an empty one. -/
theorem push_long (h : Stores c b l) {ptr : List α} (hlen : ptr.length < 2 ^ 32)
    (hlong : c < ptr.length) : b.push ptr = b.clear.push (ptr.drop (ptr.length - c)) := by
  have hskip : minus ptr.length c = ptr.length - c := minus_eq (by omega) hlen
  have hzero : minus c c = 0 := by rw [minus_eq (le_refl c) (by omega), Nat.sub_self]
  have hrest : minus ptr.length (ptr.length - c) = c := by
    rw [minus_eq (by omega) hlen]
    omega
  have hall : minus c 0 = c := minus_eq (Nat.zero_le c) (by omega)
  have hkept : ptr.length - (ptr.length - c) = c := by omega
  have hne : ptr.length - c ≠ 0 := by omega
  have hshort : ¬ ptr.length < c := by omega
  rw [CircularBuffer.push, CircularBuffer.push]
  simp only [CircularBuffer.clear, h.capacity, List.length_drop, hkept, if_neg hshort, hskip, hrest,
    hzero, lt_irrefl, if_false, hall, ne_eq, hne, not_false_eq_true, if_true, not_true_eq_false,
    List.getElem?_drop, Nat.zero_add, Nat.add_assoc]

/-- What the ring holds once `xs` is written from `w` on. -/
def written (c : Nat) (cell : Nat → Option α) (w : Nat) (xs : List α) (j : Nat) : Option α :=
  if j < xs.length - (c - w) then xs[min (c - w) xs.length + j]?
  else if w ≤ j ∧ j < w + min (c - w) xs.length then xs[j - w]? else cell j

theorem push_eq (h : Stores c b l) (hmax : c < 2 ^ 31) {ptr : List α} (hfit : ptr.length ≤ c) :
    b.push ptr = .ok { b with
      elements := ⟨c + 1, written c b.elements.cell b.writePtr ptr⟩
      writePtr := advanced c b.writePtr ptr.length
      readPtr := if c < l.length + ptr.length then advanced c b.writePtr ptr.length else b.readPtr
      nelements := min c (l.length + ptr.length) } := by
  have hfits := h.fits
  have hwrite := h.write
  have hcells := h.cells
  have hskip : (if ptr.length < c then 0 else minus ptr.length c) = 0 := by
    split
    case isTrue => rfl
    case isFalse hge =>
      rw [show ptr.length = c by omega, minus_eq (le_refl c) (by omega), Nat.sub_self]
  have hncpy : minus ptr.length 0 = ptr.length := minus_eq (Nat.zero_le _) (by omega)
  have hcount : plus b.nelements ptr.length = l.length + ptr.length := by
    rw [h.count, plus_eq (by omega)]
  have hend : minus c b.writePtr = c - b.writePtr := minus_eq h.write (by omega)
  have hbegin : minus ptr.length (min (c - b.writePtr) ptr.length) = ptr.length - (c - b.writePtr) := by
    rw [minus_eq (by omega) (by omega)]
    omega
  have hnext : plus b.writePtr ptr.length = b.writePtr + ptr.length := plus_eq (by omega)
  have hptr : (if c < b.writePtr + ptr.length then ptr.length - (c - b.writePtr)
      else b.writePtr + ptr.length) = advanced c b.writePtr ptr.length := by
    unfold advanced
    split <;> omega
  have hroom : b.writePtr + min (c - b.writePtr) ptr.length ≤ b.elements.size := by omega
  have hfirst := Elements.copy_eq b.elements (fun i => ptr[i]?) hroom
  rw [CircularBuffer.push]
  simp only [h.capacity, hskip, ne_eq, not_true_eq_false, if_false, hncpy, hcount, hend, hbegin,
    hnext, Nat.zero_max, hptr, Nat.zero_add, hfirst]
  rw [ok_bind, Elements.copy_eq]
  · simp only [ok_bind, Nat.zero_le, true_and, Nat.zero_add, Nat.sub_zero, hcells]
    rfl
  · simp only [hcells]
    omega

theorem push_short (h : Stores c b l) (hmax : c < 2 ^ 31) {ptr : List α} (hfit : ptr.length ≤ c) :
    ∃ b', b.push ptr = .ok b' ∧ Stores c b' (Recent.keep c (l ++ ptr)) := by
  have hfits := h.fits
  have hlen : (Recent.keep c (l ++ ptr)).length = min c (l.length + ptr.length) := by
    rw [Recent.keep, List.length_drop, List.length_append]
    omega
  have hnext : advanced c b.writePtr ptr.length ≤ c := advanced_le h.write hfit
  have hend : advanced c b.writePtr ptr.length ≡ b.readPtr + (l.length + ptr.length) [MOD c] := by
    calc advanced c b.writePtr ptr.length ≡ b.writePtr + ptr.length [MOD c] := advanced_modEq _ _
      _ ≡ b.readPtr + l.length + ptr.length [MOD c] := h.behind.add_right _
      _ = b.readPtr + (l.length + ptr.length) := Nat.add_assoc ..
  have hwritten : Ring.Written b.elements.cell (written c b.elements.cell b.writePtr ptr) c
      b.writePtr ptr := Ring.written_of_split h.write hfit fun _ => rfl
  have hholds := h.holds.append h.behind hwritten (k := l.length + ptr.length - c) (by omega)
  refine ⟨_, h.push_eq hmax hfit, h.capacity, rfl, hlen.symm, by omega, ?_, hnext, ?_, ?_⟩
  · dsimp only
    split
    case isTrue => exact hnext
    case isFalse => exact h.read
  · dsimp only
    rw [hlen]
    split
    case isTrue hfull => rw [Nat.min_eq_left (by omega)]; exact (Nat.add_mod_right _ _).symm
    case isFalse hroom => rwa [Nat.min_eq_right (by omega)]
  · rw [Recent.keep, List.length_append]
    refine hholds.congr ?_
    dsimp only
    split
    case isTrue hfull =>
      have hsum : b.readPtr + (l.length + ptr.length) =
          b.readPtr + (l.length + ptr.length - c) + c := by omega
      rw [hsum] at hend
      exact hend.trans (Nat.add_mod_right _ _)
    case isFalse hroom => rw [Nat.sub_eq_zero_of_le (by omega), Nat.add_zero]

theorem push (h : Stores c b l) (hmax : c < 2 ^ 31) {ptr : List α} (hlen : ptr.length < 2 ^ 32) :
    ∃ b', b.push ptr = .ok b' ∧ Stores c b' (Recent.keep c (l ++ ptr)) := by
  by_cases hlong : c < ptr.length
  · have hkept : (ptr.drop (ptr.length - c)).length = c := by
      rw [List.length_drop]
      omega
    have hsame : Recent.keep c ([] ++ ptr.drop (ptr.length - c)) = Recent.keep c (l ++ ptr) := by
      have hall : l.drop (l.length + ptr.length - c) = [] := List.drop_eq_nil_of_le (by omega)
      rw [Recent.keep, Recent.keep, List.nil_append, hkept, Nat.sub_self, List.drop_zero,
        List.length_append, List.drop_append, hall, List.nil_append]
      congr 1
      omega
    rw [h.push_long hlen hlong, ← hsame]
    exact h.clear.push_short hmax hkept.le
  · exact h.push_short hmax (Nat.not_lt.mp hlong)

/-! ## `operator[]` -/

theorem load (h : Stores c b l) {i : Nat} (hi : i < l.length) {j : Nat} (hj : j < c)
    (hat : j ≡ b.readPtr + i [MOD c]) : b.elements.load j = .ok l[i] := by
  have hcells := h.cells
  have hcell := h.holds i hi
  rw [← hat, Nat.mod_eq_of_lt hj] at hcell
  rw [Elements.load, if_pos (by omega), hcell]
  rfl

/-- From the read position on. -/
theorem get_oldest (h : Stores c b l) (hmax : c < 2 ^ 31) (i : Nat) :
    b.get (i : Int) = Recent.get l i := by
  have hfits := h.fits
  have hread := h.read
  have hpos : (0 : Int) ≤ i := Int.natCast_nonneg i
  rw [CircularBuffer.get, Recent.get, h.capacity, h.count]
  simp only [hpos, if_true, Int.natAbs_natCast, Int.toNat_natCast, true_and, not_lt.mpr hpos,
    false_and, or_false]
  split
  case isTrue hge =>
    rw [List.getElem?_eq_none hge]
    rfl
  case isFalse hlt =>
    have hi : i < l.length := Nat.not_le.mp hlt
    rw [List.getElem?_eq_getElem hi, plus_eq (by omega), Nat.add_comm i]
    change (b.elements.load _) = .ok l[i]
    split
    case isTrue hwrap =>
      rw [minus_eq hwrap (by omega)]
      exact h.load hi (by omega) (Nat.mod_eq_sub_mod hwrap).symm
    case isFalse hin => exact h.load hi (by omega) rfl

/-- Back from the write position. -/
theorem get_newest (h : Stores c b l) (hmax : c < 2 ^ 31) {n : Nat} (hn : 0 < n) :
    b.get (-(n : Int)) = Recent.get l (-(n : Int)) := by
  have hfits := h.fits
  have hwrite := h.write
  have hneg : ¬ (0 : Int) ≤ -(n : Int) := by omega
  rw [CircularBuffer.get, Recent.get, h.capacity, h.count]
  simp only [hneg, if_false, Int.natAbs_neg, Int.natAbs_natCast, false_and, false_or,
    not_le.mp hneg, true_and]
  split
  case isTrue hgt =>
    rw [List.getElem?_eq_none (by rw [List.length_reverse]; omega)]
    rfl
  case isFalse hle =>
    have hi : n - 1 < l.reverse.length := by rw [List.length_reverse]; omega
    rw [List.getElem?_eq_getElem hi, List.getElem_reverse]
    change (b.elements.load _) = .ok _
    have hat : b.writePtr + c ≡ b.readPtr + (l.length - 1 - (n - 1)) + n [MOD c] := by
      calc b.writePtr + c ≡ b.writePtr [MOD c] := Nat.add_mod_right _ _
        _ ≡ b.readPtr + l.length [MOD c] := h.behind
        _ = b.readPtr + (l.length - 1 - (n - 1)) + n := by omega
    split
    case isTrue hwrap =>
      rw [minus_eq (by omega) (by omega), plus_eq (by omega)]
      refine h.load (by omega) (by omega) (Nat.ModEq.add_right_cancel' n ?_)
      rwa [show c - n + b.writePtr + n = b.writePtr + c by omega]
    case isFalse hin =>
      rw [minus_eq (by omega) (by omega)]
      refine h.load (by omega) (by omega) (Nat.ModEq.add_right_cancel' n ?_)
      rw [Nat.sub_add_cancel (by omega)]
      exact (Nat.add_mod_right _ _).symm.trans hat

theorem get (h : Stores c b l) (hmax : c < 2 ^ 31) (idx : Int) : b.get idx = Recent.get l idx := by
  rcases lt_or_ge idx 0 with hneg | hpos
  · have hidx : idx = -(idx.natAbs : Int) := by omega
    rw [hidx]
    exact h.get_newest hmax (by omega)
  · obtain ⟨i, rfl⟩ := Int.eq_ofNat_of_zero_le hpos
    exact h.get_oldest hmax i

/-! ## Every call, every run -/

/-- What `pop` does to either, whether or not there are enough elements. -/
theorem call_pop (h : Stores c b l) (hmax : c < 2 ^ 31) (n : Nat) :
    (b.pop n).1 = (Recent.pop l n).1 ∧ Stores c (b.pop n).2 (Recent.pop l n).2 := by
  by_cases hn : l.length < n
  · have hfew : b.nelements < n := by rw [h.count]; exact hn
    rw [Recent.pop, if_pos hn, CircularBuffer.pop, if_pos hfew]
    exact ⟨rfl, h⟩
  · obtain ⟨b', heq, hb'⟩ := h.pop hmax (Nat.not_lt.mp hn)
    rw [Recent.pop, if_neg hn, heq]
    exact ⟨rfl, hb'⟩

theorem call (h : Stores c b l) (hc : 1 ≤ c) (hmax : c < 2 ^ 31) {op : CircularOp α}
    (hop : op.Valid) :
    (b.call op).1 = (Recent.call c l op).1 ∧ Stores c (b.call op).2 (Recent.call c l op).2 := by
  have hpush {ptr : List α} (hlen : ptr.length < 2 ^ 32) :
      (b.mutate (b.push ptr)).1 = .ok [] ∧
        Stores c (b.mutate (b.push ptr)).2 (Recent.keep c (l ++ ptr)) := by
    obtain ⟨b', heq, hb'⟩ := h.push hmax hlen
    rw [heq]
    exact ⟨rfl, hb'⟩
  cases op with
  | pushOne x => exact @hpush [x] (by simp)
  | push ptr => exact hpush hop
  | popOne => exact h.call_pop hmax 1
  | pop n => exact h.call_pop hmax n
  | clear => exact ⟨rfl, h.clear⟩
  | copied =>
    obtain ⟨b', heq, hb'⟩ := h.copyOf hc hmax
    simp only [CircularBuffer.call, heq]
    exact ⟨rfl, hb'⟩

theorem run (h : Stores c b l) (hc : 1 ≤ c) (hmax : c < 2 ^ 31) {ops : List (CircularOp α)}
    (hops : ∀ op ∈ ops, op.Valid) :
    (b.run ops).1 = (Recent.run c l ops).1 ∧ Stores c (b.run ops).2 (Recent.run c l ops).2 := by
  induction ops generalizing b l with
  | nil => exact ⟨rfl, h⟩
  | cons op ops ih =>
    obtain ⟨hop, hrest⟩ := List.forall_mem_cons.mp hops
    obtain ⟨hsame, hnext⟩ := h.call hc hmax hop
    obtain ⟨hsames, hlast⟩ := ih hnext hrest
    simp only [CircularBuffer.run, Recent.run, hsame, hsames]
    exact ⟨trivial, hlast⟩

end Stores

/-! ## The refinement, and how far it goes -/

/-- After every sequence of calls on a new buffer: the calls returned and threw what
the list's do, and so do `size` and every index of type `int`. -/
def KeepsRecent (α : Type) (c : Nat) : Prop :=
  ∀ ops : List (CircularOp α), (∀ op ∈ ops, op.Valid) →
    ((CircularBuffer.make c).run ops).1 = (Recent.run c [] ops).1 ∧
    ((CircularBuffer.make c).run ops).2.size = (Recent.run c [] ops).2.length ∧
    ∀ idx : Int, -2 ^ 31 ≤ idx → idx < 2 ^ 31 →
      ((CircularBuffer.make c).run ops).2.get idx = Recent.get (Recent.run c [] ops).2 idx

theorem keepsRecent_of_lt (hc : 1 ≤ c) (hmax : c < 2 ^ 31) : KeepsRecent α c := by
  intro ops hops
  obtain ⟨hsame, hstores⟩ := (Stores.make hmax).run hc hmax hops
  exact ⟨hsame, hstores.count, fun idx _ _ => hstores.get hmax idx⟩

/-- What a push that went well leaves as the count. -/
theorem push_count {b b' : CircularBuffer α} {ptr : List α} (hfull : ptr.length = b.capacity)
    (hcap : b.capacity < 2 ^ 32) (h : b.push ptr = .ok b') :
    b'.capacity = b.capacity ∧ b'.nelements = min b.capacity (plus b.nelements b.capacity) := by
  have hzero : minus b.capacity b.capacity = 0 := by rw [minus_eq (le_refl _) hcap, Nat.sub_self]
  have hall : minus b.capacity 0 = b.capacity := minus_eq (Nat.zero_le _) hcap
  rw [CircularBuffer.push] at h
  simp only [hfull, lt_irrefl, if_false, hzero, ne_eq, not_true_eq_false, hall] at h
  obtain ⟨e, -, h⟩ := Checked.bind_eq_ok.mp h
  obtain ⟨e', -, h⟩ := Checked.bind_eq_ok.mp h
  cases h
  exact ⟨rfl, rfl⟩

theorem call_push_ok {b b' : CircularBuffer α} {ptr : List α}
    (h : b.call (.push ptr) = (.ok [], b')) : b.push ptr = .ok b' := by
  simp only [CircularBuffer.call] at h
  generalize b.push ptr = r at h ⊢
  cases r with
  | ok b'' => cases h; rfl
  | error e => cases h

theorem plus_self {c : Nat} (hc : 2 ^ 31 ≤ c) (h32 : c < 2 ^ 32) : plus c c < c := by
  have hle : 2 ^ 32 ≤ c + c := by omega
  rw [plus, Nat.mod_eq_sub_mod hle, Nat.mod_eq_of_lt (by omega)]
  omega

theorem length_keep_append {l ptr : List α} (h : c ≤ ptr.length) :
    (Recent.keep c (l ++ ptr)).length = c := by
  rw [Recent.keep, List.length_drop, List.length_append]
  omega

/-- Filling a full buffer once more: the count of twice the capacity has wrapped. -/
theorem push_twice {b b' b'' : CircularBuffer α} {ptr : List α} (hc : 2 ^ 31 ≤ c) (h32 : c < 2 ^ 32)
    (hcap : b.capacity = c) (hempty : b.nelements = 0) (hlen : ptr.length = c)
    (hfirst : b.push ptr = .ok b') (hsecond : b'.push ptr = .ok b'') : b''.size < c := by
  subst hcap
  obtain ⟨hcap', hcount⟩ := push_count hlen h32 hfirst
  obtain ⟨-, hcount'⟩ := push_count (hlen.trans hcap'.symm) (hcap'.trans_lt h32) hsecond
  have hwrapped := plus_self hc h32
  have hfull : plus 0 b.capacity = b.capacity := by rw [plus_eq (by omega), Nat.zero_add]
  rw [hempty, hfull, Nat.min_self] at hcount
  rw [CircularBuffer.size, hcount', hcount, hcap']
  exact (Nat.min_le_right _ _).trans_lt hwrapped

theorem run_pair {b b' b'' : CircularBuffer α} {op op' : CircularOp α}
    {r r' : Except CircularError (List α)} (h : b.call op = (r, b')) (h' : b'.call op' = (r', b'')) :
    b.run [op, op'] = ([r, r'], b'') := by
  simp only [CircularBuffer.run, h, h']

theorem size_of_pair {b : CircularBuffer α} {ptr : List α} (hc : 2 ^ 31 ≤ c) (h32 : c < 2 ^ 32)
    (hcap : b.capacity = c) (hempty : b.nelements = 0) (hlen : ptr.length = c)
    (h : (b.run [.push ptr, .push ptr]).1 = [.ok [], .ok []]) :
    (b.run [.push ptr, .push ptr]).2.size < c := by
  rcases hfirst : b.call (.push ptr) with ⟨r, b'⟩
  rcases hsecond : b'.call (.push ptr) with ⟨r', b''⟩
  rw [run_pair hfirst hsecond] at h ⊢
  obtain ⟨rfl, hrest⟩ := List.cons.inj h
  obtain ⟨rfl, -⟩ := List.cons.inj hrest
  exact push_twice hc h32 hcap hempty hlen (call_push_ok hfirst) (call_push_ok hsecond)

theorem recent_pair {l ptr : List α} (h : c ≤ ptr.length) :
    (Recent.run c l [.push ptr, .push ptr]).1 = [.ok [], .ok []] ∧
    (Recent.run c l [.push ptr, .push ptr]).2.length = c :=
  ⟨rfl, length_keep_append h⟩

theorem not_keepsRecent (hc : 2 ^ 31 ≤ c) (h32 : c < 2 ^ 32) (x : α) : ¬ KeepsRecent α c := by
  intro h
  have hlen : (List.replicate c x).length = c := List.length_replicate
  have hvalid : (CircularOp.push (List.replicate c x)).Valid := hlen.trans_lt h32
  obtain ⟨hsame, hsize, -⟩ := h [.push (List.replicate c x), .push (List.replicate c x)]
    (List.forall_mem_cons.mpr ⟨hvalid, List.forall_mem_singleton.mpr hvalid⟩)
  obtain ⟨hok, hfull⟩ := @recent_pair α c [] _ hlen.ge
  have hless := size_of_pair hc h32 rfl rfl hlen (hsame.trans hok)
  exact hless.ne (hsize.trans hfull)

/-- The buffer is the list of its most recent elements exactly if twice its
capacity is an `unsigned int`. -/
theorem keepsRecent_iff (hc : 1 ≤ c) (h32 : c < 2 ^ 32) (x : α) :
    KeepsRecent α c ↔ c < 2 ^ 31 := by
  refine ⟨fun h => ?_, keepsRecent_of_lt hc⟩
  by_contra hle
  exact not_keepsRecent (Nat.not_lt.mp hle) h32 x h

/-- Sequence numbers, in a buffer of 32 of them. -/
theorem keepsRecent_psn : (1 ≤ 32 ∧ 32 < 2 ^ 32) ∧ (KeepsRecent UInt64 32 ↔ 32 < 2 ^ 31) :=
  ⟨by decide, keepsRecent_iff (by decide) (by decide) 0⟩

/-- The smallest capacity that fails. -/
theorem not_keepsRecent_largest : ¬ KeepsRecent UInt64 (2 ^ 31) :=
  not_keepsRecent (le_refl _) (by decide) 0

end Jive5ab.Net
