import Mathlib

/-! # Words as sets of bits

Inclusion and disjointness of the bits of two words, how many bits a word has,
and shifts by a signed distance. A shift that loses no bits keeps the number of
bits, and is undone by the opposite shift on every part of the word. -/
namespace Jive5ab.Lib.Bits

variable {w : Nat} {x y z : BitVec w}

@[simp] theorem getLsbD_none (i : Nat) : (0 : BitVec w).getLsbD i = false := BitVec.getLsbD_zero

def Within (x y : BitVec w) : Prop := ∀ i, x.getLsbD i = true → y.getLsbD i = true

def Apart (x y : BitVec w) : Prop := ∀ i, x.getLsbD i = true → y.getLsbD i = false

theorem Within.refl (x : BitVec w) : Within x x := fun _ h => h

theorem Within.trans (h : Within x y) (k : Within y z) : Within x z := fun i hi => k i (h i hi)

theorem zero_within (x : BitVec w) : Within 0 x := fun i hi => by simp at hi

theorem Within.or_left (h : Within x z) (k : Within y z) : Within (x ||| y) z := by
  intro i hi
  rw [BitVec.getLsbD_or, Bool.or_eq_true] at hi
  exact hi.elim (h i) (k i)

theorem within_or_left (x y : BitVec w) : Within x (x ||| y) := fun i hi => by
  rw [BitVec.getLsbD_or, hi, Bool.true_or]

theorem within_or_right (x y : BitVec w) : Within y (x ||| y) := fun i hi => by
  rw [BitVec.getLsbD_or, hi, Bool.or_true]

theorem within_iff_and : Within x y ↔ x &&& y = x := by
  constructor
  · intro h
    refine BitVec.eq_of_getLsbD_eq fun i _ => ?_
    rw [BitVec.getLsbD_and]
    cases hx : x.getLsbD i with
    | false => rfl
    | true => rw [h i hx, Bool.and_self]
  · intro h i hi
    rw [← h, BitVec.getLsbD_and, Bool.and_eq_true] at hi
    exact hi.2

theorem Within.antisymm (h : Within x y) (k : Within y x) : x = y := by
  refine BitVec.eq_of_getLsbD_eq fun i _ => ?_
  exact Bool.eq_iff_iff.mpr ⟨h i, k i⟩

theorem Within.zero (h : Within x 0) : x = 0 := by
  refine h.antisymm (zero_within x)

theorem apart_iff_and : Apart x y ↔ x &&& y = 0 := by
  constructor
  · intro h
    refine BitVec.eq_of_getLsbD_eq fun i _ => ?_
    rw [BitVec.getLsbD_and, getLsbD_none]
    cases hx : x.getLsbD i with
    | false => rfl
    | true => rw [h i hx, Bool.and_false]
  · intro h i hi
    have hbit := congrArg (BitVec.getLsbD · i) h
    simp only [BitVec.getLsbD_and, getLsbD_none, hi, Bool.true_and] at hbit
    exact hbit

theorem Apart.symm (h : Apart x y) : Apart y x := fun i hi => by
  cases hx : x.getLsbD i with
  | false => rfl
  | true => exact absurd hi (by rw [h i hx]; decide)

theorem apart_zero (x : BitVec w) : Apart x 0 := fun i _ => getLsbD_none i

theorem Apart.mono {x' y' : BitVec w} (h : Apart x y) (hx : Within x' x) (hy : Within y' y) :
    Apart x' y' := fun i hi => by
  cases hy' : y'.getLsbD i with
  | false => rfl
  | true => exact (Bool.eq_false_iff.mp (h i (hx i hi)) (hy i hy')).elim

theorem Apart.or_right (h : Apart x y) (k : Apart x z) : Apart x (y ||| z) := fun i hi => by
  rw [BitVec.getLsbD_or, h i hi, k i hi, Bool.or_self]

theorem within_not (x y : BitVec w) (h : Apart x y) : Within x (~~~y) := fun i hi => by
  have hlt : i < w := BitVec.lt_of_getLsbD hi
  rw [BitVec.getLsbD_not, h i hi]
  simpa using hlt

theorem apart_not {x y : BitVec w} (h : Within x (~~~y)) : Apart x y := fun i hi => by
  have hbit := h i hi
  rw [BitVec.getLsbD_not, Bool.and_eq_true, Bool.not_eq_true'] at hbit
  exact hbit.2

theorem within_andNot (x y : BitVec w) : Within (x &&& ~~~y) x := fun i hi => by
  rw [BitVec.getLsbD_and, Bool.and_eq_true] at hi
  exact hi.1

theorem apart_andNot (x y : BitVec w) : Apart (x &&& ~~~y) y := by
  refine apart_not fun i hi => ?_
  rw [BitVec.getLsbD_and, Bool.and_eq_true] at hi
  exact hi.2

/-! ## How many bits -/

def card (x : BitVec w) : Nat := (List.range w).countP fun i => x.getLsbD i

theorem card_eq_zero : card x = 0 ↔ x = 0 := by
  unfold card
  rw [List.countP_eq_zero]
  constructor
  · intro h
    refine BitVec.eq_of_getLsbD_eq fun i hi => ?_
    rw [getLsbD_none]
    exact Bool.eq_false_iff.mpr (h i (List.mem_range.mpr hi))
  · intro h i _
    rw [h, getLsbD_none]
    decide

theorem countP_or {α : Type*} (l : List α) (p q : α → Bool) (h : ∀ a, p a = true → q a = false) :
    (l.countP fun a => p a || q a) = l.countP p + l.countP q := by
  induction l with
  | nil => rfl
  | cons a l ih =>
    rw [List.countP_cons, List.countP_cons, List.countP_cons, ih]
    cases hp : p a with
    | false => cases q a <;> simp; omega
    | true => rw [h a hp]; simp; omega

theorem card_or (h : Apart x y) : card (x ||| y) = card x + card y := by
  unfold card
  simp only [BitVec.getLsbD_or]
  exact countP_or _ _ _ h

theorem card_andNot (h : Within y x) : card (x &&& ~~~y) + card y = card x := by
  rw [← card_or (apart_andNot x y)]
  congr 1
  refine Within.antisymm (Within.or_left (within_andNot x y) h) fun i hi => ?_
  have hlt : i < w := BitVec.lt_of_getLsbD hi
  rw [BitVec.getLsbD_or, BitVec.getLsbD_and, BitVec.getLsbD_not, hi]
  cases y.getLsbD i <;> simp [hlt]

theorem countP_range_add (p : Nat → Bool) (m n : Nat) :
    (List.range (m + n)).countP p = (List.range m).countP p + (List.range n).countP fun i => p (m + i) := by
  rw [List.range_add, List.countP_append, List.countP_map]
  rfl

/-- A right shift that drops no bit keeps their number. -/
theorem card_ushiftRight {k : Nat} (h : x >>> k <<< k = x) : card (x >>> k) = card x := by
  have hlow : ∀ i ∈ List.range k, ¬ x.getLsbD i = true := by
    intro i hi
    rw [← h, BitVec.getLsbD_shiftLeft]
    have hik : i < k := List.mem_range.mp hi
    simp [hik]
  have hhigh : ∀ i ∈ List.range k, ¬ x.getLsbD (w + i) = true := by
    intro i _
    rw [BitVec.getLsbD_of_ge x (w + i) (Nat.le_add_right ..)]
    decide
  have hone := countP_range_add (fun i => x.getLsbD i) k w
  have htwo := countP_range_add (fun i => x.getLsbD i) w k
  rw [List.countP_eq_zero.mpr hlow, Nat.zero_add] at hone
  rw [List.countP_eq_zero.mpr hhigh, Nat.add_zero] at htwo
  rw [Nat.add_comm w k, hone] at htwo
  unfold card
  rw [← htwo]
  simp only [BitVec.getLsbD_ushiftRight]

/-! ## Shifts -/

/-- A negative distance goes right. -/
def shiftBy (x : BitVec w) (n : Int) : BitVec w := if n < 0 then x >>> n.natAbs else x <<< n.natAbs

/-- Nothing is lost between the two. -/
def Shifts (x y : BitVec w) (n : Int) : Prop := y = shiftBy x n ∧ x = shiftBy y (-n)

theorem shiftBy_getLsbD (x : BitVec w) (n : Int) (i : Nat) :
    (shiftBy x n).getLsbD i =
      (decide (i < w) && (decide (0 ≤ (i : Int) - n) && x.getLsbD ((i : Int) - n).toNat)) := by
  unfold shiftBy
  split
  · rename_i hn
    rw [BitVec.getLsbD_ushiftRight]
    have hidx : ((i : Int) - n).toNat = n.natAbs + i := by omega
    have hpos : decide (0 ≤ (i : Int) - n) = true := decide_eq_true (by omega)
    rw [hidx, hpos]
    by_cases hi : i < w
    · simp [hi]
    · rw [BitVec.getLsbD_of_ge x (n.natAbs + i) (by omega)]
      simp
  · rename_i hn
    rw [BitVec.getLsbD_shiftLeft]
    by_cases hi : i < n.natAbs
    · have hneg : decide (0 ≤ (i : Int) - n) = false := decide_eq_false (by omega)
      rw [hneg]
      simp [hi]
    · have hidx : ((i : Int) - n).toNat = i - n.natAbs := by omega
      have hpos : decide (0 ≤ (i : Int) - n) = true := decide_eq_true (by omega)
      rw [hpos, hidx]
      simp [hi]

theorem shiftBy_and (x y : BitVec w) (n : Int) : shiftBy (x &&& y) n = shiftBy x n &&& shiftBy y n := by
  refine BitVec.eq_of_getLsbD_eq fun i hi => ?_
  rw [BitVec.getLsbD_and, shiftBy_getLsbD, shiftBy_getLsbD, shiftBy_getLsbD, BitVec.getLsbD_and]
  cases decide (0 ≤ (i : Int) - n) <;> simp [hi]

theorem shiftBy_within {n : Int} (h : Within x y) : Within (shiftBy x n) (shiftBy y n) := by
  rw [within_iff_and] at h ⊢
  rw [← shiftBy_and, h]

theorem Shifts.symm {n : Int} (h : Shifts x y n) : Shifts y x (-n) := ⟨h.2, by rw [Int.neg_neg]; exact h.1⟩

theorem shiftBy_neg (x : BitVec w) (k : Nat) : shiftBy x (-k) = x >>> k := by
  unfold shiftBy
  split
  · rw [Int.natAbs_neg, Int.natAbs_natCast]
  · obtain rfl : k = 0 := by omega
    simp

theorem shiftBy_nat (x : BitVec w) (k : Nat) : shiftBy x k = x <<< k := by
  rw [shiftBy, if_neg (by omega), Int.natAbs_natCast]

/-- What arrives by a right shift was `k` places further left. -/
theorem shifts_right {k : Nat} (h : Within z (x >>> k)) :
    Shifts (z <<< k) z (-k) ∧ Within (z <<< k) x := by
  refine ⟨⟨?_, by rw [Int.neg_neg, shiftBy_nat]⟩, fun i hi => ?_⟩
  · rw [shiftBy_neg]
    refine BitVec.eq_of_getLsbD_eq fun i hi => ?_
    rw [BitVec.getLsbD_ushiftRight, BitVec.getLsbD_shiftLeft]
    cases hz : z.getLsbD i with
    | false => simp [hz]
    | true =>
      have hx := h i hz
      rw [BitVec.getLsbD_ushiftRight] at hx
      have hlt : k + i < w := BitVec.lt_of_getLsbD hx
      simp [hlt, hz]
  · rw [BitVec.getLsbD_shiftLeft, Bool.and_eq_true, Bool.and_eq_true] at hi
    obtain ⟨⟨-, hk⟩, hz⟩ := hi
    have hki : k ≤ i := by simpa using hk
    have hx := h _ hz
    rw [BitVec.getLsbD_ushiftRight, Nat.add_sub_cancel' hki] at hx
    exact hx

theorem shifts_left {k : Nat} (h : Within z (x <<< k)) :
    Shifts (z >>> k) z k ∧ Within (z >>> k) x := by
  refine ⟨⟨?_, by rw [shiftBy_neg]⟩, fun i hi => ?_⟩
  · rw [shiftBy_nat]
    refine BitVec.eq_of_getLsbD_eq fun i hi => ?_
    rw [BitVec.getLsbD_shiftLeft, BitVec.getLsbD_ushiftRight]
    cases hz : z.getLsbD i with
    | false =>
      by_cases hk : i < k
      · simp [hk]
      · rw [Nat.add_sub_cancel' (Nat.not_lt.mp hk), hz, Bool.and_false]
    | true =>
      have hx := h i hz
      rw [BitVec.getLsbD_shiftLeft, Bool.and_eq_true, Bool.and_eq_true] at hx
      have hk : ¬ i < k := by simpa using hx.1.2
      rw [Nat.add_sub_cancel' (Nat.not_lt.mp hk), hz]
      simp [hi, hk]
  · rw [BitVec.getLsbD_ushiftRight] at hi
    have hx := h _ hi
    rw [BitVec.getLsbD_shiftLeft, Bool.and_eq_true, Nat.add_sub_cancel_left] at hx
    exact hx.2

theorem Shifts.ne_zero {n : Int} (h : Shifts x y n) (hy : y ≠ 0) : x ≠ 0 := by
  intro hx
  apply hy
  rw [h.1, hx]
  unfold shiftBy
  split <;> simp

/-- Parts of a word that a shift keeps come back from it. -/
theorem Shifts.back {n : Int} (h : Shifts x y n) (hz : Within z x) :
    shiftBy (shiftBy z n) (-n) = z := by
  refine BitVec.eq_of_getLsbD_eq fun i hi => ?_
  have hxi : x.getLsbD i = (shiftBy (shiftBy x n) (-n)).getLsbD i := by rw [← h.1, ← h.2]
  rw [shiftBy_getLsbD, shiftBy_getLsbD, Int.sub_neg] at hxi ⊢
  have hidx : 0 ≤ (i : Int) + n → (((i : Int) + n).toNat - n : Int).toNat = i := by omega
  cases hzi : z.getLsbD i with
  | true =>
    rw [hz i hzi] at hxi
    have hcond := hxi.symm
    rw [Bool.and_eq_true, Bool.and_eq_true, Bool.and_eq_true, Bool.and_eq_true] at hcond
    obtain ⟨hlt, hpos, hlt', hpos', -⟩ := hcond
    rw [hlt, hpos, hlt', hpos', hidx (of_decide_eq_true hpos), hzi]
    rfl
  | false =>
    by_cases hpos : 0 ≤ (i : Int) + n
    · rw [hidx hpos, hzi]
      simp only [Bool.and_false]
    · rw [decide_eq_false hpos, Bool.false_and, Bool.and_false]

theorem Shifts.card {n : Int} (h : Shifts x y n) : card y = card x := by
  rcases Int.lt_or_le n 0 with hn | hn
  · have hy : y = x >>> n.natAbs := by
      rw [h.1, shiftBy, if_pos hn]
    have hx : x = y <<< n.natAbs := by
      rw [h.2, shiftBy, if_neg (by omega), Int.natAbs_neg]
    rw [hy]
    exact card_ushiftRight (by rw [← hy, ← hx])
  · rcases Int.lt_or_eq_of_le hn with hn | rfl
    · have hx : x = y >>> n.natAbs := by
        rw [h.2, shiftBy, if_pos (by omega), Int.natAbs_neg]
      have hy : y = x <<< n.natAbs := by
        rw [h.1, shiftBy, if_neg (by omega)]
      rw [hx]
      exact (card_ushiftRight (by rw [← hx, ← hy])).symm
    · rw [h.1]
      simp [shiftBy]

end Jive5ab.Lib.Bits
