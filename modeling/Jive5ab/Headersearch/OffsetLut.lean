import Jive5ab.Headersearch.VdifPeriods

/-! # The offset table, for any frame time

`compute_offset_lut` goes from the first frame of a second to the first frame of the next.
How many frames that is, it finds with a cast to `unsigned int` of a fraction; when the cast
is exact, and only then, the table leads from every frame to the start of its period. -/
namespace Jive5ab.Headersearch
open Lib Vdif

/-! ## What the table is for -/

/-- Frame `k`, counted from a whole second at which a period starts. -/
def frameStamp (frametime : ℚ≥0) (start : Int) (k : Nat) : HighResTime :=
  .normalize start (k * frametime)

/-- The entry of a time stamp, added to its whole second, gives the start of the period; from
there it is `k mod q` frames. -/
def LutLaw (frametime : ℚ≥0) : Prop :=
  ∀ (start : Int) (k : Nat),
    let ts := frameStamp frametime start k
    let tsZero := ts.tvSec +
      (computeOffsetLut frametime).getD (moduloPeriod frametime ts.tvSubsecond) 0
    tsZero = start + (k / frametime.den * frametime.num : ℕ) ∧
      (ts.value - tsZero) / frametime = (k % frametime.den : ℕ)

/-! ## Functions onto a range -/

/-- What climbs to every number below `n` in `n` steps climbs one at a time. -/
theorem eq_self_of_onto {f : Nat → Nat} {n : Nat} (hmono : Monotone f) (hzero : f 0 = 0)
    (honto : ∀ j < n, ∃ t < n, f t = j) {t : Nat} (ht : t < n) : f t = t := by
  have hle : ∀ t < n, f t ≤ t := by
    intro t ht
    induction t with
    | zero => exact Nat.le_of_eq hzero
    | succ t ih =>
      obtain ⟨s, -, hs⟩ := honto (t + 1) ht
      have hst : ¬s ≤ t := by
        intro hst
        have hfs := Nat.le_trans (hmono hst) (ih (Nat.lt_of_succ_lt ht))
        omega
      rw [← hs]
      exact hmono (by omega)
  have hge : ∀ d t, t + d + 1 = n → t ≤ f t := by
    intro d
    induction d with
    | zero =>
      intro t htn
      obtain ⟨s, hsn, hs⟩ := honto t (by omega)
      have hfs := hmono (show s ≤ t by omega)
      omega
    | succ d ih =>
      intro t htn
      have hnext := ih (t + 1) (by omega)
      obtain ⟨s, -, hs⟩ := honto t (by omega)
      have hst : s ≤ t := by
        refine Nat.le_of_not_lt fun hlt => ?_
        have hfs := hmono (show t + 1 ≤ s from hlt)
        omega
      have hfs := hmono hst
      omega
  exact Nat.le_antisymm (hle t ht) (hge (n - 1 - t) t (by omega))

/-! ## Seconds and slots -/

/-- Where the entry for frame `m` is. -/
def slot (p q m : Nat) : Nat := m * p % q % p

section
variable {p q : Nat}

theorem slot_lt (hp : 0 < p) (m : Nat) : slot p q m < p := Nat.mod_lt _ hp

theorem slot_dvd (p q m : Nat) : p ∣ m * p / q * q + slot p q m := by
  have hsum : m * p / q * q + m * p % q = m * p := Nat.div_add_mod' (m * p) q
  have hmod : m * p / q * q + slot p q m ≡ m * p / q * q + m * p % q [MOD p] :=
    Nat.ModEq.add_left _ (Nat.mod_modEq _ p)
  rw [hsum] at hmod
  exact (Nat.modEq_zero_iff_dvd).mp (hmod.trans (Nat.modEq_zero_iff_dvd.mpr (Nat.dvd_mul_left p m)))

/-- The frames of one second share a slot. -/
theorem slot_congr (hp : 0 < p) {m m' : Nat} (h : m * p / q = m' * p / q) :
    slot p q m = slot p q m' := by
  have hm := Nat.modEq_zero_iff_dvd.mpr (slot_dvd p q m)
  have hm' := Nat.modEq_zero_iff_dvd.mpr (slot_dvd p q m')
  rw [h] at hm
  have hmod : slot p q m ≡ slot p q m' [MOD p] := Nat.ModEq.add_left_cancel' _ (hm.trans hm'.symm)
  exact hmod.eq_of_lt_of_lt (slot_lt hp m) (slot_lt hp m')

/-- Other seconds of the period have other slots. -/
theorem slot_injective (hcop : p.Coprime q) {m m' : Nat} (hm : m * p / q < p)
    (hm' : m' * p / q < p) (h : slot p q m = slot p q m') : m * p / q = m' * p / q := by
  have hdvd := slot_dvd p q m
  rw [h] at hdvd
  exact second_unique hcop hm hm' hdvd (slot_dvd p q m')

/-- Periods are alike. -/
theorem slot_mod (k : Nat) : slot p q k = slot p q (k % q) := by
  unfold slot
  conv_lhs => rw [← Nat.div_add_mod k q]
  rw [Nat.add_mul, Nat.mul_assoc, Nat.mul_add_mod]

theorem second_mod (hq : 0 < q) (k : Nat) : k * p / q = k / q * p + k % q * p / q := by
  conv_lhs => rw [← Nat.div_add_mod k q]
  rw [Nat.add_mul, Nat.mul_assoc, Nat.mul_add_div hq]

end

variable {frametime : ℚ≥0}

theorem frameStamp_value (frametime : ℚ≥0) (start : Int) (k : Nat) :
    (frameStamp frametime start k).value = start + k * frametime := by
  unfold frameStamp
  rw [normalize_value]
  push_cast
  rfl

theorem frameStamp_split (frametime : ℚ≥0) (start : Int) (k : Nat) :
    (frameStamp frametime start k).tvSec =
        start + (k * frametime.num / frametime.den : ℕ) ∧
      (frameStamp frametime start k).tvSubsecond =
        (k * frametime.num % frametime.den : ℕ) / frametime.den := by
  have hq : (0 : ℚ≥0) < frametime.den := by exact_mod_cast frametime.den_pos
  refine split_value ?_ ?_
  · rw [div_lt_one hq]
    exact_mod_cast Nat.mod_lt _ frametime.den_pos
  · have hq' : (frametime.den : ℚ) ≠ 0 := by exact_mod_cast frametime.den_ne_zero
    have hsum : ((k * frametime.num / frametime.den : ℕ) : ℚ) * frametime.den +
        (k * frametime.num % frametime.den : ℕ) = k * frametime.num := by
      exact_mod_cast Nat.div_add_mod' (k * frametime.num) frametime.den
    generalize k * frametime.num / frametime.den = sec, k * frametime.num % frametime.den = x at hsum ⊢
    rw [frameStamp_value, cast_eq frametime]
    push_cast
    field_simp
    linear_combination -hsum

theorem frameStamp_slot (frametime : ℚ≥0) (start : Int) (k : Nat) :
    moduloPeriod frametime (frameStamp frametime start k).tvSubsecond =
      slot frametime.num frametime.den k := by
  have hss := (frameStamp_split frametime start k).2
  exact moduloPeriod_eq hss (den_dvd hss)

/-! ## The run of the loop -/

/-- The loop after `t` seconds. -/
def lutRun (frametime : ℚ≥0) (t : Nat) : HighResTime × List Int :=
  (List.range t).foldl (lutStep frametime)
    (.normalize 0 frametime, List.replicate frametime.num 0)

/-- The number of frames it goes on from frame `m` in second `t`. -/
def framesOn (frametime : ℚ≥0) (m t : Nat) : Nat :=
  (rationalCastUnsigned ((((t + 1 : ℕ) : ℚ) - m * frametime) / frametime) + 1) % 2 ^ 32

/-- The frame it has come to. -/
def frameAt (frametime : ℚ≥0) : Nat → Nat
  | 0 => 1
  | t + 1 => frameAt frametime t + framesOn frametime (frameAt frametime t) t

theorem lutRun_succ (frametime : ℚ≥0) (t : Nat) :
    lutRun frametime (t + 1) = lutStep frametime (lutRun frametime t) t := by
  rw [lutRun, List.range_succ, List.foldl_append]
  rfl

theorem lutRun_value (frametime : ℚ≥0) (t : Nat) :
    (lutRun frametime t).1.value = frameAt frametime t * frametime := by
  induction t with
  | zero =>
    change (HighResTime.normalize 0 frametime).value = _
    rw [normalize_value, frameAt]
    push_cast
    ring
  | succ t ih =>
    rw [lutRun_succ]
    change (advance (lutRun frametime t).1 (frametime * ((rationalCastUnsigned
      ((((t + 1 : ℕ) : ℚ) - (lutRun frametime t).1.value) / frametime) + 1) % 2 ^ 32 : ℕ))).value = _
    rw [advance_value, ih, frameAt, framesOn]
    push_cast
    ring

theorem lutRun_time (frametime : ℚ≥0) (t : Nat) :
    (lutRun frametime t).1 = frameStamp frametime 0 (frameAt frametime t) := by
  refine value_injective ?_
  rw [lutRun_value, frameStamp_value, Int.cast_zero, zero_add]

/-- One second: the entry for the frame it has come to. -/
theorem lutRun_entries (hsmall : frametime.num < 2 ^ 32) (hp : 0 < frametime.num) (t : Nat) :
    (lutRun frametime (t + 1)).2 = (lutRun frametime t).2.set
      (slot frametime.num frametime.den (frameAt frametime t))
      (-((frameAt frametime t * frametime.num / frametime.den : ℕ) : Int)) := by
  rw [lutRun_succ]
  change (lutRun frametime t).2.set
    (moduloPeriod frametime (lutRun frametime t).1.tvSubsecond % 2 ^ 32)
    (-(lutRun frametime t).1.tvSec) = _
  have hlt := slot_lt hp (q := frametime.den) (frameAt frametime t)
  rw [lutRun_time, frameStamp_slot, Nat.mod_eq_of_lt (Nat.lt_trans hlt hsmall),
    (frameStamp_split frametime 0 _).1, zero_add]

theorem length_lutRun (frametime : ℚ≥0) (t : Nat) :
    (lutRun frametime t).2.length = frametime.num := by
  induction t with
  | zero => exact List.length_replicate
  | succ t ih =>
    rw [lutRun_succ]
    change ((lutRun frametime t).2.set _ _).length = _
    rw [List.length_set, ih]

/-- The entry written last stands. -/
theorem lutRun_last (hsmall : frametime.num < 2 ^ 32) (hp : 0 < frametime.num) (t : Nat) :
    (lutRun frametime (t + 1)).2[slot frametime.num frametime.den (frameAt frametime t)]? =
      some (-((frameAt frametime t * frametime.num / frametime.den : ℕ) : Int)) := by
  rw [lutRun_entries hsmall hp, List.getElem?_set_self]
  rw [length_lutRun]
  exact slot_lt hp _

/-- An entry that is not zero has been written. -/
theorem lutRun_written (hsmall : frametime.num < 2 ^ 32) (hp : 0 < frametime.num) {n i : Nat} {v : Int}
    (h : (lutRun frametime n).2[i]? = some v) (hv : v ≠ 0) :
    ∃ t < n, slot frametime.num frametime.den (frameAt frametime t) = i ∧
      v = -((frameAt frametime t * frametime.num / frametime.den : ℕ) : Int) := by
  induction n with
  | zero =>
    change (List.replicate frametime.num (0 : Int))[i]? = some v at h
    exact absurd (List.mem_replicate.mp (List.mem_of_getElem? h)).2 hv
  | succ n ih =>
    rw [lutRun_entries hsmall hp] at h
    by_cases hi : slot frametime.num frametime.den (frameAt frametime n) = i
    · subst hi
      rw [List.getElem?_set_self (by rw [length_lutRun]; exact slot_lt hp _)] at h
      exact ⟨n, Nat.lt_succ_self n, rfl, (Option.some.inj h).symm⟩
    · rw [List.getElem?_set_ne hi] at h
      obtain ⟨t, ht, hslot, hval⟩ := ih h
      exact ⟨t, Nat.lt_succ_of_lt ht, hslot, hval⟩

/-- When every second of the period has a frame of its own that the loop comes to, every second
has its entry. -/
theorem lutRun_entry (hsmall : frametime.num < 2 ^ 32) (hp : 0 < frametime.num) {n : Nat}
    (hn : n ≤ frametime.num)
    (hsec : ∀ t < n, frameAt frametime t * frametime.num / frametime.den = t) {j : Nat} (hj : j < n) :
    (lutRun frametime n).2[slot frametime.num frametime.den (frameAt frametime j)]? =
      some (-(j : Int)) := by
  induction n with
  | zero => exact absurd hj (Nat.not_lt_zero j)
  | succ n ih =>
    rcases Nat.lt_succ_iff_lt_or_eq.mp hj with hlt | rfl
    · have hne : slot frametime.num frametime.den (frameAt frametime n) ≠
          slot frametime.num frametime.den (frameAt frametime j) := by
        intro heq
        have hsame := slot_injective frametime.coprime_num_den
          (by rw [hsec n (Nat.lt_succ_self n)]; exact hn) (by rw [hsec j hj]; omega) heq
        rw [hsec n (Nat.lt_succ_self n), hsec j hj] at hsame
        omega
      rw [lutRun_entries hsmall hp, List.getElem?_set_ne hne]
      exact ih (Nat.le_of_succ_le hn) (fun t ht => hsec t (Nat.lt_succ_of_lt ht)) hlt
    · rw [lutRun_last hsmall hp, hsec j hj]

/-! ## The cast -/

theorem rationalCastUnsigned_lt {r : ℚ} (hden : r.den ≠ 1) (hlt : r.den < 2 ^ 32) :
    rationalCastUnsigned r + 1 < 2 ^ 32 := by
  have hpos := r.den_pos
  have hnum : (r.num % 2 ^ 32).toNat < 2 ^ 32 := by
    have hmod := Int.emod_lt_of_pos r.num (show (0 : ℤ) < 2 ^ 32 by decide)
    omega
  unfold rationalCastUnsigned
  rw [Nat.mod_eq_of_lt hlt]
  have hdiv : (r.num % 2 ^ 32).toNat / r.den ≤ (r.num % 2 ^ 32).toNat / 2 :=
    Nat.div_le_div_left (by omega) (by decide)
  omega

/-- The reduced fraction is cast. -/
theorem rationalCastUnsigned_gcd {y p : Nat} (hp : 0 < p) (hsmall : p < 2 ^ 32) :
    rationalCastUnsigned ((y : ℚ) / p) = y / y.gcd p % 2 ^ 32 / (p / y.gcd p) := by
  have hg : 0 < y.gcd p := Nat.gcd_pos_of_pos_right y hp
  obtain ⟨a, b, hcop, ha, hb⟩ := Nat.exists_coprime y p
  generalize y.gcd p = g at *
  subst ha hb
  have hbpos : 0 < b := Nat.pos_of_mul_pos_right hp
  have hble : b ≤ b * g := Nat.le_mul_of_pos_right b hg
  have hbpos' : (0 : ℤ) < b := by exact_mod_cast hbpos
  have hratio : ((a * g : ℕ) : ℚ) / (b * g : ℕ) = ((a : ℤ) : ℚ) / ((b : ℤ) : ℚ) := by
    have hg' : (g : ℚ) ≠ 0 := by exact_mod_cast Nat.ne_of_gt hg
    push_cast
    exact mul_div_mul_right _ _ hg'
  have hden : (((a : ℤ) : ℚ) / ((b : ℤ) : ℚ)).den = b := by
    exact_mod_cast Rat.den_div_eq_of_coprime (a := a) (b := b) hbpos' hcop
  rw [hratio, rationalCastUnsigned, Rat.num_div_eq_of_coprime (a := a) (b := b) hbpos' hcop, hden,
    Nat.mod_eq_of_lt (by omega), Nat.mul_div_cancel _ hg, Nat.mul_div_cancel _ hg]
  congr 1

/-- It is exact when the numerator of the reduced fraction is an `unsigned int`. -/
theorem mod_div_eq_iff {a b : Nat} (hb : 0 < b) (hsmall : b < 2 ^ 32) :
    a % 2 ^ 32 / b = a / b ↔ a < 2 ^ 32 := by
  constructor
  · intro h
    refine Nat.lt_of_not_le fun hge => ?_
    have hmod := Nat.mod_add_div a (2 ^ 32)
    have hone : 1 ≤ a / 2 ^ 32 := (Nat.one_le_div_iff (by decide)).mpr hge
    have hmore : a % 2 ^ 32 + b ≤ a := by omega
    have hdiv := Nat.div_le_div_right hmore (c := b)
    rw [Nat.add_div_right _ hb] at hdiv
    omega
  · intro h
    rw [Nat.mod_eq_of_lt h]

/-- The step of the loop, in parts of a frame. -/
theorem framesOn_eq (hp : 0 < frametime.num) (m t : Nat) : framesOn frametime m t =
    (rationalCastUnsigned (((((t + 1) * frametime.den : ℕ) - (m * frametime.num : ℕ) : ℤ) : ℚ) /
      ((frametime.num : ℤ) : ℚ)) + 1) % 2 ^ 32 := by
  have hp' : (frametime.num : ℚ) ≠ 0 := by exact_mod_cast Nat.ne_of_gt hp
  have hq' : (frametime.den : ℚ) ≠ 0 := by exact_mod_cast frametime.den_ne_zero
  have hratio : ((((t + 1 : ℕ) : ℚ) - m * frametime) / frametime) =
      ((((t + 1) * frametime.den : ℕ) - (m * frametime.num : ℕ) : ℤ) : ℚ) /
        ((frametime.num : ℤ) : ℚ) := by
    rw [cast_eq frametime]
    push_cast
    field_simp
  rw [framesOn, hratio]

/-- Within the period it always goes on. -/
theorem framesOn_pos (hp : 0 < frametime.num) (hsmall : frametime.num < 2 ^ 32) (m : Nat) {t : Nat}
    (ht : t + 1 < frametime.num) : 0 < framesOn frametime m t := by
  have hp0 : (frametime.num : ℤ) ≠ 0 := by exact_mod_cast Nat.ne_of_gt hp
  have hndvd : ¬(frametime.num : ℤ) ∣ ((t + 1) * frametime.den : ℕ) - (m * frametime.num : ℕ) := by
    intro hdvd
    have hmul : (frametime.num : ℤ) ∣ (m * frametime.num : ℕ) := by
      exact_mod_cast Nat.dvd_mul_left frametime.num m
    have hsum := (dvd_sub_left hmul).mp hdvd
    have hsum' : frametime.num ∣ (t + 1) * frametime.den := by exact_mod_cast hsum
    have hle := Nat.le_of_dvd (Nat.succ_pos t) (frametime.coprime_num_den.dvd_of_dvd_mul_right hsum')
    omega
  rw [framesOn_eq hp, Nat.mod_eq_of_lt]
  · exact Nat.succ_pos _
  · refine rationalCastUnsigned_lt ?_ ?_
    · rw [Ne, Rat.den_div_intCast_eq_one_iff _ _ hp0]
      exact hndvd
    · have hden := Rat.den_dvd (((t + 1) * frametime.den : ℕ) - (m * frametime.num : ℕ)) frametime.num
      rw [Rat.divInt_eq_div] at hden
      exact Nat.lt_of_le_of_lt (Nat.le_of_dvd hp (Int.natCast_dvd_natCast.mp hden)) hsmall

/-! ## The exact casts -/

/-- From the first frame of second `t` to the end of the second, in parts of a frame. -/
def gap (p q t : Nat) : Nat := (t + 1) * q - firstFrame p q t * p

/-- More than a frame a second, a period that is an `unsigned int`, and a gap that is one in
lowest terms for every second of it. -/
structure TableExact (frametime : ℚ≥0) : Prop where
  quick : frametime.num < frametime.den
  small : frametime.num < 2 ^ 32
  gaps : ∀ t, t + 1 < frametime.num →
    gap frametime.num frametime.den t /
      (gap frametime.num frametime.den t).gcd frametime.num < 2 ^ 32

theorem tableExact_of_quick (h : Quick frametime) : TableExact frametime where
  quick := h.num_lt
  small := Nat.lt_trans h.num_lt h.den_lt
  gaps := by
    intro t _
    have hwithin := @firstFrame_within frametime.num frametime.den h.num_pos t
    have hden := h.den_lt
    refine Nat.lt_of_le_of_lt (Nat.div_le_self _ _) ?_
    unfold gap
    rw [Nat.succ_mul]
    omega

theorem gap_add {p q : Nat} (hp : 0 < p) (hpq : p < q) (t : Nat) :
    gap p q t + firstFrame p q t * p = (t + 1) * q := by
  have hwithin := @firstFrame_within p q hp t
  unfold gap
  rw [Nat.succ_mul]
  omega

theorem not_dvd_gap {p q : Nat} (hp : 0 < p) (hpq : p < q) (hcop : p.Coprime q) {t : Nat}
    (ht : t + 1 < p) : ¬p ∣ gap p q t := by
  intro hdvd
  have hsum : p ∣ (t + 1) * q := by
    rw [← gap_add hp hpq]
    exact Nat.dvd_add hdvd (Nat.dvd_mul_left p _)
  have hle := Nat.le_of_dvd (Nat.succ_pos t) (hcop.dvd_of_dvd_mul_right hsum)
  omega

/-- From the first frame of a second, the loop comes to the first frame of the next exactly when
the cast is exact. -/
theorem framesOn_first (hp : 0 < frametime.num) (hpq : frametime.num < frametime.den)
    (hsmall : frametime.num < 2 ^ 32) {t : Nat} (ht : t + 1 < frametime.num) :
    framesOn frametime (firstFrame frametime.num frametime.den t) t ≤
        gap frametime.num frametime.den t / frametime.num + 1 ∧
      (framesOn frametime (firstFrame frametime.num frametime.den t) t =
          gap frametime.num frametime.den t / frametime.num + 1 ↔
        gap frametime.num frametime.den t /
          (gap frametime.num frametime.den t).gcd frametime.num < 2 ^ 32) := by
  have hndvd := not_dvd_gap hp hpq frametime.coprime_num_den ht
  have hadd := gap_add hp hpq t
  rw [framesOn_eq hp]
  generalize firstFrame frametime.num frametime.den t = m at *
  generalize hy : gap frametime.num frametime.den t = y at *
  have hratio : ((((t + 1) * frametime.den : ℕ) - (m * frametime.num : ℕ) : ℤ) : ℚ) /
      ((frametime.num : ℤ) : ℚ) = (y : ℚ) / frametime.num := by
    rw [← hadd]
    push_cast
    ring
  have hg : 0 < y.gcd frametime.num := Nat.gcd_pos_of_pos_right y hp
  have hquot : y / frametime.num = y / y.gcd frametime.num / (frametime.num / y.gcd frametime.num) := by
    rw [Nat.div_div_eq_div_mul, Nat.mul_div_cancel' (Nat.gcd_dvd_right y frametime.num)]
  have hb : 2 ≤ frametime.num / y.gcd frametime.num := by
    have hpos := Nat.div_pos (Nat.gcd_le_right y hp) hg
    refine Nat.lt_of_le_of_ne hpos fun hone => hndvd ?_
    have hprod := Nat.div_mul_cancel (Nat.gcd_dvd_right y frametime.num)
    rw [← hone, Nat.one_mul] at hprod
    rw [← hprod]
    exact Nat.gcd_dvd_left y frametime.num
  have hbp : frametime.num / y.gcd frametime.num ≤ frametime.num := Nat.div_le_self _ _
  rw [hratio, rationalCastUnsigned_gcd hp hsmall, hquot]
  generalize y / y.gcd frametime.num = a, frametime.num / y.gcd frametime.num = b at *
  have hhalf : a % 2 ^ 32 / b ≤ a % 2 ^ 32 / 2 := Nat.div_le_div_left hb (by decide)
  rw [Nat.mod_eq_of_lt (by omega), Nat.add_right_cancel_iff, mod_div_eq_iff (by omega) (by omega)]
  exact ⟨Nat.succ_le_succ (Nat.div_le_div_right (Nat.mod_le a _)), Iff.rfl⟩

/-! ## When the law holds -/

/-- The entry for the second of frame `k`, in the first period. -/
theorem computeOffsetLut_entry (hp : 0 < frametime.num) (hsmall : frametime.num < 2 ^ 32)
    (hsec : ∀ t < frametime.num, frameAt frametime t * frametime.num / frametime.den = t) {k : Nat}
    (hk : k < frametime.den) :
    (computeOffsetLut frametime).getD (slot frametime.num frametime.den k) 0 =
      -((k * frametime.num / frametime.den : ℕ) : Int) := by
  have hj : k * frametime.num / frametime.den < frametime.num :=
    (Nat.div_lt_iff_lt_mul frametime.den_pos).mpr (by
      rw [Nat.mul_comm]
      exact Nat.mul_lt_mul_of_pos_left hk hp)
  have hentry := lutRun_entry hsmall hp (Nat.le_refl _) hsec hj
  rw [slot_congr hp (hsec _ hj)] at hentry
  rw [List.getD_eq_getElem?_getD]
  change ((lutRun frametime frametime.num).2[_]?).getD 0 = _
  rw [hentry, Option.getD_some]

/-- It is enough that the loop comes to every second. -/
theorem lutLaw_of_seconds (hp : 0 < frametime.num) (hsmall : frametime.num < 2 ^ 32)
    (hsec : ∀ t < frametime.num, frameAt frametime t * frametime.num / frametime.den = t) :
    LutLaw frametime := by
  intro start k
  have hzero : (frameStamp frametime start k).tvSec + (computeOffsetLut frametime).getD
      (moduloPeriod frametime (frameStamp frametime start k).tvSubsecond) 0 =
      start + (k / frametime.den * frametime.num : ℕ) := by
    rw [frameStamp_slot, slot_mod, computeOffsetLut_entry hp hsmall hsec
      (Nat.mod_lt k frametime.den_pos), (frameStamp_split frametime start k).1,
      second_mod frametime.den_pos k]
    push_cast
    ring
  refine ⟨hzero, ?_⟩
  have hp' : (frametime.num : ℚ) ≠ 0 := by exact_mod_cast Nat.ne_of_gt hp
  have hq' : (frametime.den : ℚ) ≠ 0 := by exact_mod_cast frametime.den_ne_zero
  have hk : ((k / frametime.den : ℕ) : ℚ) * frametime.den + (k % frametime.den : ℕ) = k := by
    exact_mod_cast Nat.div_add_mod' k frametime.den
  generalize k / frametime.den = period, k % frametime.den = n at hk hzero ⊢
  rw [hzero, frameStamp_value, cast_eq frametime]
  push_cast
  field_simp
  linear_combination -(frametime.num : ℚ) * hk

/-- With exact casts the loop comes to the first frame of every second. -/
theorem frameAt_eq (hp : 0 < frametime.num) (h : TableExact frametime) {t : Nat}
    (ht : t < frametime.num) : frameAt frametime t = firstFrame frametime.num frametime.den t := by
  induction t with
  | zero =>
    rw [frameAt, firstFrame, Nat.zero_mul, Nat.zero_div]
  | succ t ih =>
    have hon := (framesOn_first hp h.quick h.small ht).2.mpr (h.gaps t ht)
    rw [frameAt, ih (Nat.lt_of_succ_lt ht), hon, firstFrame_succ hp h.quick]
    rfl

theorem second_firstFrame {p q : Nat} (hp : 0 < p) (hpq : p < q) (t : Nat) :
    firstFrame p q t * p / q = t := by
  have hwithin := @firstFrame_within p q hp t
  rw [Nat.div_eq_iff (by omega)]
  omega

theorem TableExact.law (hp : 0 < frametime.num) (h : TableExact frametime) : LutLaw frametime :=
  lutLaw_of_seconds hp h.small fun t ht => by
    rw [frameAt_eq hp h ht, second_firstFrame hp h.quick]

/-- The entry that the law asks for, in the first period. -/
theorem LutLaw.entry (h : LutLaw frametime) {k : Nat} (hk : k < frametime.den) :
    (computeOffsetLut frametime).getD (slot frametime.num frametime.den k) 0 =
      -((k * frametime.num / frametime.den : ℕ) : Int) := by
  have hzero := (h 0 k).1
  rw [frameStamp_slot, (frameStamp_split frametime 0 k).1, Nat.div_eq_of_lt hk, Nat.zero_mul,
    Nat.cast_zero] at hzero
  omega

theorem frameAt_mono (frametime : ℚ≥0) : Monotone (frameAt frametime) :=
  monotone_nat_of_le_succ fun _ => Nat.le_add_right _ _

theorem lt_frameAt (hp : 0 < frametime.num) (hsmall : frametime.num < 2 ^ 32) {t : Nat}
    (ht : t < frametime.num) : t < frameAt frametime t := by
  induction t with
  | zero => exact Nat.one_pos
  | succ t ih =>
    have hon := framesOn_pos hp hsmall (frameAt frametime t) ht
    have hprev := ih (Nat.lt_of_succ_lt ht)
    rw [frameAt]
    omega

/-- The last entry is that of a frame of the first period. -/
theorem LutLaw.frameAt_lt (h : LutLaw frametime) (hp : 0 < frametime.num)
    (hsmall : frametime.num < 2 ^ 32) {t : Nat} (ht : t < frametime.num) :
    frameAt frametime t < frametime.den := by
  obtain ⟨n, hn⟩ : ∃ n, frametime.num = n + 1 := ⟨frametime.num - 1, by omega⟩
  refine Nat.lt_of_le_of_lt (frameAt_mono frametime (show t ≤ n by omega)) ?_
  have hlast := lutRun_last hsmall hp n
  rw [← hn] at hlast
  have hzero := (h 0 (frameAt frametime n)).1
  rw [frameStamp_slot, (frameStamp_split frametime 0 _).1, List.getD_eq_getElem?_getD] at hzero
  change _ + ((lutRun frametime frametime.num).2[_]?).getD 0 = _ at hzero
  rw [hlast, Option.getD_some] at hzero
  have hperiods : frameAt frametime n / frametime.den * frametime.num = 0 := by
    omega
  rcases Nat.mul_eq_zero.mp hperiods with hnone | hnum
  · exact Nat.lt_of_div_eq_zero frametime.den_pos hnone
  · exact absurd hnum (Nat.ne_of_gt hp)

/-- Where the law holds there is more than a frame a second. -/
theorem LutLaw.quick (h : LutLaw frametime) (hp : 0 < frametime.num)
    (hsmall : frametime.num < 2 ^ 32) : frametime.num < frametime.den := by
  have hlast : frametime.num - 1 < frametime.num := Nat.sub_one_lt_of_lt hp
  have hlow := lt_frameAt hp hsmall hlast
  have hhigh := h.frameAt_lt hp hsmall hlast
  omega

/-- Where the law holds the loop comes to every second. -/
theorem LutLaw.seconds (h : LutLaw frametime) (hp : 0 < frametime.num)
    (hsmall : frametime.num < 2 ^ 32) {t : Nat} (ht : t < frametime.num) :
    frameAt frametime t * frametime.num / frametime.den = t := by
  have hpq := h.quick hp hsmall
  have hzero : frameAt frametime 0 * frametime.num / frametime.den = 0 := by
    rw [frameAt, Nat.one_mul]
    exact Nat.div_eq_of_lt hpq
  refine eq_self_of_onto (f := fun t => frameAt frametime t * frametime.num / frametime.den)
    (fun a b hab => ?_) hzero (fun j hj => ?_) ht
  · exact Nat.div_le_div_right (Nat.mul_le_mul_right _ (frameAt_mono frametime hab))
  · rcases Nat.eq_zero_or_pos j with rfl | hpos
    · exact ⟨0, hj, hzero⟩
    -- the first frame of second `j` has an entry of its own, so it has been written
    · have hfirst := second_firstFrame hp hpq j
      have hk : firstFrame frametime.num frametime.den j < frametime.den := by
        refine Nat.lt_of_mul_lt_mul_right (a := frametime.num) ?_
        have hwithin := @firstFrame_within frametime.num frametime.den hp j
        have hjq : (j + 1) * frametime.den ≤ frametime.num * frametime.den :=
          Nat.mul_le_mul_right _ hj
        rw [Nat.succ_mul] at hjq
        rw [Nat.mul_comm frametime.den]
        omega
      have hentry := h.entry hk
      rw [hfirst, List.getD_eq_getElem?_getD] at hentry
      change ((lutRun frametime frametime.num).2[_]?).getD 0 = _ at hentry
      generalize hget : (lutRun frametime frametime.num).2[slot frametime.num frametime.den
        (firstFrame frametime.num frametime.den j)]? = o at hentry
      cases o with
      | none =>
        rw [Option.getD_none] at hentry
        omega
      | some v =>
        rw [Option.getD_some] at hentry
        obtain ⟨s, hs, -, hval⟩ := lutRun_written hsmall hp hget (by omega)
        exact ⟨s, hs, by omega⟩

theorem LutLaw.exact (h : LutLaw frametime) (hp : 0 < frametime.num)
    (hsmall : frametime.num < 2 ^ 32) : TableExact frametime := by
  have hpq := h.quick hp hsmall
  have hstep : ∀ t, t + 1 < frametime.num →
      frameAt frametime t = firstFrame frametime.num frametime.den t →
      framesOn frametime (firstFrame frametime.num frametime.den t) t =
        gap frametime.num frametime.den t / frametime.num + 1 := by
    intro t ht hfirst
    refine Nat.le_antisymm (framesOn_first hp hpq hsmall ht).1 ?_
    have hsec := h.seconds hp hsmall ht
    rw [frameAt, hfirst] at hsec
    generalize framesOn frametime _ t = n at hsec ⊢
    have hadd := gap_add hp hpq t
    have hndvd := not_dvd_gap hp hpq frametime.coprime_num_den ht
    have hlow := Nat.div_mul_le_self ((firstFrame frametime.num frametime.den t + n) * frametime.num)
      frametime.den
    rw [hsec, ← hadd, Nat.add_mul, Nat.add_comm] at hlow
    have hne : gap frametime.num frametime.den t ≠ n * frametime.num :=
      fun heq => hndvd (heq ▸ Nat.dvd_mul_left _ n)
    exact (Nat.div_lt_iff_lt_mul hp).mpr (by omega)
  have hfirst : ∀ t < frametime.num,
      frameAt frametime t = firstFrame frametime.num frametime.den t := by
    intro t ht
    induction t with
    | zero => rw [frameAt, firstFrame, Nat.zero_mul, Nat.zero_div]
    | succ t ih =>
      have hprev := ih (Nat.lt_of_succ_lt ht)
      rw [frameAt, hprev, hstep t ht hprev, firstFrame_succ hp hpq]
      rfl
  exact {
    quick := hpq
    small := hsmall
    gaps := fun t ht => (framesOn_first hp hpq hsmall ht).2.mp
      (hstep t ht (hfirst t (Nat.lt_of_succ_lt ht))) }

theorem offsetLut_law (frametime : ℚ≥0) (hpos : 0 < frametime) :
    (TableExact frametime → LutLaw frametime) ∧
      (frametime.num < 2 ^ 32 → LutLaw frametime → TableExact frametime) :=
  have hp : 0 < frametime.num := NNRat.num_pos.mpr hpos
  ⟨TableExact.law hp, fun hsmall h => h.exact hp hsmall⟩

/-- Seven frames in three seconds. -/
theorem offsetLut_law_sevenths : (TableExact (3 / 7) → LutLaw (3 / 7)) ∧
    ((3 / 7 : ℚ≥0).num < 2 ^ 32 → LutLaw (3 / 7) → TableExact (3 / 7)) :=
  offsetLut_law (3 / 7) (by norm_num)

/-- Two frames in three seconds: `-1/3` is cast, and the loop goes off into the future. -/
theorem offsetLut_slow : computeOffsetLut (3 / 2) = [0, -4294967299, 0] ∧ ¬LutLaw (3 / 2) := by
  have hnum : (3 / 2 : ℚ≥0).num = 3 := by decide +kernel
  have hden : (3 / 2 : ℚ≥0).den = 2 := by decide +kernel
  refine ⟨by decide +kernel, fun h => ?_⟩
  have hquick := h.quick (by rw [hnum]; decide) (by rw [hnum]; decide)
  rw [hnum, hden] at hquick
  exact absurd hquick (by decide)

end Jive5ab.Headersearch
