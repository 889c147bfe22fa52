import Mathlib

/-! # Occurrences of a word

Where a word of `m` characters occurs in a text, and which of its occurrences are met by one who
always goes on behind the last. For a word that repeats a shorter one these can be told from the
repetitions before. -/
namespace Jive5ab.Lib

variable {α : Type}

def Occurs (word : Nat → α) (m : Nat) (text : Nat → α) (p : Nat) : Prop :=
  ∀ t < m, text (p + t) = word t

instance [DecidableEq α] (word : Nat → α) (m : Nat) (text : Nat → α) (p : Nat) :
    Decidable (Occurs word m text p) := by
  unfold Occurs
  infer_instance

/-- The first occurrence from `s` on, in the first `n` characters of the text. -/
structure FirstFrom (word : Nat → α) (m : Nat) (text : Nat → α) (n s p : Nat) : Prop where
  ge : s ≤ p
  le : p + m ≤ n
  occurs : Occurs word m text p
  first : ∀ q, s ≤ q → q < p → ¬Occurs word m text q

variable {word text : Nat → α} {m n s p q : Nat}

theorem FirstFrom.unique {p' : Nat} (h : FirstFrom word m text n s p)
    (h' : FirstFrom word m text n s p') : p = p' := by
  by_contra hne
  obtain hlt | hlt := Nat.lt_or_gt_of_ne hne
  · exact h'.first p h.ge hlt h.occurs
  · exact h.first p' h'.ge hlt h'.occurs

theorem firstFrom_self (hle : s + m ≤ n) (h : Occurs word m text s) :
    FirstFrom word m text n s s :=
  ⟨Nat.le_refl s, hle, h, fun _ hge hlt => absurd hge (Nat.not_le.mpr hlt)⟩

theorem exists_firstFrom (hsq : s ≤ q) (hle : q + m ≤ n) (h : Occurs word m text q) :
    ∃ p, p ≤ q ∧ FirstFrom word m text n s p := by
  classical
  have hex : ∃ p, s ≤ p ∧ Occurs word m text p := ⟨q, hsq, h⟩
  have hmin : Nat.find hex ≤ q := Nat.find_min' hex ⟨hsq, h⟩
  refine ⟨Nat.find hex, hmin, (Nat.find_spec hex).1, by omega, (Nat.find_spec hex).2, ?_⟩
  exact fun r hr hlt hocc => Nat.find_min hex hlt ⟨hr, hocc⟩

/-! ## One behind the other -/

/-- The occurrence at `q` is met from `s` on, by one who goes on behind each that is met. -/
inductive Reaches (word : Nat → α) (m : Nat) (text : Nat → α) (n q : Nat) : Nat → Prop
  | here {s : Nat} (h : FirstFrom word m text n s q) : Reaches word m text n q s
  | behind {s p : Nat} (h : FirstFrom word m text n s p) (hq : Reaches word m text n q (p + m)) :
    Reaches word m text n q s

theorem Reaches.le (h : Reaches word m text n q s) : s ≤ q := by
  induction h with
  | here h => exact h.ge
  | behind h _ ih => exact Nat.le_trans h.ge (Nat.le_trans (Nat.le_add_right _ m) ih)

theorem Reaches.fits (h : Reaches word m text n q s) : q + m ≤ n := by
  induction h with
  | here h => exact h.le
  | behind _ _ ih => exact ih

/-- What is met from `s` on occurs, so there is a first. -/
theorem Reaches.exists_first (h : Reaches word m text n q s) :
    ∃ p, FirstFrom word m text n s p := by
  cases h with
  | here h => exact ⟨q, h⟩
  | @behind _ p h _ => exact ⟨p, h⟩

theorem reaches_behind_iff (h : FirstFrom word m text n s p) (hne : p ≠ q) :
    Reaches word m text n q s ↔ Reaches word m text n q (p + m) := by
  constructor
  · intro hreach
    cases hreach with
    | here h' => exact absurd (h.unique h') hne
    | behind h' hq => rwa [h.unique h']
  · exact .behind h

/-- What comes before the first occurrence makes no difference. -/
theorem reaches_first_iff (h : FirstFrom word m text n s p) :
    Reaches word m text n q s ↔ Reaches word m text n q p := by
  have hself := firstFrom_self h.le h.occurs
  by_cases hpq : p = q
  · subst hpq
    exact iff_of_true (.here h) (.here hself)
  · rw [reaches_behind_iff h hpq, reaches_behind_iff hself hpq]

/-! ## Words that repeat a shorter one -/

/-- The word is a number of copies of its first `u` characters. -/
structure Repeats (word : Nat → α) (m u k : Nat) : Prop where
  pos : 0 < u
  copies_pos : 0 < k
  length : m = k * u
  eq : ∀ t, t + u < m → word (t + u) = word t
  /-- No shorter one is repeated: the word does not overlap itself otherwise. -/
  aligned : ∀ d, 0 < d → d < m → (∀ t, t + d < m → word (t + d) = word t) → u ∣ d

/-- How many copies of the first `u` characters of the word come directly before `q`. -/
def copies [DecidableEq α] (word : Nat → α) (u : Nat) (text : Nat → α) : Nat → Nat → Nat
  | 0, _ => 0
  | fuel + 1, q =>
    if u ≤ q ∧ Occurs word u text (q - u) then copies word u text fuel (q - u) + 1 else 0

def copiesBefore [DecidableEq α] (word : Nat → α) (u : Nat) (text : Nat → α) (q : Nat) : Nat :=
  copies word u text q q

variable {u k : Nat}

theorem Repeats.eq_mul (h : Repeats word m u k) {t j : Nat} (ht : t + j * u < m) :
    word (t + j * u) = word t := by
  induction j with
  | zero => rw [Nat.zero_mul, Nat.add_zero]
  | succ j ih =>
    rw [Nat.succ_mul, ← Nat.add_assoc] at ht ⊢
    rw [h.eq _ ht, ih (by omega)]

/-- A copy before an occurrence makes another. -/
theorem Repeats.occurs_copy (h : Repeats word m u k) (hcopy : Occurs word u text p)
    (hocc : Occurs word m text (p + u)) : Occurs word m text p := by
  intro t ht
  by_cases htu : t < u
  · exact hcopy t htu
  · have hmoved := hocc (t - u) (by omega)
    have hword := h.eq (t - u) (by omega)
    have hplace : p + u + (t - u) = p + t := by omega
    have hplace' : t - u + u = t := by omega
    rw [hplace] at hmoved
    rw [hplace'] at hword
    rw [hmoved, hword]

/-- The first of the copies before an occurrence: from there on the word occurs behind every copy,
and another copy does not come before. -/
theorem Repeats.copies_spec [DecidableEq α] (h : Repeats word m u k) {fuel : Nat}
    (hfuel : q ≤ fuel) (hocc : Occurs word m text q) :
    copies word u text fuel q * u ≤ q ∧
      (∀ i ≤ copies word u text fuel q, Occurs word m text (q - i * u)) ∧
      (u ≤ q - copies word u text fuel q * u →
        ¬Occurs word u text (q - copies word u text fuel q * u - u)) := by
  induction fuel generalizing q with
  | zero =>
    refine ⟨by rw [copies]; omega, fun i hi => ?_, fun hle => ?_⟩
    · rw [copies] at hi
      rw [Nat.le_zero.mp hi, Nat.zero_mul]
      exact hocc
    · have := h.pos
      omega
  | succ fuel ih =>
    rw [copies]
    split
    · rename_i hcopy
      obtain ⟨huq, hcopy⟩ := hcopy
      have hupos := h.pos
      have hback : q - u + u = q := Nat.sub_add_cancel huq
      obtain ⟨hle, hall, hlast⟩ := @ih (q - u) (by omega) (h.occurs_copy hcopy (by rwa [hback]))
      generalize copies word u text fuel (q - u) = c at hle hall hlast
      have hmul : (c + 1) * u = c * u + u := Nat.succ_mul c u
      have hplace : q - (c + 1) * u = q - u - c * u := by omega
      refine ⟨by omega, fun i hi => ?_, ?_⟩
      · cases i with
        | zero =>
          rw [Nat.zero_mul]
          exact hocc
        | succ i =>
          have hi' := hall i (by omega)
          have hplace : q - (i + 1) * u = q - u - i * u := by
            rw [Nat.succ_mul]
            omega
          rwa [hplace]
      · rw [hplace]
        exact hlast
    · rename_i hnone
      rw [Nat.zero_mul, Nat.sub_zero]
      refine ⟨Nat.zero_le q, fun i hi => ?_, fun hle hcopy => hnone ⟨hle, hcopy⟩⟩
      rw [Nat.le_zero.mp hi, Nat.zero_mul]
      exact hocc

/-- An occurrence before the first of the copies ends there at the latest. -/
theorem Repeats.before (h : Repeats word m u k) {a : Nat} (ha : Occurs word m text a)
    (hlast : u ≤ a → ¬Occurs word u text (a - u)) (hp : Occurs word m text p) (hpa : p < a) :
    p + m ≤ a := by
  by_contra hover
  obtain ⟨d, rfl⟩ : ∃ d, a = p + d := ⟨a - p, by omega⟩
  have hdvd : u ∣ d := by
    refine h.aligned d (by omega) (by omega) fun t ht => ?_
    have hright := hp (t + d) ht
    have hleft := ha t (by omega)
    have hplace : p + d + t = p + (t + d) := by omega
    rw [hplace] at hleft
    rw [← hright, hleft]
  obtain ⟨j, rfl⟩ := hdvd
  have hj : 0 < j := Nat.pos_of_ne_zero fun hj => by
    rw [hj, Nat.mul_zero] at hpa
    omega
  have hjmul : u * j = (j - 1) * u + u := by
    rw [Nat.mul_comm u, ← Nat.succ_mul]
    congr 1
    omega
  refine hlast (by omega) fun t ht => ?_
  have hplace : p + u * j - u + t = p + (t + (j - 1) * u) := by omega
  rw [hplace, hp _ (by omega), h.eq_mul (by omega)]

/-- An occurrence is met exactly if the copies before it make up whole words. -/
theorem Repeats.reaches_iff [DecidableEq α] (h : Repeats word m u k) (hocc : Occurs word m text q)
    (hle : q + m ≤ n) : Reaches word m text n q 0 ↔ k ∣ copiesBefore word u text q := by
  obtain ⟨hcu, hall, hlast⟩ := h.copies_spec (Nat.le_refl q) hocc
  unfold copiesBefore
  generalize copies word u text q q = c at hcu hall hlast
  have hmpos : 0 < m := h.length ▸ Nat.mul_pos h.copies_pos h.pos
  have hfit : q - c * u + m ≤ n := by omega
  have hstart : Occurs word m text (q - c * u) := hall c (Nat.le_refl c)
  -- all that is met before the copies ends before them
  have hskip (s : Nat) (hs : s ≤ q - c * u) :
      Reaches word m text n q s ↔ Reaches word m text n q (q - c * u) := by
    induction hd : q - c * u - s using Nat.strong_induction_on generalizing s with
    | _ d ih =>
      obtain ⟨p, hpa, hfirst⟩ := exists_firstFrom hs hfit hstart
      obtain rfl | hlt := Nat.eq_or_lt_of_le hpa
      · exact reaches_first_iff hfirst
      · have hend := h.before hstart hlast hfirst.occurs hlt
        have hge := hfirst.ge
        rw [reaches_behind_iff hfirst (by omega)]
        exact ih _ (by omega) (p + m) hend rfl
  -- from there on the word is met behind each that is met
  have hwhole (i : Nat) (hi : i ≤ c) : Reaches word m text n q (q - i * u) ↔ k ∣ i := by
    induction i using Nat.strong_induction_on with
    | _ i ih =>
      have hself := firstFrom_self (show q - i * u + m ≤ n by omega) (hall i hi)
      rcases Nat.eq_zero_or_pos i with rfl | hpos
      · rw [Nat.zero_mul, Nat.sub_zero] at hself ⊢
        exact iff_of_true (.here hself) (Nat.dvd_zero k)
      · have hiu : 0 < i * u := Nat.mul_pos hpos h.pos
        have hicu : i * u ≤ c * u := Nat.mul_le_mul_right u hi
        rw [reaches_behind_iff hself (by omega)]
        by_cases hki : k ≤ i
        · have hkpos := h.copies_pos
          have hplace : q - i * u + m = q - (i - k) * u := by
            have hmul : (i - k) * u = i * u - k * u := Nat.sub_mul i k u
            have hkiu : k * u ≤ i * u := Nat.mul_le_mul_right u hki
            rw [h.length]
            omega
          rw [hplace, ih (i - k) (by omega) (by omega)]
          exact (Nat.dvd_sub_iff_left hki (Nat.dvd_refl k))
        · have hiku : i * u < k * u := Nat.mul_lt_mul_of_pos_right (by omega) h.pos
          refine iff_of_false (fun hreach => ?_) fun hdvd => ?_
          · have := hreach.le
            have := h.length
            omega
          · have := Nat.le_of_dvd hpos hdvd
            omega
  rw [hskip 0 (Nat.zero_le _)]
  exact hwhole c (Nat.le_refl c)

end Jive5ab.Lib
