import Mathlib

/-! # One machine per key

A stream of inputs with keys, and for each key a machine of its own that takes the inputs of that
key. Interleaving does not matter: what one machine does is what it does alone. -/
namespace Jive5ab.Lib

variable {κ σ α β : Type*}

/-- A machine that puts out a list at each input. -/
def machineRun (f : σ → α → σ × List β) (init : σ) (l : List α) : σ × List β :=
  l.foldl (fun s a => ((f s.1 a).1, s.2 ++ (f s.1 a).2)) (init, [])

theorem machineRun_append (f : σ → α → σ × List β) (init : σ) (l : List α) (a : α) :
    machineRun f init (l ++ [a]) =
      ((f (machineRun f init l).1 a).1,
        (machineRun f init l).2 ++ (f (machineRun f init l).1 a).2) := by
  unfold machineRun
  rw [List.foldl_append, List.foldl_cons, List.foldl_nil]

variable [DecidableEq κ]

/-- The machine of the key moves; what it puts out is marked with the key. -/
def perKeyStep (key : α → κ) (f : σ → α → σ × List β) (s : (κ → σ) × List (κ × β)) (a : α) :
    (κ → σ) × List (κ × β) :=
  let r := f (s.1 (key a)) a
  (Function.update s.1 (key a) r.1, s.2 ++ r.2.map fun b => (key a, b))

def perKeyRun (key : α → κ) (f : σ → α → σ × List β) (init : σ) (l : List α) :
    (κ → σ) × List (κ × β) :=
  l.foldl (perKeyStep key f) (fun _ => init, [])

def ofKey (key : α → κ) (k : κ) (l : List α) : List α := l.filter fun a => key a = k

variable (key : α → κ) (f : σ → α → σ × List β) (init : σ)

@[simp] theorem perKeyRun_nil : perKeyRun key f init [] = (fun _ => init, []) := rfl

theorem perKeyRun_append (l : List α) (a : α) :
    perKeyRun key f init (l ++ [a]) = perKeyStep key f (perKeyRun key f init l) a := by
  unfold perKeyRun
  rw [List.foldl_append, List.foldl_cons, List.foldl_nil]

theorem ofKey_append_self (l : List α) (a : α) :
    ofKey key (key a) (l ++ [a]) = ofKey key (key a) l ++ [a] := by
  simp [ofKey]

theorem ofKey_append_other {k : κ} (l : List α) {a : α} (h : key a ≠ k) :
    ofKey key k (l ++ [a]) = ofKey key k l := by
  simp [ofKey, h]

/-- The machine of a key has seen the inputs of that key, and no others. -/
theorem perKeyRun_eq (l : List α) (k : κ) :
    (perKeyRun key f init l).1 k = (machineRun f init (ofKey key k l)).1 ∧
      ((perKeyRun key f init l).2.filter fun o => o.1 = k).map Prod.snd =
        (machineRun f init (ofKey key k l)).2 := by
  induction l using List.reverseRecOn generalizing k with
  | nil => exact ⟨rfl, rfl⟩
  | append_singleton l a ih =>
    obtain ⟨hstate, hout⟩ := ih k
    rw [perKeyRun_append]
    unfold perKeyStep
    dsimp only
    rw [List.filter_append, List.map_append, hout]
    by_cases hk : key a = k
    · subst hk
      rw [ofKey_append_self, machineRun_append, Function.update_self, hstate]
      refine ⟨rfl, ?_⟩
      rw [List.filter_eq_self.mpr (by simp), List.map_map]
      simp [Function.comp_def]
    · rw [ofKey_append_other key l hk, Function.update_of_ne (Ne.symm hk)]
      refine ⟨hstate, ?_⟩
      rw [List.filter_eq_nil_iff.mpr (by simp [hk]), List.map_nil, List.append_nil]

/-- An output came from an input of its key. -/
theorem perKeyRun_mem {l : List α} {o : κ × β} (h : o ∈ (perKeyRun key f init l).2) :
    o.2 ∈ (machineRun f init (ofKey key o.1 l)).2 := by
  rw [← (perKeyRun_eq key f init l o.1).2]
  exact List.mem_map_of_mem (List.mem_filter.mpr ⟨h, by simp⟩)

/-! ## Numbering -/

/-- Every input gets the number of its key, which counts up. -/
def numbered (count : κ → Nat) : List κ → List (κ × Nat)
  | [] => []
  | k :: ks => (k, count k) :: numbered (Function.update count k (count k + 1)) ks

theorem numbered_of_key (count : κ → Nat) (ks : List κ) (k : κ) :
    ((numbered count ks).filter fun e => e.1 = k).map Prod.snd =
      List.range' (count k) (ks.count k) := by
  induction ks generalizing count with
  | nil => rfl
  | cons first ks ih =>
    rw [numbered]
    by_cases hk : first = k
    · subst hk
      rw [List.filter_cons_of_pos (by simp), List.map_cons, ih, Function.update_self,
        List.count_cons_self, List.range'_succ]
    · rw [List.filter_cons_of_neg (by simp [hk]), ih, Function.update_of_ne (Ne.symm hk),
        List.count_cons_of_ne hk]

theorem mem_numbered {count : κ → Nat} {ks : List κ} {k : κ} {n : Nat} :
    (k, n) ∈ numbered count ks ↔ count k ≤ n ∧ n < count k + ks.count k := by
  have hmem : (k, n) ∈ numbered count ks ↔
      n ∈ ((numbered count ks).filter fun e => e.1 = k).map Prod.snd := by
    simp
  rw [hmem, numbered_of_key, List.mem_range'_1]

theorem numbered_nodup (count : κ → Nat) (ks : List κ) : (numbered count ks).Nodup := by
  induction ks generalizing count with
  | nil => exact List.nodup_nil
  | cons k ks ih =>
    refine List.nodup_cons.mpr ⟨fun hmem => ?_, ih _⟩
    have hle := (mem_numbered.mp hmem).1
    rw [Function.update_self] at hle
    exact Nat.not_succ_le_self _ hle

end Jive5ab.Lib
