import Mathlib

/-! # Arithmetic that is watched

Computations in machine words that may throw. In the watched version of one, a step
that would leave the words or divide by zero ends it with a fault; as long as none
does, it is the computation itself. -/
namespace Jive5ab.Lib.Checked

variable {ε α β : Type}

inductive Fault (ε : Type)
  | wraps
  | dividesByZero
  | throws (e : ε)

abbrev Watched (ε α : Type) := Except (Fault ε) α

def throws (e : ε) : Watched ε α := .error (.throws e)

def sub (a b : UInt32) : Watched ε UInt32 := if b ≤ a then .ok (a - b) else .error .wraps

def add (a b : UInt32) : Watched ε UInt32 :=
  if a.toNat + b.toNat < 2 ^ 32 then .ok (a + b) else .error .wraps

def mul (a b : UInt32) : Watched ε UInt32 :=
  if a.toNat * b.toNat < 2 ^ 32 then .ok (a * b) else .error .wraps

def div (a b : UInt32) : Watched ε UInt32 :=
  if b = 0 then .error .dividesByZero else .ok (a / b)

def mod (a b : UInt32) : Watched ε UInt32 :=
  if b = 0 then .error .dividesByZero else .ok (a % b)

/-- It may throw, but no step of it is a fault. -/
def Faultless : Watched ε α → Prop
  | .error .wraps => False
  | .error .dividesByZero => False
  | _ => True

instance : DecidablePred (Faultless : Watched ε α → Prop)
  | .ok _ => .isTrue trivial
  | .error (.throws _) => .isTrue trivial
  | .error .wraps => .isFalse id
  | .error .dividesByZero => .isFalse id

/-- What the watched computation makes of it, faults apart. -/
def Watches (x : Watched ε α) (y : Except ε α) : Prop :=
  match x with
  | .ok a => y = .ok a
  | .error (.throws e) => y = .error e
  | _ => True

theorem faultless_ok (a : α) : Faultless (.ok a : Watched ε α) := trivial

theorem faultless_throws (e : ε) : Faultless (throws e : Watched ε α) := trivial

theorem faultless_bind {x : Watched ε α} {f : α → Watched ε β} :
    Faultless (x >>= f) ↔ Faultless x ∧ ∀ a, x = .ok a → Faultless (f a) := by
  cases x with
  | ok a => exact ⟨fun h => ⟨trivial, fun b hb => Except.ok.inj hb ▸ h⟩, fun h => h.2 a rfl⟩
  | error e =>
    cases e with
    | throws e => exact ⟨fun _ => ⟨trivial, fun _ h => nomatch h⟩, fun _ => trivial⟩
    | wraps => exact ⟨False.elim, fun h => h.1⟩
    | dividesByZero => exact ⟨False.elim, fun h => h.1⟩

theorem ok_bind (a : α) (f : α → Watched ε β) : ((.ok a : Watched ε α) >>= f) = f a := rfl

/-- A first step without a fault may be left out. -/
theorem faultless_bind_ok {x : Watched ε α} {f : α → Watched ε β} {a : α} (h : x = .ok a) :
    Faultless (x >>= f) ↔ Faultless (f a) := by
  rw [h]
  exact Iff.rfl

theorem bind_eq_ok {ε α β : Type} {x : Except ε α} {f : α → Except ε β} {b : β} :
    x >>= f = .ok b ↔ ∃ a, x = .ok a ∧ f a = .ok b := by
  cases x with
  | ok a => exact ⟨fun h => ⟨a, rfl, h⟩, fun ⟨_, hx, h⟩ => Except.ok.inj hx ▸ h⟩
  | error e => exact ⟨nofun, fun ⟨_, hx, _⟩ => nomatch hx⟩

theorem faultless_sub {a b : UInt32} : Faultless (sub a b : Watched ε UInt32) ↔ b ≤ a := by
  unfold sub
  split
  · rename_i h
    exact iff_of_true trivial h
  · rename_i h
    exact iff_of_false id h

theorem faultless_add {a b : UInt32} :
    Faultless (add a b : Watched ε UInt32) ↔ a.toNat + b.toNat < 2 ^ 32 := by
  unfold add
  split
  · rename_i h
    exact iff_of_true trivial h
  · rename_i h
    exact iff_of_false id h

theorem faultless_mul {a b : UInt32} :
    Faultless (mul a b : Watched ε UInt32) ↔ a.toNat * b.toNat < 2 ^ 32 := by
  unfold mul
  split
  · rename_i h
    exact iff_of_true trivial h
  · rename_i h
    exact iff_of_false id h

theorem add_ok {a b : UInt32} (h : a.toNat + b.toNat < 2 ^ 32) :
    (add a b : Watched ε UInt32) = .ok (a + b) ∧ (a + b).toNat = a.toNat + b.toNat :=
  ⟨if_pos h, by rw [UInt32.toNat_add, Nat.mod_eq_of_lt h]⟩

theorem sub_ok {a b : UInt32} (h : b ≤ a) :
    (sub a b : Watched ε UInt32) = .ok (a - b) ∧ (a - b).toNat = a.toNat - b.toNat :=
  ⟨if_pos h, UInt32.toNat_sub_of_le _ _ h⟩

theorem div_ok {a b : UInt32} (h : b ≠ 0) : (div a b : Watched ε UInt32) = .ok (a / b) := if_neg h

theorem mod_ok {a b : UInt32} (h : b ≠ 0) : (mod a b : Watched ε UInt32) = .ok (a % b) := if_neg h

/-! ## The computation itself -/

theorem watches_ok (a : α) : Watches (.ok a : Watched ε α) (.ok a) := rfl

theorem watches_throws (e : ε) : Watches (throws e : Watched ε α) (.error e) := rfl

theorem watches_bind {x : Watched ε α} {y : Except ε α} {f : α → Watched ε β} {g : α → Except ε β}
    (h : Watches x y) (hf : ∀ a, x = .ok a → Watches (f a) (g a)) : Watches (x >>= f) (y >>= g) := by
  cases x with
  | ok a =>
    obtain rfl : y = .ok a := h
    exact hf a rfl
  | error e =>
    cases e with
    | throws e =>
      obtain rfl : y = .error e := h
      exact rfl
    | wraps => trivial
    | dividesByZero => trivial

/-- A step of arithmetic is only watched. -/
theorem watches_step {x : Watched ε α} {a : α} {f : α → Watched ε β} {y : Except ε β}
    (hx : ∀ b, x = .ok b → b = a) (hthrow : ∀ e, x ≠ throws e) (h : Watches (f a) y) :
    Watches (x >>= f) y := by
  cases x with
  | ok b =>
    obtain rfl := hx b rfl
    exact h
  | error e =>
    cases e with
    | throws e => exact absurd rfl (hthrow e)
    | wraps => trivial
    | dividesByZero => trivial

theorem watches_if {p : Prop} [Decidable p] {a : α} {fault : Fault ε} {f : α → Watched ε β}
    {y : Except ε β} (hfault : ∀ e, fault ≠ .throws e) (h : Watches (f a) y) :
    Watches ((if p then .ok a else .error fault) >>= f) y := by
  refine watches_step (fun b hb => ?_) (fun e he => ?_) h
  · split at hb
    · exact (Except.ok.inj hb).symm
    · cases hb
  · split at he
    · cases he
    · exact hfault e (Except.error.inj he)

theorem watches_sub {a b : UInt32} {f : UInt32 → Watched ε β} {y : Except ε β}
    (h : Watches (f (a - b)) y) : Watches (sub a b >>= f) y := watches_if (fun _ => nofun) h

theorem watches_add {a b : UInt32} {f : UInt32 → Watched ε β} {y : Except ε β}
    (h : Watches (f (a + b)) y) : Watches (add a b >>= f) y := watches_if (fun _ => nofun) h

theorem watches_sub_last (a b : UInt32) : Watches (sub a b : Watched ε UInt32) (.ok (a - b)) := by
  unfold sub
  split
  · exact watches_ok _
  · exact trivial

theorem watches_mul_last (a b : UInt32) : Watches (mul a b : Watched ε UInt32) (.ok (a * b)) := by
  unfold mul
  split
  · exact watches_ok _
  · exact trivial

theorem watches_div {a b : UInt32} {f : UInt32 → Watched ε β} {y : Except ε β}
    (h : b ≠ 0 → Watches (f (a / b)) y) : Watches (div a b >>= f) y := by
  unfold div
  split
  · trivial
  · rename_i hb
    exact h hb

theorem watches_mod {a b : UInt32} {f : UInt32 → Watched ε β} {y : Except ε β}
    (h : b ≠ 0 → Watches (f (a % b)) y) : Watches (mod a b >>= f) y := by
  unfold mod
  split
  · trivial
  · rename_i hb
    exact h hb

/-! ## What it throws -/

/-- Every error that is thrown is of this kind. -/
def Throws (P : ε → Prop) (x : Watched ε α) : Prop := ∀ e, x = throws e → P e

theorem throws_bind {P : ε → Prop} {x : Watched ε α} {f : α → Watched ε β} (h : Throws P x)
    (hf : ∀ a, x = .ok a → Throws P (f a)) : Throws P (x >>= f) := by
  cases x with
  | ok a => exact hf a rfl
  | error fault =>
    intro e he
    obtain rfl : fault = .throws e := Except.error.inj he
    exact h e rfl

theorem throws_of_error {P : ε → Prop} {e : ε} (h : P e) : Throws P (throws e : Watched ε α) := by
  intro e' he
  obtain rfl := Fault.throws.inj (Except.error.inj he)
  exact h

theorem throws_of_ok {P : ε → Prop} (a : α) : Throws P (.ok a : Watched ε α) := nofun

theorem throws_of_if {P : ε → Prop} {p : Prop} [Decidable p] {a : α} {fault : Fault ε}
    (h : ∀ e, fault ≠ .throws e) : Throws P (if p then .ok a else .error fault : Watched ε α) := by
  intro e he
  split at he
  · cases he
  · exact absurd (Except.error.inj he) (h e)

theorem throws_sub {P : ε → Prop} (a b : UInt32) : Throws P (sub a b : Watched ε UInt32) :=
  throws_of_if fun _ => nofun

theorem throws_add {P : ε → Prop} (a b : UInt32) : Throws P (add a b : Watched ε UInt32) :=
  throws_of_if fun _ => nofun

theorem throws_mul {P : ε → Prop} (a b : UInt32) : Throws P (mul a b : Watched ε UInt32) :=
  throws_of_if fun _ => nofun

theorem throws_div {P : ε → Prop} (a b : UInt32) : Throws P (div a b : Watched ε UInt32) := by
  intro e he
  unfold div at he
  split at he <;> cases he

theorem throws_mod {P : ε → Prop} (a b : UInt32) : Throws P (mod a b : Watched ε UInt32) := by
  intro e he
  unfold mod at he
  split at he <;> cases he

/-- Without a fault it comes to a result or to one of these errors. -/
theorem Watches.result {P : ε → Prop} {x : Watched ε α} {y : Except ε α} (h : Watches x y)
    (hfault : Faultless x) (hthrows : Throws P x) : (∃ a, y = .ok a) ∨ ∃ e, y = .error e ∧ P e := by
  cases x with
  | ok a => exact .inl ⟨a, h⟩
  | error fault =>
    cases fault with
    | throws e => exact .inr ⟨e, h, hthrows e rfl⟩
    | wraps => exact hfault.elim
    | dividesByZero => exact hfault.elim

end Jive5ab.Lib.Checked
