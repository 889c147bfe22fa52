import Mathlib.Data.List.Basic
import Jive5ab.Lib.Machine

/-! # A pool of tokens that threads wait for

Threads take tokens from a shared pool, give them back with a signal, or retire
them with a broadcast; who finds the pool empty sleeps, as long as some token is
alive. No token gets lost, and no wake-up: a sleeper always has a holder, or an
awake thread with a token to take, to wait for. -/
namespace Jive5ab.Lib

inductive Mode
  | away
  | looking
  | asleep
  | holding
  deriving DecidableEq

def Mode.wake : Mode → Mode
  | .asleep => .looking
  | m => m

structure Pool where
  free : Nat
  alive : Nat
  modes : List Mode

namespace Pool

def count (p : Pool) (m : Mode) : Nat := p.modes.count m

def put (p : Pool) (i : Nat) (m : Mode) : Pool := { p with modes := p.modes.set i m }

def wakeAll (p : Pool) : Pool := { p with modes := p.modes.map Mode.wake }

/-- One sleeper is woken up, if there are any. -/
inductive Signalled : Pool → Pool → Prop
  | nobody {p : Pool} : p.count .asleep = 0 → Signalled p p
  | somebody {p : Pool} {j : Nat} : p.modes[j]? = some .asleep → Signalled p (p.put j .looking)

/-- The flag is that of a step that retires a token. -/
inductive Step : Pool → Bool → Pool → Prop
  | stay (p : Pool) : Step p false p
  | start {p : Pool} {i : Nat} : p.modes[i]? = some .away → Step p false (p.put i .looking)
  | leave {p : Pool} {i : Nat} :
      p.modes[i]? = some .looking → p.free = 0 → Step p false (p.put i .away)
  | sleep {p : Pool} {i : Nat} :
      p.modes[i]? = some .looking → p.free = 0 → 0 < p.alive → Step p false (p.put i .asleep)
  | spurious {p : Pool} {i : Nat} : p.modes[i]? = some .asleep → Step p false (p.put i .looking)
  | take {p : Pool} {i k : Nat} :
      p.modes[i]? = some .looking → p.free = k + 1 → Step p false ({ p with free := k }.put i .holding)
  | give {p q : Pool} {i : Nat} {m : Mode} :
      p.modes[i]? = some .holding → m = .looking ∨ m = .away →
      Signalled ({ p with free := p.free + 1 }.put i m) q → Step p false q
  | retire {p : Pool} {i : Nat} :
      p.modes[i]? = some .holding →
      Step p true ({ p with alive := p.alive - 1 }.wakeAll.put i .looking)

/-! ## How many threads do what -/

theorem count_put {p : Pool} {i : Nat} {a : Mode} (h : p.modes[i]? = some a) (b m : Mode) :
    (p.put i b).count m + (if a = m then 1 else 0) = p.count m + if b = m then 1 else 0 := by
  obtain ⟨hi, ha⟩ := List.getElem?_eq_some_iff.mp h
  have hset := List.count_set (a := b) (b := m) hi
  have hpos : a = m → 0 < p.modes.count m := by
    intro ham
    refine List.count_pos_iff.mpr (ham ▸ ?_)
    exact List.mem_of_getElem? h
  rw [ha] at hset
  simp only [beq_iff_eq] at hset
  unfold count put
  rw [hset]
  split
  · rename_i ham
    have := hpos ham
    omega
  · omega

theorem count_wakeAll (p : Pool) :
    p.wakeAll.count .asleep = 0 ∧ p.wakeAll.count .looking = p.count .looking + p.count .asleep ∧
      p.wakeAll.count .holding = p.count .holding := by
  unfold count wakeAll
  induction p.modes with
  | nil => exact ⟨rfl, rfl, rfl⟩
  | cons m ms ih =>
    dsimp only at ih ⊢
    cases m <;> simp only [List.map_cons, List.count_cons, Mode.wake] <;> simp <;> omega

/-- Nothing but a sleeper changes. -/
theorem Signalled.counts {p q : Pool} (h : Signalled p q) :
    q.free = p.free ∧ q.alive = p.alive ∧ q.count .holding = p.count .holding ∧
      (0 < q.count .asleep → q.count .looking = p.count .looking + 1) := by
  cases h with
  | nobody hno => exact ⟨rfl, rfl, rfl, fun hsome => by omega⟩
  | somebody hj =>
    have hholding := count_put hj .looking .holding
    have hlooking := count_put hj .looking .looking
    simp only [reduceCtorEq, ↓reduceIte, Nat.add_zero] at hholding hlooking
    exact ⟨rfl, rfl, hholding, fun _ => hlooking⟩

/-! ## What holds in every run -/

structure Inv (p : Pool) : Prop where
  tokens : p.free + p.count .holding = p.alive
  sleepers : 0 < p.count .asleep → 0 < p.alive ∧ p.free ≤ p.count .looking

theorem Inv.step {p q : Pool} {r : Bool} (h : p.Inv) (hs : Step p r q) :
    q.Inv ∧ q.alive + r.toNat = p.alive := by
  obtain ⟨htok, hsleep⟩ := h
  cases hs with
  | stay => exact ⟨⟨htok, hsleep⟩, rfl⟩
  | start hi =>
    have hh := count_put hi .looking .holding
    have hl := count_put hi .looking .looking
    have ha := count_put hi .looking .asleep
    simp only [reduceCtorEq, ↓reduceIte, Nat.add_zero] at hh hl ha
    refine ⟨⟨?_, fun hpos => ?_⟩, rfl⟩
    · rw [hh]
      exact htok
    · obtain ⟨halive, hfree⟩ := hsleep (by omega)
      refine ⟨halive, ?_⟩
      show p.free ≤ _
      omega
  | leave hi hfree =>
    have hh := count_put hi .away .holding
    have ha := count_put hi .away .asleep
    simp only [reduceCtorEq, ↓reduceIte, Nat.add_zero] at hh ha
    refine ⟨⟨?_, fun hpos => ?_⟩, rfl⟩
    · rw [hh]
      exact htok
    · refine ⟨(hsleep (by omega)).1, ?_⟩
      show p.free ≤ _
      omega
  | sleep hi hfree halive =>
    have hh := count_put hi .asleep .holding
    simp only [reduceCtorEq, ↓reduceIte, Nat.add_zero] at hh
    refine ⟨⟨?_, fun _ => ⟨halive, ?_⟩⟩, rfl⟩
    · rw [hh]
      exact htok
    · show p.free ≤ _
      omega
  | spurious hi =>
    have hh := count_put hi .looking .holding
    have hl := count_put hi .looking .looking
    have ha := count_put hi .looking .asleep
    simp only [reduceCtorEq, ↓reduceIte, Nat.add_zero] at hh hl ha
    refine ⟨⟨?_, fun hpos => ?_⟩, rfl⟩
    · rw [hh]
      exact htok
    · obtain ⟨halive, hfree⟩ := hsleep (by omega)
      refine ⟨halive, ?_⟩
      show p.free ≤ _
      omega
  | @take i k hi hfree =>
    have hh := count_put (p := { p with free := k }) hi .holding .holding
    have hl := count_put (p := { p with free := k }) hi .holding .looking
    have ha := count_put (p := { p with free := k }) hi .holding .asleep
    simp only [reduceCtorEq, ↓reduceIte, Nat.add_zero] at hh hl ha
    change _ = p.count .holding + 1 at hh
    change _ + 1 = p.count .looking at hl
    change _ = p.count .asleep at ha
    refine ⟨⟨?_, fun hpos => ?_⟩, rfl⟩
    · show k + _ = p.alive
      omega
    · obtain ⟨halive, hle⟩ := hsleep (by omega)
      refine ⟨halive, ?_⟩
      show k ≤ _
      omega
  | @give _ i m hi hm hsig =>
    obtain ⟨hf, hal, hheld, hwoken⟩ := hsig.counts
    have hh := count_put (p := { p with free := p.free + 1 }) hi m .holding
    have hl := count_put (p := { p with free := p.free + 1 }) hi m .looking
    have ha := count_put (p := { p with free := p.free + 1 }) hi m .asleep
    have hne : m ≠ .holding ∧ m ≠ .asleep := by
      rcases hm with rfl | rfl <;> decide
    rw [if_neg hne.1, if_pos rfl] at hh
    rw [if_neg (by decide)] at hl
    rw [if_neg hne.2, if_neg (by decide)] at ha
    change _ + 1 = p.count .holding + 0 at hh
    change _ + 0 = p.count .looking + _ at hl
    change _ + 0 = p.count .asleep + 0 at ha
    change q.free = p.free + 1 at hf
    change q.alive = p.alive at hal
    refine ⟨⟨by omega, fun hpos => ?_⟩, hal⟩
    have hlook := hwoken hpos
    -- somebody sleeps on, so somebody slept before
    have hbefore : 0 < p.count .asleep := by
      cases hsig with
      | nobody hno => omega
      | somebody hj =>
        have hput := count_put hj .looking .asleep
        simp only [reduceCtorEq, ↓reduceIte, Nat.add_zero] at hput
        omega
    obtain ⟨halive, hle⟩ := hsleep hbefore
    exact ⟨by omega, by omega⟩
  | @retire i hi =>
    obtain ⟨hasleep, -, hholding⟩ := count_wakeAll { p with alive := p.alive - 1 }
    have hi' : ({ p with alive := p.alive - 1 }.wakeAll).modes[i]? = some .holding := by
      show (p.modes.map Mode.wake)[i]? = _
      rw [List.getElem?_map, hi]
      rfl
    have hh := count_put hi' .looking .holding
    have ha := count_put hi' .looking .asleep
    simp only [reduceCtorEq, ↓reduceIte, Nat.add_zero] at hh ha
    change _ = p.count .holding at hholding
    refine ⟨⟨?_, fun hpos => by omega⟩, ?_⟩
    · show p.free + _ = p.alive - 1
      omega
    · show p.alive - 1 + 1 = p.alive
      omega

/-- Everybody who sleeps waits for somebody. -/
theorem Inv.waits {p : Pool} (h : p.Inv) (hsleep : 0 < p.count .asleep) :
    0 < p.count .holding ∨ 0 < p.free ∧ 0 < p.count .looking := by
  obtain ⟨halive, hfree⟩ := h.sleepers hsleep
  have htok := h.tokens
  omega

end Pool
end Jive5ab.Lib
