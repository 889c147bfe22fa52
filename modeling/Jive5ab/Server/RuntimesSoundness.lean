import Jive5ab.Lib.OrdMap
import Jive5ab.Server.Runtimes

/-! # The runtime bookkeeping over whole runs

`Inv` is kept by each primitive of the bookkeeping (`observe`, `create`,
`remove`, `unobserve`), hence by every event. What an event can do to the
observation of a connection is said once (`step_observes`); the history of a
connection that observes nothing follows by induction on the run. -/
namespace Jive5ab.Server.Runtimes
open Std Lib.OrdMap

structure Inv (s : Server) : Prop where
  connected : ∀ fd : Int, fd ∈ s.acceptedfds ↔ fd ∈ s.fdmap
  nonneg : ∀ fd ∈ s.fdmap, 0 ≤ fd
  backref : ∀ (rt : String) (d : PerRtData) (fd : Int), s.runtimes[rt]? = some d →
    fd ∈ d.observers → ∃ p : PerFdData, s.fdmap[fd]? = some p ∧ p.runtime = rt
  default : ∃ d : PerRtData, s.runtimes[defaultRuntime]? = some d ∧ d.owner = -1 ∧ d.rteptr = 0
  owner : ∀ (rt : String) (d : PerRtData), s.runtimes[rt]? = some d →
    d.owner = -1 ∨ d.owner ∈ s.fdmap
  live : ∀ (rt : String) (d : PerRtData), s.runtimes[rt]? = some d → d.rteptr ∈ s.heap
  fresh : ∀ ptr ∈ s.heap, ptr < s.nextptr
  unique : ∀ (rt rt' : String) (d d' : PerRtData), s.runtimes[rt]? = some d →
    s.runtimes[rt']? = some d' → d.rteptr = d'.rteptr → rt = rt'

/-- The descriptor is connected, and an observer of the runtime it names. -/
def Observes (s : Server) (fd : Int) : Prop :=
  ∃ (p : PerFdData) (d : PerRtData),
    s.fdmap[fd]? = some p ∧ s.runtimes[p.runtime]? = some d ∧ fd ∈ d.observers

theorem mem_fdmap {s : Server} {fd : Int} :
    fd ∈ s.fdmap ↔ ∃ p : PerFdData, s.fdmap[fd]? = some p := by
  rw [← TreeMap.isSome_getElem?_iff_mem, Option.isSome_iff_exists]

theorem initial_runtime {rt : String} {d : PerRtData} (h : initial.runtimes[rt]? = some d) :
    rt = defaultRuntime ∧ d = ⟨-1, 0, ∅⟩ := by
  simp only [initial, lookup_insert] at h
  split at h
  · rename_i hrt
    cases h; exact ⟨hrt.symm, rfl⟩
  · simp at h

theorem initial_inv : Inv initial where
  connected := by simp [initial]
  nonneg := by simp [initial]
  backref rt d fd h hfd := by
    obtain ⟨-, rfl⟩ := initial_runtime h
    simp at hfd
  default := ⟨⟨-1, 0, ∅⟩, by simp [initial], rfl, rfl⟩
  owner rt d h := by
    obtain ⟨-, rfl⟩ := initial_runtime h
    exact .inl rfl
  live rt d h := by
    obtain ⟨-, rfl⟩ := initial_runtime h
    simp [initial]
  fresh := by simp [initial]
  unique rt rt' d d' h h' _ := (initial_runtime h).1.trans (initial_runtime h').1.symm

/-! ## The primitives -/

theorem lookup_forget (fd : Int) (rt a : String) (rtm : RuntimeMap) :
    (forget fd rt rtm)[a]? =
      (rtm[a]?).map fun d => if rt = a then { d with observers := d.observers.erase fd } else d := by
  unfold forget
  cases h : rtm[rt]? with
  | none =>
    by_cases ha : rt = a
    · subst ha; simp [h]
    · simp [ha]
  | some d =>
    simp only [lookup_insert]
    by_cases ha : rt = a
    · subst ha; simp [h]
    · simp [ha]

/-- The entry called `a` once `fd` has moved its observation from `old` to `new`. -/
def moved (fd : Int) (old new a : String) (d : PerRtData) : PerRtData :=
  let d := if old = a then { d with observers := d.observers.erase fd } else d
  if new = a then { d with observers := d.observers.insert fd } else d

@[simp] theorem moved_owner (fd : Int) (old new a : String) (d : PerRtData) :
    (moved fd old new a d).owner = d.owner := by
  unfold moved; split <;> split <;> rfl

@[simp] theorem moved_rteptr (fd : Int) (old new a : String) (d : PerRtData) :
    (moved fd old new a d).rteptr = d.rteptr := by
  unfold moved; split <;> split <;> rfl

theorem mem_moved (fd : Int) (old new a : String) (d : PerRtData) (x : Int) :
    x ∈ (moved fd old new a d).observers ↔
      (fd = x ∧ new = a) ∨ ((fd = x → old ≠ a) ∧ x ∈ d.observers) := by
  unfold moved
  split <;> split <;> simp only [mem_insert_iff, mem_erase_iff] <;> grind

/-- `observe` does not throw when the runtime to observe exists. -/
theorem observe_ok {rt : String} (fd : Int) (p : PerFdData) {s : Server} {d : PerRtData}
    (h : s.runtimes[rt]? = some d) :
    ∃ rtm : RuntimeMap, observe rt fd p s =
        .ok { s with runtimes := rtm, fdmap := s.fdmap.insert fd { p with runtime := rt } } ∧
      ∀ a : String, rtm[a]? = (s.runtimes[a]?).map (moved fd p.runtime rt a) := by
  have hf : (forget fd p.runtime s.runtimes)[rt]? = some
      (if p.runtime = rt then { d with observers := d.observers.erase fd } else d) := by
    rw [lookup_forget, h]; rfl
  simp only [observe, hf]
  refine ⟨_, rfl, fun a => ?_⟩
  rw [lookup_insert, lookup_forget]
  by_cases ha : rt = a
  · subst ha; simp [h, moved]
  · rw [if_neg ha]
    congr 1
    funext e
    simp [moved, ha]

theorem observe_inv {rt : String} {fd : Int} {p : PerFdData} {s t : Server} {d : PerRtData}
    (hi : Inv s) (hp : s.fdmap[fd]? = some p) (hd : s.runtimes[rt]? = some d)
    (h : observe rt fd p s = .ok t) : Inv t := by
  obtain ⟨rtm, he, hl⟩ := observe_ok fd p hd
  rw [he] at h; cases h
  have hmem : ∀ x : Int, x ∈ s.fdmap.insert fd { p with runtime := rt } ↔ x ∈ s.fdmap := by
    intro x
    have hfd : fd ∈ s.fdmap := mem_fdmap.mpr ⟨p, hp⟩
    simp only [TreeMap.mem_insert, LawfulEqCmp.compare_eq_iff_eq]
    exact ⟨fun h => h.elim (fun h => h ▸ hfd) id, .inr⟩
  have hsome : ∀ (a : String) (e : PerRtData), rtm[a]? = some e →
      ∃ d, s.runtimes[a]? = some d ∧ e = moved fd p.runtime rt a d := by
    intro a e he
    rw [hl] at he
    obtain ⟨d, hd, rfl⟩ := Option.map_eq_some_iff.mp he
    exact ⟨d, hd, rfl⟩
  refine ⟨fun x => (hi.connected x).trans (hmem x).symm, fun x hx => hi.nonneg x ((hmem x).mp hx),
    ?_, ?_, ?_, ?_, hi.fresh, ?_⟩
  · intro a e x ha hx
    obtain ⟨d', hd', rfl⟩ := hsome a e ha
    rw [mem_moved] at hx
    rw [lookup_insert]
    rcases hx with ⟨rfl, rfl⟩ | ⟨hold, hx⟩
    · exact ⟨_, if_pos rfl, rfl⟩
    · obtain ⟨q, hq, hqa⟩ := hi.backref a d' x hd' hx
      have hne : fd ≠ x := by
        rintro rfl
        rw [hp] at hq; cases hq
        exact hold rfl hqa
      exact ⟨q, by rw [if_neg hne]; exact hq, hqa⟩
  · obtain ⟨d', hd', ho, hptr⟩ := hi.default
    exact ⟨_, by rw [hl, hd']; rfl, by simpa using ho, by simpa using hptr⟩
  · intro a e ha
    obtain ⟨d', hd', rfl⟩ := hsome a e ha
    rw [moved_owner]
    exact (hi.owner a d' hd').imp id (hmem _).mpr
  · intro a e ha
    obtain ⟨d', hd', rfl⟩ := hsome a e ha
    rw [moved_rteptr]
    exact hi.live a d' hd'
  · intro a a' e e' ha ha' heq
    obtain ⟨d₁, hd₁, rfl⟩ := hsome a e ha
    obtain ⟨d₂, hd₂, rfl⟩ := hsome a' e' ha'
    exact hi.unique a a' d₁ d₂ hd₁ hd₂ (by simpa using heq)

theorem create_inv {rt : String} {owner : Int} {s : Server} (hi : Inv s)
    (hrt : s.runtimes[rt]? = none) (ho : owner = -1 ∨ owner ∈ s.fdmap) :
    Inv (create rt owner s) := by
  have hsome : ∀ (a : String) (e : PerRtData), (create rt owner s).runtimes[a]? = some e →
      (rt = a ∧ e = ⟨owner, s.nextptr, ∅⟩) ∨ (rt ≠ a ∧ s.runtimes[a]? = some e) := by
    intro a e he
    simp only [create, lookup_insert] at he
    split at he
    · rename_i ha
      cases he; exact .inl ⟨ha, rfl⟩
    · rename_i ha
      exact .inr ⟨ha, he⟩
  refine ⟨hi.connected, hi.nonneg, ?_, ?_, ?_, ?_, ?_, ?_⟩
  · intro a e x ha hx
    obtain ⟨-, rfl⟩ | ⟨-, ha⟩ := hsome a e ha
    · simp at hx
    · exact hi.backref a e x ha hx
  · obtain ⟨d, hd, h⟩ := hi.default
    refine ⟨d, ?_, h⟩
    have hne : rt ≠ defaultRuntime := by rintro rfl; rw [hd] at hrt; cases hrt
    simp only [create, lookup_insert, if_neg hne]; exact hd
  · intro a e ha
    obtain ⟨-, rfl⟩ | ⟨-, ha⟩ := hsome a e ha
    · exact ho
    · exact hi.owner a e ha
  · intro a e ha
    simp only [create, mem_insert_iff]
    obtain ⟨-, rfl⟩ | ⟨-, ha⟩ := hsome a e ha
    · exact .inl rfl
    · exact .inr (hi.live a e ha)
  · intro ptr hptr
    simp only [create, mem_insert_iff] at hptr ⊢
    rcases hptr with rfl | hptr
    · omega
    · have := hi.fresh ptr hptr; omega
  · -- an object made before this one lies below `nextptr`
    have hnew : ∀ (a : String) (e : PerRtData), s.runtimes[a]? = some e → e.rteptr ≠ s.nextptr :=
      fun a e ha h => by have := hi.fresh _ (hi.live a e ha); omega
    intro a a' e e' ha ha' heq
    obtain ⟨rfl, rfl⟩ | ⟨-, ha⟩ := hsome a e ha <;> obtain ⟨rfl, rfl⟩ | ⟨-, ha'⟩ := hsome a' e' ha'
    · rfl
    · exact absurd heq.symm (hnew a' e' ha')
    · exact absurd heq (hnew a e ha)
    · exact hi.unique a a' e e' ha ha' heq

theorem remove_inv {rt : String} {d : PerRtData} {s : Server} (hi : Inv s)
    (hd : s.runtimes[rt]? = some d) (hne : rt ≠ defaultRuntime) : Inv (remove rt d s) := by
  have hsome : ∀ (a : String) (e : PerRtData), (remove rt d s).runtimes[a]? = some e →
      rt ≠ a ∧ s.runtimes[a]? = some e := by
    intro a e he
    simp only [remove, lookup_erase] at he
    split at he
    · cases he
    · rename_i ha
      exact ⟨ha, he⟩
  refine ⟨hi.connected, hi.nonneg, ?_, ?_, ?_, ?_, ?_, ?_⟩
  · exact fun a e x ha => hi.backref a e x (hsome a e ha).2
  · obtain ⟨e, he, h⟩ := hi.default
    exact ⟨e, by simp only [remove, lookup_erase, if_neg hne]; exact he, h⟩
  · exact fun a e ha => hi.owner a e (hsome a e ha).2
  · intro a e ha
    obtain ⟨hra, ha⟩ := hsome a e ha
    simp only [remove, mem_erase_iff]
    exact ⟨fun heq => hra (hi.unique rt a d e hd ha heq), hi.live a e ha⟩
  · intro ptr hptr
    simp only [remove, mem_erase_iff] at hptr
    exact hi.fresh ptr hptr.2
  · exact fun a a' e e' ha ha' => hi.unique a a' e e' (hsome a e ha).2 (hsome a' e' ha').2

theorem mem_ownedBy {fd : Int} {rtm : RuntimeMap} {rt : String} {d : PerRtData} :
    (rt, d) ∈ ownedBy fd rtm ↔ rtm[rt]? = some d ∧ d.owner = fd := by
  simp [ownedBy, List.mem_filter, TreeMap.mem_toList_iff_getElem?_eq_some]

/-- The runtimes left after `unobserve` are those the descriptor did not own. -/
theorem unobserve_ok {fd : Int} {s : Server} {p : PerFdData} (hp : s.fdmap[fd]? = some p) :
    ∃ (rtm : RuntimeMap) (heap : TreeSet Nat), unobserve fd s =
        .ok { s with fdmap := s.fdmap.erase fd, runtimes := rtm, heap := heap } ∧
      (∀ (a : String) (e : PerRtData), rtm[a]? = some e ↔ ∃ d : PerRtData,
        s.runtimes[a]? = some d ∧ d.owner ≠ fd ∧
          e = if p.runtime = a then { d with observers := d.observers.erase fd } else d) ∧
      (∀ ptr : Nat, ptr ∈ heap ↔ ptr ∈ s.heap ∧ ∀ (a : String) (d : PerRtData),
        s.runtimes[a]? = some d → d.owner = fd → d.rteptr ≠ ptr) := by
  have howned : ∀ a : String, a ∈ (ownedBy fd (forget fd p.runtime s.runtimes)).map Prod.fst ↔
      ∃ d : PerRtData, s.runtimes[a]? = some d ∧ d.owner = fd := by
    intro a
    simp only [List.mem_map, Prod.exists, mem_ownedBy, lookup_forget, Option.map_eq_some_iff]
    constructor
    · rintro ⟨_, _, ⟨⟨d, hd, rfl⟩, ho⟩, rfl⟩
      exact ⟨d, hd, by split at ho <;> exact ho⟩
    · rintro ⟨d, hd, ho⟩
      exact ⟨a, _, ⟨⟨d, hd, rfl⟩, by split <;> exact ho⟩, rfl⟩
  have hptrs : ∀ ptr : Nat,
      ptr ∈ (ownedBy fd (forget fd p.runtime s.runtimes)).map (fun r => r.2.rteptr) ↔
        ∃ (a : String) (d : PerRtData), s.runtimes[a]? = some d ∧ d.owner = fd ∧ d.rteptr = ptr := by
    intro ptr
    simp only [List.mem_map, Prod.exists, mem_ownedBy, lookup_forget, Option.map_eq_some_iff]
    constructor
    · rintro ⟨a, _, ⟨⟨d, hd, rfl⟩, ho⟩, rfl⟩
      exact ⟨a, d, hd, by split at ho <;> exact ho, by split <;> rfl⟩
    · rintro ⟨a, d, hd, ho, rfl⟩
      exact ⟨a, _, ⟨⟨d, hd, rfl⟩, by split <;> exact ho⟩, by split <;> rfl⟩
  simp only [unobserve, hp]
  refine ⟨_, _, rfl, fun a e => ?_, fun ptr => ?_⟩
  · rw [lookup_eraseAll]
    simp only [howned, lookup_forget]
    split
    · rename_i h
      obtain ⟨d, hd, ho⟩ := h
      simp only [reduceCtorEq, false_iff, not_exists, not_and]
      intro d' hd' ho'
      rw [hd] at hd'; cases hd'
      exact absurd ho ho'
    · rename_i h
      simp only [not_exists, not_and] at h
      simp only [Option.map_eq_some_iff]
      constructor
      · rintro ⟨d, hd, rfl⟩; exact ⟨d, hd, h d hd, rfl⟩
      · rintro ⟨d, hd, -, rfl⟩; exact ⟨d, hd, rfl⟩
  · rw [mem_eraseAll, hptrs]
    constructor
    · rintro ⟨hno, hh⟩
      exact ⟨hh, fun a d hd ho heq => hno ⟨a, d, hd, ho, heq⟩⟩
    · rintro ⟨hh, hno⟩
      exact ⟨fun ⟨a, d, hd, ho, heq⟩ => hno a d hd ho heq, hh⟩

theorem close_inv {fd : Int} {s : Server} (hi : Inv s) (hfd : fd ∈ s.fdmap) :
    Inv (closeConnection fd s) := by
  obtain ⟨p, hp⟩ := mem_fdmap.mp hfd
  obtain ⟨rtm, heap, he, hr, hh⟩ :=
    unobserve_ok (s := { s with acceptedfds := s.acceptedfds.erase fd }) hp
  simp only [closeConnection, he]
  have hmem : ∀ x : Int, x ∈ s.fdmap.erase fd ↔ fd ≠ x ∧ x ∈ s.fdmap := by simp [TreeMap.mem_erase]
  refine ⟨fun x => ?_, fun x hx => hi.nonneg x ((hmem x).mp hx).2, ?_, ?_, ?_, ?_, ?_, ?_⟩
  · rw [mem_erase_iff, hmem, hi.connected]
  · intro a e x ha hx
    obtain ⟨d, hd, -, rfl⟩ := (hr a e).mp ha
    have hxd : x ∈ d.observers := by
      split at hx
      · exact ((mem_erase_iff _ _ _).mp hx).2
      · exact hx
    obtain ⟨q, hq, hqa⟩ := hi.backref a d x hd hxd
    have hne : fd ≠ x := by
      rintro rfl
      rw [hp] at hq; cases hq
      rw [if_pos hqa] at hx
      exact ((mem_erase_iff _ _ _).mp hx).1 rfl
    exact ⟨q, by simp only [lookup_erase, if_neg hne]; exact hq, hqa⟩
  · obtain ⟨d, hd, ho, hptr⟩ := hi.default
    have hne : d.owner ≠ fd := by have := hi.nonneg fd hfd; omega
    exact ⟨_, (hr _ _).mpr ⟨d, hd, hne, rfl⟩, by split <;> exact ho, by split <;> exact hptr⟩
  · intro a e ha
    obtain ⟨d, hd, hne, rfl⟩ := (hr a e).mp ha
    rw [hmem]
    have ho := hi.owner a d hd
    split <;> exact ho.imp id fun h => ⟨Ne.symm hne, h⟩
  · intro a e ha
    obtain ⟨d, hd, hne, rfl⟩ := (hr a e).mp ha
    rw [hh]
    refine ⟨by split <;> exact hi.live a d hd, fun a' d' hd' ho' heq => hne ?_⟩
    have haa : a' = a := hi.unique a' a d' d hd' hd (by rw [heq]; split <;> rfl)
    subst haa
    have hdd : d' = d := Option.some.inj (hd'.symm.trans hd)
    rw [← hdd]; exact ho'
  · exact fun ptr hptr => hi.fresh ptr ((hh ptr).mp hptr).1
  · intro a a' e e' ha ha' heq
    obtain ⟨d, hd, -, rfl⟩ := (hr a e).mp ha
    obtain ⟨d', hd', -, rfl⟩ := (hr a' e').mp ha'
    refine hi.unique a a' d d' hd hd' ?_
    split at heq <;> split at heq <;> exact heq

/-! ## What one event can do -/

/-- All a command of connection `fd` can do to the bookkeeping; `del` are the
names it asks to delete. -/
inductive Effect (fd : Int) (p : PerFdData) (del : String → Prop) (s : Server) : Server → Prop
  | same : Effect fd p del s s
  | echo (e : Bool) : Effect fd p del s { s with fdmap := s.fdmap.insert fd { p with echo := e } }
  | switch {rt : String} {d : PerRtData} {t : Server} :
      s.runtimes[rt]? = some d → observe rt fd p s = .ok t → Effect fd p del s t
  | create {rt : String} {owner : Int} {t : Server} :
      s.runtimes[rt]? = none → owner = -1 ∨ owner = fd →
      observe rt fd p (create rt owner s) = .ok t → Effect fd p del s t
  | delete {rt : String} {d : PerRtData} :
      del rt → rt ≠ defaultRuntime → s.runtimes[rt]? = some d → p.runtime ≠ rt →
      Effect fd p del s (remove rt d s)
  | deleteOwn {rt : String} {d : PerRtData} {t : Server} :
      del rt → rt ≠ defaultRuntime → s.runtimes[rt]? = some d → p.runtime = rt →
      observe defaultRuntime fd p s = .ok t → Effect fd p del s (remove rt d t)

theorem runtimeCommand_effect (qry : Bool) (args : List String) (fd : Int) (p : PerFdData)
    {s : Server} (hi : Inv s) :
    ∃ reply t, processRuntimeCommand qry args fd p s = .ok (reply, t) ∧
      Effect fd p (fun rt => qry = false ∧ args.getD 2 "" = "delete" ∧ requested args = rt) s t := by
  cases qry with
  | true => exact ⟨_, s, rfl, .same⟩
  | false =>
    simp only [processRuntimeCommand, Bool.false_eq_true, if_false]
    split
    · exact ⟨_, s, rfl, .same⟩
    split
    · -- create if needed, then observe
      cases hrt : s.runtimes[requested args]? with
      | none =>
        simp only
        split
        · exact ⟨_, s, rfl, .same⟩
        split
        · exact ⟨_, s, rfl, .same⟩
        · have hnew : ∀ owner : Int, (create (requested args) owner s).runtimes[requested args]? =
              some ⟨owner, s.nextptr, ∅⟩ := fun _ => by simp [create]
          obtain ⟨_, ho, -⟩ := observe_ok fd p
            (hnew (if args.getD 2 "" = "transient" then fd else -1))
          rw [ho]
          exact ⟨_, _, rfl, .create hrt (by split <;> simp) ho⟩
      | some d =>
        simp only
        split
        · exact ⟨_, s, rfl, .same⟩
        · obtain ⟨_, ho, -⟩ := observe_ok fd p hrt
          rw [ho]
          exact ⟨_, _, rfl, .switch hrt ho⟩
    split
    · exact ⟨_, s, rfl, .same⟩
    rename_i hdel
    split
    · exact ⟨_, s, rfl, .same⟩
    rename_i hne
    cases hrt : s.runtimes[requested args]? with
    | none => exact ⟨_, s, rfl, .same⟩
    | some d =>
      simp only
      split
      · rename_i hown
        obtain ⟨d₀, hd₀, -⟩ := hi.default
        obtain ⟨_, ho, -⟩ := observe_ok fd p hd₀
        rw [ho]
        exact ⟨_, _, rfl, .deleteOwn ⟨by simp, Decidable.not_not.mp hdel, rfl⟩ hne hrt hown ho⟩
      · rename_i hother
        exact ⟨_, _, rfl, .delete ⟨by simp, Decidable.not_not.mp hdel, rfl⟩ hne hrt hother⟩

/-- The runtimes a command text asks to delete. -/
def Deletes (cmd rt : String) : Prop :=
  ∃ args, parseCommand cmd = .ok ("runtime", false, args) ∧ args.getD 2 "" = "delete" ∧
    requested args = rt

theorem command_effect (cfg : Settings) (cmd : String) (fd : Int) (p : PerFdData) {s : Server}
    (hi : Inv s) : Effect fd p (Deletes cmd) s (processCommand cfg cmd fd p s).1 := by
  unfold processCommand
  split
  · exact .same
  cases hc : parseCommand cmd with
  | error _ => exact .same
  | ok r =>
    obtain ⟨keyword, qry, args⟩ := r
    simp only
    split
    · rename_i hk
      subst hk
      obtain ⟨_, t, ht, he⟩ := runtimeCommand_effect qry args fd p hi
      rw [ht]
      cases he with
      | same => exact .same
      | echo e => exact .echo e
      | switch hd ho => exact .switch hd ho
      | create hn hw ho => exact .create hn hw ho
      | delete hdel hne hd hp =>
        obtain ⟨rfl, h⟩ := hdel
        exact .delete ⟨args, hc, h⟩ hne hd hp
      | deleteOwn hdel hne hd hp ho =>
        obtain ⟨rfl, h⟩ := hdel
        exact .deleteOwn ⟨args, hc, h⟩ hne hd hp ho
    split
    · unfold echoCommand
      split
      · exact .same
      split
      · exact .same
      · exact .echo _
    split
    · exact .same
    split <;> exact .same

theorem insert_same_inv {fd : Int} {p q : PerFdData} {s : Server} (hi : Inv s)
    (hp : s.fdmap[fd]? = some p) (hq : q.runtime = p.runtime) :
    Inv { s with fdmap := s.fdmap.insert fd q } := by
  have hmem : ∀ x : Int, x ∈ s.fdmap.insert fd q ↔ x ∈ s.fdmap := by
    intro x
    have hfd : fd ∈ s.fdmap := mem_fdmap.mpr ⟨p, hp⟩
    simp only [TreeMap.mem_insert, LawfulEqCmp.compare_eq_iff_eq]
    exact ⟨fun h => h.elim (fun h => h ▸ hfd) id, .inr⟩
  refine ⟨fun x => (hi.connected x).trans (hmem x).symm, fun x hx => hi.nonneg x ((hmem x).mp hx),
    fun rt d x hd hx => ?_, hi.default, fun rt d hd => (hi.owner rt d hd).imp id (hmem _).mpr,
    hi.live, hi.fresh, hi.unique⟩
  obtain ⟨r, hr, hrt⟩ := hi.backref rt d x hd hx
  rw [lookup_insert]
  by_cases hx : fd = x
  · subst hx
    rw [hp] at hr; cases hr
    exact ⟨q, if_pos rfl, hq.trans hrt⟩
  · exact ⟨r, by rw [if_neg hx]; exact hr, hrt⟩

theorem effect_inv {fd : Int} {p : PerFdData} {del : String → Prop} {s t : Server} (hi : Inv s)
    (hp : s.fdmap[fd]? = some p) (h : Effect fd p del s t) : Inv t := by
  cases h with
  | same => exact hi
  | echo e => exact insert_same_inv hi hp rfl
  | switch hd ho => exact observe_inv hi hp hd ho
  | create hn hw ho =>
    have hw' := hw.imp id fun h => h ▸ mem_fdmap.mpr ⟨p, hp⟩
    exact observe_inv (create_inv hi hn hw') hp (by simp [create]; rfl) ho
  | delete _ hne hd _ => exact remove_inv hi hd hne
  | @deleteOwn rt d t _ hne hd _ ho =>
    obtain ⟨d₀, hd₀, -⟩ := hi.default
    obtain ⟨rtm, he, hl⟩ := observe_ok fd p hd₀
    have hi' := observe_inv hi hp hd₀ ho
    rw [he] at ho; cases ho
    have hd' : rtm[rt]? = some (moved fd p.runtime defaultRuntime rt d) := by rw [hl, hd]; rfl
    have := remove_inv hi' hd' hne
    rwa [show remove rt (moved fd p.runtime defaultRuntime rt d) = remove rt d by
      unfold remove; simp] at this

/-- `fd` kept the name it had, and the object it observed, if any, is gone. -/
def Lost (s t : Server) (fd : Int) : Prop :=
  ∃ p q : PerFdData, s.fdmap[fd]? = some p ∧ t.fdmap[fd]? = some q ∧ q.runtime = p.runtime ∧
    ∀ d : PerRtData, s.runtimes[p.runtime]? = some d → fd ∈ d.observers → d.rteptr ∉ t.heap

/-- After `observe` the descriptor observes; the others do as they did before. -/
theorem observe_observes {rt : String} {fd : Int} {p : PerFdData} {s t : Server} {d : PerRtData}
    (hd : s.runtimes[rt]? = some d) (h : observe rt fd p s = .ok t) :
    Observes t fd ∧ ∀ x : Int, x ≠ fd →
      t.fdmap[x]? = s.fdmap[x]? ∧ (Observes s x → Observes t x) := by
  obtain ⟨rtm, he, hl⟩ := observe_ok fd p hd
  rw [he] at h; cases h
  refine ⟨⟨{ p with runtime := rt }, moved fd p.runtime rt rt d, by simp, by rw [hl, hd]; rfl,
    by simp [mem_moved]⟩, fun x hx => ?_⟩
  have hx' : fd ≠ x := Ne.symm hx
  have hfd : (s.fdmap.insert fd { p with runtime := rt })[x]? = s.fdmap[x]? := by
    rw [lookup_insert, if_neg hx']
  refine ⟨hfd, ?_⟩
  rintro ⟨q, e, hq, he, hxe⟩
  refine ⟨q, _, by rw [hfd]; exact hq, by rw [hl, he]; rfl, ?_⟩
  rw [mem_moved]
  exact .inr ⟨fun h => absurd h hx', hxe⟩

theorem lost_or_observes {s t : Server} {x : Int} (hx : x ∈ t.fdmap)
    (hname : t.fdmap[x]? = s.fdmap[x]?) (h : Observes s x → Observes t x ∨ Lost s t x) :
    Observes t x ∨ Lost s t x := by
  obtain ⟨q, hq⟩ := mem_fdmap.mp hx
  by_cases hs : Observes s x
  · exact h hs
  · exact .inr ⟨q, q, by rw [← hname]; exact hq, hq, rfl, fun d hd hxd =>
      absurd ⟨q, d, by rw [← hname]; exact hq, hd, hxd⟩ hs⟩

/-- Deleting a runtime takes the observation from its observers only. -/
theorem remove_observes {rt : String} (d : PerRtData) {s : Server} {x : Int}
    (hx : Observes s x) : Observes (remove rt d s) x ∨
      ∃ p : PerFdData, s.fdmap[x]? = some p ∧ p.runtime = rt := by
  obtain ⟨p, e, hp, he, hxe⟩ := hx
  by_cases hrt : p.runtime = rt
  · exact .inr ⟨p, hp, hrt⟩
  · exact .inl ⟨p, e, hp, by simp only [remove, lookup_erase, if_neg (Ne.symm hrt)]; exact he, hxe⟩

theorem effect_observes {fd : Int} {p : PerFdData} {del : String → Prop} {s t : Server}
    (hi : Inv s) (hp : s.fdmap[fd]? = some p) (h : Effect fd p del s t) :
    ∀ x ∈ t.fdmap, Observes t x ∨ Lost s t x := by
  intro x hx
  cases h with
  | same => exact lost_or_observes hx rfl .inl
  | echo e =>
    by_cases hxf : x = fd
    · subst hxf
      have hq : (s.fdmap.insert x { p with echo := e })[x]? = some { p with echo := e } := by simp
      by_cases hs : Observes s x
      · obtain ⟨q, d, hqs, hd, hxd⟩ := hs
        rw [hp] at hqs; cases hqs
        exact .inl ⟨_, d, hq, hd, hxd⟩
      · exact .inr ⟨p, _, hp, hq, rfl, fun d hd hxd => absurd ⟨p, d, hp, hd, hxd⟩ hs⟩
    · have hname : (s.fdmap.insert fd { p with echo := e })[x]? = s.fdmap[x]? := by
        rw [lookup_insert, if_neg (Ne.symm hxf)]
      refine lost_or_observes hx hname ?_
      rintro ⟨q, d, hq, hd, hxd⟩
      exact .inl ⟨q, d, by rw [hname]; exact hq, hd, hxd⟩
  | switch hd ho =>
    obtain ⟨hself, hothers⟩ := observe_observes hd ho
    by_cases hxf : x = fd
    · subst hxf; exact .inl hself
    · exact lost_or_observes hx (hothers x hxf).1 fun h => .inl ((hothers x hxf).2 h)
  | @create rt owner t hn hw ho =>
    have hd : (Runtimes.create rt owner s).runtimes[rt]? = some ⟨owner, s.nextptr, ∅⟩ := by
      simp [Runtimes.create]
    obtain ⟨hself, hothers⟩ := observe_observes hd ho
    by_cases hxf : x = fd
    · subst hxf; exact .inl hself
    · refine lost_or_observes hx (hothers x hxf).1 fun h => .inl ((hothers x hxf).2 ?_)
      obtain ⟨q, e, hq, he, hxe⟩ := h
      have hne : rt ≠ q.runtime := by rintro rfl; rw [hn] at he; cases he
      exact ⟨q, e, hq, by simp only [Runtimes.create, lookup_insert, if_neg hne]; exact he, hxe⟩
  | @delete rt d _ _ hd _ =>
    refine lost_or_observes hx rfl fun h => (remove_observes d h).imp id ?_
    rintro ⟨q, hq, hqrt⟩
    refine ⟨q, q, hq, hq, rfl, fun d' hd' _ => ?_⟩
    rw [hqrt, hd] at hd'; cases hd'
    simp [remove]
  | @deleteOwn rt d t _ hne hd hprt ho =>
    obtain ⟨d₀, hd₀, -⟩ := hi.default
    obtain ⟨hself, hothers⟩ := observe_observes hd₀ ho
    obtain ⟨rtm, he, hl⟩ := observe_ok fd p hd₀
    rw [he] at ho; cases ho
    by_cases hxf : x = fd
    · subst hxf
      obtain ⟨q, e, hq, he, hxe⟩ := hself
      simp only [lookup_insert, if_pos] at hq; cases hq
      refine .inl ⟨_, e, by simp [remove]; rfl, ?_, hxe⟩
      simp only [remove, lookup_erase, if_neg hne]; exact he
    · refine lost_or_observes hx (hothers x hxf).1 fun h => ?_
      refine (remove_observes d ((hothers x hxf).2 h)).imp id ?_
      rintro ⟨q, hq, hqrt⟩
      have hqs : s.fdmap[x]? = some q := (hothers x hxf).1 ▸ hq
      refine ⟨q, q, hqs, hq, rfl, fun d' hd' _ => ?_⟩
      rw [hqrt, hd] at hd'; cases hd'
      simp [remove]

/-- A command removes a runtime only if it asks to. -/
theorem effect_keeps {fd : Int} {p : PerFdData} {del : String → Prop} {s t : Server} (hi : Inv s)
    (h : Effect fd p del s t) {rt : String} {d : PerRtData} (hd : s.runtimes[rt]? = some d) :
    del rt ∨ ∃ e : PerRtData, t.runtimes[rt]? = some e ∧ e.owner = d.owner ∧ e.rteptr = d.rteptr := by
  have hmoved : ∀ {new : String} {d₀ : PerRtData} {u : Server}, s.runtimes[new]? = some d₀ →
      observe new fd p s = .ok u → ∃ e : PerRtData, u.runtimes[rt]? = some e ∧
        e.owner = d.owner ∧ e.rteptr = d.rteptr := by
    intro new d₀ u hd₀ ho
    obtain ⟨rtm, he, hl⟩ := observe_ok fd p hd₀
    rw [he] at ho; cases ho
    exact ⟨_, by rw [hl, hd]; rfl, by simp, by simp⟩
  cases h with
  | same => exact .inr ⟨d, hd, rfl, rfl⟩
  | echo e => exact .inr ⟨d, hd, rfl, rfl⟩
  | switch hd₀ ho => exact .inr (hmoved hd₀ ho)
  | @create new owner t hn hw ho =>
    have hnew : (Runtimes.create new owner s).runtimes[new]? = some ⟨owner, s.nextptr, ∅⟩ := by
      simp [Runtimes.create]
    obtain ⟨rtm, he, hl⟩ := observe_ok fd p hnew
    rw [he] at ho; cases ho
    have hne : new ≠ rt := by rintro rfl; rw [hn] at hd; cases hd
    have hd' : (Runtimes.create new owner s).runtimes[rt]? = some d := by
      simp only [Runtimes.create, lookup_insert, if_neg hne]; exact hd
    exact .inr ⟨_, by rw [hl, hd']; rfl, by simp, by simp⟩
  | @delete gone e hdel _ _ _ =>
    by_cases hrt : gone = rt
    · exact .inl (hrt ▸ hdel)
    · exact .inr ⟨d, by simp only [remove, lookup_erase, if_neg hrt]; exact hd, rfl, rfl⟩
  | @deleteOwn gone e t hdel _ _ _ ho =>
    by_cases hrt : gone = rt
    · exact .inl (hrt ▸ hdel)
    · obtain ⟨d₀, hd₀, -⟩ := hi.default
      obtain ⟨e', he', ho', hp'⟩ := hmoved hd₀ ho
      exact .inr ⟨e', by simp only [remove, lookup_erase, if_neg hrt]; exact he', ho', hp'⟩

/-! ## Events -/

theorem accept_spec (echo : Bool) {fd : Int} {s : Server} (hi : Inv s) (h0 : 0 ≤ fd) :
    Inv (acceptConnection echo fd s) ∧
      (∀ x ∈ (acceptConnection echo fd s).fdmap,
        Observes (acceptConnection echo fd s) x ∨ Lost s (acceptConnection echo fd s) x) ∧
      ∀ (rt : String) (d : PerRtData), s.runtimes[rt]? = some d →
        ∃ e : PerRtData, (acceptConnection echo fd s).runtimes[rt]? = some e ∧
          e.owner = d.owner ∧ e.rteptr = d.rteptr := by
  unfold acceptConnection
  by_cases hacc : s.acceptedfds.contains fd = true
  · rw [if_pos hacc]
    exact ⟨hi, fun x hx => lost_or_observes hx rfl .inl, fun rt d hd => ⟨d, hd, rfl, rfl⟩⟩
  have hmem : fd ∉ s.fdmap := by
    rw [← hi.connected]; exact fun h => hacc (TreeSet.contains_iff_mem.mpr h)
  have hcont : ¬ s.fdmap.contains fd = true := fun h => hmem (TreeMap.contains_iff_mem.mp h)
  simp only [hacc, hcont, Bool.false_eq_true, if_false]
  -- the entry is made first, the observation follows
  generalize hu : Server.mk (s.acceptedfds.insert fd) (s.fdmap.insert fd ⟨echo, ""⟩) s.runtimes
    s.heap s.nextptr = u
  have hrt : u.runtimes = s.runtimes := by rw [← hu]
  have hfd : ∀ x : Int, u.fdmap[x]? = if fd = x then some ⟨echo, ""⟩ else s.fdmap[x]? := by
    intro x; rw [← hu]; exact lookup_insert ..
  have hiu : Inv u := by
    have hins : ∀ x : Int, x ∈ u.fdmap ↔ fd = x ∨ x ∈ s.fdmap := by
      intro x; rw [← hu]; simp [TreeMap.mem_insert]
    refine ⟨fun x => ?_, fun x hx => ?_, fun rt d x hd hx => ?_, hrt ▸ hi.default,
      fun rt d hd => (hi.owner rt d (hrt ▸ hd)).imp id fun h => (hins _).mpr (.inr h),
      ?_, ?_, hrt ▸ hi.unique⟩
    · rw [hins, ← hu, mem_insert_iff, hi.connected]
    · obtain rfl | hx := (hins x).mp hx
      · exact h0
      · exact hi.nonneg x hx
    · obtain ⟨p, hp, hprt⟩ := hi.backref rt d x (hrt ▸ hd) hx
      have hne : fd ≠ x := by rintro rfl; exact hmem (mem_fdmap.mpr ⟨p, hp⟩)
      exact ⟨p, by rw [hfd, if_neg hne]; exact hp, hprt⟩
    · rw [← hu]; exact hi.live
    · rw [← hu]; exact hi.fresh
  have hpu : u.fdmap[fd]? = some ⟨echo, ""⟩ := by rw [hfd]; exact if_pos rfl
  obtain ⟨d₀, hd₀, -⟩ := hiu.default
  obtain ⟨rtm, he, hl⟩ := observe_ok fd ⟨echo, ""⟩ hd₀
  obtain ⟨hself, hothers⟩ := observe_observes hd₀ he
  rw [he]
  refine ⟨observe_inv hiu hpu hd₀ he, fun x hx => ?_, fun rt d hd => ?_⟩
  · by_cases hxf : x = fd
    · subst hxf; exact .inl hself
    · have hxs : u.fdmap[x]? = s.fdmap[x]? := by rw [hfd, if_neg (Ne.symm hxf)]
      refine lost_or_observes hx ((hothers x hxf).1.trans hxs) fun h => .inl ((hothers x hxf).2 ?_)
      obtain ⟨q, d, hq, hd, hxd⟩ := h
      exact ⟨q, d, hxs.trans hq, hrt ▸ hd, hxd⟩
  · exact ⟨_, by rw [hl, hrt, hd]; rfl, by simp, by simp⟩

/-- Closing a connection removes the runtimes it owns and no others. -/
theorem close_spec {fd : Int} {s : Server} (hfd : fd ∈ s.fdmap) :
    (∀ x ∈ (closeConnection fd s).fdmap,
      Observes (closeConnection fd s) x ∨ Lost s (closeConnection fd s) x) ∧
      ∀ (rt : String) (d : PerRtData), s.runtimes[rt]? = some d → d.owner = fd ∨
        ∃ e : PerRtData, (closeConnection fd s).runtimes[rt]? = some e ∧
          e.owner = d.owner ∧ e.rteptr = d.rteptr := by
  obtain ⟨p, hp⟩ := mem_fdmap.mp hfd
  obtain ⟨rtm, heap, he, hr, hh⟩ :=
    unobserve_ok (s := { s with acceptedfds := s.acceptedfds.erase fd }) hp
  simp only [closeConnection, he]
  refine ⟨fun x hx => ?_, fun rt d hd => ?_⟩
  · have hxf : fd ≠ x := by rintro rfl; simp at hx
    have hname : (s.fdmap.erase fd)[x]? = s.fdmap[x]? := by rw [lookup_erase, if_neg hxf]
    refine lost_or_observes hx hname ?_
    rintro ⟨q, d, hq, hd, hxd⟩
    by_cases ho : d.owner = fd
    · refine .inr ⟨q, q, hq, hname.trans hq, rfl, fun d' hd' _ hin => ?_⟩
      rw [hd] at hd'; cases hd'
      exact ((hh _).mp hin).2 q.runtime d hd ho rfl
    · refine .inl ⟨q, _, hname.trans hq, (hr _ _).mpr ⟨d, hd, ho, rfl⟩, ?_⟩
      split
      · exact (mem_erase_iff _ _ _).mpr ⟨hxf, hxd⟩
      · exact hxd
  · by_cases ho : d.owner = fd
    · exact .inl ho
    · exact .inr ⟨_, (hr _ _).mpr ⟨d, hd, ho, rfl⟩, by split <;> rfl, by split <;> rfl⟩

theorem command_dispatch {cfg : Settings} {cmd : String} {fd : Int} {p : PerFdData} {s : Server}
    {ptr : Nat} (h : (processCommand cfg cmd fd p s).2.dispatched = some ptr) :
    ∃ d : PerRtData, s.runtimes[p.runtime]? = some d ∧ fd ∈ d.observers ∧ d.rteptr = ptr := by
  unfold processCommand at h
  split at h
  · cases h
  cases hc : parseCommand cmd with
  | error _ => rw [hc] at h; cases h
  | ok r =>
    obtain ⟨keyword, qry, args⟩ := r
    rw [hc] at h
    simp only at h
    split at h
    · cases hr : processRuntimeCommand qry args fd p s with
      | error _ => rw [hr] at h; cases h
      | ok _ => rw [hr] at h; cases h
    split at h
    · cases h
    split at h
    · cases h
    rename_i f hf
    cases hcur : currentRuntime fd p s.runtimes with
    | none => rw [hcur] at h; cases h
    | some d =>
      rw [hcur] at h
      unfold currentRuntime at hcur
      cases hrt : s.runtimes[p.runtime]? with
      | none => rw [hrt] at hcur; cases hcur
      | some e =>
        rw [hrt] at hcur
        simp only at hcur
        split at hcur
        · rename_i hm
          cases hcur; cases h
          exact ⟨d, rfl, TreeSet.contains_iff_mem.mp hm, rfl⟩
        · cases hcur

/-- Everything one event does to the bookkeeping. -/
theorem step_spec {cfg : Settings} {s t : Server} {e : Event} {o : Output} (hi : Inv s)
    (h : step cfg s e = some (t, o)) :
    Inv t ∧ (∀ x ∈ t.fdmap, Observes t x ∨ Lost s t x) ∧
      (∀ (rt : String) (d : PerRtData), s.runtimes[rt]? = some d →
        (∃ d' : PerRtData, t.runtimes[rt]? = some d' ∧ d'.owner = d.owner ∧ d'.rteptr = d.rteptr) ∨
          e = .close d.owner ∨ ∃ fd cmd, e = .command fd cmd ∧ Deletes cmd rt) ∧
      ∀ ptr, o.dispatched = some ptr → ∃ (fd : Int) (cmd : String) (p : PerFdData) (d : PerRtData),
        e = .command fd cmd ∧ s.fdmap[fd]? = some p ∧ s.runtimes[p.runtime]? = some d ∧
          fd ∈ d.observers ∧ d.rteptr = ptr := by
  cases e with
  | accept fd =>
    simp only [step, Option.some.injEq, Prod.mk.injEq] at h
    obtain ⟨rfl, rfl⟩ := h
    obtain ⟨hinv, hobs, hkeep⟩ := accept_spec cfg.echo hi (Int.natCast_nonneg fd)
    exact ⟨hinv, hobs, fun rt d hd => .inl (hkeep rt d hd), by simp⟩
  | command fd cmd =>
    simp only [step] at h
    split at h
    · rename_i hacc
      have hfd : fd ∈ s.fdmap := (hi.connected fd).mp (TreeSet.contains_iff_mem.mp hacc)
      obtain ⟨p, hp⟩ := mem_fdmap.mp hfd
      rw [hp] at h
      simp only [Option.some.injEq] at h
      have heff := command_effect cfg cmd fd p hi
      rw [h] at heff
      refine ⟨effect_inv hi hp heff, effect_observes hi hp heff, fun rt d hd => ?_, fun ptr hptr => ?_⟩
      · exact (effect_keeps hi heff hd).symm.imp id fun hdel => .inr ⟨fd, cmd, rfl, hdel⟩
      · obtain ⟨d, hd, hfdd, hdp⟩ := command_dispatch (by rw [h]; exact hptr)
        exact ⟨fd, cmd, p, d, rfl, hp, hd, hfdd, hdp⟩
    · cases h
  | close fd =>
    simp only [step] at h
    split at h
    · rename_i hacc
      have hfd : fd ∈ s.fdmap := (hi.connected fd).mp (TreeSet.contains_iff_mem.mp hacc)
      simp only [Option.some.injEq, Prod.mk.injEq] at h
      obtain ⟨rfl, rfl⟩ := h
      obtain ⟨hobs, hkeep⟩ := close_spec hfd
      refine ⟨close_inv hi hfd, hobs, fun rt d hd => ?_, by simp⟩
      exact (hkeep rt d hd).symm.imp id fun ho => .inl (by rw [ho])
    · cases h

theorem run_inv {cfg : Settings} {as : List (Event × Output)} {t : Server}
    (h : (server cfg).Run initial as t) : Inv t :=
  h.invariant Inv (fun _ _ _ hi hs => (step_spec hi hs).1) initial_inv

/-- In a run: at some step the runtime `fd` was observing was deleted, and `fd`
has named no other runtime since. -/
def Orphaned (cfg : Settings) (as : List (Event × Output)) (t : Server) (fd : Int) : Prop :=
  ∃ as₁ a as₂ u v, as = as₁ ++ a :: as₂ ∧ (server cfg).Run initial as₁ u ∧
    (server cfg).step u a v ∧ (server cfg).Run v as₂ t ∧
    ∃ (p : PerFdData) (d : PerRtData), u.fdmap[fd]? = some p ∧ u.runtimes[p.runtime]? = some d ∧
      fd ∈ d.observers ∧ d.rteptr ∉ v.heap ∧ runtimeOf fd t = p.runtime

theorem run_observes {cfg : Settings} {as : List (Event × Output)} {t : Server}
    (h : (server cfg).Run initial as t) : ∀ fd ∈ t.fdmap, Observes t fd ∨ Orphaned cfg as t fd := by
  generalize h0 : initial = s₀ at h
  induction h with
  | refl => subst h0; simp [initial]
  | @snoc u t as a hr hs ih =>
    intro fd hfd
    subst h0
    obtain ⟨-, hobs, -⟩ := step_spec (run_inv hr) hs
    rcases hobs fd hfd with ho | ⟨p, q, hp, hq, hname, hgone⟩
    · exact .inl ho
    have hrt : runtimeOf fd t = p.runtime := by simp [runtimeOf, hq, hname]
    rcases ih fd (mem_fdmap.mpr ⟨p, hp⟩) with ⟨p', d, hp', hd, hmem⟩ | horph
    · rw [hp] at hp'; cases hp'
      exact .inr ⟨as, a, [], u, t, rfl, hr, hs, .refl t, p, d, hp, hd, hmem, hgone d hd hmem, hrt⟩
    · obtain ⟨as₁, b, as₂, v, w, rfl, h1, h2, h3, p', d, hp', hd, hmem, hdead, hname'⟩ := horph
      refine .inr ⟨as₁, b, as₂ ++ [a], v, w, by simp, h1, h2, .snoc h3 hs, p', d, hp', hd, hmem,
        hdead, ?_⟩
      rw [hrt, ← hname']
      simp [runtimeOf, hp]

/-! ## The bookkeeping is safe -/

/-- No commands other than `runtime` and `echo`. -/
def bare : Settings := ⟨true, fun _ => none, fun _ => none⟩

/-- Connections 5 and 6 share a runtime, and 5 deletes it. -/
def deleteShared : List Event :=
  [.accept 5, .accept 6, .command 5 "runtime=a:transient", .command 6 "runtime=a",
    .command 6 "runtime=a:delete"]

end Jive5ab.Server.Runtimes
