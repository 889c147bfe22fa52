import Mathlib.Data.List.Perm.Subperm
import Jive5ab.Lib.TokenPool
import Jive5ab.Recorder.Parallelwriter

/-! # No mountpoint gets lost

The writers and their list of mountpoints are a token pool, as long as no
exception takes out a writer between taking a mountpoint and putting it back:
`fchown` failing is one that does. -/
namespace Jive5ab.Recorder
open Lib

/-! ## The writers as a pool -/

def Writer.mode : Writer → Mode
  | .select .. => .looking
  | .asleep .. => .asleep
  | .holding .. => .holding
  | _ => .away

def State.pool (s : State) : Pool := ⟨s.args.filelist.length, s.args.listlength, s.writers.map Writer.mode⟩

@[simp] theorem pool_setWriter (s : State) (i : Nat) (w : Writer) :
    (s.setWriter i w).pool = s.pool.put i w.mode := by
  unfold State.pool State.setWriter Pool.put
  rw [List.map_set]

theorem mode_wake (w : Writer) : w.wake.mode = w.mode.wake := by cases w <;> rfl

@[simp] theorem pool_broadcast (s : State) : s.broadcast.pool = s.pool.wakeAll := by
  unfold State.pool State.broadcast Pool.wakeAll
  rw [List.map_map, List.map_map]
  congr 1
  exact List.map_congr_left fun w _ => mode_wake w

theorem pool_modes {s : State} {i : Nat} {w : Writer} (h : s.writers[i]? = some w) :
    s.pool.modes[i]? = some w.mode := by
  show (s.writers.map Writer.mode)[i]? = _
  rw [List.getElem?_map, h]
  rfl

theorem mode_asleep {w : Writer} : w.sleeps = true ↔ w.mode = .asleep := by
  cases w <;> simp [Writer.sleeps, Writer.mode]

theorem signal_pool {s t : State} {sleeper : Option Nat} (h : s.signal sleeper = some t) :
    Pool.Signalled s.pool t.pool ∧ t.args = s.args := by
  unfold State.signal at h
  split at h
  · rename_i j
    split at h
    · rename_i w hw
      split at h
      · rename_i hsleeps
        obtain rfl := Option.some.inj h
        have hmode := mode_asleep.mp hsleeps
        rw [pool_setWriter, mode_wake, hmode]
        exact ⟨.somebody (hmode ▸ pool_modes hw), rfl⟩
      · cases h
    · cases h
  · split at h
    · cases h
    · rename_i hno
      obtain rfl := Option.some.inj h
      refine ⟨.nobody ?_, rfl⟩
      refine List.count_eq_zero.mpr fun hmem => hno ?_
      obtain ⟨w, hw, hmode⟩ := List.mem_map.mp hmem
      exact List.any_eq_true.mpr ⟨w, hw, mode_asleep.mpr hmode⟩

theorem put_same {p : Pool} {i : Nat} {m : Mode} (h : p.modes[i]? = some m) : p.put i m = p := by
  obtain ⟨hi, rfl⟩ := List.getElem?_eq_some_iff.mp h
  unfold Pool.put
  rw [List.set_getElem_self]

/-! ## What a step does to the pool -/

section
variable {vars : Mark6Vars} {s t : State} {i : Nat} {c : Chunk} {seen : List String}
  {mountpoint : String} {stage : Stage} {a : Answer}

/-- From one stage to the next with the same mountpoint. -/
theorem pool_stage (hi : s.writers[i]? = some (.holding c seen mountpoint stage)) {s' : State}
    (hs : s'.args = s.args ∧ s'.writers = s.writers) (stage' : Stage) :
    (s'.setWriter i (.holding c seen mountpoint stage')).pool = s.pool := by
  have hpool : s'.pool = s.pool := by
    unfold State.pool
    rw [hs.1, hs.2]
  rw [pool_setWriter, hpool]
  exact @put_same s.pool i .holding (pool_modes hi)

theorem append_frame (s : State) (fd : Nat) (bytes : List UInt8) (rv : Int) :
    (s.append fd bytes rv).args = s.args ∧ (s.append fd bytes rv).writers = s.writers := ⟨rfl, rfl⟩

theorem markBad_pool (hi : s.writers[i]? = some (.holding c seen mountpoint stage)) {s' : State}
    (hs : s'.args = s.args ∧ s'.writers = s.writers) :
    Pool.Step s.pool true (markMountpointBad s' i c seen).pool := by
  have hpool : (markMountpointBad s' i c seen).pool =
      { s.pool with alive := s.pool.alive - 1 }.wakeAll.put i .looking := by
    unfold markMountpointBad
    rw [pool_setWriter, pool_broadcast]
    unfold State.pool
    rw [hs.1, hs.2]
    rfl
  rw [hpool]
  exact .retire (pool_modes hi)

theorem giveBack_pool (hi : s.writers[i]? = some (.holding c seen mountpoint stage)) {s' : State}
    {w : Writer} {sleeper : Option Nat} (h : (s'.setWriter i w).signal sleeper = some t)
    (hw : w.mode = .looking ∨ w.mode = .away)
    (hlen : s'.args.filelist = s.args.filelist ++ [mountpoint])
    (halive : s'.args.listlength = s.args.listlength) (hwriters : s'.writers = s.writers) :
    Pool.Step s.pool false t.pool := by
  refine .give (pool_modes hi) hw ?_
  have hpool : s'.pool = { s.pool with free := s.pool.free + 1 } := by
    unfold State.pool
    rw [hlen, halive, hwriters, List.length_append]
    rfl
  rw [← hpool, ← pool_setWriter]
  exact (signal_pool h).1

theorem stageStep_pool (hi : s.writers[i]? = some (.holding c seen mountpoint stage))
    (h : stageStep vars s i c seen mountpoint stage a = some t) (ha : a ≠ .chowned false) :
    Pool.Step s.pool (a == .retire) t.pool := by
  have hstay : ∀ {s' : State}, s'.args = s.args ∧ s'.writers = s.writers → ∀ stage',
      Pool.Step s.pool false (s'.setWriter i (.holding c seen mountpoint stage')).pool := by
    intro s' hs stage'
    rw [pool_stage hi hs]
    exact .stay _
  unfold stageStep at h
  dsimp only at h
  split at h
  case h_1 =>
    split at h <;> obtain rfl := Option.some.inj h <;> exact hstay ⟨rfl, rfl⟩ _
  case h_2 =>
    obtain rfl := Option.some.inj h
    exact hstay ⟨rfl, rfl⟩ _
  case h_3 =>
    split at h
    · split at h
      · cases h
      · obtain rfl := Option.some.inj h
        exact hstay ⟨rfl, rfl⟩ _
    · obtain rfl := Option.some.inj h
      exact hstay ⟨rfl, rfl⟩ _
  case h_4 =>
    rename_i ok
    cases ok with
    | true =>
      obtain rfl := Option.some.inj h
      exact hstay ⟨rfl, rfl⟩ _
    | false => exact absurd rfl ha
  case h_5 | h_6 | h_7 =>
    split at h
    · obtain rfl := Option.some.inj h
      exact hstay (append_frame ..) _
    · cases h
  case h_8 =>
    split at h
    · cases h
    · obtain rfl := Option.some.inj h
      exact hstay ⟨rfl, rfl⟩ _
  case h_9 =>
    obtain rfl := Option.some.inj h
    exact hstay ⟨rfl, rfl⟩ _
  case h_10 =>
    split at h <;> obtain rfl := Option.some.inj h <;> exact hstay ⟨rfl, rfl⟩ _
  case h_11 =>
    obtain rfl := Option.some.inj h
    exact markBad_pool hi ⟨rfl, rfl⟩
  case h_12 =>
    obtain rfl := Option.some.inj h
    exact markBad_pool hi ⟨rfl, rfl⟩
  case h_13 => exact giveBack_pool hi h (.inr rfl) rfl rfl rfl
  case h_14 =>
    refine giveBack_pool hi h ?_ rfl rfl rfl
    split
    · exact .inr rfl
    · exact .inl rfl
  case h_15 => cases h

theorem select_pool (hi : s.writers[i]? = some (.select c seen))
    (hnames : ∀ mp ∈ s.args.filelist, mp ≠ "") :
    Pool.Step s.pool false (selectMountpoint vars s i c seen).pool := by
  have hmode : s.pool.modes[i]? = some .looking := pool_modes hi
  unfold selectMountpoint
  dsimp only
  split
  · rename_i hempty
    rw [pool_setWriter]
    refine .sleep hmode ?_ hempty.1
    exact List.length_eq_zero_iff.mpr hempty.2
  · split
    · rename_i hnil
      rw [pool_setWriter]
      exact .leave hmode (List.length_eq_zero_iff.mpr hnil)
    · rename_i mountpoint rest hcons
      have htake : s.pool.free = rest.length + 1 := by
        show s.args.filelist.length = _
        rw [hcons, List.length_cons]
      rw [if_neg (hnames mountpoint (by simp [hcons]))]
      split <;> rw [pool_setWriter] <;> exact .take hmode htake

/-- A step of the writers is a step of their pool. -/
theorem step_pool {la : Nat × Answer} (h : step vars s la = some t)
    (hnames : ∀ mp ∈ s.args.filelist, mp ≠ "") (ha : la.2 ≠ .chowned false) :
    Pool.Step s.pool (la.2 == .retire) t.pool := by
  obtain ⟨i, a⟩ := la
  unfold step at h
  dsimp only at h
  split at h
  case h_1 hi =>
    obtain rfl := Option.some.inj h
    rw [pool_setWriter]
    exact .start (pool_modes hi)
  case h_2 hi =>
    obtain rfl := Option.some.inj h
    have hsame : s.pool.put i .away = s.pool := put_same (pool_modes hi)
    rw [pool_setWriter]
    show Pool.Step s.pool false (s.pool.put i .away)
    rw [hsame]
    exact .stay _
  case h_3 hi =>
    obtain rfl := Option.some.inj h
    exact select_pool hi hnames
  case h_4 hi =>
    obtain rfl := Option.some.inj h
    rw [pool_setWriter]
    exact .spurious (pool_modes hi)
  case h_5 hi => exact stageStep_pool hi h ha
  case h_6 => cases h

end

/-! ## Who has which mountpoint -/

def Writer.mountpoint? : Writer → Option String
  | .holding _ _ mountpoint _ => some mountpoint
  | _ => none

def heldBy (ws : List Writer) : List String := ws.filterMap Writer.mountpoint?

/-- The mountpoints in the list and in the hands of writers. -/
def State.names (s : State) : List String := s.args.filelist ++ heldBy s.writers

theorem heldBy_set {ws : List Writer} {i : Nat} {w : Writer} (h : ws[i]? = some w) (w' : Writer) :
    (w.mountpoint?.toList ++ heldBy (ws.set i w')).Perm (w'.mountpoint?.toList ++ heldBy ws) := by
  obtain ⟨hi, rfl⟩ := List.getElem?_eq_some_iff.mp h
  obtain ⟨xs, ys, hws, -, hset⟩ := @List.exists_of_set _ _ w' _ hi
  have hcons : ∀ v : Writer, (heldBy (xs ++ v :: ys)).Perm (v.mountpoint?.toList ++ heldBy (xs ++ ys)) := by
    intro v
    unfold heldBy
    rw [List.filterMap_append, List.filterMap_append, List.filterMap_cons]
    cases v.mountpoint? with
    | none => exact .refl _
    | some mp => exact List.perm_middle
  rw [hset]
  conv => rhs; rw [hws]
  refine ((hcons w').append_left _).trans (.trans ?_ ((hcons ws[i]).symm.append_left _))
  rw [← List.append_assoc, ← List.append_assoc]
  exact List.perm_append_comm.append_right _

theorem heldBy_wake (ws : List Writer) : heldBy (ws.map Writer.wake) = heldBy ws := by
  unfold heldBy
  rw [List.filterMap_map]
  refine List.filterMap_congr fun w _ => ?_
  cases w <;> rfl

theorem names_setWriter {s : State} {i : Nat} {w : Writer} (h : s.writers[i]? = some w) (w' : Writer) :
    (w.mountpoint?.toList ++ (s.setWriter i w').names).Perm (w'.mountpoint?.toList ++ s.names) := by
  have hset := heldBy_set h w'
  show (_ ++ (s.args.filelist ++ heldBy (s.writers.set i w'))).Perm (_ ++ (s.args.filelist ++ _))
  refine List.perm_append_comm_assoc _ _ _ |>.trans ?_
  exact (hset.append_left _).trans (List.perm_append_comm_assoc _ _ _)

theorem signal_names {s t : State} {sleeper : Option Nat} (h : s.signal sleeper = some t) :
    t.names = s.names := by
  unfold State.signal at h
  split at h
  · rename_i j
    split at h
    · rename_i w hw
      split at h
      · obtain rfl := Option.some.inj h
        have hwake : w.wake.mountpoint? = w.mountpoint? := by cases w <;> rfl
        have hsame : heldBy (s.writers.set j w.wake) = heldBy s.writers := by
          obtain ⟨hj, rfl⟩ := List.getElem?_eq_some_iff.mp hw
          obtain ⟨xs, ys, hws, -, hset⟩ := @List.exists_of_set _ _ s.writers[j].wake _ hj
          rw [hset]
          conv => rhs; rw [hws]
          unfold heldBy
          rw [List.filterMap_append, List.filterMap_append, List.filterMap_cons,
            List.filterMap_cons, hwake]
        show s.args.filelist ++ heldBy (s.writers.set j w.wake) = s.args.filelist ++ _
        rw [hsame]
      · cases h
    · cases h
  · split at h
    · cases h
    · obtain rfl := Option.some.inj h
      rfl

section
variable {vars : Mark6Vars} {s t : State} {i : Nat} {c : Chunk} {seen : List String}
  {mountpoint : String} {stage : Stage} {a : Answer}

theorem names_stage (hi : s.writers[i]? = some (.holding c seen mountpoint stage)) {s' : State}
    (hs : s'.args = s.args ∧ s'.writers = s.writers) (stage' : Stage) :
    (s'.setWriter i (.holding c seen mountpoint stage')).names.Subperm s.names := by
  have hi' : s'.writers[i]? = some (.holding c seen mountpoint stage) := by rw [hs.2, hi]
  have hnames : s'.names = s.names := by
    unfold State.names
    rw [hs.1, hs.2]
  have hperm := names_setWriter hi' (.holding c seen mountpoint stage')
  rw [hnames] at hperm
  exact (List.perm_cons _).mp hperm |>.subperm

/-- A writer drops the mountpoint it holds. -/
theorem names_drop (hi : s.writers[i]? = some (.holding c seen mountpoint stage)) {w : Writer}
    (hw : w.mountpoint? = none) : (mountpoint :: (s.setWriter i w).names).Perm s.names := by
  have hperm := names_setWriter hi w
  rw [hw] at hperm
  exact hperm

theorem names_markBad (hi : s.writers[i]? = some (.holding c seen mountpoint stage)) {s' : State}
    (hs : s'.args = s.args ∧ s'.writers = s.writers) :
    (markMountpointBad s' i c seen).names.Subperm s.names := by
  have hi' : (s'.writers.map Writer.wake)[i]? = some (.holding c seen mountpoint stage) := by
    rw [List.getElem?_map, hs.2, hi]
    rfl
  have hdrop := names_drop (s := { s'.broadcast with args := { s'.args with
    listlength := s'.args.listlength - 1 } }) hi' (w := .select c seen) rfl
  have hnames : s'.args.filelist ++ heldBy (s'.writers.map Writer.wake) = s.names := by
    rw [heldBy_wake, hs.1, hs.2]
    rfl
  change (mountpoint :: (markMountpointBad s' i c seen).names).Perm
    (s'.args.filelist ++ heldBy (s'.writers.map Writer.wake)) at hdrop
  rw [hnames] at hdrop
  exact (List.sublist_cons_self _ _).subperm.trans hdrop.subperm

theorem names_giveBack (hi : s.writers[i]? = some (.holding c seen mountpoint stage)) {s' : State}
    {w : Writer} {sleeper : Option Nat} (h : (s'.setWriter i w).signal sleeper = some t)
    (hw : w.mountpoint? = none) (hlen : s'.args.filelist = s.args.filelist ++ [mountpoint])
    (hwriters : s'.writers = s.writers) : t.names.Subperm s.names := by
  have hi' : s'.writers[i]? = some (.holding c seen mountpoint stage) := by rw [hwriters, hi]
  have hdrop := names_drop hi' hw
  have hnames : s'.names.Perm (mountpoint :: s.names) := by
    unfold State.names
    rw [hlen, hwriters, List.append_assoc, List.singleton_append]
    exact List.perm_middle
  rw [signal_names h]
  exact (List.perm_cons _).mp (hdrop.trans hnames) |>.subperm

theorem stageStep_names (hi : s.writers[i]? = some (.holding c seen mountpoint stage))
    (h : stageStep vars s i c seen mountpoint stage a = some t) : t.names.Subperm s.names := by
  unfold stageStep at h
  dsimp only at h
  split at h
  case h_1 | h_10 =>
    split at h <;> obtain rfl := Option.some.inj h <;> exact names_stage hi ⟨rfl, rfl⟩ _
  case h_2 | h_9 =>
    obtain rfl := Option.some.inj h
    exact names_stage hi ⟨rfl, rfl⟩ _
  case h_3 =>
    split at h
    · split at h
      · cases h
      · obtain rfl := Option.some.inj h
        exact names_stage hi ⟨rfl, rfl⟩ _
    · obtain rfl := Option.some.inj h
      exact names_stage hi ⟨rfl, rfl⟩ _
  case h_4 =>
    split at h
    · obtain rfl := Option.some.inj h
      exact names_stage hi ⟨rfl, rfl⟩ _
    · obtain rfl := Option.some.inj h
      have hdrop := names_drop hi (w := .threw) rfl
      exact (List.sublist_cons_self _ _).subperm.trans hdrop.subperm
  case h_5 | h_6 | h_7 =>
    split at h
    · obtain rfl := Option.some.inj h
      exact names_stage hi (append_frame ..) _
    · cases h
  case h_8 =>
    split at h
    · cases h
    · obtain rfl := Option.some.inj h
      exact names_stage hi ⟨rfl, rfl⟩ _
  case h_11 | h_12 =>
    obtain rfl := Option.some.inj h
    exact names_markBad hi ⟨rfl, rfl⟩
  case h_13 => exact names_giveBack hi h rfl rfl rfl
  case h_14 =>
    refine names_giveBack hi h ?_ rfl rfl
    split <;> rfl
  case h_15 => cases h

theorem select_names (hi : s.writers[i]? = some (.select c seen)) :
    (selectMountpoint vars s i c seen).names.Subperm s.names := by
  unfold selectMountpoint
  dsimp only
  split
  · exact (names_setWriter hi (.asleep c seen)).subperm
  · split
    · exact (names_setWriter hi .quit).subperm
    · rename_i mountpoint rest hcons
      have hi' : ({ s with args := { s.args with filelist := rest } } : State).writers[i]? =
          some (.select c seen) := hi
      have hnames : s.names = mountpoint ::
          ({ s with args := { s.args with filelist := rest } } : State).names := by
        unfold State.names
        rw [hcons]
        rfl
      rw [hnames]
      split
      · exact (names_setWriter hi' .quit).subperm.trans (List.sublist_cons_self _ _).subperm
      · split
        · exact (names_setWriter hi' (.holding c seen mountpoint _)).subperm
        · exact (names_setWriter hi' (.holding c (mountpoint :: seen) mountpoint _)).subperm

/-- Mountpoints change hands, and may get lost, but there are never more of them. -/
theorem step_names {la : Nat × Answer} (h : step vars s la = some t) : t.names.Subperm s.names := by
  obtain ⟨i, a⟩ := la
  unfold step at h
  dsimp only at h
  split at h
  case h_1 hi =>
    obtain rfl := Option.some.inj h
    exact (names_setWriter hi (.select _ [])).subperm
  case h_2 hi =>
    obtain rfl := Option.some.inj h
    exact (names_setWriter hi .quit).subperm
  case h_3 hi =>
    obtain rfl := Option.some.inj h
    exact select_names hi
  case h_4 hi =>
    obtain rfl := Option.some.inj h
    exact (names_setWriter hi (.select _ _)).subperm
  case h_5 hi => exact stageStep_names hi h
  case h_6 => cases h

end

/-! ## Runs -/

theorem count_mode (s : State) (m : Mode) :
    s.pool.count m = s.writers.countP fun w => w.mode == m := by
  show (s.writers.map Writer.mode).count m = _
  rw [List.count, List.countP_map]
  rfl

theorem mode_holding (w : Writer) : (w.mode == .holding) = w.holds := by cases w <;> rfl

theorem mode_looking (w : Writer) : (w.mode == .looking) = w.looks := by cases w <;> rfl

theorem initial_names (mountpoints : List String) (nwriter : Nat) :
    (initial mountpoints nwriter).names = mountpoints := by
  unfold State.names initial heldBy
  rw [List.filterMap_replicate_of_none rfl, List.append_nil]

theorem initial_pool (mountpoints : List String) (nwriter : Nat) :
    (initial mountpoints nwriter).pool.Inv := by
  have hnone : ∀ m, m ≠ .away → (initial mountpoints nwriter).pool.count m = 0 := by
    intro m hm
    rw [count_mode, List.countP_eq_zero]
    intro w hw
    obtain rfl := (List.mem_replicate.mp hw).2
    simpa [Writer.mode] using hm.symm
  refine ⟨?_, fun hpos => ?_⟩
  · rw [hnone .holding (by decide)]
    rfl
  · rw [hnone .asleep (by decide)] at hpos
    omega

/-- A run in which nothing is thrown while a writer has a mountpoint. -/
def NothingThrown (as : List (Nat × Answer)) : Prop := ∀ a ∈ as, a.2 ≠ .chowned false

theorem run_names {vars : Mark6Vars} {mountpoints : List String} {nwriter : Nat} {s t : State}
    {as : List (Nat × Answer)} (h : (parallelwriter vars mountpoints nwriter).Run s as t) :
    t.names.Subperm s.names := by
  induction h with
  | refl => exact .refl _
  | snoc _ hstep ih => exact (step_names hstep).trans ih

theorem run_pool {vars : Mark6Vars} {mountpoints : List String} {nwriter : Nat} {s t : State}
    {as : List (Nat × Answer)} (h : (parallelwriter vars mountpoints nwriter).Run s as t)
    (hnames : ∀ mp ∈ s.names, mp ≠ "") (has : NothingThrown as) (hinv : s.pool.Inv) :
    t.pool.Inv ∧ t.args.listlength + (as.countP fun la => la.2 == .retire) = s.args.listlength := by
  induction h with
  | refl => exact ⟨hinv, rfl⟩
  | @snoc t u as a hrun hstep ih =>
    obtain ⟨hmid, hcount⟩ := ih fun b hb => has b (List.mem_append_left _ hb)
    have hlist : ∀ mp ∈ t.args.filelist, mp ≠ "" := by
      intro mp hmp
      exact hnames mp ((run_names hrun).subset (List.mem_append_left _ hmp))
    have hpool := step_pool hstep hlist (has a (List.mem_append_right _ (List.mem_singleton_self a)))
    obtain ⟨hlast, halive⟩ := hmid.step hpool
    refine ⟨hlast, ?_⟩
    change u.args.listlength + _ = t.args.listlength at halive
    have hone : (if (a.2 == .retire) = true then 1 else 0) = (a.2 == .retire).toNat := by
      cases a.2 == .retire <;> rfl
    rw [List.countP_append, List.countP_singleton, hone]
    omega

/-- No mountpoint is unaccounted for, and nobody sleeps unless somebody else has
what he waits for, or is awake to take what is there. -/
structure Conserved (mountpoints : List String) (as : List (Nat × Answer)) (s : State) : Prop where
  tokens : s.args.filelist.length + s.writers.countP Writer.holds +
    (as.countP fun la => la.2 == .retire) = mountpoints.length
  waits : (∃ w ∈ s.writers, w.sleeps = true) →
    (∃ w ∈ s.writers, w.holds = true) ∨
      s.args.filelist ≠ [] ∧ ∃ w ∈ s.writers, w.looks = true

theorem mountpoints_conserved {vars : Mark6Vars} {mountpoints : List String} {nwriter : Nat}
    {s : State} {as : List (Nat × Answer)}
    (h : (parallelwriter vars mountpoints nwriter).Run (initial mountpoints nwriter) as s)
    (hnames : ∀ mp ∈ mountpoints, mp ≠ "") (has : NothingThrown as) :
    Conserved mountpoints as s := by
  obtain ⟨hinv, halive⟩ := run_pool h (by rwa [initial_names]) has (initial_pool _ _)
  have hholds : s.pool.count .holding = s.writers.countP Writer.holds := by
    rw [count_mode]
    simp only [mode_holding]
  refine ⟨?_, fun hsleep => ?_⟩
  · have htok := hinv.tokens
    rw [hholds] at htok
    change s.args.filelist.length + _ = s.args.listlength at htok
    change _ = mountpoints.length at halive
    omega
  · obtain ⟨w, hw, hsleeps⟩ := hsleep
    have hpos : 0 < s.pool.count .asleep := by
      rw [count_mode, List.countP_pos_iff]
      exact ⟨w, hw, beq_iff_eq.mpr (mode_asleep.mp hsleeps)⟩
    rcases hinv.waits hpos with hheld | ⟨hfree, hlook⟩
    · rw [hholds, List.countP_pos_iff] at hheld
      exact .inl hheld
    · rw [count_mode, List.countP_pos_iff] at hlook
      obtain ⟨v, hv, hlooks⟩ := hlook
      exact .inr ⟨List.ne_nil_of_length_pos hfree, v, hv, by rwa [mode_looking] at hlooks⟩

/-- Two writers and a disk: the second writer waits for the first one. -/
def oneDisk : List (Nat × Answer) :=
  [(0, .popped (some ⟨"r.00000000", 0, [1, 2]⟩)), (0, .proceed),
    (1, .popped (some ⟨"r.00000001", 1, [3]⟩)), (1, .proceed), (0, .made true), (0, .opened true)]

def plainFiles : Mark6Vars := ⟨false, 0, 0⟩

theorem mountpoints_conserved_oneDisk :
    ∃ s, (parallelwriter plainFiles ["/mnt/disk0"] 2).Run (initial ["/mnt/disk0"] 2) oneDisk s ∧
      Conserved ["/mnt/disk0"] oneDisk s := by
  have hsome : (oneDisk.foldlM (step plainFiles) (initial ["/mnt/disk0"] 2)).isSome := by
    decide +kernel
  obtain ⟨s, hs⟩ := Option.isSome_iff_exists.mp hsome
  have hrun : (parallelwriter plainFiles ["/mnt/disk0"] 2).Run _ oneDisk s := ofFn_run hs
  exact ⟨s, hrun, mountpoints_conserved hrun (by decide) (by unfold NothingThrown; decide)⟩

/-- If then the owner of the file cannot be changed the disk is gone, and the
second writer is left asleep with nobody holding anything. -/
theorem mountpoint_lost_by_chown :
    ∃ s : State, (parallelwriter plainFiles ["/mnt/disk0"] 2).Run (initial ["/mnt/disk0"] 2)
        (oneDisk ++ [(0, Answer.chowned false)]) s ∧
      s.args.filelist = [] ∧ s.writers = [.threw, .asleep ⟨"r.00000001", 1, [3]⟩ []] ∧
      ¬ Conserved ["/mnt/disk0"] (oneDisk ++ [(0, Answer.chowned false)]) s := by
  have hend : ((oneDisk ++ [(0, Answer.chowned false)]).foldlM (step plainFiles)
      (initial ["/mnt/disk0"] 2)).map (fun s : State => (s.args.filelist, s.writers)) =
        some ([], [Writer.threw, .asleep ⟨"r.00000001", 1, [3]⟩ []]) := by
    decide +kernel
  obtain ⟨s, hs, hst⟩ := Option.map_eq_some_iff.mp hend
  obtain ⟨hlist, hwriters⟩ := Prod.mk.inj hst
  refine ⟨s, ofFn_run hs, hlist, hwriters, fun hcons => ?_⟩
  have htokens := hcons.tokens
  rw [hlist, hwriters] at htokens
  revert htokens
  decide

end Jive5ab.Recorder
