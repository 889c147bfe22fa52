import Mathlib

/-! # Volume labels

The VSN and the companion VSN in the layouts of a user directory. The setters are written once for
each layout; the one of `EnhancedLayout` for the companion writes the VSN. -/
namespace Jive5ab.Userdir.Labels

inductive Layout
  | original
  | mark5AB (bankB : Bool)
  | enhanced
  deriving DecidableEq

/-- The bytes of the two fields, and whatever else there is in the directory. -/
structure Directory (ρ : Type) where
  vsn : List UInt8
  companionVsn : List UInt8
  rest : ρ

def vsnLength : Nat := 64

/-- `strncpy` of all but the last byte, which is set to NUL. -/
def strncpyTerminated (n : Nat) (s : List UInt8) : List UInt8 :=
  let copied := (s.takeWhile (· != 0)).take (n - 1)
  copied ++ List.replicate (n - copied.length) 0

/-- `memset`, and `memcpy` of what there is room for. -/
def memcpyCleared (n : Nat) (s : List UInt8) : List UInt8 :=
  s.take n ++ List.replicate (n - s.length) 0

def fromCStr (field : List UInt8) : List UInt8 := field.takeWhile (· != 0)

variable {ρ : Type}

def getVSN (layout : Layout) (d : Directory ρ) : List UInt8 :=
  match layout with
  | .original => []
  | .mark5AB _ => fromCStr d.vsn
  | .enhanced => fromCStr d.vsn

def getCompanionVSN (layout : Layout) (d : Directory ρ) : List UInt8 :=
  match layout with
  | .original => []
  | .mark5AB false => []
  | .mark5AB true => fromCStr d.companionVsn
  | .enhanced => fromCStr d.companionVsn

def setVSN (layout : Layout) (vsn : List UInt8) (d : Directory ρ) : Except String (Directory ρ) :=
  match layout with
  | .original => .error "userdir_enosys"
  | .mark5AB _ => .ok { d with vsn := strncpyTerminated vsnLength vsn }
  | .enhanced => .ok { d with vsn := memcpyCleared 32 vsn }

def setCompanionVSN (layout : Layout) (vsn : List UInt8) (d : Directory ρ) :
    Except String (Directory ρ) :=
  match layout with
  | .original => .error "userdir_enosys"
  | .mark5AB false => .error "This userdirectory cannot store companion VSN"
  | .mark5AB true => .ok { d with companionVsn := strncpyTerminated vsnLength vsn }
  | .enhanced => .ok { d with vsn := memcpyCleared 32 vsn }

inductive Call
  | setVSN (vsn : List UInt8)
  | setCompanionVSN (vsn : List UInt8)
  deriving DecidableEq

/-- A call that throws leaves the directory as it is. -/
def call (layout : Layout) (d : Directory ρ) : Call → Directory ρ
  | .setVSN vsn => ((setVSN layout vsn d).toOption).getD d
  | .setCompanionVSN vsn => ((setCompanionVSN layout vsn d).toOption).getD d

def calls (layout : Layout) (d : Directory ρ) (run : List Call) : Directory ρ :=
  run.foldl (call layout) d

/-! ## Two labels -/

/-- The labels themselves, each with its own setter. -/
structure Store (ρ : Type) where
  vsn : List UInt8
  companionVsn : List UInt8
  rest : ρ

def Store.set (s : Store ρ) : Call → Store ρ
  | .setVSN vsn => { s with vsn }
  | .setCompanionVSN vsn => { s with companionVsn := vsn }

/-- The layouts that can store a label. -/
def Layout.accepts : Layout → Call → Bool
  | .original, _ => false
  | .mark5AB bankB, .setCompanionVSN _ => bankB
  | _, _ => true

/-- What has been set by the calls that are accepted. -/
def Store.sets (layout : Layout) (s : Store ρ) (run : List Call) : Store ρ :=
  (run.filter layout.accepts).foldl Store.set s

def stored (layout : Layout) (d : Directory ρ) : Store ρ :=
  ⟨getVSN layout d, getCompanionVSN layout d, d.rest⟩

/-- The longest label that a field holds. -/
def Layout.room : Layout → Nat
  | .enhanced => 32
  | _ => vsnLength - 1

/-- The label fits, and it is not set by the setter that writes another field. -/
def Fits (layout : Layout) : Call → Prop
  | .setVSN vsn => 0 ∉ vsn ∧ vsn.length ≤ layout.room
  | .setCompanionVSN vsn => layout ≠ .enhanced ∧ 0 ∉ vsn ∧ vsn.length ≤ layout.room

/-! ## Fields -/

theorem takeWhile_eq_self_iff {s : List UInt8} : s.takeWhile (· != 0) = s ↔ 0 ∉ s := by
  rw [List.takeWhile_eq_self_iff]
  constructor
  · intro h hmem
    simpa using h 0 hmem
  · intro h x hx
    simpa using fun hzero : x = 0 => h (hzero ▸ hx)

theorem fromCStr_padded (s : List UInt8) (n : Nat) :
    fromCStr (s ++ List.replicate n 0) = s.takeWhile (· != 0) := by
  unfold fromCStr
  rw [List.takeWhile_append]
  split
  next hall =>
    have hzeros : (List.replicate n (0 : UInt8)).takeWhile (· != 0) = [] := by
      cases n <;> rfl
    rw [hzeros, List.append_nil]
    exact (List.takeWhile_prefix _).eq_of_length hall |>.symm
  · rfl

theorem takeWhile_take (s : List UInt8) (n : Nat) :
    ((s.takeWhile (· != 0)).take n).takeWhile (· != 0) = (s.takeWhile (· != 0)).take n := by
  rw [takeWhile_eq_self_iff]
  intro hmem
  have hbyte := List.all_eq_true.mp List.all_takeWhile 0 (List.mem_of_mem_take hmem)
  simp at hbyte

/-- Cut off at a NUL, or at the end of the field. -/
theorem cut_eq_self_iff {s cut : List UInt8} {n : Nat}
    (hcut : cut = (s.takeWhile (· != 0)).take n ∨ cut = (s.take n).takeWhile (· != 0)) :
    cut = s ↔ 0 ∉ s ∧ s.length ≤ n := by
  have hself : 0 ∉ s → s.takeWhile (· != 0) = s := takeWhile_eq_self_iff.mpr
  constructor
  · rintro rfl
    rcases hcut with h | h
    · have hlen := congrArg List.length h
      have hpre := (List.takeWhile_prefix (· != 0) (l := cut)).length_le
      rw [List.length_take] at hlen
      refine ⟨takeWhile_eq_self_iff.mp ((List.takeWhile_prefix _).eq_of_length ?_), ?_⟩ <;> omega
    · have hlen := congrArg List.length h
      have hpre := (List.takeWhile_prefix (· != 0) (l := cut.take n)).length_le
      rw [List.length_take] at hpre
      have hall : cut.take n = cut := List.take_of_length_le (by omega)
      rw [hall] at h
      exact ⟨takeWhile_eq_self_iff.mp h.symm, by omega⟩
  · rintro ⟨hzero, hlen⟩
    rcases hcut with rfl | rfl
    · rw [hself hzero, List.take_of_length_le hlen]
    · rw [List.take_of_length_le hlen, hself hzero]

theorem fromCStr_strncpyTerminated {n : Nat} {s : List UInt8} :
    fromCStr (strncpyTerminated n s) = s ↔ 0 ∉ s ∧ s.length ≤ n - 1 := by
  rw [strncpyTerminated, fromCStr_padded]
  exact cut_eq_self_iff (.inl (takeWhile_take s (n - 1)))

theorem fromCStr_memcpyCleared {n : Nat} {s : List UInt8} :
    fromCStr (memcpyCleared n s) = s ↔ 0 ∉ s ∧ s.length ≤ n := by
  rw [memcpyCleared, fromCStr_padded]
  exact cut_eq_self_iff (.inr rfl)

/-! ## One call, and all calls -/

theorem stored_call {layout : Layout} {d : Directory ρ} {c : Call}
    (h : layout.accepts c = true → Fits layout c) :
    stored layout (call layout d c) =
      if layout.accepts c then (stored layout d).set c else stored layout d := by
  cases c with
  | setVSN vsn =>
    cases layout with
    | original => rfl
    | mark5AB bankB =>
      have hget := fromCStr_strncpyTerminated.mpr (h rfl)
      cases bankB <;> simp [stored, call, setVSN, getVSN, getCompanionVSN, Except.toOption,
        Layout.accepts, Store.set] <;> exact hget
    | enhanced =>
      have hget := fromCStr_memcpyCleared.mpr (h rfl)
      simp [stored, call, setVSN, getVSN, getCompanionVSN, Except.toOption, Layout.accepts,
        Store.set]
      exact hget
  | setCompanionVSN vsn =>
    cases layout with
    | original => rfl
    | mark5AB bankB =>
      cases bankB with
      | false => rfl
      | true =>
        have hget := fromCStr_strncpyTerminated.mpr (h rfl).2
        simp [stored, call, setCompanionVSN, getVSN, getCompanionVSN, Except.toOption,
          Layout.accepts, Store.set]
        exact hget
    | enhanced => exact absurd rfl (h rfl).1

theorem stored_calls {layout : Layout} {d : Directory ρ} {run : List Call}
    (h : ∀ c ∈ run, layout.accepts c = true → Fits layout c) :
    stored layout (calls layout d run) = (stored layout d).sets layout run := by
  induction run generalizing d with
  | nil => rfl
  | cons c run ih =>
    rw [List.forall_mem_cons] at h
    change stored layout (calls layout (call layout d c) run) = _
    rw [ih h.2, stored_call h.1]
    unfold Store.sets
    cases hc : layout.accepts c with
    | true => rw [List.filter_cons_of_pos hc]; rfl
    | false => rw [List.filter_cons_of_neg (by simp [hc])]; rfl

/-- Something that is not `s`. -/
theorem exists_field_ne (s : List UInt8) : ∃ field, fromCStr field ≠ s := by
  cases s with
  | nil => exact ⟨[1], by decide⟩
  | cons b s => exact ⟨[], (List.cons_ne_nil b s).symm⟩

/-- A label that does not fit is lost in one call. -/
theorem fits_of_stored_call {layout : Layout} (rest : ρ) {c : Call}
    (haccepts : layout.accepts c = true)
    (h : ∀ vsn companionVsn, stored layout (call layout ⟨vsn, companionVsn, rest⟩ c) =
      (stored layout ⟨vsn, companionVsn, rest⟩).set c) : Fits layout c := by
  cases c with
  | setVSN vsn =>
    have hset := congrArg Store.vsn (h [] [])
    cases layout with
    | original => cases haccepts
    | mark5AB bankB => exact fromCStr_strncpyTerminated.mp hset
    | enhanced => exact fromCStr_memcpyCleared.mp hset
  | setCompanionVSN vsn =>
    cases layout with
    | original => cases haccepts
    | mark5AB bankB =>
      cases bankB with
      | false => cases haccepts
      | true =>
        have hset := congrArg Store.companionVsn (h [] [])
        exact ⟨nofun, fromCStr_strncpyTerminated.mp hset⟩
    | enhanced =>
      obtain ⟨field, hfield⟩ := exists_field_ne vsn
      exact absurd (congrArg Store.companionVsn (h [] field)) hfield

/-- In all runs of some calls each getter returns what its own setter has set last, and nothing
else has changed, if and only if each of these calls that is accepted fits. -/
theorem labels_iff (layout : Layout) (rest : ρ) (available : List Call) :
    (∀ vsn companionVsn run, (∀ c ∈ run, c ∈ available) →
      stored layout (calls layout ⟨vsn, companionVsn, rest⟩ run) =
        (stored layout ⟨vsn, companionVsn, rest⟩).sets layout run) ↔
      ∀ c ∈ available, layout.accepts c = true → Fits layout c := by
  constructor
  · intro h c hc haccepts
    refine fits_of_stored_call rest haccepts fun vsn companionVsn => ?_
    have hone := h vsn companionVsn [c] (by simpa using hc)
    rw [Store.sets, List.filter_cons_of_pos haccepts] at hone
    exact hone
  · intro h vsn companionVsn run hrun
    exact stored_calls fun c hc => h c (hrun c hc)

/-- The companion's label ends up as the label of the pack. -/
theorem companion_mislabels :
    stored .enhanced (calls .enhanced ⟨[], [], ()⟩ [.setVSN [65], .setCompanionVSN [66]]) ≠
      (stored .enhanced ⟨[], [], ()⟩).sets .enhanced [.setVSN [65], .setCompanionVSN [66]] := by
  intro h
  exact absurd (congrArg Store.vsn h) (by decide)

end Jive5ab.Userdir.Labels
