import Jive5ab.Mk6.ReplaceFields
import Mathlib.Data.List.Sort
import Mathlib.Data.List.Range

/-! # Data stream tags

`datastream_mgmt_type`: the defined data streams, the names made of their patterns,
the tags of the names, and the cache of the tag of every VDIF identity that has been
looked up. Each call against what the three tables then say. -/
namespace Jive5ab.Mk6

/-! ## Matching -/

/-- `vdif_station` by its type; `none` of the four is `id_invalid`. -/
inductive VdifStation
  | invalid
  | numeric (id : UInt16)
  | oneChar (c0 : UInt8)
  | twoChar (c0 c1 : UInt8)
  deriving DecidableEq

inductive ThreadMatcher
  | single (threadId : UInt16)
  | range (low high : UInt16)
  deriving DecidableEq

def ThreadMatcher.matches (m : ThreadMatcher) (key : VdifKey) : Bool :=
  match m with
  | .single threadId => key.threadId == threadId
  | .range low high => low ≤ key.threadId && key.threadId ≤ high

/-- The four properties, and the function that is looked up for them. -/
structure VdifKeyMatcher where
  matchIP : Bool
  matchPort : Bool
  station : VdifStation
  origin : SockAddr
  threads : List ThreadMatcher
  deriving DecidableEq

/-- What a `_two_char` station matches is the number its two characters are. -/
def VdifStation.matches (s : VdifStation) (key : VdifKey) : Bool :=
  match s with
  | .invalid => true
  | .numeric id => key.stationId == id
  | .oneChar c0 => key.stationCode1 == c0
  | .twoChar c0 c1 => key.stationId == c0.toUInt16 <<< 8 ||| c1.toUInt16

/-- The functions of `matchmap`, by their matchkey; then `MATCH_THREAD`. -/
def VdifKeyMatcher.matches (m : VdifKeyMatcher) (key : VdifKey) : Bool :=
  (!m.matchIP || key.origin.addr == m.origin.addr) &&
  (!m.matchPort || key.origin.port == m.origin.port) &&
  m.station.matches key &&
  (m.threads.isEmpty || m.threads.any fun t => t.matches key)

/-- A data stream is its match criteria. -/
abbrev Datastream := List VdifKeyMatcher

def Datastream.matches (ds : Datastream) (key : VdifKey) : Bool := ds.any fun m => m.matches key

/-! ## The tables -/

/-- `defined` is in the order of the names, as a `std::map` is; the others are only
searched. -/
structure DatastreamMgmt where
  defined : List (Text × Datastream)
  vdif2tag : List (VdifKey × Nat)
  tag2name : List (Nat × Text)
  name2tag : List (Text × Nat)

namespace DatastreamMgmt

def empty : DatastreamMgmt := ⟨[], [], [], []⟩

/-- `mc` is what `compile_criteria` makes of the match criteria, if it does not throw. -/
def add (s : DatastreamMgmt) (nm : Text) (mc : Option Datastream) : Option DatastreamMgmt := do
  if (s.defined.lookup nm).isSome then none
  else
    let ds ← mc
    some { s with defined := s.defined.orderedInsert (fun a b => a.1 ≤ b.1) (nm, ds) }

def remove (s : DatastreamMgmt) (nm : Text) : Option DatastreamMgmt :=
  if (s.defined.lookup nm).isNone then none
  else some { s with defined := s.defined.filter fun d => d.1 ≠ nm }

def reset (s : DatastreamMgmt) : DatastreamMgmt :=
  { s with vdif2tag := [], tag2name := [], name2tag := [] }

def clear (s : DatastreamMgmt) : DatastreamMgmt := { s.reset with defined := [] }

/-- The tag, unless it throws, and the tables afterwards. The tag of a new name is
the number of names before it, as an `unsigned int`. -/
def vdif2streamId (s : DatastreamMgmt) (key : VdifKey) : Option Nat × DatastreamMgmt :=
  match s.vdif2tag.lookup key with
  | some t => (some t, s)
  | none =>
    match s.defined.find? fun d => d.2.matches key with
    | none => (none, s)
    | some d =>
      match replaceFields d.1 key with
      | none => (none, s)
      | some name =>
        match s.name2tag.lookup name with
        | some t => (some t, { s with vdif2tag := (key, t) :: s.vdif2tag })
        | none =>
          let t := s.name2tag.length % 2 ^ 32
          match s.tag2name.lookup t with
          | some _ => (none, s) -- the name has been erased again
          | none => (some t, { s with
              name2tag := s.name2tag ++ [(name, t)]
              tag2name := s.tag2name ++ [(t, name)]
              vdif2tag := (key, t) :: s.vdif2tag })

def streamid2name (s : DatastreamMgmt) (dsid : Nat) : Text := (s.tag2name.lookup dsid).getD []

end DatastreamMgmt

inductive DatastreamOp
  | add (nm : Text) (mc : Option Datastream)
  | remove (nm : Text)
  | reset
  | clear
  | lookup (key : VdifKey)

namespace DatastreamMgmt

/-- A call that throws leaves the tables as they are. -/
def step (s : DatastreamMgmt) : DatastreamOp → DatastreamMgmt
  | .add nm mc => (s.add nm mc).getD s
  | .remove nm => (s.remove nm).getD s
  | .reset => s.reset
  | .clear => s.clear
  | .lookup key => (s.vdif2streamId key).2

def run (ops : List DatastreamOp) : DatastreamMgmt := ops.foldl step empty

@[simp] theorem run_nil : run [] = empty := rfl

@[simp] theorem run_concat (ops : List DatastreamOp) (op : DatastreamOp) :
    run (ops ++ [op]) = (run ops).step op := by
  rw [run, List.foldl_append]
  rfl

/-! ## Names and tags -/

/-- The names are numbered in the order they came. -/
structure Numbered (s : DatastreamMgmt) : Prop where
  tags : s.name2tag.map Prod.snd = List.range s.name2tag.length
  names : (s.name2tag.map Prod.fst).Nodup
  inverse : s.tag2name = s.name2tag.map Prod.swap
  word : s.name2tag.length ≤ 2 ^ 32

theorem mem_of_lookup {κ β : Type} [BEq κ] [LawfulBEq κ] {l : List (κ × β)} {k : κ} {v : β}
    (h : l.lookup k = some v) : (k, v) ∈ l := by
  obtain ⟨l₁, l₂, rfl, -⟩ := List.lookup_eq_some_iff.mp h
  simp

theorem lookup_of_mem {κ β : Type} [BEq κ] [LawfulBEq κ] {l : List (κ × β)} (hl : (l.map Prod.fst).Nodup)
    {k : κ} {v : β} (h : (k, v) ∈ l) : l.lookup k = some v := by
  induction l with
  | nil => cases h
  | cons e l ih =>
    obtain ⟨hnot, hrest⟩ := List.nodup_cons.mp hl
    rcases List.mem_cons.mp h with rfl | hmem
    · exact List.lookup_cons_self
    · have hne : (k == e.1) = false := by
        refine beq_eq_false_iff_ne.mpr fun heq => hnot ?_
        exact List.mem_map.mpr ⟨(k, v), hmem, heq⟩
      rw [List.lookup_cons, hne]
      exact ih hrest hmem

theorem Numbered.empty : Numbered empty := ⟨rfl, List.nodup_nil, rfl, Nat.zero_le _⟩

variable {s : DatastreamMgmt}

theorem Numbered.tags_nodup (h : Numbered s) : (s.tag2name.map Prod.fst).Nodup := by
  rw [h.inverse, List.map_map]
  exact h.tags ▸ List.nodup_range

/-- The two tables are each other's inverse. -/
theorem Numbered.lookup_iff (h : Numbered s) (name : Text) (t : Nat) :
    s.name2tag.lookup name = some t ↔ s.tag2name.lookup t = some name := by
  have hmem : (t, name) ∈ s.tag2name ↔ (name, t) ∈ s.name2tag := by
    rw [h.inverse]
    simp
  exact ⟨fun hl => lookup_of_mem h.tags_nodup (hmem.mpr (mem_of_lookup hl)),
    fun hl => lookup_of_mem h.names (hmem.mp (mem_of_lookup hl))⟩

/-- The tags that have a name are the first ones. -/
theorem Numbered.dense (h : Numbered s) (t : Nat) :
    (s.tag2name.lookup t).isSome ↔ t < s.name2tag.length := by
  have hmem : t ∈ s.tag2name.map Prod.fst ↔ t < s.name2tag.length := by
    rw [h.inverse, List.map_map, ← List.mem_range, ← h.tags]
    rfl
  rw [← hmem]
  constructor
  · intro hsome
    obtain ⟨name, hname⟩ := Option.isSome_iff_exists.mp hsome
    exact List.mem_map.mpr ⟨(t, name), mem_of_lookup hname, rfl⟩
  · intro hin
    obtain ⟨⟨t', name⟩, hname, rfl⟩ := List.mem_map.mp hin
    rw [lookup_of_mem h.tags_nodup hname]
    rfl

/-- A new name gets the next tag, if there is one. -/
theorem Numbered.new (h : Numbered s) {name : Text} (hname : s.name2tag.lookup name = none)
    (hroom : s.name2tag.length < 2 ^ 32) (cache : List (VdifKey × Nat)) :
    Numbered { s with name2tag := s.name2tag ++ [(name, s.name2tag.length)]
                      tag2name := s.tag2name ++ [(s.name2tag.length, name)], vdif2tag := cache } where
  tags := by
    simp only [List.map_append, h.tags, List.length_append, List.map_singleton,
      List.length_singleton, List.range_succ]
  names := by
    rw [List.map_append, List.map_singleton]
    refine List.nodup_append.mpr ⟨h.names, List.nodup_singleton _, ?_⟩
    rintro a ha b hb rfl
    obtain rfl := List.mem_singleton.mp hb
    obtain ⟨e, he, hea⟩ := List.mem_map.mp ha
    have hne := List.lookup_eq_none_iff.mp hname e he
    rw [hea, bne_self_eq_false] at hne
    exact Bool.false_ne_true hne
  inverse := by simp [h.inverse]
  word := by
    rw [List.length_append, List.length_singleton]
    exact hroom

/-- The tag a new name is to get is taken only if it has wrapped. -/
theorem Numbered.next_free (h : Numbered s) :
    s.tag2name.lookup (s.name2tag.length % 2 ^ 32) = none ↔ s.name2tag.length < 2 ^ 32 := by
  rw [← Option.not_isSome_iff_eq_none, h.dense, Nat.not_lt]
  have hword := h.word
  rcases Nat.lt_or_eq_of_le hword with hlt | heq
  · rw [Nat.mod_eq_of_lt hlt]
    exact iff_of_true (le_refl _) hlt
  · rw [heq, Nat.mod_self]
    exact iff_of_false (by decide) (by decide)

/-! ## One lookup -/

/-- The tag is that of the name which a defined data stream that the frame matches
has for it. -/
def Serves (s : DatastreamMgmt) (key : VdifKey) (t : Nat) : Prop :=
  ∃ d ∈ s.defined, d.2.matches key = true ∧
    ∃ name, replaceFields d.1 key = some name ∧ s.name2tag.lookup name = some t

/-- A lookup gives such a tag, and gives one if there is a data stream that matches. -/
def Answered (s : DatastreamMgmt) (key : VdifKey) : Prop :=
  match (s.vdif2streamId key).1 with
  | some t => Serves (s.vdif2streamId key).2 key t
  | none => ∀ d ∈ s.defined, d.2.matches key = false

/-- Of a frame that is not in the cache: its name can be made, and the name has a
tag or there is one left. -/
def Nameable (s : DatastreamMgmt) (key : VdifKey) : Prop :=
  s.vdif2tag.lookup key = none → ∀ d, s.defined.find? (fun d => d.2.matches key) = some d →
    ∃ name, replaceFields d.1 key = some name ∧
      ((s.name2tag.lookup name).isSome ∨ s.name2tag.length < 2 ^ 32)

/-- Everything a lookup can do. -/
inductive Looked (s : DatastreamMgmt) (key : VdifKey) : Option Nat → DatastreamMgmt → Prop
  | cached {t : Nat} (hcache : s.vdif2tag.lookup key = some t) : Looked s key (some t) s
  | unmatched (hmiss : s.vdif2tag.lookup key = none)
      (hall : ∀ d ∈ s.defined, d.2.matches key = false) : Looked s key none s
  | throws {d : Text × Datastream} (hmem : d ∈ s.defined) (hmatch : d.2.matches key = true)
      (hnot : ¬ Nameable s key) : Looked s key none s
  | known {d : Text × Datastream} {name : Text} {t : Nat} (hmiss : s.vdif2tag.lookup key = none)
      (hmem : d ∈ s.defined) (hmatch : d.2.matches key = true)
      (hname : replaceFields d.1 key = some name) (htag : s.name2tag.lookup name = some t)
      (hok : Nameable s key) :
      Looked s key (some t) { s with vdif2tag := (key, t) :: s.vdif2tag }
  | new {d : Text × Datastream} {name : Text} (hmiss : s.vdif2tag.lookup key = none)
      (hmem : d ∈ s.defined) (hmatch : d.2.matches key = true)
      (hname : replaceFields d.1 key = some name) (htag : s.name2tag.lookup name = none)
      (hroom : s.name2tag.length < 2 ^ 32) (hok : Nameable s key) :
      Looked s key (some s.name2tag.length)
        { s with name2tag := s.name2tag ++ [(name, s.name2tag.length)]
                 tag2name := s.tag2name ++ [(s.name2tag.length, name)]
                 vdif2tag := (key, s.name2tag.length) :: s.vdif2tag }

theorem Numbered.looked (h : Numbered s) (key : VdifKey) :
    Looked s key (s.vdif2streamId key).1 (s.vdif2streamId key).2 := by
  rw [vdif2streamId]
  cases hcache : s.vdif2tag.lookup key with
  | some t => exact .cached hcache
  | none =>
    dsimp only
    cases hfind : s.defined.find? (fun d => d.2.matches key) with
    | none => exact .unmatched hcache (by simpa using hfind)
    | some d =>
      have hmem := List.mem_of_find?_eq_some hfind
      have hmatch : d.2.matches key = true := by simpa using List.find?_some hfind
      dsimp only
      cases hname : replaceFields d.1 key with
      | none =>
        refine .throws hmem hmatch fun hok => ?_
        obtain ⟨name, hsome, -⟩ := hok hcache d hfind
        rw [hname] at hsome
        cases hsome
      | some name =>
        have honly {P : Text → Prop} (hP : P name) : ∀ d', s.defined.find?
            (fun d => d.2.matches key) = some d' → ∃ n, replaceFields d'.1 key = some n ∧ P n := by
          intro d' hd'
          obtain rfl := Option.some.inj (hfind.symm.trans hd')
          exact ⟨name, hname, hP⟩
        dsimp only
        cases htag : s.name2tag.lookup name with
        | some t => exact .known hcache hmem hmatch hname htag fun _ => honly (.inl (by rw [htag]; rfl))
        | none =>
          dsimp only
          by_cases hroom : s.name2tag.length < 2 ^ 32
          · rw [h.next_free.mpr hroom, Nat.mod_eq_of_lt hroom]
            exact .new hcache hmem hmatch hname htag hroom fun _ => honly (.inr hroom)
          · obtain ⟨other, hother⟩ := Option.ne_none_iff_exists'.mp (mt h.next_free.mp hroom)
            rw [hother]
            refine .throws hmem hmatch fun hok => ?_
            obtain ⟨name', hsome, hlast⟩ := hok hcache d hfind
            obtain rfl := Option.some.inj (hname.symm.trans hsome)
            rcases hlast with hin | hlt
            · rw [htag] at hin
              cases hin
            · exact hroom hlt

theorem Numbered.lookup (h : Numbered s) (key : VdifKey) : Numbered (s.vdif2streamId key).2 := by
  have hlook := h.looked key
  generalize (s.vdif2streamId key).1 = r at hlook
  generalize (s.vdif2streamId key).2 = s' at hlook
  cases hlook with
  | cached => exact h
  | unmatched => exact h
  | throws => exact h
  | known => exact ⟨h.tags, h.names, h.inverse, h.word⟩
  | new _ _ _ _ htag hroom => exact h.new htag hroom _

theorem Numbered.of_defined (h : Numbered s) (defs : List (Text × Datastream)) :
    Numbered { s with defined := defs } := ⟨h.tags, h.names, h.inverse, h.word⟩

/-- Definitions are only added, or nothing happens. -/
theorem step_add (s : DatastreamMgmt) (nm : Text) (mc : Option Datastream) :
    ∃ defs, s.step (.add nm mc) = { s with defined := defs } ∧ ∀ d ∈ s.defined, d ∈ defs := by
  rw [DatastreamMgmt.step, add]
  split
  case isTrue => exact ⟨s.defined, rfl, fun _ => id⟩
  case isFalse =>
    cases mc with
    | none => exact ⟨s.defined, rfl, fun _ => id⟩
    | some ds =>
      exact ⟨_, rfl, fun d hd => (List.mem_orderedInsert _).mpr (.inr hd)⟩

/-- Of a name that is not defined there is nothing to remove either. -/
theorem step_remove (s : DatastreamMgmt) (nm : Text) :
    s.step (.remove nm) = { s with defined := s.defined.filter fun d => d.1 ≠ nm } := by
  rw [DatastreamMgmt.step, remove]
  split
  case isTrue hnone =>
    have hall := List.lookup_eq_none_iff.mp (Option.isNone_iff_eq_none.mp hnone)
    have hsame : (s.defined.filter fun d => d.1 ≠ nm) = s.defined := by
      refine List.filter_eq_self.mpr fun d hd => ?_
      simpa using Ne.symm (by simpa using hall d hd : nm ≠ d.1)
    rw [hsame]
    rfl
  case isFalse => rfl

theorem Numbered.step (h : Numbered s) (op : DatastreamOp) : Numbered (s.step op) := by
  cases op with
  | add nm mc =>
    obtain ⟨defs, heq, -⟩ := step_add s nm mc
    rw [heq]
    exact h.of_defined defs
  | remove nm =>
    rw [step_remove]
    exact h.of_defined _
  | reset => exact ⟨rfl, List.nodup_nil, rfl, Nat.zero_le _⟩
  | clear => exact ⟨rfl, List.nodup_nil, rfl, Nat.zero_le _⟩
  | lookup key => exact h.lookup key

/-- The name of a tag stays its name as long as names are only added. -/
theorem Serves.mono {s' : DatastreamMgmt} {key : VdifKey} {t : Nat} (h : Serves s key t)
    (hdef : ∀ d ∈ s.defined, d ∈ s'.defined) (hname : s.name2tag <+: s'.name2tag) :
    Serves s' key t := by
  obtain ⟨d, hd, hmatch, name, heq, htag⟩ := h
  exact ⟨d, hdef d hd, hmatch, name, heq, hname.lookup_eq_some htag⟩

theorem answered_iff (h : Numbered s) (key : VdifKey) : Answered s key ↔
    (∀ t, s.vdif2tag.lookup key = some t → Serves s key t) ∧ Nameable s key := by
  have hlook := h.looked key
  rw [Answered]
  generalize (s.vdif2streamId key).1 = r at hlook
  generalize (s.vdif2streamId key).2 = s' at hlook
  have hmissed (hmiss : s.vdif2tag.lookup key = none) (t : Nat)
      (hcache : s.vdif2tag.lookup key = some t) : Serves s key t := by
    rw [hmiss] at hcache
    cases hcache
  cases hlook with
  | @cached t hcache =>
    refine ⟨fun hserves => ⟨fun t' ht' => ?_, fun hmiss => ?_⟩, fun hall => hall.1 t hcache⟩
    · rwa [← Option.some.inj (hcache.symm.trans ht')]
    · rw [hcache] at hmiss
      cases hmiss
  | unmatched hmiss hall =>
    refine iff_of_true hall ⟨hmissed hmiss, fun _ d hd => ?_⟩
    have hmatch : d.2.matches key = true := by simpa using List.find?_some hd
    rw [hall d (List.mem_of_find?_eq_some hd)] at hmatch
    cases hmatch
  | throws hmem hmatch hnot =>
    refine iff_of_false (fun hall => ?_) fun hall => hnot hall.2
    rw [hall _ hmem] at hmatch
    cases hmatch
  | known hmiss hmem hmatch hname htag hok =>
    exact iff_of_true ⟨_, hmem, hmatch, _, hname, htag⟩ ⟨hmissed hmiss, hok⟩
  | new hmiss hmem hmatch hname htag hroom hok =>
    refine iff_of_true ⟨_, hmem, hmatch, _, hname, ?_⟩ ⟨hmissed hmiss, hok⟩
    rw [List.lookup_append, htag]
    exact List.lookup_cons_self

/-! ## Runs -/

/-- The tables are each other's inverse and the tags are the first numbers. -/
structure Mapped (s : DatastreamMgmt) : Prop where
  inverse : ∀ name t, s.name2tag.lookup name = some t ↔ s.tag2name.lookup t = some name
  dense : ∀ t, (s.tag2name.lookup t).isSome ↔ t < s.name2tag.length

theorem run_numbered (ops : List DatastreamOp) : Numbered (run ops) := by
  induction ops using List.reverseRecOn with
  | nil => exact Numbered.empty
  | append_singleton ops op ih =>
    rw [run_concat]
    exact ih.step op

/-- Every cached tag is served by what is defined now. -/
def CacheOk (s : DatastreamMgmt) : Prop :=
  ∀ key t, s.vdif2tag.lookup key = some t → Serves s key t

/-- Every frame in the cache is matched by another data stream of the same name. -/
def Removable (s : DatastreamMgmt) (nm : Text) : Prop :=
  ∀ key t, s.vdif2tag.lookup key = some t → ∃ d ∈ s.defined, d.1 ≠ nm ∧
    d.2.matches key = true ∧ ∃ name, replaceFields d.1 key = some name ∧
      s.name2tag.lookup name = some t

theorem cacheOk_remove (s : DatastreamMgmt) (nm : Text) :
    CacheOk (s.step (.remove nm)) ↔ Removable s nm := by
  rw [step_remove]
  refine forall_congr' fun key => forall_congr' fun t => imp_congr_right fun _ => ?_
  simp only [Serves, List.mem_filter, decide_eq_true_eq, and_assoc]

/-- A frame that is looked up is put into the cache with a tag that is served. -/
theorem CacheOk.cons {s' : DatastreamMgmt} {key : VdifKey} {t : Nat} (h : CacheOk s)
    (hdef : s'.defined = s.defined) (hname : s.name2tag <+: s'.name2tag)
    (hcache : s'.vdif2tag = (key, t) :: s.vdif2tag) (hserves : Serves s' key t) : CacheOk s' := by
  intro key' t' ht'
  rw [hcache, List.lookup_cons] at ht'
  split at ht'
  case h_1 heq =>
    obtain rfl := eq_of_beq heq
    obtain rfl := Option.some.inj ht'
    exact hserves
  case h_2 => exact (h key' t' ht').mono (fun d hd => by rwa [hdef]) hname

theorem CacheOk.lookup (h : CacheOk s) (hs : Numbered s) (key : VdifKey) :
    CacheOk (s.vdif2streamId key).2 := by
  have hlook := hs.looked key
  generalize (s.vdif2streamId key).1 = r at hlook
  generalize (s.vdif2streamId key).2 = s' at hlook
  cases hlook with
  | cached => exact h
  | unmatched => exact h
  | throws => exact h
  | known _ hmem hmatch hname htag =>
    exact h.cons rfl (List.prefix_refl _) rfl ⟨_, hmem, hmatch, _, hname, htag⟩
  | new _ hmem hmatch hname htag =>
    refine h.cons rfl (List.prefix_append _ _) rfl ⟨_, hmem, hmatch, _, hname, ?_⟩
    rw [List.lookup_append, htag]
    exact List.lookup_cons_self

/-- Only a removal can leave a tag in the cache that nothing serves. -/
theorem CacheOk.step (h : CacheOk s) (hs : Numbered s) {op : DatastreamOp}
    (hop : ∀ nm, op = .remove nm → Removable s nm) : CacheOk (s.step op) := by
  cases op with
  | add nm mc =>
    obtain ⟨defs, heq, hdefs⟩ := step_add s nm mc
    rw [heq]
    exact fun key t ht => (h key t ht).mono hdefs (List.prefix_refl _)
  | remove nm => exact (cacheOk_remove s nm).mpr (hop nm rfl)
  | reset => exact fun key t ht => nomatch ht
  | clear => exact fun key t ht => nomatch ht
  | lookup key => exact h.lookup hs key

theorem run_cacheOk {ops : List DatastreamOp}
    (h : ∀ p nm, p ++ [.remove nm] <+: ops → Removable (run p) nm) : CacheOk (run ops) := by
  induction ops using List.reverseRecOn with
  | nil => exact fun key t ht => nomatch ht
  | append_singleton ops op ih =>
    have hbefore := ih fun p nm hp => h p nm (hp.trans (List.prefix_append _ _))
    rw [run_concat]
    refine hbefore.step (run_numbered ops) fun nm hop => h ops nm ?_
    rw [hop]

/-- The tables are mapped in every state. The lookups are answered in all of them if
and only if nothing is removed that a cached frame depends on, and every frame that
can come can be named. -/
theorem datastreams_iff (ops : List DatastreamOp) :
    (∀ p, p <+: ops → Mapped (run p)) ∧
    ((∀ p, p <+: ops → ∀ key, Answered (run p) key) ↔
      (∀ p nm, p ++ [.remove nm] <+: ops → Removable (run p) nm) ∧
        ∀ p, p <+: ops → ∀ key, Nameable (run p) key) := by
  refine ⟨fun p _ => ⟨(run_numbered p).lookup_iff, (run_numbered p).dense⟩, fun h => ⟨?_, ?_⟩,
    fun ⟨hremove, hname⟩ p hp key => ?_⟩
  · intro p nm hp
    rw [← cacheOk_remove, ← run_concat]
    exact fun key => ((answered_iff (run_numbered _) key).mp (h _ hp key)).1
  · exact fun p hp key => ((answered_iff (run_numbered p) key).mp (h p hp key)).2
  · have hcache := @run_cacheOk p fun q nm hq => hremove q nm (hq.trans hp)
    exact (answered_iff (run_numbered p) key).mpr ⟨hcache key, hname p hp key⟩

/-- Thread 1 of any station, from anywhere. -/
def threadOne : Datastream := [⟨false, false, .invalid, .none, [.single 1]⟩]

/-- Defined, used, and removed. -/
def staleOps : List DatastreamOp :=
  [.add ['a'] (some threadOne), .lookup ⟨0x4566, 1, .none⟩, .remove ['a']]

/-- The frames still get the tag of the removed data stream. -/
theorem datastreams_stale : ¬ ∀ ops p, p <+: ops → ∀ key, Answered (run p) key := by
  intro h
  have hstale := h staleOps staleOps (List.prefix_refl _) ⟨0x4566, 1, .none⟩
  have hcached : (run staleOps).vdif2tag.lookup ⟨0x4566, 1, .none⟩ = some 0 := by decide
  have hnone : (run staleOps).defined = [] := by decide
  obtain ⟨d, hd, -⟩ := ((answered_iff (run_numbered _) _).mp hstale).1 0 hcached
  rw [hnone] at hd
  cases hd

end DatastreamMgmt

end Jive5ab.Mk6
