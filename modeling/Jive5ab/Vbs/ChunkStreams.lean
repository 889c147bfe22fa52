import Jive5ab.Lib.PerKey
import Jive5ab.Mk6.Datastreams
import Jive5ab.Net.NetPort
import Jive5ab.Vbs.ChunkNames

/-! # The chunks of several streams

`chunkmakert` numbers the blocks of every tag, and its namers put the suffix of the tag in the
name. -/
namespace Jive5ab.Vbs.ChunkNames
open Lib Ere

/-! ## The namers -/

/-- `VBSNamer` and `MK6Namer` -/
inductive Layout where
  | vbs
  | mk6
  deriving DecidableEq

/-- What is kept for a tag. -/
def Layout.base : Layout → Text → Text
  | vbs, name => name ++ ['/'] ++ name ++ ['.']
  | mk6, name => name

def Layout.file : Layout → Text → UInt32 → Text
  | vbs, base, blockSeqNr => base ++ format08 blockSeqNr
  | mk6, base, _ => base

def namerCall (layout : Layout) (namer : VbsNamer) (tag : UInt32) :
    Except String ((Text × UInt32) × VbsNamer) := do
  let entry ← match namer.bsnMap tag with
    | some entry => pure entry
    | none => do
      let suffix ← namer.suffixSource.call tag
      pure ⟨0, layout.base (withSuffix namer.recname suffix)⟩
  let bsnMap t := if t = tag then some { entry with blockSeqNr := entry.blockSeqNr + 1 }
    else namer.bsnMap t
  return ((layout.file entry.baseName entry.blockSeqNr, entry.blockSeqNr),
    { namer with bsnMap := bsnMap })

theorem namerCall_vbs : namerCall .vbs = VbsNamer.call := rfl

/-- `MK6Namer::operator()` -/
def Mk6Namer.call : VbsNamer → UInt32 → Except String ((Text × UInt32) × VbsNamer) := namerCall .mk6

/-- Until the queue is empty or a call throws. Every block comes with what its suffix source is
by then. -/
def chunkmakert (layout : Layout) : VbsNamer → List (SuffixSource × UInt32) → List (Text × UInt32)
  | _, [] => []
  | namer, (source, tag) :: items =>
    match namerCall layout { namer with suffixSource := source } tag with
    | .error _ => []
    | .ok (file, namer) => file :: chunkmakert layout namer items

/-! ## The sources -/

/-- A frame for which the tag is looked up, or a block with a tag. -/
inductive StreamEvent where
  | lookup (key : Mk6.VdifKey)
  | block (tag : UInt32)

def streamItems : Mk6.DatastreamMgmt → List StreamEvent → List (SuffixSource × UInt32)
  | _, [] => []
  | s, .lookup key :: events => streamItems (s.vdif2streamId key).2 events
  | s, .block tag :: events =>
    (.dataStreamSuffix fun t => s.streamid2name t.toNat, tag) :: streamItems s events

/-- Of blocks without a tag. -/
def noTag : UInt32 := 2 ^ 32 - 1

/-- Blocks from memory, from the network ports after some commands, or from data streams that have
been defined; blocks have the tag of a port. -/
inductive Recording where
  | untagged (blocks : Nat)
  | netPort (commands : List (List Text)) (tags : List UInt32)
    (ports : ∀ t ∈ tags, t.toNat < (Net.netPortRun commands).nPort)
  | datastreams (ops : List Mk6.DatastreamOp) (events : List StreamEvent)

def haveTags (np : Net.Netparms) : Bool := 1 < np.nPort && 0 < np.nNonEmptySuffixes

def Recording.items : Recording → List (SuffixSource × UInt32)
  | untagged blocks => List.replicate blocks (.noSuffix, noTag)
  | netPort commands tags _ =>
    if haveTags (Net.netPortRun commands) then
      tags.map fun t => (.netPortSuffix (Net.netPortRun commands).suffixmap, t)
    else tags.map fun _ => (.noSuffix, noTag)
  | datastreams ops events => streamItems (Mk6.DatastreamMgmt.run ops) events

def Recording.files (r : Recording) (layout : Layout) (recname : Text) : List (Text × UInt32) :=
  chunkmakert layout (.start .noSuffix recname) r.items

/-! ## Collisions -/

/-- The files that have numbers under a stem have the first numbers, in order. -/
structure NeverCollide (layout : Layout) (files : List (Text × UInt32)) : Prop where
  pairs : files.Nodup
  paths : layout = .vbs → (files.map Prod.fst).Nodup
  numbers : ∀ stem, ∃ k, ((files.filter fun f => f.1 = layout.file stem f.2).map fun f =>
    f.2.toNat) = List.range k

/-- Fewer than 2³² blocks of a stream. -/
def Recording.Short (r : Recording) : Prop := ∀ t, (r.items.map Prod.snd).count t < 2 ^ 32

/-- Ports that blocks come from have different suffixes, if there are any. -/
def Recording.SuffixesDiffer : Recording → Prop
  | untagged _ => True
  | netPort commands tags _ => haveTags (Net.netPortRun commands) = true →
    ∀ t ∈ tags, ∀ t' ∈ tags, t ≠ t' →
      (Net.netPortRun commands).suffixmap t ≠ (Net.netPortRun commands).suffixmap t'
  | datastreams _ _ => True

/-! ## Names -/

theorem value_format08 (n : UInt32) : Nat.ofDigitChars 10 (format08 n) 0 = n.toNat := by
  rw [format08, Nat.ofDigitChars_append, Nat.ofDigitChars_replicate_zero, Nat.mul_zero]
  simp

theorem format08_inj {n n' : UInt32} (h : format08 n = format08 n') : n = n' := by
  have hvalue : Nat.ofDigitChars 10 (format08 n) 0 = Nat.ofDigitChars 10 (format08 n') 0 := by
    rw [h]
  rw [value_format08, value_format08] at hvalue
  exact UInt32.toNat_inj.mp hvalue

theorem name_inj {name name' : Text} (h : name ++ '/' :: name = name' ++ '/' :: name') :
    name = name' := by
  have hlength := congrArg List.length h
  simp only [List.length_append, List.length_cons] at hlength
  exact (List.append_inj h (by omega)).1

/-- Behind the last dot of two texts there are the same digits. -/
theorem digits_inj {text text' digits digits' : Text} (hdigits : ∀ c ∈ digits, c.isDigit = true)
    (hdigits' : ∀ c ∈ digits', c.isDigit = true)
    (h : text ++ '.' :: digits = text' ++ '.' :: digits') : text = text' ∧ digits = digits' := by
  have hlength : digits.length = digits'.length := by
    rcases Nat.le_total digits'.length digits.length with hle | hle
    · exact length_of_digits hdigits hle h
    · exact (length_of_digits hdigits' hle h.symm).symm
  obtain ⟨htext, hrest⟩ := List.append_inj' h (by simp [hlength])
  exact ⟨htext, (List.cons.inj hrest).2⟩

theorem base_inj {layout : Layout} {name name' : Text} (h : layout.base name = layout.base name') :
    name = name' := by
  cases layout with
  | mk6 => exact h
  | vbs =>
    have hname := List.append_cancel_right (show name ++ ['/'] ++ name ++ ['.'] = _ from h)
    simp only [List.append_assoc, List.singleton_append] at hname
    exact name_inj hname

theorem file_base_inj {layout : Layout} {base base' : Text} {n : UInt32}
    (h : layout.file base n = layout.file base' n) : base = base' := by
  cases layout with
  | mk6 => exact h
  | vbs => exact List.append_cancel_right h

theorem withSuffix_inj {recname : Text} {suffix suffix' : Option Text}
    (h : withSuffix recname suffix = withSuffix recname suffix') : suffix = suffix' := by
  cases suffix with
  | none =>
    cases suffix' with
    | none => rfl
    | some s' =>
      have hlength := congrArg List.length h
      simp [withSuffix, ds] at hlength
  | some s =>
    cases suffix' with
    | none =>
      have hlength := congrArg List.length h
      simp [withSuffix, ds] at hlength
    | some s' => exact congrArg some (List.append_cancel_left h)

/-- The file of a VBS chunk says its name and its number. -/
theorem file_inj {name name' : Text} {n n' : UInt32}
    (h : Layout.file .vbs (Layout.base .vbs name) n =
      Layout.file .vbs (Layout.base .vbs name') n') : name = name' ∧ n = n' := by
  have hsplit : (name ++ '/' :: name) ++ '.' :: format08 n =
      (name' ++ '/' :: name') ++ '.' :: format08 n' := by
    simpa [Layout.file, Layout.base] using h
  obtain ⟨hname, hdigits⟩ := digits_inj (isDigit_format08 n) (isDigit_format08 n') hsplit
  exact ⟨name_inj hname, format08_inj hdigits⟩

/-! ## What is written -/

/-- The chunk of a block with this number of this tag. -/
def chunkOf (layout : Layout) (recname : Text) (suffix : UInt32 → Option Text) (e : UInt32 × Nat) :
    Text × UInt32 :=
  (layout.file (layout.base (withSuffix recname (suffix e.1))) (.ofNat e.2), .ofNat e.2)

variable {layout : Layout} {recname : Text} {suffix : UInt32 → Option Text}

/-- The entries of the tags that have had so many blocks. -/
def Counts (layout : Layout) (suffix : UInt32 → Option Text) (count : UInt32 → Nat)
    (namer : VbsNamer) : Prop :=
  ∀ tag, namer.bsnMap tag =
    if count tag = 0 then none
    else some ⟨.ofNat (count tag), layout.base (withSuffix namer.recname (suffix tag))⟩

theorem namerCall_spec {count : UInt32 → Nat} {namer : VbsNamer} {tag : UInt32}
    (hcounts : Counts layout suffix count namer)
    (hsuffix : ∀ s, namer.suffixSource.call tag = .ok s → s = suffix tag) :
    (∃ e, namerCall layout namer tag = .error e ∧ count tag = 0 ∧
      ∀ s, namer.suffixSource.call tag ≠ .ok s) ∨
    (∃ namer', namerCall layout namer tag =
        .ok (chunkOf layout namer.recname suffix (tag, count tag), namer') ∧
      namer'.recname = namer.recname ∧
      Counts layout suffix (Function.update count tag (count tag + 1)) namer' ∧
      (count tag = 0 → namer.suffixSource.call tag = .ok (suffix tag))) := by
  obtain ⟨next, hnext⟩ : ∃ next : VbsNamer, next = ⟨namer.suffixSource, namer.recname, fun t =>
      if t = tag then some ⟨.ofNat (count tag) + 1,
        layout.base (withSuffix namer.recname (suffix tag))⟩ else namer.bsnMap t⟩ := ⟨_, rfl⟩
  have hupdate : Counts layout suffix (Function.update count tag (count tag + 1)) next := by
    subst hnext
    intro t
    by_cases ht : t = tag
    · subst ht
      rw [Function.update_self, if_neg (Nat.succ_ne_zero _)]
      simp
    · rw [Function.update_of_ne ht]
      simp only [if_neg ht]
      exact hcounts t
  have hsame : next.recname = namer.recname := by rw [hnext]
  by_cases hzero : count tag = 0
  · have hnone : namer.bsnMap tag = none := by rw [hcounts, if_pos hzero]
    cases hcall : namer.suffixSource.call tag with
    | error e =>
      refine .inl ⟨e, ?_, hzero, fun s hs => nomatch hs⟩
      unfold namerCall
      rw [hnone, hcall]
      rfl
    | ok s =>
      obtain rfl := hsuffix s hcall
      refine .inr ⟨next, ?_, hsame, hupdate, fun _ => rfl⟩
      unfold namerCall
      rw [hnone, hcall, hnext, hzero]
      rfl
  · have hsome := hcounts tag
    rw [if_neg hzero] at hsome
    refine .inr ⟨next, ?_, hsame, hupdate, fun h => absurd h hzero⟩
    unfold namerCall
    rw [hsome, hnext]
    rfl

/-- Blocks are numbered by their tags, up to the first one without a suffix. -/
theorem chunkmakert_spec {items : List (SuffixSource × UInt32)} {count : UInt32 → Nat}
    {namer : VbsNamer} (hsuffix : ∀ i ∈ items, ∀ s, i.1.call i.2 = .ok s → s = suffix i.2)
    (hcounts : Counts layout suffix count namer) :
    ∃ ts, ts <+: items.map Prod.snd ∧
      chunkmakert layout namer items =
        (numbered count ts).map (chunkOf layout namer.recname suffix) ∧
      (∀ t ∈ ts, count t = 0 → ∃ i ∈ items, i.2 = t ∧ i.1.call t = .ok (suffix t)) ∧
      (ts ≠ items.map Prod.snd → ∃ i ∈ items, ∀ s, i.1.call i.2 ≠ .ok s) := by
  induction items generalizing count namer with
  | nil => exact ⟨[], List.prefix_rfl, rfl, nofun, fun hne => absurd rfl hne⟩
  | cons item items ih =>
    obtain ⟨source, tag⟩ := item
    have hfirst := hsuffix (source, tag) List.mem_cons_self
    have hspec := @namerCall_spec layout suffix count { namer with suffixSource := source } tag
      hcounts hfirst
    rcases hspec with ⟨e, hcall, -, hfails⟩ | ⟨namer', hcall, hrecname, hcounts', hgives⟩
    · refine ⟨[], List.nil_prefix, ?_, nofun, fun _ => ⟨_, List.mem_cons_self, hfails⟩⟩
      rw [chunkmakert, hcall]
      rfl
    · obtain ⟨ts, hbegin, hfiles, hsource, hstops⟩ :=
        ih (fun i hi => hsuffix i (List.mem_cons_of_mem _ hi)) hcounts'
      refine ⟨tag :: ts, List.cons_prefix_cons.mpr ⟨rfl, hbegin⟩, ?_, ?_, ?_⟩
      · rw [chunkmakert, hcall]
        dsimp only
        rw [hfiles, numbered, List.map_cons, hrecname]
      · intro t ht hzero
        by_cases heq : t = tag
        · subst heq
          exact ⟨_, List.mem_cons_self, rfl, hgives hzero⟩
        · have hmem := (List.mem_cons.mp ht).resolve_left heq
          obtain ⟨i, hi, hrest⟩ := hsource t hmem (by rw [Function.update_of_ne heq, hzero])
          exact ⟨i, List.mem_cons_of_mem _ hi, hrest⟩
      · intro hne
        obtain ⟨i, hi, hfails⟩ := hstops fun heq => hne (by rw [heq]; rfl)
        exact ⟨i, List.mem_cons_of_mem _ hi, hfails⟩

/-- From the start of a recording. -/
theorem recorded {items : List (SuffixSource × UInt32)} (layout : Layout) (recname : Text)
    (hsuffix : ∀ i ∈ items, ∀ s, i.1.call i.2 = .ok s → s = suffix i.2) :
    ∃ ts, ts <+: items.map Prod.snd ∧
      chunkmakert layout (.start .noSuffix recname) items =
        (numbered (fun _ => 0) ts).map (chunkOf layout recname suffix) ∧
      (∀ t ∈ ts, ∃ i ∈ items, i.2 = t ∧ i.1.call t = .ok (suffix t)) ∧
      (ts ≠ items.map Prod.snd → ∃ i ∈ items, ∀ s, i.1.call i.2 ≠ .ok s) := by
  have hcounts : Counts layout suffix (fun _ => 0) (.start .noSuffix recname) := fun _ => rfl
  obtain ⟨ts, hbegin, hfiles, hsource, hstops⟩ := chunkmakert_spec hsuffix hcounts
  exact ⟨ts, hbegin, hfiles, fun t ht => hsource t ht rfl, hstops⟩

/-- Numbered blocks do not collide when no two tags have the same suffix. -/
theorem neverCollide_iff {ts : List UInt32} (hshort : ∀ t, ts.count t < 2 ^ 32) :
    NeverCollide layout ((numbered (fun _ => 0) ts).map (chunkOf layout recname suffix)) ↔
      ∀ t ∈ ts, ∀ t' ∈ ts, t ≠ t' → suffix t ≠ suffix t' := by
  have hbound {t : UInt32} {n : Nat} (h : (t, n) ∈ numbered (fun _ => 0) ts) : n < 2 ^ 32 := by
    have hlt := (mem_numbered.mp h).2
    have hcount := hshort t
    omega
  have hmem {t : UInt32} {n : Nat} (h : (t, n) ∈ numbered (fun _ => 0) ts) : t ∈ ts := by
    have hlt := (mem_numbered.mp h).2
    exact List.count_pos_iff.mp (by omega)
  have hofNat {n n' : Nat} (hn : n < 2 ^ 32) (hn' : n' < 2 ^ 32)
      (h : UInt32.ofNat n = UInt32.ofNat n') : n = n' := by
    rw [← UInt32.toNat_ofNat_of_lt' hn, ← UInt32.toNat_ofNat_of_lt' hn', h]
  constructor
  · intro hnever t ht t' ht' hne hsuffix
    have hfirst (t : UInt32) (ht : t ∈ ts) : (t, 0) ∈ numbered (fun _ => 0) ts :=
      mem_numbered.mpr ⟨Nat.le_refl 0, by have := List.count_pos_iff.mpr ht; omega⟩
    have heq := List.inj_on_of_nodup_map hnever.pairs (hfirst t ht) (hfirst t' ht')
      (by rw [chunkOf, chunkOf, hsuffix])
    exact hne (congrArg Prod.fst heq)
  · intro hdiffer
    have hsame {e e' : UInt32 × Nat} (he : e ∈ numbered (fun _ => 0) ts)
        (he' : e' ∈ numbered (fun _ => 0) ts) (hsuffix : suffix e.1 = suffix e'.1)
        (hnr : UInt32.ofNat e.2 = UInt32.ofNat e'.2) : e = e' := by
      refine Prod.ext ?_ (hofNat (hbound he) (hbound he') hnr)
      by_contra hne
      exact hdiffer _ (hmem he) _ (hmem he') hne hsuffix
    constructor
    · refine List.Nodup.map_on ?_ (numbered_nodup _ _)
      intro e he e' he' heq
      obtain ⟨hpath, hnr⟩ := Prod.mk.inj heq
      rw [hnr] at hpath
      exact hsame he he' (withSuffix_inj (base_inj (file_base_inj hpath))) hnr
    · rintro rfl
      rw [List.map_map]
      refine List.Nodup.map_on ?_ (numbered_nodup _ _)
      intro e he e' he' heq
      obtain ⟨hname, hnr⟩ := file_inj heq
      exact hsame he he' (withSuffix_inj hname) hnr
    · intro stem
      have hunder (e : UInt32 × Nat) : (chunkOf layout recname suffix e).1 =
          layout.file stem (chunkOf layout recname suffix e).2 ↔
          stem = layout.base (withSuffix recname (suffix e.1)) :=
        ⟨fun h => (file_base_inj h).symm, fun h => by rw [h, chunkOf]⟩
      rw [List.filter_map, List.map_map]
      by_cases hstem : ∃ t ∈ ts, stem = layout.base (withSuffix recname (suffix t))
      · obtain ⟨t, ht, rfl⟩ := hstem
        have hfilter : ((numbered (fun _ => 0) ts).filter ((fun f => decide (f.1 =
            layout.file (layout.base (withSuffix recname (suffix t))) f.2)) ∘
              chunkOf layout recname suffix)) =
            (numbered (fun _ => 0) ts).filter fun e => e.1 = t := by
          refine List.filter_congr fun e he => decide_eq_decide.mpr ((hunder e).trans ?_)
          constructor
          · intro hbase
            by_contra hne
            exact hdiffer _ (hmem he) _ ht hne (withSuffix_inj (base_inj hbase)).symm
          · rintro rfl
            rfl
        refine ⟨ts.count t, ?_⟩
        rw [hfilter, List.range_eq_range', ← numbered_of_key (fun _ => 0) ts t]
        refine List.map_congr_left fun e he => ?_
        exact UInt32.toNat_ofNat_of_lt' (hbound (List.mem_filter.mp he).1)
      · refine ⟨0, ?_⟩
        rw [List.filter_eq_nil_iff.mpr, List.map_nil, List.range_zero]
        intro e he hdecide
        exact hstem ⟨e.1, hmem he, (hunder e).mp (of_decide_eq_true hdecide)⟩

/-! ## Data streams -/

section
open Mk6.DatastreamMgmt

theorem tag2name_grows {s : Mk6.DatastreamMgmt} (h : Numbered s) (key : Mk6.VdifKey) :
    s.tag2name <+: (s.vdif2streamId key).2.tag2name := by
  have hlooked := h.looked key
  generalize (s.vdif2streamId key).1 = r at hlooked
  generalize (s.vdif2streamId key).2 = s' at hlooked
  cases hlooked with
  | cached => exact List.prefix_rfl
  | unmatched => exact List.prefix_rfl
  | throws => exact List.prefix_rfl
  | known => exact List.prefix_rfl
  | new => exact List.prefix_append _ _

/-- Names stay with their tags to the end of the recording. -/
theorem streamItems_names {s : Mk6.DatastreamMgmt} (h : Numbered s) (events : List StreamEvent) :
    ∃ last : Mk6.DatastreamMgmt, Numbered last ∧ s.tag2name <+: last.tag2name ∧
      ∀ i ∈ streamItems s events, ∀ x, i.1.call i.2 = .ok x →
        ∃ name, last.tag2name.lookup i.2.toNat = some name ∧ x = some name := by
  induction events generalizing s with
  | nil => exact ⟨s, h, List.prefix_rfl, nofun⟩
  | cons event events ih =>
    cases event with
    | lookup key =>
      obtain ⟨last, hlast, hbegin, hitems⟩ := ih (h.lookup key)
      exact ⟨last, hlast, (tag2name_grows h key).trans hbegin, hitems⟩
    | block tag =>
      obtain ⟨last, hlast, hbegin, hitems⟩ := ih h
      refine ⟨last, hlast, hbegin, fun i hi x hx => ?_⟩
      rcases List.mem_cons.mp hi with rfl | hi
      · change (if s.streamid2name tag.toNat = [] then _
          else Except.ok (some (s.streamid2name tag.toNat))) = .ok x at hx
        unfold streamid2name at hx
        cases hname : s.tag2name.lookup tag.toNat with
        | none =>
          rw [hname] at hx
          cases hx
        | some name =>
          rw [hname, Option.getD_some] at hx
          split at hx
          · cases hx
          · exact ⟨name, hbegin.lookup_eq_some hname, (Except.ok.inj hx).symm⟩
      · exact hitems i hi x hx

end

/-! ## Recordings -/

/-- Blocks without tags are one stream. -/
theorem neverCollide_noTag {items : List (SuffixSource × UInt32)} (layout : Layout)
    (recname : Text) (hitems : ∀ i ∈ items, i = (.noSuffix, noTag))
    (hshort : ∀ t, (items.map Prod.snd).count t < 2 ^ 32) :
    NeverCollide layout (chunkmakert layout (.start .noSuffix recname) items) := by
  have hsuffix : ∀ i ∈ items, ∀ s, i.1.call i.2 = .ok s → s = none := by
    intro i hi s hs
    rw [hitems i hi] at hs
    exact (Except.ok.inj hs).symm
  obtain ⟨ts, hbegin, hfiles, hsource, -⟩ :=
    @recorded (fun _ => none) items layout recname hsuffix
  rw [hfiles, neverCollide_iff fun t => (hbegin.sublist.count_le t).trans_lt (hshort t)]
  have hall (t : UInt32) (ht : t ∈ ts) : t = noTag := by
    obtain ⟨i, hi, rfl, -⟩ := hsource t ht
    rw [hitems i hi]
  intro t ht t' ht' hne
  exact absurd ((hall t ht).trans (hall t' ht').symm) hne

theorem neverCollide_netPort {np : Net.Netparms} {tags : List UInt32} (layout : Layout)
    (recname : Text) (hports : ∀ t ∈ tags, ∃ suffix, np.suffixmap t = some suffix)
    (hshort : ∀ t, tags.count t < 2 ^ 32) :
    NeverCollide layout (chunkmakert layout (.start .noSuffix recname)
      (tags.map fun t => (.netPortSuffix np.suffixmap, t))) ↔
      ∀ t ∈ tags, ∀ t' ∈ tags, t ≠ t' → np.suffixmap t ≠ np.suffixmap t' := by
  have hmap : (tags.map fun t => (SuffixSource.netPortSuffix np.suffixmap, t)).map Prod.snd =
      tags := by simp [Function.comp_def]
  have hcall (t : UInt32) (s : Text) (hs : np.suffixmap t = some s) :
      (SuffixSource.netPortSuffix np.suffixmap).call t = .ok (some s) := by
    rw [SuffixSource.call, hs]
  have hsuffix : ∀ i ∈ tags.map fun t => (SuffixSource.netPortSuffix np.suffixmap, t), ∀ s,
      i.1.call i.2 = .ok s → s = np.suffixmap i.2 := by
    intro i hi s hs
    obtain ⟨t, ht, rfl⟩ := List.mem_map.mp hi
    obtain ⟨suffix, hsome⟩ := hports t ht
    rw [hcall t suffix hsome] at hs
    exact (Except.ok.inj hs).symm.trans hsome.symm
  obtain ⟨ts, -, hfiles, -, hstops⟩ := recorded layout recname hsuffix
  have hts : ts = tags := by
    rw [← hmap]
    by_contra hne
    obtain ⟨i, hi, hfails⟩ := hstops hne
    obtain ⟨t, ht, rfl⟩ := List.mem_map.mp hi
    obtain ⟨suffix, hsome⟩ := hports t ht
    exact hfails _ (hcall t suffix hsome)
  rw [hfiles, hts, neverCollide_iff hshort]

theorem neverCollide_datastreams (layout : Layout) (recname : Text)
    {s : Mk6.DatastreamMgmt} (h : Mk6.DatastreamMgmt.Numbered s) {events : List StreamEvent}
    (hshort : ∀ t, ((streamItems s events).map Prod.snd).count t < 2 ^ 32) :
    NeverCollide layout (chunkmakert layout (.start .noSuffix recname) (streamItems s events)) := by
  obtain ⟨last, hlast, -, hnames⟩ := streamItems_names h events
  have hsuffix : ∀ i ∈ streamItems s events, ∀ x, i.1.call i.2 = .ok x →
      x = last.tag2name.lookup i.2.toNat := by
    intro i hi x hx
    obtain ⟨name, hname, rfl⟩ := hnames i hi x hx
    exact hname.symm
  obtain ⟨ts, hbegin, hfiles, hsource, -⟩ := @recorded
    (fun t => last.tag2name.lookup t.toNat) (streamItems s events) layout recname hsuffix
  rw [hfiles, neverCollide_iff fun t => (hbegin.sublist.count_le t).trans_lt (hshort t)]
  intro t ht t' ht' hne hsame
  obtain ⟨i, hi, rfl, hcall⟩ := hsource t ht
  obtain ⟨name, hname, -⟩ := hnames i hi _ hcall
  rw [hname] at hsame
  have htag := (hlast.lookup_iff name _).mpr hname
  rw [(hlast.lookup_iff name _).mpr hsame.symm] at htag
  exact hne (UInt32.toNat_inj.mp (Option.some.inj htag)).symm

/-- Chunks of a recording collide exactly when two ports that blocks come from have the same
suffix. -/
theorem neverCollide_recording_iff (r : Recording) (layout : Layout) (recname : Text)
    (hshort : r.Short) : NeverCollide layout (r.files layout recname) ↔ r.SuffixesDiffer := by
  cases r with
  | untagged blocks =>
    exact iff_of_true
      (neverCollide_noTag layout recname (fun i hi => List.eq_of_mem_replicate hi) hshort) trivial
  | datastreams ops events =>
    exact iff_of_true (neverCollide_datastreams layout recname
      (Mk6.DatastreamMgmt.run_numbered ops) hshort) trivial
  | netPort commands tags ports =>
    unfold Recording.Short at hshort
    unfold Recording.files Recording.SuffixesDiffer
    by_cases hhave : haveTags (Net.netPortRun commands) = true
    · simp only [Recording.items, if_pos hhave] at hshort ⊢
      rw [neverCollide_netPort layout recname
        (fun t ht => Net.suffixmap_of_lt (ports t ht)) (by simpa [Function.comp_def] using hshort)]
      exact ⟨fun h _ => h, fun h => h hhave⟩
    · simp only [Recording.items, if_neg hhave] at hshort ⊢
      refine iff_of_true (neverCollide_noTag layout recname ?_ hshort) fun h => absurd h hhave
      intro i hi
      obtain ⟨_, -, rfl⟩ := List.mem_map.mp hi
      rfl

/-- Two ports with suffixes of their own. -/
def twoPorts (suffix suffix' : Char) : List (List Text) :=
  [[['1', '=', suffix], ['2', '=', suffix']]]

def firstBlocks (suffix suffix' : Char) (h : 2 ≤ (Net.netPortRun (twoPorts suffix suffix')).nPort) :
    Recording :=
  .netPort (twoPorts suffix suffix') [0, 1] fun t ht => by
    have hlt : t.toNat < 2 := by
      rcases List.mem_cons.mp ht with rfl | ht
      · decide
      · obtain rfl := List.mem_singleton.mp ht
        decide
    omega

theorem neverCollide_two_ports :
    NeverCollide .vbs ((firstBlocks 'A' 'B' (by decide +kernel)).files .vbs ['r']) ↔
      (firstBlocks 'A' 'B' (by decide +kernel)).SuffixesDiffer := by
  refine neverCollide_recording_iff _ _ _ fun t => List.count_le_length.trans_lt ?_
  decide +kernel

/-- The same suffix on both ports is accepted. -/
theorem same_suffix_collides :
    (Net.netPortFn "net_port" [['1', '=', 'A'], ['2', '=', 'A']] .default).1 =
      .ok "!net_port= 0 ;" ∧
    ¬NeverCollide .vbs ((firstBlocks 'A' 'A' (by decide +kernel)).files .vbs ['r']) := by
  refine ⟨by decide +kernel, fun hnever => ?_⟩
  have hnot : ¬((firstBlocks 'A' 'A' (by decide +kernel)).files .vbs ['r']).Nodup := by
    decide +kernel
  exact hnot hnever.pairs

end Jive5ab.Vbs.ChunkNames
