import Jive5ab.Recorder.Tokens

/-! # What a recorded chunk has on disk

A mountpoint has one holder, and so has the file a chunk goes to. What a writer
knows of its file at every stage is the invariant; the other writers are framed
off by their mountpoints. It needs that block headers are never cut short: then
the code skips the data and takes the chunk for written. -/
namespace Jive5ab.Recorder
open Lib

/-! ## Contents of files -/

/-- What a file starts with. -/
def IsHead (vars : Mark6Vars) (head : List UInt8) : Prop :=
  if vars.mk6 then ∃ c : Chunk, head = (c.fileHeader vars).bytes else head = []

def Chunk.prologue (vars : Mark6Vars) (c : Chunk) : List UInt8 :=
  if vars.mk6 then c.wbHeader.bytes else []

def Chunk.block (vars : Mark6Vars) (c : Chunk) : List UInt8 := c.prologue vars ++ c.data

/-- What the writers leave on disk, and what they know about it. -/
structure Disk where
  files : List File
  fdmap : String → Option Int
  recorded : List (Chunk × Nat)

def State.disk (s : State) : Disk := ⟨s.files, s.args.fdmap, s.recorded⟩

/-- The chunks recorded in a file, one after the other. -/
def Disk.layout (vars : Mark6Vars) (d : Disk) (fd : Nat) : List UInt8 :=
  (d.recorded.filter fun r => r.2 = fd).flatMap fun r => r.1.block vars

def Disk.unrecorded (d : Disk) (fd : Nat) : Prop := ∀ r ∈ d.recorded, r.2 ≠ fd

structure FileIs (d : Disk) (fd : Nat) (mountpoint : String) (bytes : List UInt8) (f : File) :
    Prop where
  file : d.files[fd]? = some f
  mountpoint : f.mountpoint = mountpoint
  linked : f.linked = true
  contents : f.contents = bytes

/-- A header, the chunks recorded so far, and `rest`. -/
def Holds (vars : Mark6Vars) (d : Disk) (fd : Nat) (mountpoint : String) (rest : List UInt8) : Prop :=
  ∃ head f, IsHead vars head ∧ FileIs d fd mountpoint (head ++ d.layout vars fd ++ rest) f

/-- A chunk is in a file, behind the file header and its own block header. -/
def Stored (vars : Mark6Vars) (d : Disk) (c : Chunk) (fd : Nat) : Prop :=
  ∃ f head before after, d.files[fd]? = some f ∧ f.linked = true ∧ IsHead vars head ∧
    f.contents = head ++ before ++ c.block vars ++ after

/-! ## What a writer knows -/

/-- An open file that nobody writes to. -/
def AtRest (vars : Mark6Vars) (d : Disk) (mountpoint : String) : Prop :=
  ∀ fd : Nat, d.fdmap mountpoint = some fd → Holds vars d fd mountpoint []

/-- The map knows no other file of the mountpoint. -/
def Mine (d : Disk) (mountpoint : String) (fd : Nat) : Prop :=
  ∀ fd' : Nat, d.fdmap mountpoint = some fd' → fd' = fd

def StageOk (vars : Mark6Vars) (d : Disk) (c : Chunk) (mountpoint : String) : Stage → Prop
  | .lookup => vars.mk6 = true ∧ AtRest vars d mountpoint
  | .seenBefore _ => AtRest vars d mountpoint
  | .mkpath | .opening => ∀ fd : Nat, d.fdmap mountpoint ≠ some fd
  | .chown fd => Mine d mountpoint fd ∧ d.unrecorded fd ∧ ∃ f, FileIs d fd mountpoint [] f
  | .fileHeader fd =>
    Mine d mountpoint fd ∧ vars.mk6 = true ∧ d.unrecorded fd ∧ ∃ f, FileIs d fd mountpoint [] f
  | .blockHeader fd => Mine d mountpoint fd ∧ vars.mk6 = true ∧ Holds vars d fd mountpoint []
  | .data fd n | .close fd n | .inspect fd n =>
    Mine d mountpoint fd ∧ n ≤ c.data.length ∧ (vars.mk6 = false → d.unrecorded fd) ∧
      Holds vars d fd mountpoint (c.prologue vars ++ c.data.take n)
  | .putBack fd => Mine d mountpoint fd ∧ Holds vars d fd mountpoint (c.block vars)
  | .markBad => True
  | .markBadUnlink fd => d.unrecorded fd ∧ ∃ f, d.files[fd]? = some f ∧ f.mountpoint = mountpoint

def WriterOk (vars : Mark6Vars) (d : Disk) : Writer → Prop
  | .holding c _ mountpoint stage => StageOk vars d c mountpoint stage
  | _ => True

structure Inv (vars : Mark6Vars) (s : State) : Prop where
  names : s.names.Nodup
  writers : ∀ (i : Nat) w, s.writers[i]? = some w → WriterOk vars s.disk w
  resting : ∀ mp ∈ s.args.filelist, AtRest vars s.disk mp
  recorded : ∀ r ∈ s.recorded, Stored vars s.disk r.1 r.2
  plain : vars.mk6 = false → ∀ mp (fd : Nat), s.args.fdmap mp ≠ some fd

/-! ## What the others see -/

/-- All that is not `mountpoint`'s is the same. -/
structure SameBut (d e : Disk) (mountpoint : String) : Prop where
  files : ∀ (fd : Nat) f, d.files[fd]? = some f → f.mountpoint ≠ mountpoint → e.files[fd]? = some f
  fdmap : ∀ mp, mp ≠ mountpoint → e.fdmap mp = d.fdmap mp
  recorded : ∀ (fd : Nat) f, d.files[fd]? = some f → f.mountpoint ≠ mountpoint →
    (e.recorded.filter fun r => r.2 = fd) = d.recorded.filter fun r => r.2 = fd

section
variable {vars : Mark6Vars} {d e : Disk} {mountpoint mp : String} {fd : Nat} {c : Chunk}

theorem SameBut.unrecorded (h : SameBut d e mountpoint) {f : File} (hf : d.files[fd]? = some f)
    (hne : f.mountpoint ≠ mountpoint) (hs : d.unrecorded fd) : e.unrecorded fd := by
  intro r hr heq
  have hmem : r ∈ e.recorded.filter fun r => r.2 = fd := List.mem_filter.mpr ⟨hr, decide_eq_true heq⟩
  rw [h.recorded fd f hf hne] at hmem
  exact hs r (List.mem_filter.mp hmem).1 heq

theorem SameBut.fileIs (h : SameBut d e mountpoint) (hne : mp ≠ mountpoint) {bytes : List UInt8}
    {f : File} (hf : FileIs d fd mp bytes f) : FileIs e fd mp bytes f :=
  ⟨h.files fd f hf.file (hf.mountpoint ▸ hne), hf.mountpoint, hf.linked, hf.contents⟩

theorem SameBut.holds (h : SameBut d e mountpoint) (hne : mp ≠ mountpoint) {rest : List UInt8}
    (hs : Holds vars d fd mp rest) : Holds vars e fd mp rest := by
  obtain ⟨head, f, hhead, hf⟩ := hs
  have hlayout : e.layout vars fd = d.layout vars fd := by
    unfold Disk.layout
    rw [h.recorded fd f hf.file (hf.mountpoint ▸ hne)]
  exact ⟨head, f, hhead, hlayout ▸ h.fileIs hne hf⟩

theorem SameBut.atRest (h : SameBut d e mountpoint) (hne : mp ≠ mountpoint)
    (hs : AtRest vars d mp) : AtRest vars e mp := by
  intro fd hfd
  rw [h.fdmap mp hne] at hfd
  exact h.holds hne (hs fd hfd)

theorem SameBut.mine (h : SameBut d e mountpoint) (hne : mp ≠ mountpoint) (hs : Mine d mp fd) :
    Mine e mp fd := by
  intro fd' hfd
  rw [h.fdmap mp hne] at hfd
  exact hs fd' hfd

theorem SameBut.stageOk (h : SameBut d e mountpoint) (hne : mp ≠ mountpoint) {stage : Stage}
    (hs : StageOk vars d c mp stage) : StageOk vars e c mp stage := by
  cases stage with
  | lookup => exact ⟨hs.1, h.atRest hne hs.2⟩
  | seenBefore => exact h.atRest hne hs
  | mkpath | opening =>
    intro fd
    rw [h.fdmap mp hne]
    exact hs fd
  | chown fd =>
    obtain ⟨hmine, hun, f, hf⟩ := hs
    exact ⟨h.mine hne hmine, h.unrecorded hf.file (hf.mountpoint ▸ hne) hun, f, h.fileIs hne hf⟩
  | fileHeader fd =>
    obtain ⟨hmine, hmk6, hun, f, hf⟩ := hs
    exact ⟨h.mine hne hmine, hmk6, h.unrecorded hf.file (hf.mountpoint ▸ hne) hun, f, h.fileIs hne hf⟩
  | blockHeader fd => exact ⟨h.mine hne hs.1, hs.2.1, h.holds hne hs.2.2⟩
  | data fd n | close fd n | inspect fd n =>
    obtain ⟨hmine, hn, hun, hholds⟩ := hs
    refine ⟨h.mine hne hmine, hn, fun hmk6 => ?_, h.holds hne hholds⟩
    obtain ⟨head, f, -, hf⟩ := hholds
    exact h.unrecorded hf.file (hf.mountpoint ▸ hne) (hun hmk6)
  | putBack fd => exact ⟨h.mine hne hs.1, h.holds hne hs.2⟩
  | markBad => trivial
  | markBadUnlink fd =>
    obtain ⟨hun, f, hf, hmp⟩ := hs
    exact ⟨h.unrecorded hf (hmp ▸ hne) hun, f, h.files fd f hf (hmp ▸ hne), hmp⟩

theorem Stored.mono (h : Stored vars d c fd)
    (hgrow : ∀ f, d.files[fd]? = some f → ∃ f', e.files[fd]? = some f' ∧ f'.linked = f.linked ∧
      f.contents <+: f'.contents) : Stored vars e c fd := by
  obtain ⟨f, head, before, after, hf, hlinked, hhead, hcontents⟩ := h
  obtain ⟨f', hf', hlinked', more, hmore⟩ := hgrow f hf
  refine ⟨f', head, before, after ++ more, hf', hlinked' ▸ hlinked, hhead, ?_⟩
  rw [← hmore, hcontents, List.append_assoc]

end

/-! ## Writers side by side -/

/-- Writer `i` is now `w`; the others may have woken up. -/
structure Others (s t : State) (i : Nat) (w : Writer) : Prop where
  self : t.writers[i]? = some w
  others : ∀ j, j ≠ i → t.writers[j]? = s.writers[j]? ∨ t.writers[j]? = (s.writers[j]?).map Writer.wake

section
variable {vars : Mark6Vars} {s t : State} {i : Nat} {c : Chunk} {seen : List String}
  {mountpoint : String} {stage : Stage}

theorem others_set {w : Writer} (hi : s.writers[i]? = some w) {s' : State}
    (hs : s'.writers = s.writers) (w' : Writer) : Others s (s'.setWriter i w') i w' := by
  obtain ⟨hlt, -⟩ := List.getElem?_eq_some_iff.mp hi
  refine ⟨?_, fun j hj => .inl ?_⟩
  · show (s'.writers.set i w')[i]? = _
    rw [hs, List.getElem?_set_self hlt]
  · show (s'.writers.set i w')[j]? = _
    rw [hs, List.getElem?_set_ne hj.symm]

theorem others_markBad {w : Writer} (hi : s.writers[i]? = some w) {s' : State}
    (hs : s'.writers = s.writers) : Others s (markMountpointBad s' i c seen) i (.select c seen) := by
  obtain ⟨hlt, -⟩ := List.getElem?_eq_some_iff.mp hi
  refine ⟨?_, fun j hj => .inr ?_⟩
  · show ((s'.writers.map Writer.wake).set i _)[i]? = _
    rw [hs, List.getElem?_set_self (by rwa [List.length_map])]
  · show ((s'.writers.map Writer.wake).set i _)[j]? = _
    rw [hs, List.getElem?_set_ne hj.symm, List.getElem?_map]

theorem others_signal {w w' : Writer} (hi : s.writers[i]? = some w) {s' : State}
    {sleeper : Option Nat} (h : (s'.setWriter i w').signal sleeper = some t)
    (hs : s'.writers = s.writers) (hw : w'.sleeps = false) : Others s t i w' := by
  have hset := others_set hi hs w'
  unfold State.signal at h
  split at h
  · rename_i j
    split at h
    · rename_i v hv
      split at h
      · rename_i hsleeps
        obtain rfl := Option.some.inj h
        have hji : j ≠ i := by
          intro heq
          rw [heq, hset.self] at hv
          obtain rfl := Option.some.inj hv
          rw [hw] at hsleeps
          cases hsleeps
        obtain ⟨hlt, -⟩ := List.getElem?_eq_some_iff.mp hv
        refine ⟨?_, fun k hk => ?_⟩
        · show (((s'.setWriter i w').writers).set j v.wake)[i]? = _
          rw [List.getElem?_set_ne hji, hset.self]
        · by_cases hkj : k = j
          · subst hkj
            have hsame : s.writers[k]? = some v := by
              rw [← hv]
              show _ = (s'.writers.set i w')[k]?
              rw [hs, List.getElem?_set_ne hk.symm]
            refine .inr ?_
            show (((s'.setWriter i w').writers).set k v.wake)[k]? = _
            rw [List.getElem?_set_self hlt, hsame]
            rfl
          · have hget : ((s'.setWriter i w').setWriter j v.wake).writers[k]? =
                (s'.setWriter i w').writers[k]? := List.getElem?_set_ne (Ne.symm hkj)
            rw [hget]
            exact hset.others k hk
      · cases h
    · cases h
  · split at h
    · cases h
    · obtain rfl := Option.some.inj h
      exact hset

theorem heldBy_unique {ws : List Writer} {j : Nat} (hnodup : (heldBy ws).Nodup) {w v : Writer}
    (hi : ws[i]? = some w) (hj : ws[j]? = some v) (hw : w.mountpoint? = some mountpoint)
    (hv : v.mountpoint? = some mountpoint) : i = j := by
  by_contra hij
  have hset := heldBy_set hi .idle
  rw [hw] at hset
  have hmem : mountpoint ∈ heldBy (ws.set i .idle) := by
    refine List.mem_filterMap.mpr ⟨v, ?_, hv⟩
    refine List.mem_of_getElem? (i := j) ?_
    rw [List.getElem?_set_ne hij, hj]
  have hnd : (mountpoint :: heldBy (ws.set i .idle)).Nodup := (hset.nodup_iff).mpr hnodup
  exact (List.nodup_cons.mp hnd).1 hmem

/-- What is left to show of a step of a writer with a mountpoint. -/
theorem Inv.update (h : Inv vars s) (hi : s.writers[i]? = some (.holding c seen mountpoint stage))
    {w : Writer} (hothers : Others s t i w) (hsame : SameBut s.disk t.disk mountpoint)
    (hnames : t.names.Subperm s.names) (hw : WriterOk vars t.disk w)
    (hlist : ∀ mp ∈ t.args.filelist, mp ∈ s.args.filelist ∨ mp = mountpoint ∧ AtRest vars t.disk mountpoint)
    (hrec : ∀ r ∈ t.recorded, Stored vars t.disk r.1 r.2)
    (hplain : vars.mk6 = false → ∀ mp (fd : Nat), t.args.fdmap mp ≠ some fd) : Inv vars t := by
  obtain ⟨hlistnd, hheldnd, hdisj⟩ := List.nodup_append.mp h.names
  have hnodup : t.names.Nodup := by
    obtain ⟨l, hperm, hsub⟩ := hnames
    exact hperm.nodup_iff.mp (hsub.nodup h.names)
  refine ⟨hnodup, fun j v hv => ?_, fun mp hmp => ?_, hrec, hplain⟩
  · by_cases hj : j = i
    · subst hj
      rw [hothers.self] at hv
      obtain rfl := Option.some.inj hv
      exact hw
    · have hother : ∃ v', s.writers[j]? = some v' ∧ (v = v' ∨ v = v'.wake) := by
        rcases hothers.others j hj with heq | heq
        · exact ⟨v, heq ▸ hv, .inl rfl⟩
        · rw [heq, Option.map_eq_some_iff] at hv
          obtain ⟨v', hv', rfl⟩ := hv
          exact ⟨v', hv', .inr rfl⟩
      obtain ⟨v', hv', hwake⟩ := hother
      have hok := h.writers j v' hv'
      cases v' with
      | holding c' seen' mp stage' =>
        have hne : mp ≠ mountpoint := by
          rintro rfl
          exact hj (heldBy_unique hheldnd hv' hi rfl rfl)
        have hv : v = .holding c' seen' mp stage' := by rcases hwake with rfl | rfl <;> rfl
        rw [hv]
        exact hsame.stageOk hne hok
      | _ =>
        rcases hwake with rfl | rfl <;> trivial
  · rcases hlist mp hmp with hold | ⟨rfl, hrest⟩
    · have hheld : mountpoint ∈ heldBy s.writers :=
        List.mem_filterMap.mpr ⟨_, List.mem_of_getElem? hi, rfl⟩
      have hne : mp ≠ mountpoint := fun heq => hdisj mp hold mountpoint hheld heq
      exact hsame.atRest hne (h.resting mp hold)
    · exact hrest

end

/-! ## What the stages do to the files -/

section
variable {vars : Mark6Vars} {s t : State} {i : Nat} {c : Chunk} {seen : List String}
  {mountpoint : String} {stage : Stage}

theorem SameBut.refl (d : Disk) (mountpoint : String) : SameBut d d mountpoint :=
  ⟨fun _ _ hf _ => hf, fun _ _ => rfl, fun _ _ _ _ => rfl⟩

/-- On to the next stage; nothing else changed. -/
theorem Inv.quiet (h : Inv vars s) (hi : s.writers[i]? = some (.holding c seen mountpoint stage))
    {stage' : Stage} (hok : StageOk vars s.disk c mountpoint stage') :
    Inv vars (s.setWriter i (.holding c seen mountpoint stage')) :=
  h.update hi (others_set hi rfl _) (.refl _ _) (names_stage hi ⟨rfl, rfl⟩ _) hok
    (fun _ hmp => .inl hmp) h.recorded h.plain

theorem append_file {s : State} {fd fd' : Nat} {bytes : List UInt8} {rv : Int} {f : File}
    (hf : s.files[fd']? = some f) :
    (s.append fd bytes rv).files[fd']? =
      some (if fd = fd' then { f with contents := f.contents ++ bytes.take rv.toNat } else f) := by
  show (s.files.modify fd _)[fd']? = _
  rw [List.getElem?_modify, hf]
  split <;> rfl

theorem append_sameBut {fd : Nat} {bytes : List UInt8} {rv : Int} {f : File}
    (hf : s.files[fd]? = some f) (hmp : f.mountpoint = mountpoint) :
    SameBut s.disk (s.append fd bytes rv).disk mountpoint := by
  refine ⟨fun fd' f' hf' hne => ?_, fun _ _ => rfl, fun _ _ _ _ => rfl⟩
  have hfd : fd ≠ fd' := by
    rintro rfl
    change s.files[fd]? = some f' at hf'
    rw [hf] at hf'
    exact hne (Option.some.inj hf' ▸ hmp)
  show (s.append fd bytes rv).files[fd']? = _
  rw [append_file hf', if_neg hfd]

theorem FileIs.append {fd : Nat} {bytes more : List UInt8} {rv : Int} {f : File}
    (h : FileIs s.disk fd mountpoint bytes f) :
    FileIs (s.append fd more rv).disk fd mountpoint (bytes ++ more.take rv.toNat)
      { f with contents := f.contents ++ more.take rv.toNat } where
  file := by
    show (s.append fd more rv).files[fd]? = _
    rw [append_file h.file, if_pos rfl]
  mountpoint := h.mountpoint
  linked := h.linked
  contents := by rw [← h.contents]

theorem Holds.append {fd : Nat} {rest more : List UInt8} {rv : Int}
    (h : Holds vars s.disk fd mountpoint rest) :
    Holds vars (s.append fd more rv).disk fd mountpoint (rest ++ more.take rv.toNat) := by
  obtain ⟨head, f, hhead, hf⟩ := h
  refine ⟨head, { f with contents := f.contents ++ more.take rv.toNat }, hhead, ?_⟩
  rw [← List.append_assoc]
  exact hf.append

/-- A write to the writer's own file. -/
theorem Inv.write (h : Inv vars s) (hi : s.writers[i]? = some (.holding c seen mountpoint stage))
    {fd : Nat} {bytes : List UInt8} {rv : Int} {f : File} (hf : s.files[fd]? = some f)
    (hmp : f.mountpoint = mountpoint) {stage' : Stage}
    (hok : StageOk vars (s.append fd bytes rv).disk c mountpoint stage') :
    Inv vars ((s.append fd bytes rv).setWriter i (.holding c seen mountpoint stage')) := by
  have hothers : Others s ((s.append fd bytes rv).setWriter i (.holding c seen mountpoint stage')) i
      (.holding c seen mountpoint stage') :=
    others_set hi (append_frame s fd bytes rv).2 _
  refine h.update hi hothers (append_sameBut hf hmp) (names_stage hi (append_frame ..) _) hok
    (fun _ hm => .inl hm) (fun r hr => ?_) h.plain
  refine (h.recorded r hr).mono fun g hg => ?_
  refine ⟨_, append_file hg, ?_⟩
  split
  · exact ⟨rfl, List.prefix_append _ _⟩
  · exact ⟨rfl, List.prefix_refl _⟩

/-- A mountpoint is given up, after `s'` was made of the files. -/
theorem Inv.giveUp (h : Inv vars s) (hi : s.writers[i]? = some (.holding c seen mountpoint stage))
    {s' : State} (hs : s'.args = s.args ∧ s'.writers = s.writers) (hrec : s'.recorded = s.recorded)
    (hsame : SameBut s.disk s'.disk mountpoint)
    (hstored : ∀ r ∈ s.recorded, Stored vars s'.disk r.1 r.2) :
    Inv vars (markMountpointBad s' i c seen) := by
  refine h.update hi (others_markBad hi hs.2) hsame (names_markBad hi hs) trivial
    (fun mp hmp => .inl ?_) (fun r hr => ?_) ?_
  · change mp ∈ s'.args.filelist at hmp
    rwa [hs.1] at hmp
  · change r ∈ s'.recorded at hr
    rw [hrec] at hr
    exact hstored r hr
  · show vars.mk6 = false → ∀ mp (fd : Nat), s'.args.fdmap mp ≠ some fd
    rw [hs.1]
    exact h.plain

theorem layout_nil {d : Disk} {fd : Nat} (h : d.unrecorded fd) : d.layout vars fd = [] := by
  unfold Disk.layout
  have hnone : (d.recorded.filter fun r => r.2 = fd) = [] :=
    List.filter_eq_nil_iff.mpr fun r hr => by simpa using h r hr
  rw [hnone]
  rfl

theorem signal_disk {sleeper : Option Nat} (h : s.signal sleeper = some t) :
    t.disk = s.disk ∧ t.args = s.args := by
  unfold State.signal at h
  split at h
  · split at h
    · split at h
      · obtain rfl := Option.some.inj h
        exact ⟨rfl, rfl⟩
      · cases h
    · cases h
  · split at h
    · cases h
    · obtain rfl := Option.some.inj h
      exact ⟨rfl, rfl⟩

theorem holds_fresh {d : Disk} {fd : Nat} {head rest : List UInt8} {f : File} (hun : d.unrecorded fd)
    (hhead : IsHead vars head) (hf : FileIs d fd mountpoint (head ++ rest) f) :
    Holds vars d fd mountpoint rest := by
  refine ⟨head, f, hhead, ?_⟩
  rw [layout_nil hun, List.append_nil]
  exact hf

theorem length_fileHeader (c : Chunk) : (c.fileHeader vars).bytes.length = sizeofFileHeader := by
  simp [Mk6FileHeader.bytes, sizeofFileHeader]

theorem length_wbHeader (c : Chunk) : c.wbHeader.bytes.length = sizeofWbHeader := by
  simp [Mk6WbHeader.bytes, sizeofWbHeader]

/-- A new file: nobody else has it. -/
theorem Inv.opened (h : Inv vars s) (hi : s.writers[i]? = some (.holding c seen mountpoint stage))
    (hfdmap : ∀ fd : Nat, s.args.fdmap mountpoint ≠ some (fd : Int)) (path : String) :
    Inv vars ({ s with files := s.files ++ [File.mk mountpoint path [] true] }.setWriter i
      (.holding c seen mountpoint (.chown s.files.length))) := by
  have hgrow : ∀ (fd : Nat) f, s.files[fd]? = some f →
      (s.files ++ [File.mk mountpoint path [] true])[fd]? = some f := by
    intro fd f hf
    rw [List.getElem?_append_left (List.getElem?_eq_some_iff.mp hf).1, hf]
  have hothers : Others s ({ s with files := s.files ++ [File.mk mountpoint path [] true] }.setWriter i
      (.holding c seen mountpoint (.chown s.files.length))) i
        (.holding c seen mountpoint (.chown s.files.length)) :=
    others_set hi (by rfl) _
  refine h.update hi hothers
    ⟨fun fd f hf _ => hgrow fd f hf, fun _ _ => rfl, fun _ _ _ _ => rfl⟩
    (names_stage hi ⟨rfl, rfl⟩ _) ⟨fun fd hfd => absurd hfd (hfdmap fd), fun r hr hlen => ?_, ?_⟩
    (fun _ hmp => .inl hmp) (fun r hr => ?_) h.plain
  · obtain ⟨f, _, _, _, hf, _⟩ := h.recorded r hr
    obtain ⟨hlt, -⟩ := List.getElem?_eq_some_iff.mp hf
    exact absurd hlt (by rw [hlen]; exact Nat.lt_irrefl _)
  · refine ⟨⟨mountpoint, path, [], true⟩, ?_, rfl, rfl, rfl⟩
    show (s.files ++ [_])[s.files.length]? = _
    rw [List.getElem?_concat_length]
  · exact (h.recorded r hr).mono fun f hf => ⟨f, hgrow r.2 f hf, rfl, List.prefix_refl _⟩

theorem insertFd_ne {fdmap : String → Option Int} {mp : String} (h : mp ≠ mountpoint) (fd : Int) :
    State.insertFd fdmap mountpoint fd mp = fdmap mp := by
  unfold State.insertFd
  cases fdmap mountpoint with
  | some _ => rfl
  | none => exact Function.update_of_ne h _ _

theorem insertFd_self (fdmap : String → Option Int) (mountpoint : String) (fd : Int) :
    State.insertFd fdmap mountpoint fd mountpoint = some ((fdmap mountpoint).getD fd) := by
  unfold State.insertFd
  cases hmp : fdmap mountpoint with
  | some old => exact hmp
  | none => exact Function.update_self ..

theorem layout_record (s : State) (mapped : Int) (fd : Nat) :
    (s.record mountpoint mapped c fd).disk.layout vars fd = s.disk.layout vars fd ++ c.block vars := by
  show ((s.recorded ++ [(c, fd)]).filter _).flatMap _ = _
  rw [List.filter_append, List.flatMap_append]
  congr 1
  simp

/-- The chunk is done, and its mountpoint back on the list. -/
theorem Inv.putBack (h : Inv vars s) {fd : Nat}
    (hi : s.writers[i]? = some (.holding c seen mountpoint (.putBack fd))) {sleeper : Option Nat}
    (hstep : (((s.giveBack mountpoint).record mountpoint (if vars.mk6 then fd else -1) c fd).setWriter
      i .idle).signal sleeper = some t) : Inv vars t := by
  obtain ⟨hmine, head, f, hhead, hf⟩ := h.writers i _ hi
  obtain ⟨hdisk, hargs⟩ := signal_disk hstep
  have hrec : t.recorded = s.recorded ++ [(c, fd)] := congrArg Disk.recorded hdisk
  have hmap : t.args.fdmap = State.insertFd s.args.fdmap mountpoint (if vars.mk6 then fd else -1) :=
    congrArg Disk.fdmap hdisk
  have hown : ∀ fd' : Nat, t.args.fdmap mountpoint = some (fd' : Int) → fd' = fd ∧ vars.mk6 = true := by
    intro fd' hfd
    rw [hmap, insertFd_self, Option.some.injEq] at hfd
    cases hold : s.args.fdmap mountpoint with
    | some old =>
      rw [hold, Option.getD_some] at hfd
      subst hfd
      refine ⟨hmine fd' hold, ?_⟩
      cases hmk6 : vars.mk6 with
      | true => rfl
      | false => exact absurd hold (h.plain hmk6 _ _)
    | none =>
      rw [hold, Option.getD_none] at hfd
      cases hmk6 : vars.mk6 with
      | true =>
        rw [hmk6, if_pos rfl] at hfd
        exact ⟨by omega, rfl⟩
      | false =>
        rw [hmk6, if_neg (by decide)] at hfd
        omega
  have hfile : FileIs t.disk fd mountpoint (head ++ t.disk.layout vars fd ++ []) f := by
    rw [List.append_nil, hdisk]
    refine ⟨hf.file, hf.mountpoint, hf.linked, ?_⟩
    refine hf.contents.trans ?_
    rw [List.append_assoc]
    congr 1
    exact (layout_record (s.giveBack mountpoint) _ fd).symm
  refine h.update hi (others_signal hi hstep rfl rfl) ⟨fun fd' f' hf' _ => ?_, fun mp hne => ?_,
    fun fd' f' hf' hne => ?_⟩ (names_giveBack hi hstep rfl rfl rfl) trivial (fun mp hmp => ?_)
    (fun r hr => ?_) fun hmk6 mp fd' hfd => ?_
  · rw [hdisk]
    exact hf'
  · show t.args.fdmap mp = _
    rw [hmap]
    exact insertFd_ne hne _
  · have hfd : ¬ fd = fd' := by
      rintro rfl
      exact hne ((Option.some.inj (hf.file.symm.trans hf')) ▸ hf.mountpoint)
    show (t.recorded.filter _) = _
    rw [hrec, List.filter_append, List.filter_singleton, decide_eq_false hfd]
    exact List.append_nil _
  · rw [hargs] at hmp
    rcases List.mem_append.mp hmp with hold | hnew
    · exact .inl hold
    · refine .inr ⟨List.mem_singleton.mp hnew, fun fd' hfd => ?_⟩
      rw [(hown fd' hfd).1]
      exact ⟨head, f, hhead, hfile⟩
  · rw [hrec] at hr
    rcases List.mem_append.mp hr with hold | hnew
    · rw [hdisk]
      exact (h.recorded r hold).mono fun f hf => ⟨f, hf, rfl, List.prefix_refl _⟩
    · obtain rfl := List.mem_singleton.mp hnew
      refine ⟨f, head, s.disk.layout vars fd, [], hfile.file, hf.linked, hhead, ?_⟩
      rw [List.append_nil]
      exact hf.contents
  · by_cases hmp : mp = mountpoint
    · subst hmp
      have htrue := (hown fd' hfd).2
      rw [hmk6] at htrue
      cases htrue
    · rw [hmap, insertFd_ne hmp] at hfd
      exact h.plain hmk6 mp fd' hfd

/-- One stage of a writer, when it does not write its block header short. -/
theorem stageStep_inv {a : Answer} (h : Inv vars s)
    (hi : s.writers[i]? = some (.holding c seen mountpoint stage))
    (hstep : stageStep vars s i c seen mountpoint stage a = some t)
    (ha : ∀ rv, a = .wroteBlockHeader rv → rv = sizeofWbHeader) : Inv vars t := by
  have hok : StageOk vars s.disk c mountpoint stage := h.writers i _ hi
  unfold stageStep at hstep
  dsimp only at hstep
  split at hstep
  case h_1 =>
    obtain ⟨hmk6, hrest⟩ := hok
    split at hstep
    · rename_i fd hfd
      obtain rfl := Option.some.inj hstep
      refine h.quiet hi ⟨fun fd' hfd' => ?_, hmk6, hrest fd hfd⟩
      have heq : some (Int.ofNat fd) = some (fd' : Int) := hfd.symm.trans hfd'
      exact (Int.ofNat.inj (Option.some.inj heq)).symm
    · rename_i hno
      obtain rfl := Option.some.inj hstep
      exact h.quiet hi fun fd hfd => hno fd hfd
  case h_2 ok =>
    obtain rfl := Option.some.inj hstep
    cases ok with
    | true => exact h.quiet hi hok
    | false => exact h.quiet hi trivial
  case h_3 ok =>
    cases ok with
    | true =>
      rw [if_pos rfl] at hstep
      split at hstep
      · cases hstep
      · obtain rfl := Option.some.inj hstep
        exact h.opened hi hok _
    | false =>
      obtain rfl := Option.some.inj hstep
      exact h.quiet hi trivial
  case h_4 fd ok =>
    obtain ⟨hmine, hun, f, hf⟩ := hok
    cases ok with
    | true =>
      rw [if_pos rfl] at hstep
      obtain rfl := Option.some.inj hstep
      cases hmk6 : vars.mk6 with
      | true => exact h.quiet hi ⟨hmine, hmk6, hun, f, hf⟩
      | false =>
        refine h.quiet hi ⟨hmine, Nat.zero_le _, fun _ => hun, ?_⟩
        have hrest : c.prologue vars ++ c.data.take 0 = [] := by
          unfold Chunk.prologue
          rw [hmk6]
          rfl
        rw [hrest]
        have hhead : IsHead vars [] := by
          unfold IsHead
          rw [hmk6]
          rfl
        exact holds_fresh hun hhead hf
    | false =>
      obtain rfl := Option.some.inj hstep
      exact h.update hi (others_set hi rfl _) (.refl _ _)
        ((List.sublist_cons_self _ _).subperm.trans (names_drop hi (w := .threw) rfl).subperm)
        trivial (fun _ hmp => .inl hmp) h.recorded h.plain
  case h_5 fd rv =>
    obtain ⟨hmine, hmk6, hun, f, hf⟩ := hok
    split at hstep
    · obtain rfl := Option.some.inj hstep
      refine h.write hi hf.file hf.mountpoint ?_
      split
      · rename_i hrv
        have hwhole : (c.fileHeader vars).bytes.take rv.toNat = (c.fileHeader vars).bytes := by
          rw [hrv, Int.toNat_natCast, ← @length_fileHeader vars c, List.take_length]
        have hhead : IsHead vars (c.fileHeader vars).bytes := by
          unfold IsHead
          rw [if_pos hmk6]
          exact ⟨c, rfl⟩
        have happ : FileIs (s.append fd (c.fileHeader vars).bytes rv).disk fd mountpoint
            ((c.fileHeader vars).bytes ++ [])
            { f with contents := f.contents ++ (c.fileHeader vars).bytes.take rv.toNat } := by
          rw [List.append_nil]
          conv => arg 4; rw [← hwhole]
          exact hf.append
        exact ⟨hmine, hmk6, holds_fresh hun hhead happ⟩
      · trivial
    · cases hstep
  case h_6 fd rv =>
    obtain ⟨hmine, hmk6, hholds⟩ := hok
    obtain rfl := ha rv rfl
    split at hstep
    · obtain rfl := Option.some.inj hstep
      obtain ⟨_, f, _, hf⟩ := id hholds
      refine h.write hi hf.file hf.mountpoint ?_
      rw [if_pos rfl]
      refine ⟨hmine, Nat.zero_le _, fun hno => absurd hmk6 (by rw [hno]; decide), ?_⟩
      have happ : Holds vars (s.append fd c.wbHeader.bytes sizeofWbHeader).disk fd mountpoint _ :=
        hholds.append
      have hwhole : c.wbHeader.bytes.take (sizeofWbHeader : Int).toNat = c.wbHeader.bytes := by
        rw [Int.toNat_natCast, ← length_wbHeader c, List.take_length]
      rw [hwhole] at happ
      unfold Chunk.prologue
      rw [if_pos hmk6, List.take_zero, List.append_nil]
      exact happ
    · cases hstep
  case h_7 fd n rv =>
    obtain ⟨hmine, hn, hun, hholds⟩ := hok
    split at hstep
    · rename_i hfits
      obtain rfl := Option.some.inj hstep
      obtain ⟨_, f, _, hf⟩ := id hholds
      refine h.write hi hf.file hf.mountpoint ?_
      have happ : Holds vars (s.append fd (c.data.drop n) rv).disk fd mountpoint _ := hholds.append
      rw [List.append_assoc, ← List.take_add] at happ
      split
      · rename_i hfail
        have hzero : rv.toNat = 0 := by omega
        rw [hzero, Nat.add_zero] at happ
        exact ⟨hmine, hn, hun, happ⟩
      · refine ⟨hmine, ?_, hun, happ⟩
        have hle := hfits.2
        unfold writeReturns at hle
        omega
    · cases hstep
  case h_8 fd n =>
    split at hstep
    · cases hstep
    · obtain rfl := Option.some.inj hstep
      exact h.quiet hi hok
  case h_9 fd n =>
    obtain rfl := Option.some.inj hstep
    exact h.quiet hi hok
  case h_10 fd n =>
    obtain ⟨hmine, hn, hun, hholds⟩ := hok
    split at hstep
    · rename_i hall
      obtain rfl := Option.some.inj hstep
      rw [hall, List.take_length] at hholds
      exact h.quiet hi ⟨hmine, hholds⟩
    · obtain rfl := Option.some.inj hstep
      cases hmk6 : vars.mk6 with
      | true => exact h.quiet hi trivial
      | false =>
        obtain ⟨_, f, _, hf⟩ := hholds
        exact h.quiet hi ⟨hun hmk6, f, hf.file, hf.mountpoint⟩
  case h_11 =>
    obtain rfl := Option.some.inj hstep
    exact h.giveUp hi ⟨rfl, rfl⟩ rfl (.refl _ _) h.recorded
  case h_12 fd =>
    obtain ⟨hun, f, hf, hmp⟩ := hok
    obtain rfl := Option.some.inj hstep
    have hkeep : ∀ fd', fd' ≠ fd → (s.files.modify fd fun f => { f with linked := false })[fd']? =
        s.files[fd']? := by
      intro fd' hne
      exact List.getElem?_modify_ne _ _ hne.symm
    refine h.giveUp hi ⟨rfl, rfl⟩ rfl ⟨fun fd' f' hf' hne => ?_, fun _ _ => rfl, fun _ _ _ _ => rfl⟩
      fun r hr => ?_
    · have hfd : fd' ≠ fd := by
        rintro rfl
        exact hne ((Option.some.inj (hf.symm.trans hf')) ▸ hmp)
      exact (hkeep fd' hfd).trans hf'
    · refine (h.recorded r hr).mono fun g hg => ⟨g, ?_, rfl, List.prefix_refl _⟩
      exact (hkeep r.2 (hun r hr)).trans hg
  case h_13 fd sleeper => exact h.putBack hi hstep
  case h_14 listlength sleeper =>
    obtain ⟨hfiles, hlist⟩ := signal_disk hstep
    have hdisk : t.disk = s.disk := hfiles
    have hargs : t.args = (s.giveBack mountpoint).args := hlist
    have hsleeps : (if listlength ≤ seen.length then Writer.quit else .select c seen).sleeps = false := by
      split <;> rfl
    have hnames : (if listlength ≤ seen.length then Writer.quit else .select c seen).mountpoint? = none := by
      split <;> rfl
    refine h.update hi (others_signal hi hstep rfl hsleeps) (hdisk ▸ .refl _ _)
      (names_giveBack hi hstep hnames rfl rfl) ?_ (fun mp hmp => ?_) (fun r hr => ?_) ?_
    · split <;> trivial
    · rw [hargs] at hmp
      rcases List.mem_append.mp hmp with hold | hnew
      · exact .inl hold
      · exact .inr ⟨List.mem_singleton.mp hnew, hdisk ▸ hok⟩
    · have hrec : t.recorded = s.recorded := congrArg Disk.recorded hdisk
      rw [hrec] at hr
      rw [hdisk]
      exact h.recorded r hr
    · rw [hargs]
      exact h.plain
  case h_15 => cases hstep

/-- A step that leaves the disk alone, of a writer without a mountpoint. -/
theorem Inv.idle {w w' : Writer} (h : Inv vars s) (hi : s.writers[i]? = some w) {s' : State}
    (hs : s'.writers = s.writers) (hdisk : s'.disk = s.disk)
    (hlist : ∀ mp ∈ s'.args.filelist, mp ∈ s.args.filelist)
    (hnames : (s'.setWriter i w').names.Subperm s.names) (hw : WriterOk vars s.disk w') :
    Inv vars (s'.setWriter i w') := by
  have hself := others_set hi hs w'
  have hfdmap : s'.args.fdmap = s.args.fdmap := congrArg Disk.fdmap hdisk
  have hrec : s'.recorded = s.recorded := congrArg Disk.recorded hdisk
  have hdisk' : (s'.setWriter i w').disk = s.disk := hdisk
  have hnodup : (s'.setWriter i w').names.Nodup := by
    obtain ⟨l, hperm, hsub⟩ := hnames
    exact hperm.nodup_iff.mp (hsub.nodup h.names)
  refine ⟨hnodup, fun j v hv => ?_, fun mp hmp => ?_, fun r hr => ?_, ?_⟩
  · rw [hdisk']
    by_cases hj : j = i
    · rw [hj, hself.self] at hv
      obtain rfl := Option.some.inj hv
      exact hw
    · change (s'.writers.set i w')[j]? = some v at hv
      rw [hs, List.getElem?_set_ne (Ne.symm hj)] at hv
      exact h.writers j v hv
  · rw [hdisk']
    exact h.resting mp (hlist mp hmp)
  · change r ∈ s'.recorded at hr
    rw [hrec] at hr
    rw [hdisk']
    exact h.recorded r hr
  · show vars.mk6 = false → ∀ mp (fd : Nat), s'.args.fdmap mp ≠ some fd
    rw [hfdmap]
    exact h.plain

theorem select_inv (h : Inv vars s) (hi : s.writers[i]? = some (.select c seen)) :
    Inv vars (selectMountpoint vars s i c seen) := by
  have hnames := @select_names vars s i c seen hi
  revert hnames
  unfold selectMountpoint
  dsimp only
  split
  · exact fun hnames => h.idle hi rfl rfl (fun _ hmp => hmp) hnames trivial
  · split
    · exact fun hnames => h.idle hi rfl rfl (fun _ hmp => hmp) hnames trivial
    · rename_i mountpoint rest hcons
      have hlist : ∀ mp ∈ rest, mp ∈ s.args.filelist := by
        intro mp hmp
        rw [hcons]
        exact List.mem_cons_of_mem _ hmp
      have htake : ∀ w : Writer, WriterOk vars s.disk w →
          (({ s with args := { s.args with filelist := rest } } : State).setWriter i w).names.Subperm
            s.names →
          Inv vars (({ s with args := { s.args with filelist := rest } } : State).setWriter i w) := by
        intro w hw hnames
        exact @Inv.idle vars s i _ w h hi { s with args := { s.args with filelist := rest } } rfl rfl
          hlist hnames hw
      have hrest : AtRest vars s.disk mountpoint := by
        refine h.resting mountpoint ?_
        rw [hcons]
        exact List.mem_cons_self
      split
      · exact htake .quit trivial
      · split
        · exact htake (.holding c seen mountpoint (.seenBefore _)) hrest
        · refine htake (.holding c (mountpoint :: seen) mountpoint _) ?_
          cases hmk6 : vars.mk6 with
          | true => exact ⟨hmk6, hrest⟩
          | false => exact h.plain hmk6 mountpoint

/-- A step of any writer. -/
theorem step_inv {la : Nat × Answer} (h : Inv vars s) (hstep : step vars s la = some t)
    (ha : ∀ rv, la.2 = .wroteBlockHeader rv → rv = sizeofWbHeader) : Inv vars t := by
  have hnames := step_names hstep
  obtain ⟨i, a⟩ := la
  unfold step at hstep
  dsimp only at hstep
  split at hstep
  case h_1 hi =>
    obtain rfl := Option.some.inj hstep
    exact h.idle hi rfl rfl (fun _ hmp => hmp) hnames trivial
  case h_2 hi =>
    obtain rfl := Option.some.inj hstep
    exact h.idle hi rfl rfl (fun _ hmp => hmp) hnames trivial
  case h_3 hi =>
    obtain rfl := Option.some.inj hstep
    exact select_inv h hi
  case h_4 hi =>
    obtain rfl := Option.some.inj hstep
    exact h.idle hi rfl rfl (fun _ hmp => hmp) hnames trivial
  case h_5 hi => exact stageStep_inv h hi hstep ha
  case h_6 => cases hstep

end

/-! ## Runs -/

/-- A run in which every block header goes out whole. -/
def HeadersWhole (as : List (Nat × Answer)) : Prop :=
  ∀ a ∈ as, ∀ rv, a.2 = .wroteBlockHeader rv → rv = sizeofWbHeader

theorem initial_inv {vars : Mark6Vars} {mountpoints : List String} (hnodup : mountpoints.Nodup)
    (nwriter : Nat) : Inv vars (initial mountpoints nwriter) := by
  refine ⟨?_, fun i w hw => ?_, fun mp _ fd hfd => ?_, fun r hr => ?_, fun _ mp fd hfd => ?_⟩
  · rwa [initial_names]
  · obtain rfl := (List.mem_replicate.mp (List.mem_of_getElem? hw)).2
    trivial
  · cases hfd
  · cases hr
  · cases hfd

theorem run_inv {vars : Mark6Vars} {mountpoints : List String} {nwriter : Nat} {s t : State}
    {as : List (Nat × Answer)} (h : (parallelwriter vars mountpoints nwriter).Run s as t)
    (has : HeadersWhole as) (hinv : Inv vars s) : Inv vars t := by
  induction h with
  | refl => exact hinv
  | @snoc t u as a hrun hstep ih =>
    have hmid := ih fun b hb => has b (List.mem_append_left _ hb)
    exact step_inv hmid hstep (has a (List.mem_append_right _ (List.mem_singleton_self a)))

/-- What counts as recorded is in a file, header and all. -/
theorem recorded_stored {vars : Mark6Vars} {mountpoints : List String} {nwriter : Nat} {s : State}
    {as : List (Nat × Answer)}
    (h : (parallelwriter vars mountpoints nwriter).Run (initial mountpoints nwriter) as s)
    (hnodup : mountpoints.Nodup) (has : HeadersWhole as) :
    ∀ r ∈ s.recorded, Stored vars s.disk r.1 r.2 :=
  (run_inv h has (initial_inv hnodup nwriter)).recorded

def mark6Files : Mark6Vars := ⟨true, 0, 0⟩

def twoBytes : Chunk := ⟨"r.mk6", 0, [1, 2]⟩

/-- A writer up to its first block header, and what comes after it. -/
def untilBlockHeader : List (Nat × Answer) :=
  [(0, .popped (some twoBytes)), (0, .proceed), (0, .proceed), (0, .made true), (0, .opened true),
    (0, .chowned true), (0, .wroteFileHeader 20)]

def afterData : List (Nat × Answer) :=
  [(0, .proceed), (0, .proceed), (0, .proceed), (0, .woken none)]

theorem recorded_stored_partialWrites :
    ∃ s, (parallelwriter mark6Files ["/mnt/disk0"] 1).Run (initial ["/mnt/disk0"] 1)
        (untilBlockHeader ++ [(0, Answer.wroteBlockHeader 8), (0, Answer.wroteData 1),
          (0, Answer.wroteData 1)] ++ afterData) s ∧
      s.recorded = [(twoBytes, 0)] ∧ Stored mark6Files s.disk twoBytes 0 := by
  have hend : ((untilBlockHeader ++ [(0, Answer.wroteBlockHeader 8), (0, Answer.wroteData 1),
      (0, Answer.wroteData 1)] ++ afterData).foldlM (step mark6Files) (initial ["/mnt/disk0"] 1)).map State.recorded =
        some [(twoBytes, 0)] := by
    decide +kernel
  obtain ⟨s, hs, hrec⟩ := Option.map_eq_some_iff.mp hend
  have hrun : (parallelwriter mark6Files ["/mnt/disk0"] 1).Run _ _ s := ofFn_run hs
  refine ⟨s, hrun, hrec, recorded_stored hrun (by decide) ?_ (twoBytes, 0) (by rw [hrec]; simp)⟩
  intro a ha rv hrv
  unfold untilBlockHeader afterData at ha
  obtain ⟨j, b⟩ := a
  obtain rfl : b = .wroteBlockHeader rv := hrv
  simp only [List.cons_append, List.nil_append, List.mem_cons, Prod.mk.injEq, reduceCtorEq, and_false,
    Answer.wroteBlockHeader.injEq, List.not_mem_nil, or_false, false_or] at ha
  exact ha.2

/-- The write of the block header fails, and the chunk counts as recorded. No
file has room for it. -/
theorem recorded_without_data :
    ∃ s : State, (parallelwriter mark6Files ["/mnt/disk0"] 1).Run (initial ["/mnt/disk0"] 1)
        (untilBlockHeader ++ [(0, Answer.wroteBlockHeader (-1))] ++ afterData) s ∧
      (twoBytes, 0) ∈ s.recorded ∧ ∀ fd, ¬ Stored mark6Files s.disk twoBytes fd := by
  have hend : ((untilBlockHeader ++ [(0, Answer.wroteBlockHeader (-1))] ++ afterData).foldlM
      (step mark6Files) (initial ["/mnt/disk0"] 1)).map
        (fun s : State => (s.recorded, s.files.map fun f : File => f.contents.length)) =
          some ([(twoBytes, 0)], [20]) := by
    decide +kernel
  obtain ⟨s, hs, hst⟩ := Option.map_eq_some_iff.mp hend
  obtain ⟨hrec, hlen⟩ := Prod.mk.inj hst
  refine ⟨s, ofFn_run hs, by rw [hrec]; exact List.mem_singleton_self _, ?_⟩
  intro fd hstored
  obtain ⟨f, head, before, after, hf, -, hhead, hcontents⟩ := hstored
  obtain ⟨c, rfl⟩ : ∃ c : Chunk, head = (c.fileHeader mark6Files).bytes := hhead
  have hmem : f.contents.length ∈ s.files.map fun f : File => f.contents.length :=
    List.mem_map_of_mem (List.mem_of_getElem? hf)
  rw [hlen, List.mem_singleton, hcontents] at hmem
  have hblock : (twoBytes.block mark6Files).length = 10 := by decide
  simp only [List.length_append, length_fileHeader, hblock, sizeofFileHeader] at hmem
  omega

end Jive5ab.Recorder
