import Mathlib.Data.List.Nodup
import Jive5ab.Recorder.Durability
import Jive5ab.Vbs.Mark6Scan

/-! # What was recorded can be read back

As long as neither a block header nor data fails to be written, a file that
nobody is busy with is a header and the chunks recorded in it, or too short to
be looked at. Scanning such files finds every chunk once. A data write that
fails leaves its block where it is, and the scan finds that, too. -/
namespace Jive5ab.Recorder
open Lib

/-! ## Every file is accounted for -/

def Stage.fd? : Stage → Option Nat
  | .chown fd | .fileHeader fd | .blockHeader fd | .putBack fd | .markBadUnlink fd => some fd
  | .data fd _ | .close fd _ | .inspect fd _ => some fd
  | .lookup | .mkpath | .opening | .markBad | .seenBefore _ => none

def Writer.fd? : Writer → Option Nat
  | .holding _ _ _ stage => stage.fd?
  | _ => none

/-- No data was left out before the file is looked at. -/
def Writer.Whole : Writer → Prop
  | .holding c _ _ (.close _ n) | .holding c _ _ (.inspect _ n) => n = c.data.length
  | .holding _ _ _ (.markBadUnlink _) => False
  | _ => True

/-- A header and the chunks recorded so far, or not even a header. -/
def Settled (vars : Mark6Vars) (d : Disk) (fd : Nat) : Prop :=
  ∃ f, d.files[fd]? = some f ∧
    ((∃ head, IsHead vars head ∧ f.contents = head ++ d.layout vars fd) ∨
      f.contents.length < sizeofFileHeader ∧ d.unrecorded fd)

structure Accounted (vars : Mark6Vars) (s : State) : Prop where
  files : ∀ fd, fd < s.files.length → Settled vars s.disk fd ∨ ∃ w ∈ s.writers, w.fd? = some fd
  whole : ∀ w ∈ s.writers, w.Whole

/-- A file is as it was, and so is what is recorded in it. -/
structure SameFile (d e : Disk) (fd : Nat) : Prop where
  file : e.files[fd]? = d.files[fd]?
  recorded : (e.recorded.filter fun r => r.2 = fd) = d.recorded.filter fun r => r.2 = fd

theorem unrecorded_iff {d : Disk} {fd : Nat} :
    d.unrecorded fd ↔ (d.recorded.filter fun r => r.2 = fd) = [] := by
  rw [List.filter_eq_nil_iff]
  simp [Disk.unrecorded]

theorem Settled.same {vars : Mark6Vars} {d e : Disk} {fd : Nat} (h : Settled vars d fd)
    (hsame : SameFile d e fd) : Settled vars e fd := by
  obtain ⟨f, hf, hcontents⟩ := h
  refine ⟨f, hsame.file.trans hf, ?_⟩
  unfold Disk.layout at hcontents ⊢
  rwa [unrecorded_iff, hsame.recorded, ← unrecorded_iff]

/-! ## Steps -/

section
variable {vars : Mark6Vars} {s t : State} {i : Nat} {c : Chunk} {seen : List String}
  {mountpoint : String} {stage : Stage}

theorem fd?_wake (w : Writer) : w.wake.fd? = w.fd? := by cases w <;> rfl

theorem whole_wake {w : Writer} (h : w.Whole) : w.wake.Whole := by
  cases w with
  | asleep => trivial
  | _ => exact h

/-- What is left to show of a step: about the writer's file before and after it,
and that the others are the same. -/
theorem Accounted.update {w w' : Writer} (h : Accounted vars s) (hi : s.writers[i]? = some w)
    (hothers : Others s t i w') (hw' : w'.Whole)
    (hown : ∀ fd, w.fd? = some fd → w'.fd? = some fd ∨ Settled vars t.disk fd)
    (hsame : ∀ fd, fd < t.files.length → w.fd? ≠ some fd → w'.fd? ≠ some fd →
      fd < s.files.length ∧ SameFile s.disk t.disk fd) : Accounted vars t := by
  refine ⟨fun fd hfd => ?_, fun v hv => ?_⟩
  · by_cases hafter : w'.fd? = some fd
    · exact .inr ⟨w', List.mem_of_getElem? hothers.self, hafter⟩
    by_cases hbefore : w.fd? = some fd
    · exact .inl ((hown fd hbefore).resolve_left hafter)
    obtain ⟨hold, hfile⟩ := hsame fd hfd hbefore hafter
    rcases h.files fd hold with hsettled | ⟨v, hv, hbusy⟩
    · exact .inl (hsettled.same hfile)
    · obtain ⟨j, hj⟩ := List.getElem?_of_mem hv
      have hji : j ≠ i := by
        intro heq
        rw [heq, hi] at hj
        obtain rfl := Option.some.inj hj
        exact hbefore hbusy
      rcases hothers.others j hji with hkept | hwoken
      · exact .inr ⟨v, List.mem_of_getElem? (hkept.trans hj), hbusy⟩
      · rw [hj] at hwoken
        exact .inr ⟨v.wake, List.mem_of_getElem? hwoken, (fd?_wake v).trans hbusy⟩
  · obtain ⟨j, hj⟩ := List.getElem?_of_mem hv
    by_cases hji : j = i
    · rw [hji, hothers.self] at hj
      obtain rfl := Option.some.inj hj
      exact hw'
    · rcases hothers.others j hji with hkept | hwoken
      · exact h.whole v (List.mem_of_getElem? (hkept.symm.trans hj))
      · rw [hj] at hwoken
        obtain ⟨v', hv', rfl⟩ := Option.map_eq_some_iff.mp hwoken.symm
        exact whole_wake (h.whole v' (List.mem_of_getElem? hv'))

/-- Nothing happens to any file, and the writer keeps the one it has. -/
theorem Accounted.quiet {w w' : Writer} (h : Accounted vars s) (hi : s.writers[i]? = some w)
    (hothers : Others s t i w') (hdisk : t.disk = s.disk) (hw' : w'.Whole)
    (hown : ∀ fd, w.fd? = some fd → w'.fd? = some fd) : Accounted vars t := by
  have hfiles : t.files = s.files := congrArg Disk.files hdisk
  refine h.update hi hothers hw' (fun fd hfd => .inl (hown fd hfd)) fun fd hfd _ _ => ?_
  rw [hdisk]
  exact ⟨hfiles ▸ hfd, rfl, rfl⟩

/-- A write to the writer's file. -/
theorem Accounted.write {fd : Nat} {bytes : List UInt8} {rv : Int} {stage' : Stage}
    (h : Accounted vars s) (hi : s.writers[i]? = some (.holding c seen mountpoint stage))
    (hfd : stage.fd? = some fd) (hw : (Writer.holding c seen mountpoint stage').Whole)
    (hown : stage'.fd? = some fd ∨ Settled vars (s.append fd bytes rv).disk fd) :
    Accounted vars ((s.append fd bytes rv).setWriter i (.holding c seen mountpoint stage')) := by
  have hothers : Others s ((s.append fd bytes rv).setWriter i (.holding c seen mountpoint stage')) i
      (.holding c seen mountpoint stage') := others_set hi (by rfl) _
  refine h.update hi hothers hw (fun fd' hfd' => ?_) fun fd' hlt hne _ => ?_
  · obtain rfl : fd = fd' := Option.some.inj (hfd.symm.trans hfd')
    exact hown
  · have hdiff : fd ≠ fd' := by
      rintro rfl
      exact hne hfd
    change fd' < (s.files.modify fd _).length at hlt
    rw [List.length_modify] at hlt
    exact ⟨hlt, List.getElem?_modify_ne _ _ hdiff, rfl⟩

/-- The chunk is recorded, and its file at rest. -/
theorem Accounted.putBack (h : Accounted vars s) (hinv : Inv vars s) {fd : Nat}
    (hi : s.writers[i]? = some (.holding c seen mountpoint (.putBack fd))) {sleeper : Option Nat}
    (hstep : (((s.giveBack mountpoint).record mountpoint (if vars.mk6 then fd else -1) c fd).setWriter
      i .idle).signal sleeper = some t) : Accounted vars t := by
  obtain ⟨-, head, f, hhead, hf⟩ := hinv.writers i _ hi
  obtain ⟨hdisk, -⟩ := signal_disk hstep
  have hfiles : t.files = s.files := congrArg Disk.files hdisk
  have hrec : t.recorded = s.recorded ++ [(c, fd)] := congrArg Disk.recorded hdisk
  have hothers : Others s t i .idle := others_signal hi hstep rfl rfl
  refine h.update hi hothers trivial (fun fd' hfd => .inr ?_) fun fd' hlt hne _ => ?_
  · obtain rfl : fd = fd' := Option.some.inj hfd
    rw [hdisk]
    refine ⟨f, hf.file, .inl ⟨head, hhead, ?_⟩⟩
    refine hf.contents.trans ?_
    rw [List.append_assoc]
    congr 1
    exact (layout_record (s.giveBack mountpoint) _ fd).symm
  · have hdiff : ¬ fd = fd' := by
      rintro rfl
      exact hne rfl
    refine ⟨hfiles ▸ hlt, by rw [hdisk]; rfl, ?_⟩
    show (t.recorded.filter _) = _
    rw [hrec, List.filter_append, List.filter_singleton, decide_eq_false hdiff]
    exact List.append_nil _

/-- A write that does not lose anything of a block. -/
def WritesBlock : Answer → Prop
  | .wroteBlockHeader rv => rv = sizeofWbHeader
  | .wroteData rv => 0 < rv
  | _ => True

instance (a : Answer) : Decidable (WritesBlock a) := by
  unfold WritesBlock
  split <;> infer_instance

theorem stageStep_accounted {a : Answer} (h : Accounted vars s) (hinv : Inv vars s)
    (hmk6 : vars.mk6 = true) (hi : s.writers[i]? = some (.holding c seen mountpoint stage))
    (hstep : stageStep vars s i c seen mountpoint stage a = some t) (ha : WritesBlock a) :
    Accounted vars t := by
  have hok : StageOk vars s.disk c mountpoint stage := hinv.writers i _ hi
  have hwhole : (Writer.holding c seen mountpoint stage).Whole :=
    h.whole _ (List.mem_of_getElem? hi)
  unfold stageStep at hstep
  dsimp only at hstep
  split at hstep
  case h_1 =>
    split at hstep <;> obtain rfl := Option.some.inj hstep
    · exact h.quiet hi (others_set hi rfl _) rfl trivial fun _ hfd => nomatch hfd
    · exact h.quiet hi (others_set hi rfl _) rfl trivial fun _ hfd => nomatch hfd
  case h_2 ok =>
    obtain rfl := Option.some.inj hstep
    refine h.quiet hi (others_set hi rfl _) rfl ?_ fun _ hfd => nomatch hfd
    cases ok <;> trivial
  case h_3 ok =>
    cases ok with
    | true =>
      rw [if_pos rfl] at hstep
      split at hstep
      · cases hstep
      · obtain rfl := Option.some.inj hstep
        have hothers : Others s ({ s with files := s.files ++
            [File.mk mountpoint (mountpoint ++ "/" ++ c.fileName) [] true] }.setWriter i
              (.holding c seen mountpoint (.chown s.files.length))) i
                (.holding c seen mountpoint (.chown s.files.length)) := others_set hi (by rfl) _
        refine h.update hi hothers trivial (fun _ hfd => nomatch hfd) fun fd hlt _ hne => ?_
        change fd < (s.files ++ [_]).length at hlt
        rw [List.length_append, List.length_singleton] at hlt
        have hdiff : fd ≠ s.files.length := by
          rintro rfl
          exact hne rfl
        have hold : fd < s.files.length := by omega
        exact ⟨hold, List.getElem?_append_left hold, rfl⟩
    | false =>
      obtain rfl := Option.some.inj hstep
      exact h.quiet hi (others_set hi rfl _) rfl trivial fun _ hfd => nomatch hfd
  case h_4 fd ok =>
    cases ok with
    | true =>
      rw [if_pos rfl, if_pos hmk6] at hstep
      obtain rfl := Option.some.inj hstep
      exact h.quiet hi (others_set hi rfl _) rfl trivial fun _ hfd => hfd
    | false =>
      obtain ⟨-, hun, f, hf⟩ := hok
      obtain rfl := Option.some.inj hstep
      have hothers : Others s (s.setWriter i .threw) i .threw := others_set hi rfl _
      refine h.update hi hothers trivial (fun fd' hfd => .inr ?_) fun fd' hlt _ _ =>
        ⟨hlt, rfl, rfl⟩
      obtain rfl : fd = fd' := Option.some.inj hfd
      exact ⟨f, hf.file, .inr ⟨by rw [hf.contents]; decide, hun⟩⟩
  case h_5 fd rv =>
    obtain ⟨-, -, hun, f, hf⟩ := hok
    split at hstep
    · rename_i hfits
      obtain rfl := Option.some.inj hstep
      refine h.write hi rfl ?_ ?_
      · split <;> trivial
      · split
        · exact .inl rfl
        · rename_i hshort
          refine .inr ⟨_, append_file hf.file, .inr ⟨?_, hun⟩⟩
          rw [if_pos rfl, hf.contents, List.nil_append, List.length_take, length_fileHeader]
          unfold writeReturns at hfits
          unfold sizeofFileHeader at hfits hshort ⊢
          omega
    · cases hstep
  case h_6 fd rv =>
    split at hstep
    · obtain rfl := Option.some.inj hstep
      exact h.write hi rfl trivial (.inl rfl)
    · cases hstep
  case h_7 fd n rv =>
    split at hstep
    · obtain rfl := Option.some.inj hstep
      have hmore : ¬ rv ≤ 0 := Int.not_le.mpr ha
      rw [if_neg hmore]
      exact h.write hi rfl trivial (.inl rfl)
    · cases hstep
  case h_8 fd n =>
    split at hstep
    · cases hstep
    · rename_i hdone
      obtain rfl := Option.some.inj hstep
      have hall : n = c.data.length := Nat.le_antisymm hok.2.1 (Nat.le_of_not_lt hdone)
      exact h.quiet hi (others_set hi rfl _) rfl hall fun _ hfd => hfd
  case h_9 fd n =>
    obtain rfl := Option.some.inj hstep
    exact h.quiet hi (others_set hi rfl _) rfl hwhole fun _ hfd => hfd
  case h_10 fd n =>
    have hall : n = c.data.length := hwhole
    rw [if_pos hall] at hstep
    obtain rfl := Option.some.inj hstep
    exact h.quiet hi (others_set hi rfl _) rfl trivial fun _ hfd => hfd
  case h_11 =>
    obtain rfl := Option.some.inj hstep
    exact h.quiet hi (others_markBad hi rfl) rfl trivial fun _ hfd => nomatch hfd
  case h_12 fd => exact hwhole.elim
  case h_13 fd sleeper => exact h.putBack hinv hi hstep
  case h_14 listlength sleeper =>
    have hsleeps : (if listlength ≤ seen.length then Writer.quit else .select c seen).sleeps = false := by
      split <;> rfl
    refine h.quiet hi (others_signal hi hstep rfl hsleeps) (signal_disk hstep).1 ?_
      fun _ hfd => nomatch hfd
    split <;> trivial
  case h_15 => cases hstep

theorem select_accounted (h : Accounted vars s) (hi : s.writers[i]? = some (.select c seen)) :
    Accounted vars (selectMountpoint vars s i c seen) := by
  have hquiet : ∀ (s' : State) (w : Writer), s'.writers = s.writers → s'.disk = s.disk → w.Whole →
      Accounted vars (s'.setWriter i w) := by
    intro s' w hs hdisk hw
    exact h.quiet hi (others_set hi hs w) hdisk hw fun _ hfd => nomatch hfd
  unfold selectMountpoint
  dsimp only
  split
  · exact hquiet s _ rfl rfl trivial
  · split
    · exact hquiet s _ rfl rfl trivial
    · rename_i rest _
      split
      · exact hquiet { s with args := { s.args with filelist := rest } } _ rfl rfl trivial
      · split
        · exact hquiet { s with args := { s.args with filelist := rest } } _ rfl rfl trivial
        · refine hquiet { s with args := { s.args with filelist := rest } } _ rfl rfl ?_
          cases vars.mk6 <;> trivial

theorem step_accounted {la : Nat × Answer} (h : Accounted vars s) (hinv : Inv vars s)
    (hmk6 : vars.mk6 = true) (hstep : step vars s la = some t) (ha : WritesBlock la.2) :
    Accounted vars t := by
  obtain ⟨i, a⟩ := la
  unfold step at hstep
  dsimp only at hstep
  split at hstep
  case h_1 hi | h_2 hi | h_4 hi =>
    obtain rfl := Option.some.inj hstep
    exact h.quiet hi (others_set hi rfl _) rfl trivial fun _ hfd => nomatch hfd
  case h_3 hi =>
    obtain rfl := Option.some.inj hstep
    exact select_accounted h hi
  case h_5 hi => exact stageStep_accounted h hinv hmk6 hi hstep ha
  case h_6 => cases hstep

end

/-! ## Runs -/

theorem initial_accounted {vars : Mark6Vars} (mountpoints : List String) (nwriter : Nat) :
    Accounted vars (initial mountpoints nwriter) := by
  refine ⟨fun fd hfd => absurd hfd (Nat.not_lt_zero _), fun w hw => ?_⟩
  obtain rfl := (List.mem_replicate.mp hw).2
  trivial

theorem headersWhole {as : List (Nat × Answer)} (has : ∀ a ∈ as, WritesBlock a.2) :
    HeadersWhole as := by
  intro a ha rv hrv
  have hwrites := has a ha
  rw [hrv] at hwrites
  exact hwrites

theorem run_accounted {vars : Mark6Vars} {mountpoints : List String} {nwriter : Nat} {s t : State}
    {as : List (Nat × Answer)} (h : (parallelwriter vars mountpoints nwriter).Run s as t)
    (hmk6 : vars.mk6 = true) (has : ∀ a ∈ as, WritesBlock a.2) (hinv : Inv vars s)
    (hacc : Accounted vars s) : Accounted vars t := by
  induction h with
  | refl => exact hacc
  | @snoc t u as a hrun hstep ih =>
    have hbefore : ∀ b ∈ as, WritesBlock b.2 := fun b hb => has b (List.mem_append_left _ hb)
    have hmid := run_inv hrun (headersWhole hbefore) hinv
    exact step_accounted (ih hbefore) hmid hmk6 hstep
      (has a (List.mem_append_right _ (List.mem_singleton_self a)))

/-- When nobody is busy all files are done. -/
theorem run_settled {vars : Mark6Vars} {mountpoints : List String} {nwriter : Nat} {s : State}
    {as : List (Nat × Answer)}
    (h : (parallelwriter vars mountpoints nwriter).Run (initial mountpoints nwriter) as s)
    (hmk6 : vars.mk6 = true) (hnodup : mountpoints.Nodup) (has : ∀ a ∈ as, WritesBlock a.2)
    (hdone : ∀ w ∈ s.writers, w.holds = false) {fd : Nat} (hfd : fd < s.files.length) :
    Settled vars s.disk fd := by
  have hacc := run_accounted h hmk6 has (initial_inv hnodup nwriter) (initial_accounted _ _)
  rcases hacc.files fd hfd with hsettled | ⟨w, hw, hbusy⟩
  · exact hsettled
  · have hidle := hdone w hw
    cases w with
    | holding => cases hidle
    | _ => cases hbusy

/-! ## Scanning the files -/

/-- The chunks recorded in a file. -/
def Disk.recordedIn (d : Disk) (fd : Nat) : List Chunk :=
  (d.recorded.filter fun r => r.2 = fd).map Prod.fst

theorem layout_eq {vars : Mark6Vars} (hmk6 : vars.mk6 = true) (d : Disk) (fd : Nat) :
    d.layout vars fd = (d.recordedIn fd).flatMap Vbs.wbBlock := by
  unfold Disk.layout Disk.recordedIn
  rw [List.flatMap_map]
  refine List.flatMap_congr fun r _ => ?_
  unfold Chunk.block Chunk.prologue Vbs.wbBlock
  rw [if_pos hmk6]

/-- A list sorted into drawers. -/
theorem flatMap_filter_perm {α : Type} (l : List α) (f : α → Nat) (n : Nat) :
    ((List.range n).flatMap fun i => l.filter fun x => f x = i).Perm
      (l.filter fun x => f x < n) := by
  induction n with
  | zero =>
    have hnone : (l.filter fun x => f x < 0) = [] := List.filter_eq_nil_iff.mpr (by simp)
    rw [hnone]
    exact .refl _
  | succ n ih =>
    rw [List.range_succ, List.flatMap_append, List.flatMap_singleton]
    refine (ih.append_right _).trans ?_
    have hsplit := List.filter_append_perm (fun x => decide (f x < n)) (l.filter fun x => f x < n + 1)
    rw [List.filter_filter, List.filter_filter] at hsplit
    refine .trans (.of_eq ?_) hsplit
    congr 1
    · refine List.filter_congr fun x _ => ?_
      rw [Bool.eq_iff_iff]
      simp only [decide_eq_true_eq, Bool.and_eq_true]
      omega
    · refine List.filter_congr fun x _ => ?_
      rw [Bool.eq_iff_iff]
      simp only [decide_eq_true_eq, Bool.and_eq_true, Bool.not_eq_true', decide_eq_false_iff_not]
      omega

theorem recordedIn_flatMap {d : Disk} {n : Nat} (h : ∀ r ∈ d.recorded, r.2 < n) :
    ((List.range n).flatMap d.recordedIn).Perm (d.recorded.map Prod.fst) := by
  have hall : (d.recorded.filter fun r => r.2 < n) = d.recorded :=
    List.filter_eq_self.mpr fun r hr => decide_eq_true (h r hr)
  have hperm := flatMap_filter_perm d.recorded Prod.snd n
  rw [hall] at hperm
  have hmap := hperm.map Prod.fst
  rwa [List.map_flatMap] at hmap

/-- A file header that was written whole is recognized. -/
theorem isMk6File_header {vars : Mark6Vars} (c : Chunk) (rest : List UInt8) :
    Vbs.isMk6File ((c.fileHeader vars).bytes ++ rest) = true := by
  have hlen : (slice ((c.fileHeader vars).bytes ++ rest) 0 sizeofFileHeader).length =
      sizeofFileHeader := by
    rw [length_slice, List.length_append, length_fileHeader]
    omega
  obtain ⟨more, hmore⟩ : ∃ more, (c.fileHeader vars).bytes ++ rest =
      toBytes 4 mark6SgSyncWord ++ (toBytes 4 2 ++ more) := by
    refine ⟨toBytes 4 (c.fileHeader vars).blockSize.toNat ++
      (toBytes 4 (c.fileHeader vars).packetFormat.toNat ++
        (toBytes 4 (c.fileHeader vars).packetSize.toNat ++ rest)), ?_⟩
    simp only [Mk6FileHeader.bytes, List.append_assoc]
    rfl
  have hsync := @Vbs.word32_toBytes _ [] _ mark6SgSyncWord 0 hmore rfl
  have hversion := @Vbs.word32_toBytes _ _ _ 2 4 hmore (length_toBytes ..).symm
  unfold Vbs.isMk6File
  rw [hlen, hsync, hversion]
  decide

/-- A settled file gives the chunks that were recorded in it. -/
theorem scan_settled {vars : Mark6Vars} (hmk6 : vars.mk6 = true) {d : Disk} {n : Nat}
    (h : Settled vars d n) (hadm : ∀ r ∈ d.recorded, Vbs.Admissible r.1)
    (hnodup : ((d.recordedIn n).map fun c => c.chunkSequenceNr.toNat).Nodup) (fd datastreamid : Nat) :
    ∃ f, d.files[n]? = some f ∧
      Vbs.scanMk6RecordingFile f.contents fd datastreamid =
        some (Vbs.scan (Vbs.blocksFrom fd datastreamid sizeofFileHeader (d.recordedIn n))) ∧
      (d.recordedIn n ≠ [] → Vbs.isMk6File f.contents = true ∧
        ∃ head, head.length = sizeofFileHeader ∧
          f.contents = head ++ (d.recordedIn n).flatMap Vbs.wbBlock) := by
  obtain ⟨f, hf, hcontents⟩ := h
  refine ⟨f, hf, ?_⟩
  rcases hcontents with ⟨head, hhead, hcontents⟩ | ⟨hshort, hun⟩
  · unfold IsHead at hhead
    rw [if_pos hmk6] at hhead
    obtain ⟨c, rfl⟩ := hhead
    rw [layout_eq hmk6] at hcontents
    have hmk6File : Vbs.isMk6File f.contents = true := by
      rw [hcontents]
      exact isMk6File_header c _
    refine ⟨?_, fun _ => ⟨hmk6File, _, length_fileHeader c, hcontents⟩⟩
    have hrecorded : ∀ b ∈ d.recordedIn n, Vbs.Admissible b := by
      intro b hb
      obtain ⟨r, hr, rfl⟩ := List.mem_map.mp hb
      exact hadm r (List.mem_filter.mp hr).1
    have hdistinct : Vbs.Distinct ([] ++ Vbs.blocksFrom fd datastreamid
        (c.fileHeader vars).bytes.length (d.recordedIn n)) := by
      unfold Vbs.Distinct
      rwa [List.nil_append, Vbs.blocksFrom_numbers]
    have hscan := Vbs.scanBlocks_blocks hrecorded hcontents hdistinct
    rw [length_fileHeader] at hscan
    unfold Vbs.scanMk6RecordingFile
    rw [if_pos hmk6File]
    exact hscan
  · have hnone : d.recordedIn n = [] := by
      unfold Disk.recordedIn
      rw [unrecorded_iff.mp hun]
      rfl
    refine ⟨?_, fun hsome => absurd hnone hsome⟩
    have hno : Vbs.isMk6File f.contents = false := by
      have hlen : ((slice f.contents 0 sizeofFileHeader).length == sizeofFileHeader) = false := by
        rw [length_slice, beq_eq_false_iff_ne]
        omega
      unfold Vbs.isMk6File
      rw [hlen]
      rfl
    unfold Vbs.scanMk6RecordingFile
    rw [hno, hnone]
    rfl

/-! ## All files together -/

/-- The files in the order in which they are scanned, with what the scan gets for
them: a descriptor and the number of the data stream. -/
def scanned (s : State) (fds datastreamids : Nat → Nat) (order : List Nat) : List Vbs.Mk6File :=
  order.map fun n => ⟨(s.files[n]?.map File.path).getD "", fds n, datastreamids n⟩

/-- The files are on disk, and the Mark6 files among them open. -/
structure OnDisk (s : State) (k : Vbs.Kernel) (fds : Nat → Nat) : Prop where
  content : ∀ (n : Nat) f, s.files[n]? = some f → k.content f.path = f.contents
  opened : ∀ (n : Nat) f, s.files[n]? = some f → Vbs.isMk6File f.contents = true →
    0 < fds n ∧ (fds n : Int) < Vbs.invalidFileDescriptor ∧
      ∃ d, k.table (fds n) = some d ∧ d.file = f.path

section
variable {vars : Mark6Vars} {s : State} {k : Vbs.Kernel} {fds datastreamids : Nat → Nat}
  {order : List Nat} {blocks : List Chunk}

/-- What the scan finds in a file. -/
def foundIn (s : State) (fds datastreamids : Nat → Nat) (n : Nat) : List Vbs.FileChunk :=
  Vbs.scan (Vbs.blocksFrom (fds n) (datastreamids n) sizeofFileHeader (s.disk.recordedIn n))

theorem recordedIn_nodup (hperm : blocks.Perm (s.recorded.map Prod.fst))
    (hsorted : blocks.Pairwise fun a b => a.chunkSequenceNr.toNat < b.chunkSequenceNr.toNat) (n : Nat) :
    ((s.disk.recordedIn n).map fun c => c.chunkSequenceNr.toNat).Nodup := by
  have hblocks : (blocks.map fun c => c.chunkSequenceNr.toNat).Nodup :=
    List.pairwise_map.mpr (hsorted.imp Nat.ne_of_lt)
  have hall : ((s.recorded.map Prod.fst).map fun c => c.chunkSequenceNr.toNat).Nodup :=
    ((hperm.map _).nodup_iff).mp hblocks
  refine hall.sublist ?_
  exact (List.filter_sublist.map Prod.fst).map _

theorem foundIn_perm {n : Nat}
    (hnodup : ((s.disk.recordedIn n).map fun c => c.chunkSequenceNr.toNat).Nodup) :
    (foundIn s fds datastreamids n).Perm
      (Vbs.blocksFrom (fds n) (datastreamids n) sizeofFileHeader (s.disk.recordedIn n)) := by
  refine Vbs.scan_perm ?_
  unfold Vbs.Distinct
  rwa [Vbs.blocksFrom_numbers]

/-- Every file gives the chunks recorded in it, as they were written. -/
theorem foundIn_view (hdisk : OnDisk s k fds) {n : Nat} {f : File} (hf : s.files[n]? = some f)
    (hfile : s.disk.recordedIn n ≠ [] → Vbs.isMk6File f.contents = true ∧
      ∃ head, head.length = sizeofFileHeader ∧
        f.contents = head ++ (s.disk.recordedIn n).flatMap Vbs.wbBlock)
    (hnodup : ((s.disk.recordedIn n).map fun c => c.chunkSequenceNr.toNat).Nodup) :
    ((foundIn s fds datastreamids n).map fun c => (c.chunkNumber, Vbs.payload k c, c.chunkSize)).Perm
        ((s.disk.recordedIn n).map fun c => (c.chunkSequenceNr.toNat, c.data, c.data.length)) ∧
      ∀ c ∈ foundIn s fds datastreamids n, Vbs.Scanned k c ∧ c.chunkFd < 0 := by
  have hperm := @foundIn_perm s fds datastreamids n hnodup
  by_cases hempty : s.disk.recordedIn n = []
  · rw [hempty] at hperm ⊢
    obtain hnone : foundIn s fds datastreamids n = [] := hperm.eq_nil
    rw [hnone]
    exact ⟨.refl _, fun _ hc => nomatch hc⟩
  · obtain ⟨hmk6File, head, hhead, hcontents⟩ := hfile hempty
    obtain ⟨hfd, hmax, d, hd, hpath⟩ := hdisk.opened n f hf hmk6File
    have hcontent : k.content d.file = f.contents := hpath ▸ hdisk.content n f hf
    have hview := @Vbs.blocksFrom_view k _ head (fds n) (datastreamids n) d hfd hd hcontent _ hcontents
    have hscanned := @Vbs.blocksFrom_scanned k _ head (fds n) (datastreamids n) d hfd hmax hd hcontent
      _ hcontents
    rw [hhead] at hview hscanned
    refine ⟨?_, fun c hc => ?_⟩
    · rw [← hview]
      exact hperm.map _
    · have hmem := hperm.subset hc
      refine ⟨hscanned c hmem, ?_⟩
      rw [Vbs.blocksFrom_chunkFd _ _ _ _ c hmem]
      omega

/-- Two lists of numbered data that are the same but for their order, both in
order of the numbers. -/
theorem sorted_unique {l m : List (Nat × List UInt8)} (hperm : l.Perm m)
    (hl : l.Pairwise fun a b => a.1 ≤ b.1) (hm : m.Pairwise fun a b => a.1 < b.1) : l = m := by
  have hnodup : (m.map Prod.fst).Nodup := List.pairwise_map.mpr (hm.imp Nat.ne_of_lt)
  refine List.Perm.eq_of_pairwise (fun a b ha hb hab hba => ?_) hl (hm.imp Nat.le_of_lt) hperm
  exact List.inj_on_of_nodup_map hnodup (hperm.subset ha) hb (Nat.le_antisymm hab hba)

/-- The scan of all files: every recorded chunk once, in order of the numbers. -/
theorem scan_recorded (hmk6 : vars.mk6 = true) (hdisk : OnDisk s k fds)
    (hsettled : ∀ n, n < s.files.length → Settled vars s.disk n)
    (hfiles : ∀ r ∈ s.recorded, r.2 < s.files.length)
    (hadm : ∀ r ∈ s.recorded, Vbs.Admissible r.1) (hperm : blocks.Perm (s.recorded.map Prod.fst))
    (hsorted : blocks.Pairwise fun a b => a.chunkSequenceNr.toNat < b.chunkSequenceNr.toNat)
    (horder : order.Perm (List.range s.files.length)) :
    ∃ fcs, Vbs.scanMk6Recording k (scanned s fds datastreamids order) = some fcs ∧
      Vbs.contents k fcs = blocks.map Chunk.data ∧ ∀ c ∈ fcs, Vbs.Scanned k c ∧ c.chunkFd < 0 := by
  have hnodup := recordedIn_nodup hperm hsorted
  have hin : ∀ n ∈ order, n < s.files.length := fun n hn =>
    List.mem_range.mp (horder.subset hn)
  have hfile : ∀ n ∈ order,
      ((foundIn s fds datastreamids n).map fun c => (c.chunkNumber, Vbs.payload k c, c.chunkSize)).Perm
          ((s.disk.recordedIn n).map fun c => (c.chunkSequenceNr.toNat, c.data, c.data.length)) ∧
        ∀ c ∈ foundIn s fds datastreamids n, Vbs.Scanned k c ∧ c.chunkFd < 0 := by
    intro n hn
    obtain ⟨f, hf, -, hparts⟩ := scan_settled hmk6 (hsettled n (hin n hn)) hadm (hnodup n) (fds n)
      (datastreamids n)
    exact foundIn_view hdisk hf hparts (hnodup n)
  have hscan : Vbs.scanMk6Recording k (scanned s fds datastreamids order) =
      some (Vbs.scan (order.flatMap (foundIn s fds datastreamids))) := by
    refine Vbs.scanMk6Recording_eq fun n hn => ?_
    obtain ⟨f, hf, hscan, -⟩ := scan_settled hmk6 (hsettled n (hin n hn)) hadm (hnodup n) (fds n)
      (datastreamids n)
    change s.files[n]? = some f at hf
    dsimp only
    rw [hf, Option.map_some, Option.getD_some, hdisk.content n f hf]
    exact hscan
  have hview : ((order.flatMap (foundIn s fds datastreamids)).map fun c =>
      (c.chunkNumber, Vbs.payload k c)).Perm
        (blocks.map fun c => (c.chunkSequenceNr.toNat, c.data)) := by
    have hparts : (order.flatMap fun n => (foundIn s fds datastreamids n).map fun c =>
        (c.chunkNumber, Vbs.payload k c)).Perm
          (order.flatMap fun n => (s.disk.recordedIn n).map fun c => (c.chunkSequenceNr.toNat, c.data)) := by
      refine .flatMap_left _ fun n hn => ?_
      have hpairs := (hfile n hn).1.map fun t => (t.1, t.2.1)
      rwa [List.map_map, List.map_map] at hpairs
    rw [List.map_flatMap]
    refine hparts.trans ((horder.flatMap_right _).trans ?_)
    rw [← List.map_flatMap]
    exact ((recordedIn_flatMap hfiles).trans hperm.symm).map _
  have hdistinct : Vbs.Distinct (order.flatMap (foundIn s fds datastreamids)) := by
    have hnumbers := hview.map Prod.fst
    rw [List.map_map, List.map_map] at hnumbers
    exact hnumbers.nodup_iff.mpr (List.pairwise_map.mpr (hsorted.imp Nat.ne_of_lt))
  have hscanPerm := Vbs.scan_perm hdistinct
  have hnumbered : ((Vbs.scan (order.flatMap (foundIn s fds datastreamids))).map fun c =>
      (c.chunkNumber, Vbs.payload k c)) = blocks.map fun c => (c.chunkSequenceNr.toNat, c.data) := by
    refine sorted_unique ((hscanPerm.map _).trans hview) ?_ (List.pairwise_map.mpr hsorted)
    refine List.pairwise_map.mpr ((Vbs.scan_sorted_mem _).1.imp fun {a b} hlt => ?_)
    unfold Vbs.FileChunk.lt at hlt
    split at hlt
    · rename_i heq
      exact Nat.le_of_eq heq
    · exact Nat.le_of_lt (of_decide_eq_true hlt)
  refine ⟨_, hscan, ?_, fun c hc => ?_⟩
  · have hpayloads := congrArg (List.map Prod.snd) hnumbered
    rw [List.map_map, List.map_map] at hpayloads
    exact hpayloads
  · obtain ⟨n, hn, hmem⟩ := List.mem_flatMap.mp (hscanPerm.subset hc)
    exact (hfile n hn).2 c hmem

end

/-- Blocks that were recorded as Mark6 files are there to be read, in the order of
their numbers, whichever file each of them is in. -/
theorem recorded_reads_back {vars : Mark6Vars} {mountpoints : List String} {nwriter : Nat}
    {s : State} {as : List (Nat × Answer)}
    (h : (parallelwriter vars mountpoints nwriter).Run (initial mountpoints nwriter) as s)
    (hmk6 : vars.mk6 = true) (hnodup : mountpoints.Nodup) (has : ∀ a ∈ as, WritesBlock a.2)
    (hdone : ∀ w ∈ s.writers, w.holds = false) {blocks : List Chunk}
    (hperm : blocks.Perm (s.recorded.map Prod.fst))
    (hsorted : blocks.Pairwise fun a b => a.chunkSequenceNr.toNat < b.chunkSequenceNr.toNat)
    (hadm : ∀ c ∈ blocks, Vbs.Admissible c) {k : Vbs.Kernel} {fds : Nat → Nat}
    (hdisk : OnDisk s k fds) {order : List Nat} (horder : order.Perm (List.range s.files.length))
    (datastreamids : Nat → Nat) :
    ∃ fcs, Vbs.scanMk6Recording k (scanned s fds datastreamids order) = some fcs ∧
      ∀ os calls t, (Vbs.recording os ⟨.ofChunks fcs, k⟩).Run ⟨.ofChunks fcs, k⟩ calls t →
        (∀ c ∈ calls, c.1.Fits) → ∀ count, count < 2 ^ 63 → ∀ fuel, count + fcs.length < fuel →
          ∃ r u, Vbs.vbsRead os fuel t count = some (r, u) ∧
            Vbs.ReadsExactly (blocks.flatMap Chunk.data) t count r u := by
  have hinv := run_inv h (headersWhole has) (initial_inv hnodup nwriter)
  have hfiles : ∀ r ∈ s.recorded, r.2 < s.files.length := by
    intro r hr
    obtain ⟨f, _, _, _, hf, _⟩ := hinv.recorded r hr
    exact (List.getElem?_eq_some_iff.mp hf).1
  have hall : ∀ r ∈ s.recorded, Vbs.Admissible r.1 := fun r hr =>
    hadm r.1 (hperm.symm.subset (List.mem_map_of_mem hr))
  obtain ⟨fcs, hscan, hcontents, hheld⟩ := @scan_recorded vars s k fds datastreamids order blocks hmk6
    hdisk (fun n hn => run_settled h hmk6 hnodup has hdone hn) hfiles hall hperm hsorted horder
  refine ⟨fcs, hscan, fun os calls t hrun hfits count hcount fuel hfuel => ?_⟩
  have hread := Vbs.held_reads_exactly (fun c hc => (hheld c hc).1) (fun c hc => (hheld c hc).2) hrun
    hfits hcount hfuel
  rwa [hcontents, ← List.flatMap_def] at hread

def oneByte : Chunk := ⟨"r.mk6", 1, [3]⟩

/-- Two writers, a disk each; the second chunk is done first, on the first disk. -/
def twoWriters : List (Nat × Answer) :=
  [(0, .popped (some oneByte)), (0, .proceed), (0, .proceed), (0, .made true), (0, .opened true),
    (1, .popped (some twoBytes)), (1, .proceed), (1, .proceed), (1, .made true), (1, .opened true),
    (0, .chowned true), (0, .wroteFileHeader 20), (1, .chowned true), (1, .wroteFileHeader 20),
    (0, .wroteBlockHeader 8), (0, .wroteData 1), (0, .proceed), (0, .proceed), (0, .proceed),
    (0, .woken none), (1, .wroteBlockHeader 8), (1, .wroteData 1), (1, .wroteData 1), (1, .proceed),
    (1, .proceed), (1, .proceed), (1, .woken none)]

/-- The files as they are left, with descriptors 3 and 4. -/
def kernelOf (s : State) : Vbs.Kernel where
  content path := ((s.files.find? fun f => f.path = path).map File.contents).getD []
  table fd := (s.files[fd - 3]?).map fun f => ⟨f.path, 0⟩
  log := []

theorem kernelOf_onDisk {s : State} (h : (s.files.map File.path).Nodup) (hlen : s.files.length < 2 ^ 30) :
    OnDisk s (kernelOf s) (· + 3) := by
  refine ⟨fun n f hf => ?_, fun n f hf _ => ⟨Nat.succ_pos _, ?_, ⟨f.path, 0⟩, ?_, rfl⟩⟩
  · have hmem := List.mem_of_getElem? hf
    show ((s.files.find? fun g => g.path = f.path).map File.contents).getD [] = f.contents
    cases hfind : s.files.find? fun g => g.path = f.path with
    | none => exact absurd (decide_eq_true rfl) (List.find?_eq_none.mp hfind f hmem)
    | some g =>
      have hfound := List.find?_some hfind
      have hpath : g.path = f.path := of_decide_eq_true hfound
      rw [List.inj_on_of_nodup_map h (List.mem_of_find?_eq_some hfind) hmem hpath]
      rfl
  · have hlt := (List.getElem?_eq_some_iff.mp hf).1
    unfold Vbs.invalidFileDescriptor
    show ((n + 3 : Nat) : Int) < _
    omega
  · show (s.files[n + 3 - 3]?).map _ = _
    rw [Nat.add_sub_cancel, hf]
    rfl

theorem recorded_reads_back_twoWriters :
    ∃ s, (parallelwriter mark6Files ["/mnt/disk0", "/mnt/disk1"] 2).Run
        (initial ["/mnt/disk0", "/mnt/disk1"] 2) twoWriters s ∧
      ∃ fcs, Vbs.scanMk6Recording (kernelOf s) (scanned s (· + 3) (fun _ => 0) [1, 0]) = some fcs ∧
        ∀ os calls t, (Vbs.recording os ⟨.ofChunks fcs, kernelOf s⟩).Run ⟨.ofChunks fcs, kernelOf s⟩
            calls t → (∀ c ∈ calls, c.1.Fits) → ∀ count, count < 2 ^ 63 → ∀ fuel,
          count + fcs.length < fuel → ∃ r u, Vbs.vbsRead os fuel t count = some (r, u) ∧
            Vbs.ReadsExactly ([twoBytes, oneByte].flatMap Chunk.data) t count r u := by
  have hend : (twoWriters.foldlM (step mark6Files) (initial ["/mnt/disk0", "/mnt/disk1"] 2)).map
      (fun s : State => (s.recorded, s.writers, s.files.map File.path)) =
        some ([(oneByte, 0), (twoBytes, 1)], [.idle, .idle], ["/mnt/disk0/r.mk6", "/mnt/disk1/r.mk6"]) := by
    decide +kernel
  obtain ⟨s, hs, hst⟩ := Option.map_eq_some_iff.mp hend
  simp only [Prod.mk.injEq] at hst
  obtain ⟨hrec, hwriters, hpaths⟩ := hst
  have hrun : (parallelwriter mark6Files ["/mnt/disk0", "/mnt/disk1"] 2).Run _ twoWriters s :=
    ofFn_run hs
  have hlen : s.files.length = 2 := by
    have hmap := congrArg List.length hpaths
    rwa [List.length_map] at hmap
  have hdisk : OnDisk s (kernelOf s) (· + 3) :=
    kernelOf_onDisk (by rw [hpaths]; decide) (by rw [hlen]; decide)
  refine ⟨s, hrun, recorded_reads_back hrun rfl (by decide) (by decide) (by rw [hwriters]; decide) ?_
    (by decide) (by decide) hdisk ?_ _⟩
  · rw [hrec]
    exact .swap ..
  · rw [hlen]
    exact .swap ..

/-- A disk is full as soon as the block header is written, and the other one takes
the chunk. -/
def tornBlock : List (Nat × Answer) :=
  untilBlockHeader ++ [(0, .wroteBlockHeader 8), (0, .wroteData (-1)), (0, .proceed), (0, .proceed),
    (0, .retire), (0, .proceed), (0, .proceed), (0, .made true), (0, .opened true), (0, .chowned true),
    (0, .wroteFileHeader 20), (0, .wroteBlockHeader 8), (0, .wroteData 2)] ++ afterData

/-- The block on the full disk is found first, and nothing can be read. -/
theorem torn_block_hides_data :
    ∃ s : State, (parallelwriter mark6Files ["/mnt/disk0", "/mnt/disk1"] 1).Run
        (initial ["/mnt/disk0", "/mnt/disk1"] 1) tornBlock s ∧
      s.recorded = [(twoBytes, 1)] ∧ s.writers = [.idle] ∧ OnDisk s (kernelOf s) (· + 3) ∧
      ∃ fcs, Vbs.scanMk6Recording (kernelOf s) (scanned s (· + 3) (fun _ => 0) [0, 1]) = some fcs ∧
        ∀ os fuel r t, Vbs.vbsRead os fuel ⟨.ofChunks fcs, kernelOf s⟩ 2 = some (r, t) →
          r = .vbsExcept := by
  have hend : (tornBlock.foldlM (step mark6Files) (initial ["/mnt/disk0", "/mnt/disk1"] 1)).map
      (fun s : State => (s.recorded, s.writers, s.files.map fun f : File => (f.path, f.contents.length))) =
        some ([(twoBytes, 1)], [.idle], [("/mnt/disk0/r.mk6", 28), ("/mnt/disk1/r.mk6", 30)]) := by
    decide +kernel
  have hscan : ((tornBlock.foldlM (step mark6Files) (initial ["/mnt/disk0", "/mnt/disk1"] 1)).bind
      fun s => Vbs.scanMk6Recording (kernelOf s) (scanned s (· + 3) (fun _ => 0) [0, 1])) =
        some [.mark6 0 28 2 3 0] := by
    decide +kernel
  obtain ⟨s, hs, hst⟩ := Option.map_eq_some_iff.mp hend
  simp only [Prod.mk.injEq] at hst
  obtain ⟨hrec, hwriters, hfiles⟩ := hst
  rw [hs, Option.bind_some] at hscan
  have hpaths : s.files.map File.path = ["/mnt/disk0/r.mk6", "/mnt/disk1/r.mk6"] := by
    have hmap := congrArg (List.map Prod.fst) hfiles
    rwa [List.map_map] at hmap
  have hlens : s.files.map (fun f => f.contents.length) = [28, 30] := by
    have hmap := congrArg (List.map Prod.snd) hfiles
    rwa [List.map_map] at hmap
  have hlen : s.files.length = 2 := by
    have hmap := congrArg List.length hpaths
    rwa [List.length_map] at hmap
  have hdisk : OnDisk s (kernelOf s) (· + 3) :=
    kernelOf_onDisk (by rw [hpaths]; decide) (by rw [hlen]; decide)
  refine ⟨s, ofFn_run hs, hrec, hwriters, hdisk, _, hscan, fun os fuel r t hread => ?_⟩
  obtain ⟨f, hf⟩ : ∃ f, s.files[0]? = some f := by
    rw [List.getElem?_eq_getElem (by omega)]
    exact ⟨_, rfl⟩
  have hshort : f.contents.length = 28 := by
    have hget := congrArg (fun l => l[0]?) hlens
    simp only [List.getElem?_map, hf, Option.map_some] at hget
    exact Option.some.inj hget
  have htorn : Vbs.Torn ⟨.ofChunks [.mark6 0 28 2 3 0], kernelOf s⟩ (.mark6 0 28 2 3 0) ⟨f.path, 0⟩ := by
    refine ⟨rfl, by decide, by decide, ⟨0, ?_⟩, ⟨Nat.le_refl 0, Nat.zero_lt_two⟩, ?_⟩
    · show (s.files[0]?).map _ = _
      rw [hf]
      rfl
    · show ((kernelOf s).content f.path).length ≤ 0 - 0 + 28
      rw [hdisk.content 0 f hf, hshort]
  exact Vbs.readLoop_torn htorn (by decide) (by decide) hread

end Jive5ab.Recorder
