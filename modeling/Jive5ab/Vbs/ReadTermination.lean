import Jive5ab.Vbs.ReadSoundness
import Mathlib.Logic.Relation

/-! # When a read of a recording ends

`vbs_read` where the files hold less than the scan counted. Sizes are `off_t` here: the
last header of a Mark6 file may leave one below zero. A read inside a chunk that hands out
nothing is neither an error nor a step on, and then the loop goes round for ever. -/
namespace Jive5ab.Vbs
open Lib

/-! ## Signed sizes -/

def FileChunk.size (c : FileChunk) : Int := offT c.chunkSize

/-- The offset that `openfile_type` gives a chunk: the sizes before it. -/
def offsetAt (cs : List FileChunk) (i : Nat) : Int := ((cs.take i).map FileChunk.size).sum

/-- One turn of the loop of `vbs_read`. -/
def offReadStep (os : Os) (nr : Nat) (buf : List UInt8) (s : State) : ReadStep :=
  let of := s.of
  match of.fileChunks[of.chunkPtr]? with
  | none => .stop (.read buf) s
  | some chunk =>
    let offset := offsetAt of.fileChunks of.chunkPtr
    let n2r := min (offT nr) (offset + chunk.size - of.filePointer)
    if n2r ≤ 0 then
      let (chunk, k) := chunk.closeChunk s.k
      .more nr buf ⟨{ of with fileChunks := of.fileChunks.set of.chunkPtr chunk,
                              chunkPtr := of.chunkPtr + 1 }, k⟩
    else
      let (realfd, chunk, k) := chunk.openChunk os s.k
      let of := { of with fileChunks := of.fileChunks.set of.chunkPtr chunk }
      if realfd = invalidFileDescriptor then .stop (.read buf) ⟨of, k⟩
      else
        let k := k.lseek realfd.toNat ((of.filePointer : Int) - offset + chunk.chunkPos)
        match k.read os realfd.toNat n2r.toNat with
        | (none, k) => .stop .vbsExcept ⟨of, k⟩
        | (some bytes, k) =>
          .more (nr - bytes.length) (buf ++ bytes)
            ⟨{ of with filePointer := of.filePointer + bytes.length }, k⟩

def offReadLoop (os : Os) : Nat → Nat → List UInt8 → State → Option (Reply × State)
  | 0, _, _, _ => none
  | fuel + 1, nr, buf, s =>
    if nr = 0 then some (.read buf, s)
    else
      match offReadStep os nr buf s with
      | .stop r s => some (r, s)
      | .more nr buf s => offReadLoop os fuel nr buf s

def offVbsRead (os : Os) (fuel : Nat) (s : State) (count : UInt64) : Option (Reply × State) :=
  if count = 0 then some (.read [], s)
  else if s.of.fileChunks.length = 0 then
    let nread := min count.toNat (s.of.fileSize - s.of.filePointer)
    some (.read (List.replicate nread 0),
      { s with of := { s.of with filePointer := s.of.filePointer + nread } })
  else if s.of.chunkPtr = s.of.fileChunks.length then some (.read [], s)
  else offReadLoop os fuel count.toNat [] s

/-- `vbs_lseek` once the new pointer is known. -/
def offSeekTo (s : State) (newfp : Int) : Reply × State :=
  let of := s.of
  if newfp < 0 then (.einval, s)
  else if newfp = of.filePointer then (.seek of.filePointer, s)
  else
    let newchunk := ((List.range of.fileChunks.length).find? fun i =>
      decide (newfp ≤ offsetAt of.fileChunks (i + 1))).getD of.fileChunks.length
    let (chunks, k) :=
      match of.fileChunks[of.chunkPtr]? with
      | some chunk =>
        if of.chunkPtr ≠ newchunk then
          let (chunk, k) := chunk.closeChunk s.k
          (of.fileChunks.set of.chunkPtr chunk, k)
        else (of.fileChunks, s.k)
      | none => (of.fileChunks, s.k)
    (.seek newfp, ⟨{ of with filePointer := newfp.toNat, fileChunks := chunks,
                             chunkPtr := newchunk }, k⟩)

/-- A call ends, or others change the files between calls. -/
inductive RecordingStep (s : State) : State → Prop
  | read {t : State} (os : Os) (fuel : Nat) (count : UInt64) (r : Reply) :
      offVbsRead os fuel s count = some (r, t) → RecordingStep s t
  | seek (newfp : Int) : RecordingStep s (offSeekTo s newfp).2
  | files (content : String → List UInt8) : RecordingStep s ⟨s.of, { s.k with content }⟩

/-! ## Sizes that are natural numbers -/

theorem openChunk_chunkOffset (os : Os) (k : Kernel) (c : FileChunk) :
    (c.openChunk os k).2.1.chunkOffset = c.chunkOffset := by
  unfold FileChunk.openChunk Kernel.openRead
  by_cases hinv : c.chunkFd = invalidFileDescriptor
  · rw [if_pos hinv]
    cases os.opens k c.pathToChunk <;> rfl
  · rw [if_neg hinv]

/-- With sizes that are not below zero it is the same turn. -/
theorem offReadStep_eq (os : Os) {s : State} (hsizes : ∀ c ∈ s.of.fileChunks, c.chunkSize < 2 ^ 63)
    (hoffsets : ∀ i c, s.of.fileChunks[i]? = some c →
      (c.chunkOffset : Int) = offsetAt s.of.fileChunks i) (nr : Nat) (buf : List UInt8) :
    offReadStep os nr buf s = readStep os nr buf s := by
  unfold offReadStep readStep
  dsimp only
  cases hc : s.of.fileChunks[s.of.chunkPtr]? with
  | none => rfl
  | some c =>
    have hsize : c.size = c.chunkSize := offT_of_lt (hsizes c (List.mem_of_getElem? hc))
    dsimp only
    rewrite [hsize, openChunk_chunkOffset, hoffsets _ c hc]
    rfl

theorem offsetAt_succ {cs : List FileChunk} {i : Nat} {c : FileChunk} (hi : cs[i]? = some c) :
    offsetAt cs (i + 1) = offsetAt cs i + c.size := by
  unfold offsetAt
  rw [List.take_add_one, hi, Option.toList_some, List.map_append, List.sum_append, List.map_singleton,
    List.sum_singleton]

theorem setOffsets_offsetAt {cs : List FileChunk} (hsizes : ∀ c ∈ cs, c.chunkSize < 2 ^ 63) (o i : Nat)
    {c : FileChunk} (hi : (setOffsets o cs).1[i]? = some c) :
    (c.chunkOffset : Int) = o + offsetAt (setOffsets o cs).1 i := by
  induction cs generalizing o i with
  | nil => simp [setOffsets] at hi
  | cons d cs ih =>
    cases i with
    | zero =>
      obtain rfl := Option.some.inj hi
      exact (Int.add_zero _).symm
    | succ i =>
      have hd : d.size = d.chunkSize := offT_of_lt (hsizes d List.mem_cons_self)
      have hrest := ih (fun e he => hsizes e (List.mem_cons_of_mem d he)) (o + d.chunkSize) i hi
      have hsum : offsetAt (setOffsets o (d :: cs)).1 (i + 1) =
          d.size + offsetAt (setOffsets (o + d.chunkSize) cs).1 i := by
        have hsize : ({ d with chunkOffset := o } : FileChunk).size = d.size := by
          unfold FileChunk.size
          rfl
        rw [setOffsets]
        unfold offsetAt
        rw [List.take_succ_cons, List.map_cons, List.sum_cons, hsize]
      rw [hrest, hsum, hd, Int.natCast_add, Int.add_assoc]

theorem setOffsets_sizes {cs : List FileChunk} {o : Nat} {c : FileChunk}
    (h : c ∈ (setOffsets o cs).1) : ∃ c₀ ∈ cs, c.chunkSize = c₀.chunkSize := by
  induction cs generalizing o with
  | nil => cases h
  | cons d cs ih =>
    rcases List.mem_cons.mp h with rfl | hc
    · exact ⟨d, List.mem_cons_self .., rfl⟩
    · obtain ⟨c₀, hmem, heq⟩ := ih hc
      exact ⟨c₀, List.mem_cons_of_mem _ hmem, heq⟩

/-- So it is for a recording that has just been opened. -/
theorem offReadStep_ofChunks (os : Os) {fcs : List FileChunk} (k : Kernel)
    (hsizes : ∀ c ∈ fcs, c.chunkSize < 2 ^ 63) (nr : Nat) (buf : List UInt8) :
    offReadStep os nr buf ⟨OpenFile.ofChunks fcs, k⟩ = readStep os nr buf ⟨OpenFile.ofChunks fcs, k⟩ := by
  have hcopied : ∀ c ∈ fcs.map FileChunk.copy, c.chunkSize < 2 ^ 63 := by
    intro c hc
    obtain ⟨c₀, hc₀, rfl⟩ := List.mem_map.mp hc
    exact hsizes c₀ hc₀
  refine offReadStep_eq os (fun c hc => ?_) (fun i c hi => ?_) nr buf
  · obtain ⟨c₀, hc₀, heq⟩ := setOffsets_sizes hc
    rw [heq]
    exact hcopied c₀ hc₀
  · rw [setOffsets_offsetAt hcopied 0 i hi, Int.natCast_zero, Int.zero_add]
    rfl

/-! ## What a read wants, and what there is -/

structure Extent where
  size : Int
  pos : Nat
  length : Nat

def heldLength (k : Kernel) (c : FileChunk) : Nat :=
  match fileOf k c with
  | some file => (k.content file).length
  | none => 0

def extent (k : Kernel) (c : FileChunk) : Extent := ⟨c.size, c.chunkPos, heldLength k c⟩

@[simp] theorem extent_size (k : Kernel) (c : FileChunk) : (extent k c).size = c.size := by
  rw [extent]

@[simp] theorem extent_pos (k : Kernel) (c : FileChunk) : (extent k c).pos = c.chunkPos := by
  rw [extent]

@[simp] theorem extent_length (k : Kernel) (c : FileChunk) :
    (extent k c).length = heldLength k c := by
  rw [extent]

/-- The files hold the bytes of the chunks that a read of `nr` bytes wants, from `within` the
first chunk on. -/
def Present : Nat → Int → List Extent → Prop
  | _, _, [] => True
  | nr, within, e :: es =>
    let n2r := min (offT nr) (e.size - within)
    if n2r ≤ 0 then Present nr (within - e.size) es
    else within + e.pos + n2r ≤ e.length ∧ Present (nr - n2r.toNat) (within + n2r - e.size) es

instance (nr : Nat) (within : Int) (es : List Extent) : Decidable (Present nr within es) :=
  go nr within es
where
  go : (nr : Nat) → (within : Int) → (es : List Extent) → Decidable (Present nr within es)
    | _, _, [] => .isTrue trivial
    | nr, within, e :: es =>
      if h : min (offT nr) (e.size - within) ≤ 0 then
        have := go nr (within - e.size) es
        decidable_of_iff (Present nr (within - e.size) es) (by rw [Present, if_pos h])
      else
        have := go (nr - (min (offT nr) (e.size - within)).toNat)
          (within + min (offT nr) (e.size - within) - e.size) es
        decidable_of_iff (within + e.pos + min (offT nr) (e.size - within) ≤ e.length ∧ _)
          (by rw [Present, if_neg h])

def AllPresent (s : State) (nr : Nat) : Prop :=
  Present nr (s.of.filePointer - offsetAt s.of.fileChunks s.of.chunkPtr)
    ((s.of.fileChunks.map (extent s.k)).drop s.of.chunkPtr)

instance (s : State) (nr : Nat) : Decidable (AllPresent s nr) :=
  inferInstanceAs (Decidable (Present _ _ _))

theorem offT_pos {nr : Nat} (h : 0 < offT nr) (hnr : nr < 2 ^ 64) : nr < 2 ^ 63 ∧ offT nr = nr := by
  rcases Nat.lt_or_ge nr (2 ^ 63) with hlt | hge
  · exact ⟨hlt, offT_of_lt hlt⟩
  · have hneg : offT nr = (nr : ℤ) - 2 ^ 64 := by
      unfold offT
      rw [Int.bmod_def, Int.emod_eq_of_lt (by omega) (by omega), if_neg (by omega)]
      rfl
    omega

/-- A count that an `off_t` has no room for is below zero. -/
theorem offT_huge {nr : Nat} (hge : 2 ^ 63 ≤ nr) (hnr : nr < 2 ^ 64) : offT nr ≤ 0 := by
  by_contra hpos
  exact absurd (offT_pos (Int.not_le.mp hpos) hnr).1 (Nat.not_lt.mpr hge)

theorem offT_zero : offT (0 : ℕ) ≤ 0 := by
  rw [offT_of_lt (by decide)]
  exact Int.le_refl 0

theorem present_of_nonpos {nr : Nat} (h : offT nr ≤ 0) (within : Int) (es : List Extent) :
    Present nr within es := by
  induction es generalizing within with
  | nil => exact trivial
  | cons e es ih =>
    have hnone : min (offT nr) (e.size - within) ≤ 0 := Int.le_trans (Int.min_le_left _ _) h
    rw [Present, if_pos hnone]
    exact ih _

/-- Part of a chunk has been read: what is wanted is the rest. -/
theorem present_advance {nr m : Nat} {within : Int} {e : Extent} {es : List Extent}
    (hnr : nr < 2 ^ 64) (hn2r : 0 < min (offT nr) (e.size - within))
    (hm : (m : Int) ≤ min (offT nr) (e.size - within)) (hheld : within + e.pos + m ≤ e.length) :
    Present (nr - m) (within + m) (e :: es) ↔ Present nr within (e :: es) := by
  obtain ⟨hlt, hoff⟩ := @offT_pos nr (by omega) hnr
  have hoff' : offT ((nr - m : ℕ) : ℤ) = ((nr - m : ℕ) : ℤ) := offT_of_lt (by omega)
  rw [hoff] at hn2r hm
  unfold Present
  dsimp only
  rw [hoff, hoff', if_neg (Int.not_le.mpr hn2r)]
  have hsub : min ((nr - m : ℕ) : ℤ) (e.size - (within + m)) = min (nr : ℤ) (e.size - within) - m := by
    omega
  rw [hsub]
  generalize min (nr : ℤ) (e.size - within) = n at hn2r hm ⊢
  by_cases hall : n - m ≤ 0
  · obtain rfl : n = m := by omega
    rw [if_pos hall, Int.toNat_natCast]
    exact ⟨fun hrest => ⟨hheld, hrest⟩, fun hboth => hboth.2⟩
  · have hrest : nr - m - (n - m).toNat = nr - n.toNat := by omega
    have hwithin : within + m + (n - m) = within + n := by omega
    rw [if_neg hall, hrest, hwithin]
    exact and_congr_left' ⟨fun h => by omega, fun h => by omega⟩

/-! ## An open recording -/

/-- The pointer is never before the chunk that the iterator stands at. -/
structure Opened (s : State) : Prop where
  fds : Fds s
  placed : s.of.chunkPtr < s.of.fileChunks.length →
    offsetAt s.of.fileChunks s.of.chunkPtr ≤ s.of.filePointer

theorem offsetAt_set {cs : List FileChunk} {i : Nat} {c c' : FileChunk} (hi : cs[i]? = some c)
    (hsize : c'.size = c.size) (j : Nat) : offsetAt (cs.set i c') j = offsetAt cs j := by
  unfold offsetAt
  rw [List.map_take, List.map_take, map_set_congr hi (fun _ _ => rfl) hsize]

theorem closeChunk_same (k : Kernel) (c : FileChunk) :
    (c.closeChunk k).1.size = c.size ∧ (c.closeChunk k).1.chunkPos = c.chunkPos := by
  unfold FileChunk.closeChunk
  split <;> exact ⟨rfl, rfl⟩

theorem extent_congr {k k' : Kernel} {c c' : FileChunk} (hcontent : k'.content = k.content)
    (hfile : fileOf k' c' = fileOf k c) (hsize : c'.size = c.size) (hpos : c'.chunkPos = c.chunkPos) :
    extent k' c' = extent k c := by
  unfold extent heldLength
  rw [hcontent, hfile, hsize, hpos]

/-- The iterator moves on, or a seek puts it elsewhere. -/
theorem Opened.close {s : State} (h : Opened s) {c : FileChunk}
    (hc : s.of.fileChunks[s.of.chunkPtr]? = some c) {fp j : Nat}
    (hplaced : j < s.of.fileChunks.length → offsetAt s.of.fileChunks j ≤ fp) :
    Opened ⟨⟨fp, s.of.fileSize, s.of.fileChunks.set s.of.chunkPtr (c.closeChunk s.k).1, j⟩,
      (c.closeChunk s.k).2⟩ where
  fds := h.fds.close hc fp j
  placed hj := by
    rw [offsetAt_set hc (closeChunk_same s.k c).1]
    exact hplaced (by rwa [List.length_set] at hj)

theorem map_extent_close {s : State} (h : Fds s) {c : FileChunk}
    (hc : s.of.fileChunks[s.of.chunkPtr]? = some c) :
    (s.of.fileChunks.set s.of.chunkPtr (c.closeChunk s.k).1).map (extent (c.closeChunk s.k).2) =
      s.of.fileChunks.map (extent s.k) :=
  map_set_congr hc (fun _ hd => extent_congr (closeChunk_content s.k c)
      (h.fileOf_keeps hd (h.keeps_closed hc hd)) rfl rfl)
    (extent_congr rfl (fileOf_closeChunk s.k _ c) (closeChunk_same s.k c).1 (closeChunk_same s.k c).2)

theorem map_extent_open {s : State} (h : Fds s) {c c' : FileChunk} {realfd : Int} {k' k'' : Kernel}
    (hc : s.of.fileChunks[s.of.chunkPtr]? = some c) (hopen : OpenDone s c realfd c' k')
    (hcontent : k''.content = k'.content) (hkeeps : ∀ fd, k'.Keeps k'' fd) :
    (s.of.fileChunks.set s.of.chunkPtr c').map (extent k'') = s.of.fileChunks.map (extent s.k) := by
  have hsame := hopen.fileOf_same k''
  obtain ⟨fd, rfl, -⟩ := hopen.same
  exact map_set_congr hc (fun d hd => extent_congr (hcontent.trans hopen.content)
    (h.fileOf_keeps hd fun _ => (hopen.keeps _).trans (hkeeps _)) rfl rfl)
    (extent_congr rfl hsame rfl rfl)

/-! ## One turn of the loop -/

section
variable {os : Os} {s t : State} {c : FileChunk} {nr : Nat} {buf : List UInt8}

def wanted (s : State) (c : FileChunk) (nr : Nat) : Int :=
  min (offT nr) (offsetAt s.of.fileChunks s.of.chunkPtr + c.size - s.of.filePointer)

/-- Where in the file of the chunk the pointer is. -/
def placeIn (s : State) (c : FileChunk) : Int :=
  (s.of.filePointer : Int) - offsetAt s.of.fileChunks s.of.chunkPtr + c.chunkPos

/-- What a turn does at a chunk. -/
inductive Turn (os : Os) (s : State) (c : FileChunk) (nr : Nat) (buf : List UInt8) : ReadStep → Prop
  | skip : wanted s c nr ≤ 0 →
      Turn os s c nr buf (.more nr buf
        ⟨⟨s.of.filePointer, s.of.fileSize, s.of.fileChunks.set s.of.chunkPtr (c.closeChunk s.k).1,
          s.of.chunkPtr + 1⟩, (c.closeChunk s.k).2⟩)
  | refused {c' : FileChunk} {k' : Kernel} : 0 < wanted s c nr →
      c.openChunk os s.k = (invalidFileDescriptor, c', k') →
      OpenDone s c invalidFileDescriptor c' k' →
      Turn os s c nr buf (.stop (.read buf)
        ⟨{ s.of with fileChunks := s.of.fileChunks.set s.of.chunkPtr c' }, k'⟩)
  | failed {realfd : Int} {c' : FileChunk} {k' k'' : Kernel} {d : Descr} : 0 < wanted s c nr →
      OpenDone s c realfd c' k' → k'.table realfd.toNat = some d →
      (k'.lseek realfd.toNat (placeIn s c)).read os realfd.toNat (wanted s c nr).toNat = (none, k'') →
      k''.content = k'.content → (∀ fd, k'.Keeps k'' fd) →
      Turn os s c nr buf (.stop .vbsExcept
        ⟨{ s.of with fileChunks := s.of.fileChunks.set s.of.chunkPtr c' }, k''⟩)
  | got {realfd : Int} {c' : FileChunk} {k' k'' : Kernel} {bytes : List UInt8} :
      0 < wanted s c nr → c.openChunk os s.k = (realfd, c', k') → OpenDone s c realfd c' k' →
      k''.content = k'.content → (∀ fd, k'.Keeps k'' fd) →
      (∀ fd, k'.table fd = none → k''.table fd = none) →
      bytes.length ≤ min (wanted s c nr).toNat (heldLength s.k c - (placeIn s c).toNat) →
      (0 < min (wanted s c nr).toNat (heldLength s.k c - (placeIn s c).toNat) → 0 < bytes.length) →
      Turn os s c nr buf (.more (nr - bytes.length) (buf ++ bytes)
        ⟨{ s.of with filePointer := s.of.filePointer + bytes.length,
                     fileChunks := s.of.fileChunks.set s.of.chunkPtr c' }, k''⟩)

/-- Nothing but the descriptor that is read from is touched. -/
theorem read_table {k k' : Kernel} {fd n : Nat} {pos : Int} {d : Descr} (hd : k.table fd = some d)
    {res : Option (List UInt8)} (hread : (k.lseek fd pos).read os fd n = (res, k')) (fd' : Nat)
    (hfree : k.table fd' = none) : k'.table fd' = none := by
  have hne : fd' ≠ fd := by
    rintro rfl
    rw [hd] at hfree
    cases hfree
  have hseek : (k.lseek fd pos).table fd' = none := by
    unfold Kernel.lseek
    rw [hd]
    dsimp only
    split
    · exact (Function.update_of_ne hne ..).trans hfree
    · exact hfree
  have hk' : k' = ((k.lseek fd pos).read os fd n).2 := (congrArg Prod.snd hread).symm
  rw [hk']
  unfold Kernel.read
  split
  · exact hseek
  · split
    · exact hseek
    · exact (Function.update_of_ne hne ..).trans hseek

theorem offReadStep_turn (h : Opened s) (hc : s.of.fileChunks[s.of.chunkPtr]? = some c) :
    Turn os s c nr buf (offReadStep os nr buf s) := by
  have hplace : 0 ≤ placeIn s c := by
    have hplaced := h.placed (List.getElem?_eq_some_iff.mp hc).1
    unfold placeIn
    omega
  unfold offReadStep
  dsimp only
  rw [hc]
  dsimp only
  by_cases hskip : min (offT nr) (offsetAt s.of.fileChunks s.of.chunkPtr + c.size -
      s.of.filePointer) ≤ 0
  · rw [if_pos hskip]
    exact .skip hskip
  rw [if_neg hskip]
  obtain ⟨realfd, c', k', hopen⟩ : ∃ r c' k', c.openChunk os s.k = (r, c', k') := ⟨_, _, _, rfl⟩
  have hdone := h.fds.open hc hopen
  rw [hopen]
  dsimp only
  by_cases hfd : realfd = invalidFileDescriptor
  · subst hfd
    rw [if_pos rfl]
    exact .refused (Int.not_le.mp hskip) hopen hdone
  rw [if_neg hfd]
  obtain ⟨d, hd, hfile⟩ := hdone.file hfd
  have hpos : c'.chunkPos = c.chunkPos := by
    obtain ⟨fd, rfl, -⟩ := hdone.same
    rfl
  have hheld : heldLength s.k c = (k'.content d.file).length := by
    unfold heldLength
    rw [hfile, hdone.content]
  rw [hpos]
  cases hread : (k'.lseek realfd.toNat (placeIn s c)).read os realfd.toNat (wanted s c nr).toNat with
  | mk res k'' =>
    obtain ⟨hcontent, hkeeps, hres⟩ := lseek_read hd hplace hread
    unfold placeIn wanted at hread
    rw [hread]
    rcases hres with ⟨rfl, -⟩ | ⟨m, rfl, hle, hsome, -⟩
    · exact .failed (Int.not_le.mp hskip) hdone hd hread hcontent hkeeps
    · have hlength : (slice (k'.content d.file) (placeIn s c).toNat m).length = m := by
        rw [length_slice]
        omega
      refine .got (Int.not_le.mp hskip) hopen hdone hcontent hkeeps (read_table hd hread) ?_ ?_
      · rw [hlength, hheld]
        exact hle
      · rw [hlength, hheld]
        exact hsome

theorem OpenDone.size_eq {realfd : Int} {c' : FileChunk} {k' : Kernel}
    (h : OpenDone s c realfd c' k') : c'.size = c.size := by
  obtain ⟨fd, rfl, -⟩ := h.same
  unfold FileChunk.size
  rfl

/-- The current chunk's file was opened, and perhaps read from. -/
theorem Opened.open (h : Opened s) (hc : s.of.fileChunks[s.of.chunkPtr]? = some c) {realfd : Int}
    {c' : FileChunk} {k' k'' : Kernel} (hdone : OpenDone s c realfd c' k')
    (hkeeps : ∀ fd, k'.Keeps k'' fd) (m : Nat) :
    Opened ⟨{ s.of with filePointer := s.of.filePointer + m,
                        fileChunks := s.of.fileChunks.set s.of.chunkPtr c' }, k''⟩ := by
  refine ⟨hdone.fds.advance hkeeps, fun _ => ?_⟩
  have hplaced := h.placed (List.getElem?_eq_some_iff.mp hc).1
  rw [offsetAt_set hc hdone.size_eq]
  exact Int.le_trans hplaced (by exact_mod_cast Nat.le_add_right _ _)

theorem Turn.opened_stop (h : Opened s) (hc : s.of.fileChunks[s.of.chunkPtr]? = some c) {r : Reply}
    (hturn : Turn os s c nr buf (.stop r t)) : Opened t := by
  cases hturn with
  | refused _ _ hdone => exact h.open hc hdone (fun _ => Kernel.Keeps.refl _ _) 0
  | failed _ hdone _ _ _ hkeeps => exact h.open hc hdone hkeeps 0

theorem drop_current (hc : s.of.fileChunks[s.of.chunkPtr]? = some c) :
    (s.of.fileChunks.map (extent s.k)).drop s.of.chunkPtr =
      extent s.k c :: (s.of.fileChunks.map (extent s.k)).drop (s.of.chunkPtr + 1) := by
  obtain ⟨hlt, rfl⟩ := List.getElem?_eq_some_iff.mp hc
  rw [List.drop_eq_getElem_cons (by rwa [List.length_map]), List.getElem_map]

theorem allPresent_current (hc : s.of.fileChunks[s.of.chunkPtr]? = some c) (nr : Nat) :
    AllPresent s nr ↔
      Present nr (s.of.filePointer - offsetAt s.of.fileChunks s.of.chunkPtr)
        (extent s.k c :: (s.of.fileChunks.map (extent s.k)).drop (s.of.chunkPtr + 1)) := by
  unfold AllPresent
  rw [drop_current hc]

theorem wanted_eq (s : State) (c : FileChunk) (nr : Nat) :
    wanted s c nr = min (offT nr) ((extent s.k c).size -
      (s.of.filePointer - offsetAt s.of.fileChunks s.of.chunkPtr)) := by
  have hrest : offsetAt s.of.fileChunks s.of.chunkPtr + c.size - s.of.filePointer =
      c.size - (s.of.filePointer - offsetAt s.of.fileChunks s.of.chunkPtr) := by
    generalize c.size = size
    omega
  rw [wanted, extent_size, hrest]

/-- The next chunk: what is wanted of the files is the same. -/
theorem allPresent_close (h : Fds s) (hc : s.of.fileChunks[s.of.chunkPtr]? = some c)
    (hskip : wanted s c nr ≤ 0) :
    AllPresent ⟨⟨s.of.filePointer, s.of.fileSize,
      s.of.fileChunks.set s.of.chunkPtr (c.closeChunk s.k).1, s.of.chunkPtr + 1⟩,
        (c.closeChunk s.k).2⟩ nr ↔ AllPresent s nr := by
  have hwithin : (s.of.filePointer : ℤ) - offsetAt s.of.fileChunks (s.of.chunkPtr + 1) =
      s.of.filePointer - offsetAt s.of.fileChunks s.of.chunkPtr - (extent s.k c).size := by
    rw [extent_size, offsetAt_succ hc, Int.sub_sub]
  rw [wanted_eq] at hskip
  rw [allPresent_current hc, Present, if_pos hskip, ← hwithin]
  unfold AllPresent
  rw [map_extent_close h hc, offsetAt_set hc (closeChunk_same s.k c).1]

/-- Some of a chunk has been read: what is wanted of the files is the same. -/
theorem allPresent_got (h : Opened s) (hc : s.of.fileChunks[s.of.chunkPtr]? = some c)
    (hnr : nr < 2 ^ 64) (hwant : 0 < wanted s c nr) {realfd : Int} {c' : FileChunk}
    {k' k'' : Kernel} (hdone : OpenDone s c realfd c' k') (hcontent : k''.content = k'.content)
    (hkeeps : ∀ fd, k'.Keeps k'' fd) {m : Nat}
    (hle : m ≤ min (wanted s c nr).toNat (heldLength s.k c - (placeIn s c).toNat)) :
    AllPresent ⟨⟨s.of.filePointer + m, s.of.fileSize, s.of.fileChunks.set s.of.chunkPtr c',
      s.of.chunkPtr⟩, k''⟩ (nr - m) ↔ AllPresent s nr := by
  have hplaced := h.placed (List.getElem?_eq_some_iff.mp hc).1
  have hwithin : ((s.of.filePointer + m : ℕ) : ℤ) - offsetAt s.of.fileChunks s.of.chunkPtr =
      s.of.filePointer - offsetAt s.of.fileChunks s.of.chunkPtr + m := by
    omega
  rw [allPresent_current hc]
  unfold AllPresent
  dsimp only
  rw [map_extent_open h.fds hc hdone hcontent hkeeps, offsetAt_set hc hdone.size_eq,
    drop_current hc, hwithin]
  rcases Nat.eq_zero_or_pos m with rfl | hpos
  · rw [Nat.sub_zero, Int.natCast_zero, Int.add_zero]
  · have hm : (m : ℤ) ≤ wanted s c nr :=
      (Int.le_toNat (Int.le_of_lt hwant)).mp (Nat.le_trans hle (Nat.min_le_left _ _))
    have hheld := Nat.le_trans hle (Nat.min_le_right _ _)
    rw [wanted_eq] at hwant hm
    refine present_advance hnr hwant hm ?_
    rw [extent_length, extent_pos]
    unfold placeIn at hheld
    clear hwant hm hle hnr
    omega

/-- Where the bytes are there, some are handed out. -/
theorem got_pos (h : Opened s) (hc : s.of.fileChunks[s.of.chunkPtr]? = some c) (hwant : 0 < wanted s c nr)
    (hall : AllPresent s nr) :
    0 < min (wanted s c nr).toNat (heldLength s.k c - (placeIn s c).toNat) := by
  rw [allPresent_current hc, Present, ← wanted_eq] at hall
  rw [if_neg (Int.not_le.mpr hwant), extent_length, extent_pos] at hall
  have hheld := hall.1
  have hplaced := h.placed (List.getElem?_eq_some_iff.mp hc).1
  clear hall
  unfold placeIn
  generalize wanted s c nr = n at hwant hheld ⊢
  omega

/-- What is wanted of the files is the same before and after a turn, and as long as it is there
the turn gets on. -/
theorem Turn.more (h : Opened s) (hc : s.of.fileChunks[s.of.chunkPtr]? = some c)
    (hpos : 0 < nr) (hnr : nr < 2 ^ 63) {nr' : Nat} {buf' : List UInt8}
    (hturn : Turn os s c nr buf (.more nr' buf' t)) :
    Opened t ∧ nr' ≤ nr ∧ (AllPresent t nr' ↔ AllPresent s nr) ∧
      (AllPresent s nr → turns t nr' < turns s nr) := by
  have hlt := (List.getElem?_eq_some_iff.mp hc).1
  cases hturn with
  | skip hskip =>
    refine ⟨h.close hc fun _ => ?_, Nat.le_refl _, allPresent_close h.fds hc hskip, fun _ => ?_⟩
    · unfold wanted at hskip
      rw [offT_of_lt hnr] at hskip
      rw [offsetAt_succ hc]
      omega
    · unfold turns
      rw [List.length_set]
      exact Nat.add_lt_add_left (Nat.sub_lt_sub_left hlt (Nat.lt_succ_self _)) nr
  | @got realfd c' k' k'' bytes hwant _ hdone hcontent hkeeps _ hle hsome =>
    refine ⟨h.open hc hdone hkeeps _, Nat.sub_le _ _, allPresent_got h hc (Nat.lt_trans hnr (by decide))
      hwant hdone hcontent hkeeps hle, fun hpresent => ?_⟩
    have hgot := hsome (got_pos h hc hwant hpresent)
    unfold turns
    rw [List.length_set]
    exact Nat.add_lt_add_right (Nat.sub_lt hpos hgot) _

/-! ## Whole calls -/

theorem offReadStep_end (hend : s.of.fileChunks[s.of.chunkPtr]? = none) :
    offReadStep os nr buf s = .stop (.read buf) s := by
  unfold offReadStep
  dsimp only
  rw [hend]

theorem offReadLoop_isSome (h : Opened s) (hnr : nr < 2 ^ 63) (hall : AllPresent s nr) {fuel : Nat}
    (hfuel : turns s nr < fuel) : (offReadLoop os fuel nr buf s).isSome := by
  induction fuel generalizing s nr buf with
  | zero => exact absurd hfuel (Nat.not_lt_zero _)
  | succ fuel ih =>
    rw [offReadLoop]
    by_cases hzero : nr = 0
    · rw [if_pos hzero]
      rfl
    rw [if_neg hzero]
    cases hc : s.of.fileChunks[s.of.chunkPtr]? with
    | none =>
      rw [offReadStep_end hc]
      rfl
    | some c =>
      have hturn : Turn os s c nr buf (offReadStep os nr buf s) := offReadStep_turn h hc
      cases hstep : offReadStep os nr buf s with
      | stop r t => rfl
      | more nr' buf' t =>
        rw [hstep] at hturn
        obtain ⟨hopened, hle, hsame, hless⟩ := hturn.more h hc (Nat.pos_of_ne_zero hzero) hnr
        exact ih hopened (Nat.lt_of_le_of_lt hle hnr) (hsame.mpr hall)
          (Nat.lt_of_lt_of_le (hless hall) (Nat.le_of_lt_succ hfuel))

theorem offReadLoop_opened (h : Opened s) (hnr : nr < 2 ^ 63) {fuel : Nat} {r : Reply}
    (hloop : offReadLoop os fuel nr buf s = some (r, t)) : Opened t := by
  induction fuel generalizing s nr buf with
  | zero => cases hloop
  | succ fuel ih =>
    rw [offReadLoop] at hloop
    split at hloop
    · obtain ⟨-, rfl⟩ := Prod.mk.inj (Option.some.inj hloop)
      exact h
    rename_i hzero
    cases hc : s.of.fileChunks[s.of.chunkPtr]? with
    | none =>
      rw [offReadStep_end hc] at hloop
      obtain ⟨-, rfl⟩ := Prod.mk.inj (Option.some.inj hloop)
      exact h
    | some c =>
      have hturn : Turn os s c nr buf (offReadStep os nr buf s) := offReadStep_turn h hc
      cases hstep : offReadStep os nr buf s with
      | stop r' t' =>
        rw [hstep] at hturn hloop
        obtain ⟨-, rfl⟩ := Prod.mk.inj (Option.some.inj hloop)
        exact hturn.opened_stop h hc
      | more nr' buf' t' =>
        rw [hstep] at hturn hloop
        obtain ⟨hopened, hle, -⟩ := hturn.more h hc (Nat.pos_of_ne_zero hzero) hnr
        exact ih hopened (Nat.lt_of_le_of_lt hle hnr) hloop

/-- With such a count every chunk is skipped. -/
theorem offReadLoop_huge (h : Fds s) (hge : 2 ^ 63 ≤ nr) (hnr : nr < 2 ^ 64) (fuel : Nat) :
    (s.of.fileChunks.length - s.of.chunkPtr < fuel → (offReadLoop os fuel nr buf s).isSome) ∧
      ∀ r t, offReadLoop os fuel nr buf s = some (r, t) →
        Fds t ∧ t.of.fileChunks.length ≤ t.of.chunkPtr := by
  induction fuel generalizing s with
  | zero => exact ⟨fun hlt => absurd hlt (Nat.not_lt_zero _), fun r t hloop => nomatch hloop⟩
  | succ fuel ih =>
    rw [offReadLoop, if_neg (Nat.ne_of_gt (Nat.lt_of_lt_of_le (by decide) hge))]
    cases hc : s.of.fileChunks[s.of.chunkPtr]? with
    | none =>
      rw [offReadStep_end hc]
      refine ⟨fun _ => rfl, fun r t hloop => ?_⟩
      obtain ⟨-, rfl⟩ := Prod.mk.inj (Option.some.inj hloop)
      exact ⟨h, List.getElem?_eq_none_iff.mp hc⟩
    | some c =>
      have hlt := (List.getElem?_eq_some_iff.mp hc).1
      have hskip : min (offT nr) (offsetAt s.of.fileChunks s.of.chunkPtr + c.size -
          s.of.filePointer) ≤ 0 := Int.le_trans (Int.min_le_left _ _) (offT_huge hge hnr)
      unfold offReadStep
      dsimp only
      rw [hc]
      dsimp only
      rw [if_pos hskip]
      obtain ⟨hsome, hdone⟩ := ih (h.close hc s.of.filePointer (s.of.chunkPtr + 1))
      refine ⟨fun hfuel => hsome ?_, hdone⟩
      rw [List.length_set]
      dsimp only
      omega

end

/-! ## Every state of an opened recording -/

section
variable {os : Os} {s t : State}

theorem offVbsRead_opened (h : Opened s) {fuel : Nat} {count : UInt64} {r : Reply}
    (hread : offVbsRead os fuel s count = some (r, t)) : Opened t := by
  unfold offVbsRead at hread
  split at hread
  · obtain ⟨-, rfl⟩ := Prod.mk.inj (Option.some.inj hread)
    exact h
  split at hread
  · rename_i hempty
    obtain ⟨-, rfl⟩ := Prod.mk.inj (Option.some.inj hread)
    exact ⟨h.fds.move (.inl rfl), fun hlt => absurd hlt (by simp [hempty])⟩
  split at hread
  · obtain ⟨-, rfl⟩ := Prod.mk.inj (Option.some.inj hread)
    exact h
  · rcases Nat.lt_or_ge count.toNat (2 ^ 63) with hlt | hge
    · exact offReadLoop_opened h hlt hread
    · obtain ⟨hfds, hend⟩ := (offReadLoop_huge h.fds hge count.toNat_lt fuel).2 r t hread
      exact ⟨hfds, fun hlt => absurd hlt (Nat.not_lt.mpr hend)⟩

/-- The chunk that a seek goes to does not begin behind the new pointer. -/
theorem newchunk_placed (cs : List FileChunk) {fp j : Nat}
    (hj : ((List.range cs.length).find? fun i => decide ((fp : ℤ) ≤ offsetAt cs (i + 1))).getD
      cs.length = j) (hlt : j < cs.length) : offsetAt cs j ≤ fp := by
  cases hfind : (List.range cs.length).find? fun i => decide ((fp : ℤ) ≤ offsetAt cs (i + 1)) with
  | none =>
    rw [hfind, Option.getD_none] at hj
    omega
  | some i =>
    rw [hfind, Option.getD_some] at hj
    subst hj
    cases i with
    | zero => exact Int.natCast_nonneg fp
    | succ i =>
      obtain ⟨-, hbefore⟩ := List.find?_range_eq_some.mp hfind
      have hpast := hbefore.2 i (Nat.lt_succ_self i)
      simp only [Bool.not_eq_eq_eq_not, Bool.not_true, decide_eq_false_iff_not] at hpast
      omega

theorem offSeekTo_opened (h : Opened s) (newfp : Int) : Opened (offSeekTo s newfp).2 := by
  unfold offSeekTo
  dsimp only
  by_cases hneg : newfp < 0
  · rw [if_pos hneg]
    exact h
  rw [if_neg hneg]
  by_cases hsame : newfp = s.of.filePointer
  · rw [if_pos hsame]
    exact h
  rw [if_neg hsame]
  obtain ⟨fp, rfl⟩ := Int.eq_ofNat_of_zero_le (Int.not_lt.mp hneg)
  have hplaced {j : Nat} := @newchunk_placed s.of.fileChunks fp j
  generalize ((List.range s.of.fileChunks.length).find? fun i =>
    decide ((fp : ℤ) ≤ offsetAt s.of.fileChunks (i + 1))).getD s.of.fileChunks.length = j at hplaced ⊢
  rw [Int.toNat_natCast]
  cases hc : s.of.fileChunks[s.of.chunkPtr]? with
  | none => exact ⟨h.fds.move (.inr hc), hplaced rfl⟩
  | some c =>
    dsimp only
    split
    · exact h.close hc (hplaced rfl)
    · rename_i heq
      exact ⟨h.fds.move (.inl (Decidable.not_not.mp heq)), hplaced rfl⟩

theorem recordingStep_opened (h : Opened s) (hstep : RecordingStep s t) : Opened t := by
  cases hstep with
  | read os fuel count r hread => exact offVbsRead_opened h hread
  | seek newfp => exact offSeekTo_opened h newfp
  | files content => exact ⟨⟨h.fds.held, h.fds.closed, h.fds.opened⟩, h.placed⟩

/-- A Mark6 chunk's file was left open by the scan. -/
def LeftOpen (k : Kernel) (c : FileChunk) : Prop :=
  c.chunkFd < 0 → -invalidFileDescriptor < c.chunkFd ∧ ∃ d, k.table (-c.chunkFd).toNat = some d

theorem reached_opened {k : Kernel} {fcs : List FileChunk} (hfcs : ∀ c ∈ fcs, LeftOpen k c)
    (h : Relation.ReflTransGen RecordingStep ⟨OpenFile.ofChunks fcs, k⟩ s) : Opened s := by
  induction h with
  | refl => exact ⟨ofChunks_fds hfcs, fun _ => Int.le_refl 0⟩
  | tail _ hstep ih => exact recordingStep_opened ih hstep

end

/-! ## Files that hold less -/

/-- Opens what it can, and hands out all there is. -/
noncomputable def Os.willing : Os where
  opens k _ :=
    open Classical in
    if h : ∃ fd : Nat, k.table fd = none ∧ (fd : Int) < invalidFileDescriptor then some h.choose
    else none
  reads _ n := some n
  opens_fresh := by
    intro k path fd h
    split at h
    · rename_i hfree
      obtain rfl := Option.some.inj h
      exact hfree.choose_spec
    · cases h
  reads_some := by
    intro _ n m h
    obtain rfl := Option.some.inj h
    exact ⟨Nat.le_refl _, id⟩

/-- There is a descriptor to open a chunk with, if only the one that is used for the last. -/
def HasFree (s : State) : Prop :=
  ∃ fd : Nat, (fd : Int) < invalidFileDescriptor ∧ (s.k.table fd = none ∨
    ∃ c, s.of.fileChunks[s.of.chunkPtr]? = some c ∧ c.chunkFd = fd)

section
variable {s t : State} {c : FileChunk} {nr : Nat} {buf : List UInt8}

theorem willing_opens {k : Kernel} {path : String}
    (h : ∃ fd : Nat, k.table fd = none ∧ (fd : Int) < invalidFileDescriptor) :
    ∃ fd : Nat, Os.willing.opens k path = some fd ∧ (fd : Int) < invalidFileDescriptor :=
  ⟨h.choose, dif_pos h, h.choose_spec.2⟩

/-- What the willing system opens of a chunk that is not open yet. -/
theorem willing_openChunk (hfree : HasFree s) (hc : s.of.fileChunks[s.of.chunkPtr]? = some c)
    (hinv : c.chunkFd = invalidFileDescriptor) :
    ∃ fd : Nat, (fd : Int) < invalidFileDescriptor ∧ ∃ k',
      c.openChunk Os.willing s.k = ((fd : Int), { c with chunkFd := fd }, k') := by
  have hunused : ∃ fd : Nat, s.k.table fd = none ∧ (fd : Int) < invalidFileDescriptor := by
    obtain ⟨fd, hlt, hnone | ⟨c₁, hc₁, hfd⟩⟩ := hfree
    · exact ⟨fd, hnone, hlt⟩
    · rw [hc] at hc₁
      obtain rfl := Option.some.inj hc₁
      omega
  obtain ⟨fd, hopens, hlt⟩ := @willing_opens _ c.pathToChunk hunused
  refine ⟨fd, hlt, ?_⟩
  have hnn : ¬(fd : Int) < 0 := Int.not_lt.mpr (Int.natCast_nonneg fd)
  simp only [FileChunk.openChunk, hinv, if_true, Kernel.openRead, hopens, hnn, if_false]
  exact ⟨_, rfl⟩

theorem Turn.willing_stop (h : Opened s) (hfree : HasFree s)
    (hc : s.of.fileChunks[s.of.chunkPtr]? = some c) {r : Reply} :
    ¬Turn Os.willing s c nr buf (.stop r t) := by
  intro hturn
  cases hturn with
  | @refused c' k' _ hopen _ =>
    by_cases hinv : c.chunkFd = invalidFileDescriptor
    · obtain ⟨fd, hlt, k₁, hopen₁⟩ := willing_openChunk hfree hc hinv
      rw [hopen₁] at hopen
      obtain ⟨heq, -⟩ := Prod.mk.inj hopen
      omega
    · simp only [FileChunk.openChunk, hinv, if_false, Prod.mk.injEq] at hopen
      obtain ⟨hfd, -⟩ := hopen
      by_cases hneg : c.chunkFd < 0
      · rw [if_pos hneg] at hfd
        have hheld := (h.fds.held c (List.mem_of_getElem? hc) hneg).1
        omega
      · rw [if_neg hneg] at hfd
        exact hinv hfd
  | @failed realfd c' k' k'' d _ _ hd hread _ _ =>
    have hseek : ∃ d', (k'.lseek realfd.toNat (placeIn s c)).table realfd.toNat = some d' := by
      unfold Kernel.lseek
      rw [hd]
      dsimp only
      split
      · exact ⟨_, Function.update_self ..⟩
      · exact ⟨d, hd⟩
    obtain ⟨d', hd'⟩ := hseek
    simp only [Kernel.read, hd', Os.willing] at hread
    cases hread

theorem Turn.willing_more (hfree : HasFree s) (hc : s.of.fileChunks[s.of.chunkPtr]? = some c)
    {nr' : Nat} {buf' : List UInt8} (hturn : Turn Os.willing s c nr buf (.more nr' buf' t)) :
    HasFree t := by
  have hlt := (List.getElem?_eq_some_iff.mp hc).1
  cases hturn with
  | skip =>
    obtain ⟨fd, hfd, hnone | ⟨c₁, hc₁, hheld⟩⟩ := hfree
    · refine ⟨fd, hfd, .inl ?_⟩
      dsimp only
      unfold FileChunk.closeChunk
      split
      · by_cases hsame : fd = c.chunkFd.toNat
        · subst hsame
          exact Function.update_self ..
        · exact (Function.update_of_ne hsame ..).trans hnone
      · exact hnone
    · rw [hc] at hc₁
      obtain rfl := Option.some.inj hc₁
      refine ⟨fd, hfd, .inl ?_⟩
      dsimp only
      unfold FileChunk.closeChunk
      rw [if_pos ⟨by omega, by omega⟩, hheld, Int.toNat_natCast]
      exact Function.update_self ..
  | @got realfd c' k' k'' bytes _ hopen _ _ _ hunused _ _ =>
    have hcurrent : (s.of.fileChunks.set s.of.chunkPtr c')[s.of.chunkPtr]? = some c' :=
      List.getElem?_set_self hlt
    by_cases hinv : c.chunkFd = invalidFileDescriptor
    · obtain ⟨fd, hfd, k₁, hopen₁⟩ := willing_openChunk hfree hc hinv
      rw [hopen₁] at hopen
      obtain ⟨-, rfl, -⟩ := hopen
      exact ⟨fd, hfd, .inr ⟨_, hcurrent, rfl⟩⟩
    · simp only [FileChunk.openChunk, hinv, if_false, Prod.mk.injEq] at hopen
      obtain ⟨-, rfl, rfl⟩ := hopen
      obtain ⟨fd, hfd, hnone | ⟨c₁, hc₁, hheld⟩⟩ := hfree
      · exact ⟨fd, hfd, .inl (hunused fd hnone)⟩
      · rw [hc] at hc₁
        obtain rfl := Option.some.inj hc₁
        exact ⟨fd, hfd, .inr ⟨_, hcurrent, hheld⟩⟩

/-- Bytes that are not there are waited for without end. -/
theorem willing_loops (h : Opened s) (hfree : HasFree s) (hnr : nr < 2 ^ 63)
    (hmissing : ¬AllPresent s nr) (fuel : Nat) : offReadLoop Os.willing fuel nr buf s = none := by
  induction fuel generalizing s nr buf with
  | zero => rfl
  | succ fuel ih =>
    have hpos : nr ≠ 0 := by
      rintro rfl
      exact hmissing (present_of_nonpos offT_zero _ _)
    rw [offReadLoop, if_neg hpos]
    cases hc : s.of.fileChunks[s.of.chunkPtr]? with
    | none =>
      refine absurd ?_ hmissing
      unfold AllPresent
      rw [List.drop_eq_nil_of_le (by rw [List.length_map]; exact List.getElem?_eq_none_iff.mp hc)]
      exact trivial
    | some c =>
      have hturn : Turn Os.willing s c nr buf (offReadStep Os.willing nr buf s) :=
        offReadStep_turn h hc
      cases hstep : offReadStep Os.willing nr buf s with
      | stop r t =>
        rw [hstep] at hturn
        exact absurd hturn (Turn.willing_stop h hfree hc)
      | more nr' buf' t =>
        rw [hstep] at hturn
        obtain ⟨hopened, hle, hsame, -⟩ := hturn.more h hc (Nat.pos_of_ne_zero hpos) hnr
        exact ih hopened (hturn.willing_more hfree hc) (Nat.lt_of_le_of_lt hle hnr)
          fun hall => hmissing (hsame.mp hall)

end

/-- It comes back, whatever the operating system does. -/
def Ends (s : State) (count : UInt64) : Prop :=
  ∀ os, ∃ fuel, (offVbsRead os fuel s count).isSome

theorem ends_of_present {s : State} (h : Opened s) {count : UInt64}
    (hall : AllPresent s count.toNat) : Ends s count := by
  intro os
  refine ⟨turns s count.toNat + 1, ?_⟩
  unfold offVbsRead
  split_ifs
  · rfl
  · rfl
  · rfl
  · rcases Nat.lt_or_ge count.toNat (2 ^ 63) with hlt | hge
    · exact offReadLoop_isSome h hlt hall (Nat.lt_succ_self _)
    · refine (offReadLoop_huge h.fds hge count.toNat_lt _).1 ?_
      unfold turns
      omega

theorem present_of_ends {s : State} (h : Opened s) (hfree : HasFree s) {count : UInt64}
    (hends : Ends s count) : AllPresent s count.toNat := by
  by_contra hmissing
  obtain ⟨fuel, hsome⟩ := hends Os.willing
  have hlt : count.toNat < 2 ^ 63 := by
    by_contra hge
    exact hmissing (present_of_nonpos (offT_huge (Nat.not_lt.mp hge) count.toNat_lt) _ _)
  have hgone (hdrop : s.of.fileChunks.length ≤ s.of.chunkPtr) : AllPresent s count.toNat := by
    unfold AllPresent
    rw [List.drop_eq_nil_of_le (by rwa [List.length_map])]
    exact trivial
  unfold offVbsRead at hsome
  split_ifs at hsome with hzero hempty hend
  · rw [hzero] at hmissing
    exact hmissing (present_of_nonpos offT_zero _ _)
  · exact hmissing (hgone (by omega))
  · exact hmissing (hgone (by omega))
  · rw [willing_loops h hfree hlt hmissing] at hsome
    cases hsome

/-- A call on an opened recording comes back if the files hold the bytes that it wants; if they
do not, and there is a descriptor to open them with, it need not. -/
theorem vbsRead_ends_iff {k : Kernel} {fcs : List FileChunk} (hfcs : ∀ c ∈ fcs, LeftOpen k c)
    {s : State} (h : Relation.ReflTransGen RecordingStep ⟨OpenFile.ofChunks fcs, k⟩ s)
    (count : UInt64) :
    (AllPresent s count.toNat → Ends s count) ∧
      (HasFree s → Ends s count → AllPresent s count.toNat) :=
  ⟨ends_of_present (reached_opened hfcs h),
    fun hfree => present_of_ends (reached_opened hfcs h) hfree⟩

/-! ## A file cut short -/

/-- A recording of one chunk of one byte. -/
def oneChunk : List FileChunk := [.flexbuff "disk0/r.00000000" 1 0 0]

def oneFile (content : List UInt8) : Kernel := ⟨fun _ => content, fun _ => none, []⟩

theorem oneChunk_leftOpen (content : List UInt8) : ∀ c ∈ oneChunk, LeftOpen (oneFile content) c := by
  intro c hc
  obtain rfl := List.mem_singleton.mp hc
  exact fun hneg => absurd hneg (by decide)

/-- Of a chunk that is all there a byte can be read. -/
theorem vbsRead_ends_iff_oneChunk : Ends ⟨OpenFile.ofChunks oneChunk, oneFile [7]⟩ 1 := by
  exact (vbsRead_ends_iff (oneChunk_leftOpen [7]) .refl 1).1 (by decide)

/-- The file is emptied after it was opened, and a byte is asked for. -/
theorem truncated_loops :
    Relation.ReflTransGen RecordingStep ⟨OpenFile.ofChunks oneChunk, oneFile [7]⟩
        ⟨OpenFile.ofChunks oneChunk, oneFile []⟩ ∧
      ¬Ends ⟨OpenFile.ofChunks oneChunk, oneFile []⟩ 1 := by
  refine ⟨.single (.files fun _ => []), fun hends => ?_⟩
  have hopened := reached_opened (oneChunk_leftOpen []) (.refl (r := RecordingStep))
  have hfree : HasFree ⟨OpenFile.ofChunks oneChunk, oneFile []⟩ := ⟨3, by decide, .inl rfl⟩
  have hmissing : ¬AllPresent ⟨OpenFile.ofChunks oneChunk, oneFile []⟩ (1 : UInt64).toNat := by
    decide
  exact hmissing (@present_of_ends _ hopened hfree 1 hends)

end Jive5ab.Vbs
