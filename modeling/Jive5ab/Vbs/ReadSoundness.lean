import Jive5ab.Lib.Machine
import Jive5ab.Vbs.OpenFile

/-! # A recording reads as one file

The state of an open recording is described by one equation, the layout of its
chunks, and by where the iterator stands relative to the file pointer. Opening,
closing and reading chunk files leave the layout alone. -/
namespace Jive5ab.Vbs
open Lib

/-! ## What the chunks hold -/

def fileOf (k : Kernel) (c : FileChunk) : Option String :=
  if c.chunkFd < 0 then (k.table (-c.chunkFd).toNat).map Descr.file else some c.pathToChunk

def payload (k : Kernel) (c : FileChunk) : List UInt8 :=
  match fileOf k c with
  | some file => slice (k.content file) c.chunkPos c.chunkSize
  | none => []

structure View where
  payload : List UInt8
  size : Nat
  offset : Nat

def view (k : Kernel) (c : FileChunk) : View := ⟨payload k c, c.chunkSize, c.chunkOffset⟩

/-- Payloads one after the other, from a given offset on. -/
def layout : Nat → List (List UInt8) → List View
  | _, [] => []
  | o, p :: ps => ⟨p, p.length, o⟩ :: layout (o + p.length) ps

theorem layout_getElem? (o : Nat) (ps : List (List UInt8)) (i : Nat) :
    (layout o ps)[i]? = ps[i]?.map fun p => ⟨p, p.length, o + (ps.take i).flatten.length⟩ := by
  induction ps generalizing o i with
  | nil => simp [layout]
  | cons p ps ih =>
    cases i with
    | zero => simp [layout]
    | succ i => simp [layout, ih, Nat.add_assoc]

/-! ## Descriptors -/

/-- The descriptor, if in use, stays on its file. -/
def Kernel.Keeps (k k' : Kernel) (fd : Nat) : Prop :=
  ∀ d, k.table fd = some d → ∃ d', k'.table fd = some d' ∧ d'.file = d.file

/-- Which descriptors the chunks have: none but the current chunk has one of its
own, and it shares that with nobody. -/
structure Fds (s : State) : Prop where
  held : ∀ c ∈ s.of.fileChunks, c.chunkFd < 0 →
    -invalidFileDescriptor < c.chunkFd ∧ ∃ d, s.k.table (-c.chunkFd).toNat = some d
  closed : ∀ i c, s.of.fileChunks[i]? = some c → i ≠ s.of.chunkPtr → 0 ≤ c.chunkFd →
    c.chunkFd = invalidFileDescriptor
  opened : ∀ c, s.of.fileChunks[s.of.chunkPtr]? = some c → 0 ≤ c.chunkFd →
    c.chunkFd ≠ invalidFileDescriptor →
    (∃ d, s.k.table c.chunkFd.toNat = some d ∧ d.file = c.pathToChunk) ∧
      ∀ c' ∈ s.of.fileChunks, c'.chunkFd < 0 → c'.chunkFd ≠ -c.chunkFd

/-- The iterator never stands beyond the file pointer. -/
structure Inv (ps : List (List UInt8)) (s : State) : Prop where
  chunks : s.of.fileChunks.map (view s.k) = layout 0 ps
  fileSize : s.of.fileSize = ps.flatten.length
  fds : Fds s
  placed : (ps.take s.of.chunkPtr).flatten.length ≤ s.of.filePointer

theorem Kernel.Keeps.refl (k : Kernel) (fd : Nat) : k.Keeps k fd := fun d h => ⟨d, h, rfl⟩

theorem Kernel.Keeps.trans {k k' k'' : Kernel} {fd : Nat} (h : k.Keeps k' fd)
    (h' : k'.Keeps k'' fd) : k.Keeps k'' fd := by
  intro d hd
  obtain ⟨d', hd', hfile'⟩ := h d hd
  obtain ⟨d'', hd'', hfile''⟩ := h' d' hd'
  exact ⟨d'', hd'', hfile''.trans hfile'⟩

theorem keeps_close {k : Kernel} {fd closed : Nat} (hne : fd ≠ closed) :
    k.Keeps (k.close closed) fd := by
  intro d hd
  refine ⟨d, ?_, rfl⟩
  exact (Function.update_of_ne hne ..).trans hd

/-- Moving a descriptor's position is no change of file. -/
theorem keeps_update {k : Kernel} {fd fd' pos : Nat} {d' : Descr} {log : List SysCall}
    (hd' : k.table fd' = some d') :
    k.Keeps ⟨k.content, Function.update k.table fd' (some ⟨d'.file, pos⟩), log⟩ fd := by
  intro d hd
  by_cases h : fd = fd'
  · subst h
    rw [hd'] at hd
    obtain rfl := Option.some.inj hd
    exact ⟨_, Function.update_self .., rfl⟩
  · exact ⟨d, (Function.update_of_ne h ..).trans hd, rfl⟩

theorem fileOf_keeps {k k' : Kernel} {c : FileChunk}
    (hheld : c.chunkFd < 0 → ∃ d, k.table (-c.chunkFd).toNat = some d)
    (hkeeps : c.chunkFd < 0 → k.Keeps k' (-c.chunkFd).toNat) : fileOf k' c = fileOf k c := by
  by_cases hneg : c.chunkFd < 0
  · obtain ⟨d, hd⟩ := hheld hneg
    obtain ⟨d', hd', hsame⟩ := hkeeps hneg d hd
    simp only [fileOf, hneg, if_true, hd, hd', Option.map_some, hsame]
  · simp only [fileOf, hneg, if_false]

/-- Only whether a chunk has a descriptor of its own may have changed. -/
theorem fileOf_chunkFd {k : Kernel} {c : FileChunk} {fd : Int} (h : 0 ≤ c.chunkFd) (hfd : 0 ≤ fd) :
    fileOf k { c with chunkFd := fd } = fileOf k c := by
  have h₁ : ¬ c.chunkFd < 0 := by omega
  have h₂ : ¬ fd < 0 := by omega
  simp only [fileOf, h₁, h₂, if_false]

theorem view_congr {k k' : Kernel} {c : FileChunk} (hcontent : k'.content = k.content)
    (hfile : fileOf k' c = fileOf k c) : view k' c = view k c := by
  simp only [view, payload, hfile, hcontent]

theorem view_chunkFd {k : Kernel} {c : FileChunk} {fd : Int} (h : 0 ≤ c.chunkFd) (hfd : 0 ≤ fd) :
    view k { c with chunkFd := fd } = view k c := by
  simp only [view, payload, fileOf_chunkFd h hfd]

/-- What is seen of the chunks stays when one is replaced by one that looks the same. -/
theorem map_set_congr {β : Type} {f g : FileChunk → β} {cs : List FileChunk} {i : Nat}
    {c c' : FileChunk} (hi : cs[i]? = some c) (hkeep : ∀ d ∈ cs, g d = f d) (hsame : g c' = g c) :
    (cs.set i c').map g = cs.map f := by
  rw [List.map_set, List.map_congr_left hkeep, hsame, hkeep c (List.mem_of_getElem? hi)]
  refine List.ext_getElem? fun j => ?_
  by_cases hij : i = j
  · subst hij
    obtain ⟨hlt, heq⟩ := List.getElem?_eq_some_iff.mp hi
    simp [hlt, heq]
  · rw [List.getElem?_set_ne hij]

/-- Where the iterator points, and what is there. -/
theorem Inv.at {ps : List (List UInt8)} {s : State} (h : Inv ps s) {i : Nat} {c : FileChunk}
    (hc : s.of.fileChunks[i]? = some c) :
    ∃ p, ps[i]? = some p ∧ payload s.k c = p ∧ c.chunkSize = p.length ∧
      c.chunkOffset = (ps.take i).flatten.length := by
  have hv : (layout 0 ps)[i]? = some (view s.k c) := by rw [← h.chunks, List.getElem?_map, hc]; rfl
  rw [layout_getElem?] at hv
  obtain ⟨p, hp, heq⟩ := Option.map_eq_some_iff.mp hv
  simp only [view, View.mk.injEq, Nat.zero_add] at heq
  exact ⟨p, hp, heq.1.symm, heq.2.1.symm, heq.2.2.symm⟩

theorem Inv.length_eq {ps : List (List UInt8)} {s : State} (h : Inv ps s) :
    s.of.fileChunks.length = ps.length := by
  have hlen (o : Nat) (qs : List (List UInt8)) : (layout o qs).length = qs.length := by
    induction qs generalizing o with
    | nil => rfl
    | cons q qs ih => simp [layout, ih]
  have := congrArg List.length h.chunks
  rwa [List.length_map, hlen] at this

/-! ## The primitives -/

/-- Reading along: nothing but positions in the files and the pointer moves. -/
theorem Fds.advance {s : State} (h : Fds s) {k : Kernel} {fp : Nat} (hkeeps : ∀ fd, s.k.Keeps k fd) :
    Fds ⟨{ s.of with filePointer := fp }, k⟩ where
  held := by
    intro c hc hneg
    obtain ⟨hlt, d, hd⟩ := h.held c hc hneg
    obtain ⟨d', hd', _⟩ := hkeeps _ d hd
    exact ⟨hlt, d', hd'⟩
  closed := h.closed
  opened := by
    intro c hc hpos hvalid
    obtain ⟨⟨d, hd, hfile⟩, hapart⟩ := h.opened c hc hpos hvalid
    obtain ⟨d', hd', hsame⟩ := hkeeps _ d hd
    exact ⟨⟨d', hd', hsame.trans hfile⟩, hapart⟩

theorem Fds.fileOf_keeps {s : State} (h : Fds s) {k : Kernel} {c : FileChunk}
    (hc : c ∈ s.of.fileChunks) (hkeeps : c.chunkFd < 0 → s.k.Keeps k (-c.chunkFd).toNat) :
    fileOf k c = fileOf s.k c :=
  Vbs.fileOf_keeps (fun hneg => (h.held c hc hneg).2) hkeeps

theorem Inv.advance {ps : List (List UInt8)} {s : State} (h : Inv ps s) {k : Kernel} {fp : Nat}
    (hcontent : k.content = s.k.content) (hkeeps : ∀ fd, s.k.Keeps k fd)
    (hfp : s.of.filePointer ≤ fp) : Inv ps ⟨{ s.of with filePointer := fp }, k⟩ where
  chunks := by
    rw [← h.chunks]
    exact List.map_congr_left fun c hc =>
      view_congr hcontent (h.fds.fileOf_keeps hc fun _ => hkeeps _)
  fileSize := h.fileSize
  fds := h.fds.advance hkeeps
  placed := Nat.le_trans h.placed hfp

theorem closeChunk_chunkFd (k : Kernel) (c : FileChunk) (h : 0 ≤ (c.closeChunk k).1.chunkFd) :
    (c.closeChunk k).1.chunkFd = invalidFileDescriptor := by
  rw [FileChunk.closeChunk] at h ⊢
  split at h
  · rename_i hopen
    rw [if_pos hopen]
  · rename_i hopen
    rw [if_neg hopen]
    exact Decidable.byContradiction fun hne => hopen ⟨h, hne⟩

theorem closeChunk_neg {k : Kernel} {c : FileChunk} (h : (c.closeChunk k).1.chunkFd < 0) :
    (c.closeChunk k).1 = c := by
  rw [FileChunk.closeChunk] at h ⊢
  split at h
  · exact absurd (show invalidFileDescriptor < 0 from h) (by decide)
  · rename_i hopen
    rw [if_neg hopen]

theorem closeChunk_log (k : Kernel) (c : FileChunk) : (c.closeChunk k).2.log = k.log := by
  rw [FileChunk.closeChunk]
  split <;> rfl

theorem closeChunk_content (k : Kernel) (c : FileChunk) : (c.closeChunk k).2.content = k.content := by
  rw [FileChunk.closeChunk]
  split <;> rfl

/-- Closing the current chunk leaves the others their files. -/
theorem Fds.keeps_closed {s : State} (h : Fds s) {c : FileChunk}
    (hc : s.of.fileChunks[s.of.chunkPtr]? = some c) {d : FileChunk} (hd : d ∈ s.of.fileChunks)
    (hneg : d.chunkFd < 0) : s.k.Keeps (c.closeChunk s.k).2 (-d.chunkFd).toNat := by
  rw [FileChunk.closeChunk]
  split
  · rename_i hopen
    have hne := (h.opened c hc hopen.1 hopen.2).2 d hd hneg
    exact keeps_close (by omega)
  · exact Kernel.Keeps.refl _ _

/-- The current chunk is closed and the iterator put elsewhere. -/
theorem Fds.close {s : State} (h : Fds s) {c : FileChunk}
    (hc : s.of.fileChunks[s.of.chunkPtr]? = some c) (fp j : Nat) :
    Fds ⟨⟨fp, s.of.fileSize, s.of.fileChunks.set s.of.chunkPtr (c.closeChunk s.k).1, j⟩,
      (c.closeChunk s.k).2⟩ := by
  refine ⟨?_, ?_, ?_⟩
  · intro d hd hneg
    have hmem : d ∈ s.of.fileChunks := by
      rcases List.mem_or_eq_of_mem_set hd with hmem | rfl
      · exact hmem
      · rw [closeChunk_neg hneg]
        exact List.mem_of_getElem? hc
    obtain ⟨hlt, e, he⟩ := h.held d hmem hneg
    obtain ⟨e', he', _⟩ := h.keeps_closed hc hmem hneg e he
    exact ⟨hlt, e', he'⟩
  · intro i d hd _ hpos
    by_cases hi : s.of.chunkPtr = i
    · subst hi
      rw [List.getElem?_set_self (List.getElem?_eq_some_iff.mp hc).1] at hd
      obtain rfl := Option.some.inj hd
      exact closeChunk_chunkFd _ _ hpos
    · rw [List.getElem?_set_ne hi] at hd
      exact h.closed i d hd (Ne.symm hi) hpos
  · intro d hd hpos hvalid
    refine absurd ?_ hvalid
    by_cases hi : s.of.chunkPtr = j
    · subst hi
      rw [List.getElem?_set_self (List.getElem?_eq_some_iff.mp hc).1] at hd
      obtain rfl := Option.some.inj hd
      exact closeChunk_chunkFd _ _ hpos
    · rw [List.getElem?_set_ne hi] at hd
      exact h.closed j d hd (Ne.symm hi) hpos

theorem fileOf_closeChunk (k k' : Kernel) (c : FileChunk) :
    fileOf k' (c.closeChunk k).1 = fileOf k' c := by
  rw [FileChunk.closeChunk]
  split
  · rename_i hopen
    exact fileOf_chunkFd hopen.1 (by decide)
  · rfl

theorem Inv.close {ps : List (List UInt8)} {s : State} (h : Inv ps s) {c : FileChunk}
    (hc : s.of.fileChunks[s.of.chunkPtr]? = some c) {fp j : Nat}
    (hplaced : (ps.take j).flatten.length ≤ fp) :
    Inv ps ⟨⟨fp, s.of.fileSize, s.of.fileChunks.set s.of.chunkPtr (c.closeChunk s.k).1, j⟩,
      (c.closeChunk s.k).2⟩ := by
  have hview : view (c.closeChunk s.k).2 (c.closeChunk s.k).1 = view (c.closeChunk s.k).2 c := by
    rw [FileChunk.closeChunk]
    split
    · rename_i hopen
      exact view_chunkFd hopen.1 (by decide)
    · rfl
  refine ⟨?_, h.fileSize, h.fds.close hc fp j, hplaced⟩
  rw [← h.chunks]
  exact map_set_congr hc (fun d hd => view_congr (closeChunk_content s.k c)
    (h.fds.fileOf_keeps hd (h.fds.keeps_closed hc hd))) hview

theorem keeps_fresh {k : Kernel} {fd fd' : Nat} (d' : Descr) (log : List SysCall)
    (hfresh : k.table fd' = none) :
    k.Keeps ⟨k.content, Function.update k.table fd' (some d'), log⟩ fd := by
  intro d hd
  have hne : fd ≠ fd' := by
    intro heq
    rw [heq, hfresh] at hd
    cases hd
  exact ⟨d, (Function.update_of_ne hne ..).trans hd, rfl⟩

/-- A free descriptor is put on the current chunk's file. -/
theorem Fds.put {s : State} (h : Fds s) {c : FileChunk}
    (hc : s.of.fileChunks[s.of.chunkPtr]? = some c) {fd : Nat} (hfresh : s.k.table fd = none)
    (log : List SysCall) :
    Fds ⟨{ s.of with fileChunks := s.of.fileChunks.set s.of.chunkPtr { c with chunkFd := fd } },
      ⟨s.k.content, Function.update s.k.table fd (some ⟨c.pathToChunk, 0⟩), log⟩⟩ := by
  have hold {d : FileChunk} (hd : d ∈ s.of.fileChunks.set s.of.chunkPtr { c with chunkFd := fd })
      (hneg : d.chunkFd < 0) : d ∈ s.of.fileChunks := by
    rcases List.mem_or_eq_of_mem_set hd with hmem | rfl
    · exact hmem
    · exact absurd hneg (Int.not_lt.mpr (Int.natCast_nonneg fd))
  refine ⟨?_, ?_, ?_⟩
  · intro d hd hneg
    obtain ⟨hlt, e, he⟩ := h.held d (hold hd hneg) hneg
    obtain ⟨e', he', _⟩ := keeps_fresh ⟨c.pathToChunk, 0⟩ log hfresh e he
    exact ⟨hlt, e', he'⟩
  · intro i d hd hi hpos
    rw [List.getElem?_set_ne (Ne.symm hi)] at hd
    exact h.closed i d hd hi hpos
  · intro d hd _ _
    rw [List.getElem?_set_self (List.getElem?_eq_some_iff.mp hc).1] at hd
    obtain rfl := Option.some.inj hd
    refine ⟨⟨_, Function.update_self .., rfl⟩, ?_⟩
    intro c' hc' hneg heq
    obtain ⟨_, e, he⟩ := h.held c' (hold hc' hneg) hneg
    have hfd : (-c'.chunkFd).toNat = fd := by
      rw [heq]
      simp
    rw [hfd, hfresh] at he
    cases he

theorem set_current {s : State} {c : FileChunk} (hc : s.of.fileChunks[s.of.chunkPtr]? = some c) :
    s.of.fileChunks.set s.of.chunkPtr c = s.of.fileChunks := by
  obtain ⟨hlt, heq⟩ := List.getElem?_eq_some_iff.mp hc
  rw [← heq, List.set_getElem_self]

/-- What `open_chunk` did to the current chunk: nothing but to its descriptor. -/
structure OpenDone (s : State) (c : FileChunk) (realfd : Int) (c' : FileChunk) (k' : Kernel) :
    Prop where
  fds : Fds ⟨{ s.of with fileChunks := s.of.fileChunks.set s.of.chunkPtr c' }, k'⟩
  same : ∃ fd, c' = { c with chunkFd := fd } ∧ (fd = c.chunkFd ∨ 0 ≤ c.chunkFd ∧ 0 ≤ fd)
  content : k'.content = s.k.content
  keeps : ∀ fd, s.k.Keeps k' fd
  log : ∃ new, k'.log = s.k.log ++ new ∧
    (realfd = invalidFileDescriptor → ∃ path, SysCall.opened path none ∈ new)
  file : realfd ≠ invalidFileDescriptor →
    ∃ d, k'.table realfd.toNat = some d ∧ fileOf s.k c = some d.file

/-- After `open_chunk`: the current chunk's file is open at the descriptor, or an
open was refused. -/
theorem Fds.open {os : Os} {s : State} (h : Fds s) {c : FileChunk}
    (hc : s.of.fileChunks[s.of.chunkPtr]? = some c) {realfd : Int} {c' : FileChunk} {k' : Kernel}
    (hopen : c.openChunk os s.k = (realfd, c', k')) : OpenDone s c realfd c' k' := by
  have hmem := List.mem_of_getElem? hc
  by_cases hinv : c.chunkFd = invalidFileDescriptor
  · have hnonneg : 0 ≤ c.chunkFd := by
      rw [hinv]
      decide
    have hpath : fileOf s.k c = some c.pathToChunk := if_neg (Int.not_lt.mpr hnonneg)
    cases hos : os.opens s.k c.pathToChunk with
    | none =>
      simp only [FileChunk.openChunk, hinv, if_true, Kernel.openRead, hos] at hopen
      obtain ⟨rfl, rfl, rfl⟩ := hopen
      refine ⟨?_, ⟨_, rfl, .inl hinv.symm⟩, rfl, fun _ => Kernel.Keeps.refl _ _,
        ⟨[.opened c.pathToChunk none], rfl, fun _ => ⟨_, List.mem_singleton_self _⟩⟩,
        fun hne => absurd rfl hne⟩
      rw [← hinv, set_current hc]
      exact h.advance fun fd => Kernel.Keeps.refl s.k fd
    | some fd =>
      obtain ⟨hfresh, hlt⟩ := os.opens_fresh _ _ _ hos
      have hnn : ¬ (fd : Int) < 0 := Int.not_lt.mpr (Int.natCast_nonneg fd)
      simp only [FileChunk.openChunk, hinv, if_true, Kernel.openRead, hos, hnn, if_false] at hopen
      obtain ⟨rfl, rfl, rfl⟩ := hopen
      refine ⟨h.put hc hfresh _, ⟨_, rfl, .inr ⟨hnonneg, Int.natCast_nonneg fd⟩⟩, rfl,
        fun _ => keeps_fresh _ _ hfresh,
        ⟨[.opened c.pathToChunk (some fd)], rfl, fun heq => by omega⟩,
        fun _ => ⟨_, Function.update_self .., hpath⟩⟩
  · simp only [FileChunk.openChunk, hinv, if_false, Prod.mk.injEq] at hopen
    obtain ⟨hfd, rfl, rfl⟩ := hopen
    refine ⟨?_, ⟨_, rfl, .inl rfl⟩, rfl, fun _ => Kernel.Keeps.refl _ _,
      ⟨[], (List.append_nil _).symm, ?_⟩, ?_⟩
    · rw [set_current hc]
      exact h
    · intro heq
      by_cases hneg : c.chunkFd < 0
      · rw [if_pos hneg] at hfd
        have := (h.held c hmem hneg).1
        omega
      · rw [if_neg hneg] at hfd
        exact absurd (hfd.trans heq) hinv
    · intro _
      by_cases hneg : c.chunkFd < 0
      · rw [if_pos hneg] at hfd
        obtain ⟨_, d, hd⟩ := h.held c hmem hneg
        refine ⟨d, hfd ▸ hd, ?_⟩
        simp only [fileOf, hneg, if_true, hd, Option.map_some]
      · rw [if_neg hneg] at hfd
        obtain ⟨⟨d, hd, hfile⟩, _⟩ := h.opened c hc (Int.not_lt.mp hneg) hinv
        refine ⟨d, hfd ▸ hd, ?_⟩
        simp only [fileOf, hneg, if_false, hfile]

theorem OpenDone.fileOf_same {s : State} {c c' : FileChunk} {realfd : Int} {k' : Kernel}
    (h : OpenDone s c realfd c' k') (k : Kernel) : fileOf k c' = fileOf k c := by
  obtain ⟨fd, rfl, hfd | ⟨hc, hnonneg⟩⟩ := h.same
  · rw [hfd]
  · exact fileOf_chunkFd hc hnonneg

theorem Inv.open {ps : List (List UInt8)} {os : Os} {s : State} (h : Inv ps s) {c : FileChunk}
    (hc : s.of.fileChunks[s.of.chunkPtr]? = some c) {realfd : Int} {c' : FileChunk} {k' : Kernel}
    (hopen : c.openChunk os s.k = (realfd, c', k')) :
    Inv ps ⟨{ s.of with fileChunks := s.of.fileChunks.set s.of.chunkPtr c' }, k'⟩ ∧
      c'.chunkOffset = c.chunkOffset ∧ c'.chunkPos = c.chunkPos ∧ k'.content = s.k.content ∧
      ∃ new, k'.log = s.k.log ++ new ∧
        (realfd = invalidFileDescriptor → ∃ path, SysCall.opened path none ∈ new) ∧
        (realfd ≠ invalidFileDescriptor → ∃ d, k'.table realfd.toNat = some d ∧
          payload s.k c = slice (s.k.content d.file) c.chunkPos c.chunkSize) := by
  have hdone := h.fds.open hc hopen
  obtain ⟨new, hlog, hrefused⟩ := hdone.log
  obtain ⟨fd, hfd, -⟩ := hdone.same
  refine ⟨⟨?_, h.fileSize, hdone.fds, h.placed⟩, by rw [hfd], by rw [hfd], hdone.content, new, hlog,
    hrefused, fun hne => ?_⟩
  · rw [← h.chunks]
    refine map_set_congr hc (fun d hd => view_congr hdone.content
      (h.fds.fileOf_keeps hd fun _ => hdone.keeps _)) ?_
    have hsame := hdone.fileOf_same k'
    rw [hfd] at hsame ⊢
    simp only [view, payload, hsame]
  · obtain ⟨d, hd, hfile⟩ := hdone.file hne
    refine ⟨d, hd, ?_⟩
    rw [payload, hfile]

/-! ## One turn of the loop -/

/-- What a call did, given the system calls it made: bytes from the pointer on,
fewer than wanted only at the end or when an open was refused, and no exception
but for a failed read. -/
structure Delivered (ps : List (List UInt8)) (s t : State) (n : Nat) : Prop where
  inv : Inv ps t
  pointer : t.of.filePointer = s.of.filePointer + n
  within : s.of.filePointer + n ≤ ps.flatten.length ∨ n = 0

def turns (s : State) (nr : Nat) : Nat := nr + (s.of.fileChunks.length - s.of.chunkPtr)

def ReadStep.Sound (ps : List (List UInt8)) (s : State) (nr : Nat) (buf : List UInt8) :
    ReadStep → Prop
  | .more nr' buf' t => ∃ m new, m ≤ nr ∧ nr' = nr - m ∧
      buf' = buf ++ slice ps.flatten s.of.filePointer m ∧ Delivered ps s t m ∧
      t.k.log = s.k.log ++ new ∧ turns t nr' < turns s nr
  | .stop r t => ∃ new, Delivered ps s t 0 ∧ t.k.log = s.k.log ++ new ∧
      ((r = .read buf ∧ (ps.flatten.length ≤ s.of.filePointer ∨
          ∃ path, SysCall.opened path none ∈ new)) ∨
        (r = .vbsExcept ∧ ∃ fd, SysCall.read fd none ∈ new))

/-- The seek and the read on an open descriptor: a failure, or some of what is
there, and something if there is anything. -/
theorem lseek_read {os : Os} {k k' : Kernel} {fd n : Nat} {pos : Int} {d : Descr}
    (hd : k.table fd = some d) (hpos : 0 ≤ pos) {res : Option (List UInt8)}
    (hread : (k.lseek fd pos).read os fd n = (res, k')) :
    k'.content = k.content ∧ (∀ fd', k.Keeps k' fd') ∧
      ((res = none ∧ k'.log = k.log ++ [.read fd none]) ∨
        ∃ m, res = some (slice (k.content d.file) pos.toNat m) ∧
          m ≤ min n ((k.content d.file).length - pos.toNat) ∧
          (0 < min n ((k.content d.file).length - pos.toNat) → 0 < m) ∧
          k'.log = k.log ++ [.read fd (some m)]) := by
  simp only [Kernel.lseek, hd, hpos, if_true, Kernel.read, Function.update_self] at hread
  split at hread
  · obtain ⟨rfl, rfl⟩ := hread
    exact ⟨rfl, fun _ => keeps_update hd, .inl ⟨rfl, rfl⟩⟩
  · rename_i m hm
    obtain ⟨rfl, rfl⟩ := hread
    obtain ⟨hle, hsome⟩ := os.reads_some _ _ _ hm
    refine ⟨rfl, fun fd' => ?_, .inr ⟨m, rfl, hle, hsome, rfl⟩⟩
    rw [Function.update_idem]
    exact keeps_update hd

theorem offT_of_lt {n : Nat} (h : n < 2 ^ 63) : offT n = n := by
  rw [offT, Int.bmod_eq_of_le] <;> omega

/-- The payload of a chunk, read at the place the pointer has in it. -/
theorem payload_slice {ps : List (List UInt8)} {i fp m pos size : Nat} {p file : List UInt8}
    (hp : ps[i]? = some p) (hpay : p = slice file pos size)
    (hoff : (ps.take i).flatten.length ≤ fp) (hm : fp + m ≤ (ps.take i).flatten.length + p.length) :
    slice file (fp - (ps.take i).flatten.length + pos) m = slice ps.flatten fp m := by
  rw [slice_flatten hp hoff hm]
  have hlen : p.length ≤ size := by
    rw [hpay, length_slice]
    exact Nat.min_le_left _ _
  have hfit : fp - (ps.take i).flatten.length + m ≤ size := by omega
  rw [hpay, slice_slice _ hfit, Nat.add_comm]

/-- How much is asked for: something, of what is left of the chunk. -/
theorem request_spec {nr off size fp : Nat} (h : ¬min (nr : Int) ((off : Int) + size - fp) ≤ 0) :
    ∃ n, (min (nr : Int) ((off : Int) + size - fp)).toNat = n ∧ 0 < n ∧ n ≤ nr ∧
      fp + n ≤ off + size := by
  rcases Int.le_total nr ((off : Int) + size - fp) with hle | hle
  · rw [Int.min_eq_left hle] at h ⊢
    exact ⟨nr, Int.toNat_natCast nr, by omega, Nat.le_refl _, by omega⟩
  · rw [Int.min_eq_right hle] at h ⊢
    exact ⟨_, rfl, by omega, by omega, by omega⟩

theorem readStep_sound {ps : List (List UInt8)} (os : Os) {s : State} (h : Inv ps s) {nr : Nat}
    (hnr : 0 < nr) (hmax : nr < 2 ^ 63) (buf : List UInt8) :
    (readStep os nr buf s).Sound ps s nr buf := by
  cases hc : s.of.fileChunks[s.of.chunkPtr]? with
  | none =>
    have hend : ps.take s.of.chunkPtr = ps := by
      rw [List.take_of_length_le]
      rw [← h.length_eq]
      exact List.getElem?_eq_none_iff.mp hc
    have hpast := h.placed
    rw [hend] at hpast
    simp only [readStep, hc]
    exact ⟨[], ⟨h, rfl, .inr rfl⟩, (List.append_nil _).symm, .inl ⟨rfl, .inl hpast⟩⟩
  | some c =>
    obtain ⟨p, hp, hpay, hsize, hoff⟩ := h.at hc
    have hlt := (List.getElem?_eq_some_iff.mp hc).1
    have hplaced := h.placed
    by_cases hskip : min (offT nr) ((c.chunkOffset : Int) + c.chunkSize - s.of.filePointer) ≤ 0
    · -- this chunk lies before the pointer
      have hnext : (ps.take (s.of.chunkPtr + 1)).flatten.length ≤ s.of.filePointer := by
        rw [length_take_succ_flatten hp, ← hoff, ← hsize]
        rw [offT_of_lt hmax] at hskip
        omega
      have hinv := h.close hc hnext
      simp only [readStep, hc, hskip, if_true]
      refine ⟨0, [], Nat.zero_le _, rfl, by simp, ⟨hinv, rfl, .inr rfl⟩, ?_, ?_⟩
      · rw [closeChunk_log, List.append_nil]
      · simp only [turns, List.length_set]
        omega
    · rw [offT_of_lt hmax] at hskip
      obtain ⟨n, hn, hnpos, hnle, hfit⟩ := request_spec hskip
      obtain ⟨realfd, c', k', hopen⟩ : ∃ r c' k', c.openChunk os s.k = (r, c', k') := ⟨_, _, _, rfl⟩
      obtain ⟨hinv, hoff', hpos', hcontent, new, hlog, hrefused, hfile⟩ := h.open hc hopen
      simp only [readStep, hc, offT_of_lt hmax, hskip, if_false, hopen, hoff', hpos', hn]
      clear hskip hn hopen
      by_cases hfd : realfd = invalidFileDescriptor
      · simp only [hfd, if_true]
        exact ⟨new, ⟨hinv, rfl, .inr rfl⟩, hlog, .inl ⟨rfl, .inr (hrefused hfd)⟩⟩
      · simp only [hfd, if_false]
        obtain ⟨d, hd, hpayload⟩ := hfile hfd
        rw [hpay] at hpayload
        have hheld : c.chunkPos + c.chunkSize ≤ (k'.content d.file).length := by
          have hlen := congrArg List.length hpayload
          rw [length_slice] at hlen
          rw [hcontent]
          omega
        have hstart : ((s.of.filePointer : Int) - c.chunkOffset + c.chunkPos).toNat =
            s.of.filePointer - (ps.take s.of.chunkPtr).flatten.length + c.chunkPos := by
          clear hheld hnle
          omega
        cases hread : (k'.lseek realfd.toNat ((s.of.filePointer : Int) - c.chunkOffset +
          c.chunkPos)).read os realfd.toNat n with
        | mk res k'' =>
          obtain ⟨hcontent', hkeeps, hres⟩ := lseek_read hd (by omega) hread
          rcases hres with ⟨rfl, hlog'⟩ | ⟨m, rfl, hle, hsome, hlog'⟩
          · refine ⟨new ++ [.read realfd.toNat none], ⟨?_, rfl, .inr rfl⟩, ?_,
              .inr ⟨rfl, realfd.toNat, ?_⟩⟩
            · exact hinv.advance hcontent' hkeeps (Nat.le_refl _)
            · rw [hlog', hlog, List.append_assoc]
            · exact List.mem_append_right _ (List.mem_singleton_self _)
          · rw [hstart] at hle hsome
            have hmn : m ≤ n := Nat.le_trans hle (Nat.min_le_left _ _)
            have hroom : s.of.filePointer - (ps.take s.of.chunkPtr).flatten.length + c.chunkPos <
                (k'.content d.file).length := by
              clear hread hle hsome
              omega
            have hmpos : 0 < m := hsome (Nat.lt_min.mpr ⟨hnpos, Nat.sub_pos_of_lt hroom⟩)
            clear hread hle hsome hroom hheld
            have hm : s.of.filePointer + m ≤
                (ps.take s.of.chunkPtr).flatten.length + p.length := by omega
            have hbytes : slice (k'.content d.file) ((s.of.filePointer : Int) - c.chunkOffset +
                c.chunkPos).toNat m = slice ps.flatten s.of.filePointer m := by
              rw [hstart, hcontent]
              exact payload_slice hp hpayload hplaced hm
            have hwithin : s.of.filePointer + m ≤ ps.flatten.length := by
              have hall := length_take_flatten_le ps (s.of.chunkPtr + 1)
              rw [length_take_succ_flatten hp] at hall
              omega
            have hlength : (slice ps.flatten s.of.filePointer m).length = m := by
              rw [length_slice]
              omega
            simp only [hbytes, hlength]
            refine ⟨m, new ++ [.read realfd.toNat (some m)], Nat.le_trans hmn hnle, rfl, rfl,
              ⟨?_, rfl, .inl hwithin⟩, ?_, ?_⟩
            · exact hinv.advance hcontent' hkeeps (Nat.le_add_right _ _)
            · rw [hlog', hlog, List.append_assoc]
            · simp only [turns, List.length_set]
              omega

/-! ## Whole calls -/

/-- `vbs_read` of `n` bytes that returns. -/
def ReadDone (ps : List (List UInt8)) (s : State) (nr : Nat) (buf : List UInt8) (r : Reply)
    (t : State) : Prop :=
  ∃ n new, n ≤ nr ∧ Delivered ps s t n ∧ t.k.log = s.k.log ++ new ∧
    ((r = .read (buf ++ slice ps.flatten s.of.filePointer n) ∧
        (n < nr → ps.flatten.length ≤ s.of.filePointer + n ∨
          ∃ path, SysCall.opened path none ∈ new)) ∨
      (r = .vbsExcept ∧ ∃ fd, SysCall.read fd none ∈ new))

theorem ReadDone.of_more {ps : List (List UInt8)} {s s' t : State} {nr nr' : Nat}
    {buf buf' : List UInt8} {r : Reply} (h : (ReadStep.more nr' buf' s').Sound ps s nr buf)
    (k : ReadDone ps s' nr' buf' r t) : ReadDone ps s nr buf r t := by
  obtain ⟨m, new, hm, rfl, rfl, hs, hlog, _⟩ := h
  obtain ⟨n, new', hn, ht, hlog', hres⟩ := k
  refine ⟨m + n, new ++ new', by omega, ⟨ht.inv, ?_, ?_⟩, ?_, ?_⟩
  · rw [ht.pointer, hs.pointer, Nat.add_assoc]
  · have hs' := hs.within
    have ht' := ht.within
    rw [hs.pointer] at ht'
    omega
  · rw [hlog', hlog, List.append_assoc]
  · rcases hres with ⟨rfl, hshort⟩ | ⟨rfl, fd, hfail⟩
    · refine .inl ⟨?_, fun hlt => ?_⟩
      · rw [hs.pointer, List.append_assoc, slice_append_slice]
      · rcases hshort (by omega) with hend | ⟨path, hpath⟩
        · rw [hs.pointer] at hend
          exact .inl (by omega)
        · exact .inr ⟨path, List.mem_append_right _ hpath⟩
    · exact .inr ⟨rfl, fd, List.mem_append_right _ hfail⟩

theorem readLoop_sound {ps : List (List UInt8)} (os : Os) (fuel : Nat) {s : State} (h : Inv ps s)
    {nr : Nat} (hmax : nr < 2 ^ 63) (buf : List UInt8) :
    (turns s nr < fuel → (readLoop os fuel nr buf s).isSome) ∧
      ∀ r t, readLoop os fuel nr buf s = some (r, t) → ReadDone ps s nr buf r t := by
  induction fuel generalizing s nr buf with
  | zero => exact ⟨fun hlt => absurd hlt (Nat.not_lt_zero _), fun r t hr => nomatch hr⟩
  | succ fuel ih =>
    by_cases hnr : nr = 0
    · subst hnr
      simp only [readLoop, if_true, Option.isSome_some, implies_true, true_and]
      rintro r t ⟨⟩
      exact ⟨0, [], Nat.le_refl _, ⟨h, rfl, .inr rfl⟩, by simp, .inl ⟨by simp, nofun⟩⟩
    · have hstep := readStep_sound os h (Nat.pos_of_ne_zero hnr) hmax buf
      simp only [readLoop, hnr, if_false]
      cases hout : readStep os nr buf s with
      | stop r t =>
        rw [hout] at hstep
        obtain ⟨new, hd, hlog, hres⟩ := hstep
        simp only [Option.isSome_some, implies_true, true_and]
        rintro r' t' ⟨⟩
        refine ⟨0, new, Nat.zero_le _, hd, hlog, ?_⟩
        rcases hres with ⟨rfl, hend⟩ | hfail
        · exact .inl ⟨by simp, fun _ => hend⟩
        · exact .inr hfail
      | more nr' buf' s' =>
        rw [hout] at hstep
        obtain ⟨m, new, hm, hnr', hbuf, hd, hlog, hturns⟩ := hstep
        obtain ⟨hsome, hdone⟩ := @ih s' hd.inv nr' (by omega) buf'
        refine ⟨fun hlt => hsome (by omega), fun r t hr => ?_⟩
        exact .of_more ⟨m, new, hm, hnr', hbuf, hd, hlog, hturns⟩ (hdone r t hr)

theorem vbsRead_sound {ps : List (List UInt8)} (os : Os) (fuel : Nat) {s : State} (h : Inv ps s)
    {count : Nat} (hmax : count < 2 ^ 63) :
    (count + ps.length < fuel → (vbsRead os fuel s count).isSome) ∧
      ∀ r t, vbsRead os fuel s count = some (r, t) → ReadDone ps s count [] r t := by
  have hnothing : ReadDone ps s 0 [] (.read []) s :=
    ⟨0, [], Nat.le_refl _, ⟨h, rfl, .inr rfl⟩, by simp, .inl ⟨by simp, nofun⟩⟩
  rw [vbsRead]
  split
  · rename_i hcount
    subst hcount
    refine ⟨fun _ => rfl, ?_⟩
    rintro r t ⟨⟩
    exact ⟨0, [], Nat.le_refl _, ⟨h, rfl, .inr rfl⟩, by simp, .inl ⟨by simp, nofun⟩⟩
  split
  · rename_i hempty
    have hps : ps = [] := List.eq_nil_of_length_eq_zero (h.length_eq ▸ hempty)
    have hsize : s.of.fileSize = 0 := by rw [h.fileSize, hps]; rfl
    have hnone : min count (s.of.fileSize - s.of.filePointer) = 0 := by rw [hsize]; simp
    simp only [hnone, List.replicate_zero, Nat.add_zero]
    refine ⟨fun _ => rfl, ?_⟩
    rintro r t ⟨⟩
    refine ⟨0, [], Nat.zero_le _, ⟨h, rfl, .inr rfl⟩, by simp, .inl ⟨by simp, fun _ => .inl ?_⟩⟩
    simp [hps]
  split
  · rename_i hend
    have hpast := h.placed
    rw [hend, h.length_eq, List.take_length] at hpast
    refine ⟨fun _ => rfl, ?_⟩
    rintro r t ⟨⟩
    exact ⟨0, [], Nat.zero_le _, ⟨h, rfl, .inr rfl⟩, by simp, .inl ⟨by simp, fun _ => .inl hpast⟩⟩
  · obtain ⟨hsome, hdone⟩ := readLoop_sound os fuel h hmax []
    refine ⟨fun hlt => hsome ?_, hdone⟩
    rw [turns, h.length_eq]
    omega

/-- Every chunk before the first that reaches the pointer ends before it. -/
theorem findIdx_placed {ps : List (List UInt8)} {s : State} (h : Inv ps s) (fp : Nat) :
    (ps.take (s.of.fileChunks.findIdx fun c =>
      decide ((fp : Int) ≤ c.chunkOffset + c.chunkSize))).flatten.length ≤ fp := by
  generalize hi : s.of.fileChunks.findIdx _ = i
  cases i with
  | zero => simp
  | succ j =>
    have hle : j < s.of.fileChunks.length := by
      have hbound := @List.findIdx_le_length _
        (fun c : FileChunk => decide ((fp : Int) ≤ c.chunkOffset + c.chunkSize)) s.of.fileChunks
      omega
    have hnot := @List.not_of_lt_findIdx _ (fun c : FileChunk =>
      decide ((fp : Int) ≤ c.chunkOffset + c.chunkSize)) s.of.fileChunks j (by omega)
    obtain ⟨p, hp, _, hsize, hoff⟩ := h.at (List.getElem?_eq_getElem hle)
    rw [length_take_succ_flatten hp, ← hoff, ← hsize]
    have hbefore : ¬ (fp : Int) ≤ s.of.fileChunks[j].chunkOffset + s.of.fileChunks[j].chunkSize := by
      simpa using hnot
    omega

/-- The iterator stays, or leaves the end. -/
theorem Fds.move {s : State} (h : Fds s) {fp j : Nat}
    (hj : s.of.chunkPtr = j ∨ s.of.fileChunks[s.of.chunkPtr]? = none) :
    Fds ⟨{ s.of with filePointer := fp, chunkPtr := j }, s.k⟩ := by
  rcases hj with rfl | hend
  · exact ⟨h.held, h.closed, h.opened⟩
  · have hall (i : Nat) (c : FileChunk) (hc : s.of.fileChunks[i]? = some c) (hpos : 0 ≤ c.chunkFd) :
        c.chunkFd = invalidFileDescriptor := by
      refine h.closed i c hc (fun hi => ?_) hpos
      rw [hi, hend] at hc
      cases hc
    exact ⟨h.held, fun i c hc _ => hall i c hc,
      fun c hc hpos hvalid => absurd (hall j c hc hpos) hvalid⟩

theorem Inv.move {ps : List (List UInt8)} {s : State} (h : Inv ps s) {fp j : Nat}
    (hj : s.of.chunkPtr = j ∨ s.of.fileChunks[s.of.chunkPtr]? = none)
    (hplaced : (ps.take j).flatten.length ≤ fp) :
    Inv ps ⟨{ s.of with filePointer := fp, chunkPtr := j }, s.k⟩ :=
  ⟨h.chunks, h.fileSize, h.fds.move hj, hplaced⟩

theorem seekTo_sound {ps : List (List UInt8)} {s : State} (h : Inv ps s) {newfp : Int}
    (hnn : 0 ≤ newfp) : (seekTo s newfp).1 = .seek newfp ∧
      ((seekTo s newfp).2.of.filePointer : Int) = newfp ∧ Inv ps (seekTo s newfp).2 := by
  obtain ⟨fp, rfl⟩ := Int.eq_ofNat_of_zero_le hnn
  have hneg : ¬ (fp : Int) < 0 := by omega
  have hplaced := findIdx_placed h fp
  by_cases hsame : (fp : Int) = s.of.filePointer
  · simp only [seekTo, hsame, if_true]
    rw [if_neg (by omega)]
    exact ⟨rfl, rfl, h⟩
  · simp only [seekTo, hneg, hsame, if_false]
    refine ⟨trivial, Int.toNat_of_nonneg hnn, ?_⟩
    cases hc : s.of.fileChunks[s.of.chunkPtr]? with
    | none => exact h.move (.inr hc) hplaced
    | some c =>
      simp only
      split
      · exact h.close hc hplaced
      · rename_i heq
        exact h.move (.inl (Decidable.not_not.mp heq)) hplaced

/-- Where a seek wants to go. -/
def seekTarget (s : State) (offset : Int) : Whence → Option Int
  | .seekSet => some offset
  | .seekEnd => some (s.of.fileSize + offset)
  | .seekCur => some (s.of.filePointer + offset)
  | .other => none

/-- A seek either fails and leaves everything, or puts the pointer where it says. -/
theorem vbsLseek_sound {ps : List (List UInt8)} {s : State} (h : Inv ps s) (offset : Int)
    (whence : Whence) :
    (vbsLseek s offset whence = (.einval, s) ∧
        ∀ target, seekTarget s offset whence = some target → offT target < 0) ∨
      ∃ target, seekTarget s offset whence = some target ∧
        (vbsLseek s offset whence).1 = .seek (offT target) ∧
        ((vbsLseek s offset whence).2.of.filePointer : Int) = offT target ∧
        Inv ps (vbsLseek s offset whence).2 := by
  cases ht : seekTarget s offset whence with
  | none =>
    cases whence with
    | other => exact .inl ⟨rfl, nofun⟩
    | seekSet => cases ht
    | seekCur => cases ht
    | seekEnd => cases ht
  | some target =>
    have hto : vbsLseek s offset whence = seekTo s (offT target) := by
      cases whence <;> cases ht <;> rfl
    rw [hto]
    by_cases hneg : offT target < 0
    · refine .inl ⟨by simp only [seekTo, hneg, if_true], ?_⟩
      rintro _ ⟨⟩
      exact hneg
    · exact .inr ⟨target, rfl, seekTo_sound h (Int.not_lt.mp hneg)⟩

/-! ## Opening -/

/-- A scanned chunk: its file holds all of it, and a Mark6 file was left open. -/
structure Scanned (k : Kernel) (c : FileChunk) : Prop where
  complete : (payload k c).length = c.chunkSize
  held : c.chunkFd < 0 →
    -invalidFileDescriptor < c.chunkFd ∧ ∃ d, k.table (-c.chunkFd).toNat = some d

theorem lt_trans {a b c : FileChunk} (h : a.lt b = true) (k : b.lt c = true) : a.lt c = true := by
  simp only [FileChunk.lt] at h k ⊢
  grind

theorem mem_insertChunk {c d : FileChunk} {fcs : List FileChunk} (h : d ∈ insertChunk c fcs) :
    d = c ∨ d ∈ fcs := by
  induction fcs with
  | nil => exact .inl (List.mem_singleton.mp h)
  | cons e es ih =>
    simp only [insertChunk] at h
    split at h
    · exact List.mem_cons.mp h
    split at h
    · rcases List.mem_cons.mp h with rfl | hd
      · exact .inr (List.mem_cons_self ..)
      · exact (ih hd).imp_right (List.mem_cons_of_mem _)
    · exact .inr h

theorem insertChunk_sorted (c : FileChunk) {fcs : List FileChunk}
    (h : fcs.Pairwise fun a b => a.lt b = true) :
    (insertChunk c fcs).Pairwise fun a b => a.lt b = true := by
  induction h with
  | nil => exact List.pairwise_singleton ..
  | @cons d ds hd hds ih =>
    simp only [insertChunk]
    split
    · rename_i hlt
      refine .cons (fun e he => ?_) (.cons hd hds)
      rcases List.mem_cons.mp he with rfl | he
      · exact hlt
      · exact lt_trans hlt (hd e he)
    split
    · rename_i hgt
      refine .cons (fun e he => ?_) ih
      rcases mem_insertChunk he with rfl | he
      · exact hgt
      · exact hd e he
    · exact .cons hd hds

theorem scan_sorted_mem (found : List FileChunk) :
    (scan found).Pairwise (fun a b => a.lt b = true) ∧ ∀ c ∈ scan found, c ∈ found := by
  suffices h : ∀ fcs : List FileChunk, fcs.Pairwise (fun a b => a.lt b = true) →
      (found.foldl (fun fcs c => insertChunk c fcs) fcs).Pairwise (fun a b => a.lt b = true) ∧
        ∀ c ∈ found.foldl (fun fcs c => insertChunk c fcs) fcs, c ∈ found ∨ c ∈ fcs by
    obtain ⟨hsorted, hmem⟩ := h [] .nil
    exact ⟨hsorted, fun c hc => (hmem c hc).resolve_right (List.not_mem_nil)⟩
  induction found with
  | nil => exact fun fcs h => ⟨h, fun c hc => .inr hc⟩
  | cons d ds ih =>
    intro fcs h
    obtain ⟨hsorted, hmem⟩ := ih _ (insertChunk_sorted d h)
    refine ⟨hsorted, fun c hc => ?_⟩
    rcases hmem c hc with hc | hc
    · exact .inl (List.mem_cons_of_mem _ hc)
    · rcases mem_insertChunk hc with rfl | hc
      · exact .inl (List.mem_cons_self ..)
      · exact .inr hc

theorem payload_copy (k : Kernel) (c : FileChunk) : payload k c.copy = payload k c := by
  by_cases h : c.chunkFd < 0
  · simp only [FileChunk.copy, h, if_true]
  · simp only [FileChunk.copy, h, if_false, payload, fileOf]
    rfl

theorem setOffsets_chunkFd {cs : List FileChunk} {o : Nat} {c : FileChunk}
    (h : c ∈ (setOffsets o cs).1) : ∃ c₀ ∈ cs, c.chunkFd = c₀.chunkFd := by
  induction cs generalizing o with
  | nil => cases h
  | cons d cs ih =>
    rcases List.mem_cons.mp h with rfl | hc
    · exact ⟨d, List.mem_cons_self .., rfl⟩
    · obtain ⟨c₀, hmem, heq⟩ := ih hc
      exact ⟨c₀, List.mem_cons_of_mem _ hmem, heq⟩

theorem setOffsets_layout {k : Kernel} {cs : List FileChunk} (o : Nat)
    (h : ∀ c ∈ cs, (payload k c).length = c.chunkSize) :
    (setOffsets o cs).1.map (view k) = layout o (cs.map (payload k)) ∧
      (setOffsets o cs).2 = o + (cs.map (payload k)).flatten.length := by
  induction cs generalizing o with
  | nil => exact ⟨rfl, rfl⟩
  | cons c cs ih =>
    have hc := h c (List.mem_cons_self ..)
    obtain ⟨hmap, hsize⟩ := ih (o + c.chunkSize) fun d hd => h d (List.mem_cons_of_mem _ hd)
    refine ⟨?_, ?_⟩
    · have hview : view k { c with chunkOffset := o } = ⟨payload k c, (payload k c).length, o⟩ := by
        rw [hc]
        rfl
      simp only [setOffsets, List.map_cons, layout, hview, hmap, hc]
    · simp only [setOffsets, hsize, List.map_cons, List.flatten_cons, List.length_append, hc]
      omega

/-- The recording as one file. -/
def contents (k : Kernel) (fcs : List FileChunk) : List (List UInt8) := fcs.map (payload k)

/-- No chunk has a descriptor of its own yet. -/
theorem ofChunks_fds {k : Kernel} {fcs : List FileChunk}
    (h : ∀ c ∈ fcs, c.chunkFd < 0 →
      -invalidFileDescriptor < c.chunkFd ∧ ∃ d, k.table (-c.chunkFd).toNat = some d) :
    Fds ⟨OpenFile.ofChunks fcs, k⟩ := by
  have horigin : ∀ c ∈ (setOffsets 0 (fcs.map FileChunk.copy)).1,
      ∃ c₀ ∈ fcs, c.chunkFd = c₀.copy.chunkFd := by
    intro c hc
    obtain ⟨c₁, hc₁, heq⟩ := setOffsets_chunkFd hc
    obtain ⟨c₀, hc₀, rfl⟩ := List.mem_map.mp hc₁
    exact ⟨c₀, hc₀, heq⟩
  have hclosed : ∀ c ∈ (setOffsets 0 (fcs.map FileChunk.copy)).1, 0 ≤ c.chunkFd →
      c.chunkFd = invalidFileDescriptor := by
    intro c hc hpos
    obtain ⟨c₀, _, heq⟩ := horigin c hc
    rw [heq] at hpos ⊢
    simp only [FileChunk.copy] at hpos ⊢
    split at hpos
    · rename_i hneg
      exact absurd hneg (Int.not_lt.mpr hpos)
    · rename_i hneg
      rw [if_neg hneg]
  refine ⟨?_, ?_, ?_⟩
  · intro c hc hneg
    obtain ⟨c₀, hc₀, heq⟩ := horigin c hc
    have hfd₀ : c.chunkFd = c₀.chunkFd := by
      rw [heq] at hneg ⊢
      simp only [FileChunk.copy] at hneg ⊢
      split
      · rfl
      · rename_i hpos
        rw [if_neg hpos] at hneg
        exact absurd hneg (by decide)
    rw [hfd₀]
    exact h c₀ hc₀ (hfd₀ ▸ hneg)
  · exact fun i c hc _ hpos => hclosed c (List.mem_of_getElem? hc) hpos
  · exact fun c hc hpos hvalid => absurd (hclosed c (List.mem_of_getElem? hc) hpos) hvalid

theorem ofChunks_inv {k : Kernel} {fcs : List FileChunk} (h : ∀ c ∈ fcs, Scanned k c) :
    Inv (contents k fcs) ⟨OpenFile.ofChunks fcs, k⟩ := by
  have hcopy : (fcs.map FileChunk.copy).map (payload k) = contents k fcs := by
    rw [List.map_map]
    exact List.map_congr_left fun c _ => payload_copy k c
  have hlen : ∀ c ∈ fcs.map FileChunk.copy, (payload k c).length = c.chunkSize := by
    intro c hc
    obtain ⟨c₀, hc₀, rfl⟩ := List.mem_map.mp hc
    rw [payload_copy]
    exact (h c₀ hc₀).complete
  obtain ⟨hmap, hsize⟩ := setOffsets_layout 0 hlen
  rw [hcopy] at hmap hsize
  exact ⟨hmap, hsize.trans (Nat.zero_add _), ofChunks_fds fun c hc => (h c hc).held, Nat.zero_le _⟩

/-! ## Runs -/

/-- An open recording; calls come with their replies. -/
def recording (os : Os) (s₀ : State) : Machine State (Call × Reply) where
  init s := s = s₀
  step s a t := ∃ fuel, vbsCall os fuel s a.1 = some (a.2, t)

/-- A count that an `ssize_t` can return. -/
def Call.Fits : Call → Prop
  | .read count => count < 2 ^ 63
  | .lseek _ _ => True

/-- `read` of `count` bytes of a plain file with this content: the bytes at the
offset, and the offset behind them; fewer only at the end of the file, or if an
`open` was refused meanwhile. An exception means that a `read` failed. -/
def ReadsAsFile (content : List UInt8) (s : State) (count : Nat) (r : Reply) (t : State) : Prop :=
  ∃ n new, n ≤ count ∧ t.of.filePointer = s.of.filePointer + n ∧ t.k.log = s.k.log ++ new ∧
    ((r = .read (slice content s.of.filePointer n) ∧
        (slice content s.of.filePointer n).length = n ∧
        (n < count → content.length ≤ s.of.filePointer + n ∨
          ∃ path, SysCall.opened path none ∈ new)) ∨
      (r = .vbsExcept ∧ ∃ fd, SysCall.read fd none ∈ new))

theorem ReadDone.readsAsFile {ps : List (List UInt8)} {s t : State} {count : Nat} {r : Reply}
    (h : ReadDone ps s count [] r t) : ReadsAsFile ps.flatten s count r t := by
  obtain ⟨n, new, hn, hd, hlog, hres⟩ := h
  refine ⟨n, new, hn, hd.pointer, hlog, hres.imp_left fun hread => ⟨hread.1, ?_, hread.2⟩⟩
  have hwithin := hd.within
  rw [length_slice]
  omega

theorem vbsCall_inv {ps : List (List UInt8)} {os : Os} {fuel : Nat} {s t : State} (h : Inv ps s)
    {c : Call} (hfits : c.Fits) {r : Reply} (hcall : vbsCall os fuel s c = some (r, t)) :
    Inv ps t := by
  cases c with
  | read count =>
    obtain ⟨n, _, _, hd, _⟩ := (vbsRead_sound os fuel h hfits).2 r t hcall
    exact hd.inv
  | lseek offset whence =>
    have heq : vbsLseek s offset whence = (r, t) := Option.some.inj hcall
    rcases vbsLseek_sound h offset whence with ⟨hfail, _⟩ | ⟨_, _, _, _, hinv⟩
    · rw [hfail] at heq
      exact (Prod.mk.inj heq).2 ▸ h
    · rwa [heq] at hinv

theorem run_inv {ps : List (List UInt8)} {os : Os} {s₀ s t : State} {as : List (Call × Reply)}
    (h : (recording os s₀).Run s as t) (hs : Inv ps s) (has : ∀ a ∈ as, a.1.Fits) : Inv ps t := by
  induction h with
  | refl => exact hs
  | snoc _ hstep ih =>
    obtain ⟨fuel, hcall⟩ := hstep
    exact vbsCall_inv (ih fun a ha => has a (List.mem_append_left _ ha))
      (has _ (List.mem_append_right _ (List.mem_singleton_self _))) hcall

/-- After any calls on an opened recording, it reads and seeks as one file: its
chunks' payloads in increasing order. -/
theorem recording_reads_as_file {os : Os} {k : Kernel} {found : List FileChunk}
    (hfound : ∀ c ∈ found, Scanned k c) {s : State} {as : List (Call × Reply)}
    (h : (recording os ⟨OpenFile.ofChunks (scan found), k⟩).Run
      ⟨OpenFile.ofChunks (scan found), k⟩ as s) (has : ∀ a ∈ as, a.1.Fits) :
    (scan found).Pairwise (fun a b => a.lt b = true) ∧
      (∀ count, count < 2 ^ 63 → ∀ fuel, count + (scan found).length < fuel →
        ∃ r t, vbsRead os fuel s count = some (r, t) ∧
          ReadsAsFile (contents k (scan found)).flatten s count r t) ∧
      ∀ offset whence,
        (vbsLseek s offset whence = (.einval, s) ∧
            ∀ target, seekTarget s offset whence = some target → offT target < 0) ∨
          ∃ target, seekTarget s offset whence = some target ∧
            (vbsLseek s offset whence).1 = .seek (offT target) ∧
            ((vbsLseek s offset whence).2.of.filePointer : Int) = offT target := by
  obtain ⟨hsorted, hmem⟩ := scan_sorted_mem found
  have hinv : Inv (contents k (scan found)) s :=
    run_inv h (ofChunks_inv fun c hc => hfound c (hmem c hc)) has
  refine ⟨hsorted, fun count hmax fuel hfuel => ?_, fun offset whence => ?_⟩
  · obtain ⟨hsome, hdone⟩ := vbsRead_sound os fuel hinv hmax
    rw [contents, List.length_map] at hsome
    obtain ⟨⟨r, t⟩, hrt⟩ := Option.isSome_iff_exists.mp (hsome hfuel)
    exact ⟨r, t, hrt, (hdone r t hrt).readsAsFile⟩
  · rcases vbsLseek_sound hinv offset whence with hfail | ⟨target, ht, hr, hp, _⟩
    · exact .inl hfail
    · exact .inr ⟨target, ht, hr, hp⟩

/-- Call after call, with the replies. -/
def callAll (os : Os) (fuel : Nat) (s : State) : List Call → Option (List (Call × Reply) × State)
  | [] => some ([], s)
  | c :: cs =>
    match vbsCall os fuel s c with
    | none => none
    | some (r, t) => (callAll os fuel t cs).map fun (as, u) => ((c, r) :: as, u)

theorem callAll_run {os : Os} {fuel : Nat} (s₀ : State) {s t : State} {cs : List Call}
    {as : List (Call × Reply)} (h : callAll os fuel s cs = some (as, t)) :
    (recording os s₀).Run s as t := by
  induction cs generalizing s as with
  | nil =>
    obtain ⟨rfl, rfl⟩ := Prod.mk.inj (Option.some.inj h)
    exact .refl s
  | cons c cs ih =>
    simp only [callAll] at h
    split at h
    · cases h
    · rename_i r u hcall
      obtain ⟨⟨bs, v⟩, hrest, heq⟩ := Option.map_eq_some_iff.mp h
      obtain ⟨rfl, rfl⟩ := Prod.mk.inj heq
      have hstep : (recording os s₀).step s (c, r) u := ⟨fuel, hcall⟩
      exact (Machine.Run.single hstep).trans (ih hrest)

/-! ## Two chunks -/

/-- Gives out descriptor 3 and a byte at a time; refuses to open one path. -/
def Os.sparing (refused : String) : Os where
  opens k path := if path ≠ refused ∧ k.table 3 = none then some 3 else none
  reads _ n := some (min 1 n)
  opens_fresh := by
    intro k path fd h
    split at h
    · rename_i hopen
      obtain rfl := Option.some.inj h
      exact ⟨hopen.2, by decide⟩
    · cases h
  reads_some := by
    intro _ n m h
    obtain rfl := Option.some.inj h
    omega

/-- A recording of two bytes and three, scanned in the wrong order. -/
def twoChunks : List FileChunk := [.flexbuff "disk1/b" 3 1 0, .flexbuff "disk0/a" 2 0 0]

def twoFiles : Kernel where
  content path := if path = "disk0/a" then [1, 2] else [3, 4, 5]
  table _ := none
  log := []

theorem twoChunks_scanned : ∀ c ∈ twoChunks, Scanned twoFiles c := by
  intro c hc
  have hcases : c = .flexbuff "disk1/b" 3 1 0 ∨ c = .flexbuff "disk0/a" 2 0 0 := by
    simpa [twoChunks] using hc
  rcases hcases with rfl | rfl
  · exact ⟨by decide, fun hneg => absurd hneg (by decide)⟩
  · exact ⟨by decide, fun hneg => absurd hneg (by decide)⟩

theorem recording_reads_as_file_twoChunks :
    ∃ s as, (recording (.sparing "") ⟨OpenFile.ofChunks (scan twoChunks), twoFiles⟩).Run
        ⟨OpenFile.ofChunks (scan twoChunks), twoFiles⟩ as s ∧
      as = [(.read 4, .read [1, 2, 3, 4]), (.lseek (-3) .seekCur, .seek 1)] ∧
      ∃ r t, vbsRead (.sparing "") 7 s 4 = some (r, t) ∧
        ReadsAsFile (contents twoFiles (scan twoChunks)).flatten s 4 r t := by
  have hreplies : (callAll (.sparing "") 7 ⟨OpenFile.ofChunks (scan twoChunks), twoFiles⟩
      [.read 4, .lseek (-3) .seekCur]).map Prod.fst =
        some [(.read 4, .read [1, 2, 3, 4]), (.lseek (-3) .seekCur, .seek 1)] := by
    decide +kernel
  obtain ⟨⟨as, s⟩, hcalls, rfl⟩ := Option.map_eq_some_iff.mp hreplies
  have hrun := callAll_run ⟨OpenFile.ofChunks (scan twoChunks), twoFiles⟩ hcalls
  have hfits : ∀ a ∈ [(Call.read 4, Reply.read [1, 2, 3, 4]), (.lseek (-3) .seekCur, .seek 1)],
      a.1.Fits := by
    simp [Call.Fits]
  exact ⟨s, _, hrun, rfl, (recording_reads_as_file twoChunks_scanned hrun hfits).2.1 4
    (by decide) 7 (by decide)⟩

/-- Without a descriptor for its second chunk the recording ends early, and a
count no `ssize_t` holds reads nothing at all. -/
theorem short_read_before_end :
    (callAll (.sparing "disk1/b") 7 ⟨OpenFile.ofChunks (scan twoChunks), twoFiles⟩
        [.read 4, .lseek 0 .seekCur]).map Prod.fst =
      some [(.read 4, .read [1, 2]), (.lseek 0 .seekCur, .seek 2)] ∧
    (callAll (.sparing "") 7 ⟨OpenFile.ofChunks (scan twoChunks), twoFiles⟩
        [.read (2 ^ 63), .lseek 0 .seekCur]).map Prod.fst =
      some [(.read (2 ^ 63), .read []), (.lseek 0 .seekCur, .seek 0)] ∧
    (contents twoFiles (scan twoChunks)).flatten = [1, 2, 3, 4, 5] := by
  decide +kernel

end Jive5ab.Vbs
