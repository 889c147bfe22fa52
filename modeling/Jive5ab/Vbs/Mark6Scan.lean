import Jive5ab.Recorder.Parallelwriter
import Jive5ab.Vbs.ReadSoundness

/-! # Scanning Mark6 files

`scanMk6RecordingFile` goes from block header to block header through a file.
`read` gives it what the file has. The number of the data stream, which comes
from the file's name, is a parameter. -/
namespace Jive5ab.Vbs
open Lib
open Recorder (Chunk Mk6FileHeader Mk6WbHeader sizeofFileHeader sizeofWbHeader mark6SgSyncWord)

/-! ## Headers, as they are read -/

/-- The 32-bit word at an offset. -/
def word32 (file : List UInt8) (pos : Nat) : BitVec 32 := .ofNat 32 (ofBytes (slice file pos 4))

/-- A conversion to `size_t`. -/
def sizeT (n : Int) : Nat := (n % 2 ^ 64).toNat

/-- `blocknum` and `wb_size` are signed. -/
structure WbHeader where
  blocknum : Int
  wbSize : Int
  deriving DecidableEq

def readWbHeader (file : List UInt8) (fpos : Nat) : Option WbHeader :=
  if (slice file fpos sizeofWbHeader).length = sizeofWbHeader then
    some ⟨(word32 file fpos).toInt, (word32 file (fpos + 4)).toInt⟩
  else none

theorem readWbHeader_within {file : List UInt8} {fpos : Nat} {wbh : WbHeader}
    (h : readWbHeader file fpos = some wbh) : fpos < file.length := by
  unfold readWbHeader at h
  split at h
  · rename_i hlen
    rw [length_slice, sizeofWbHeader] at hlen
    omega
  · cases h

/-- A Mark6 file, of the version that can be scanned. -/
def isMk6File (file : List UInt8) : Bool :=
  (slice file 0 sizeofFileHeader).length == sizeofFileHeader &&
    word32 file 0 == .ofNat 32 mark6SgSyncWord && word32 file 4 == 2

/-! ## The scan -/

/-- The loop over the blocks; `none` is an exception. -/
def scanBlocks (file : List UInt8) (fd datastreamid fpos : Nat) (rv : List FileChunk) :
    Option (List FileChunk) :=
  match _h : readWbHeader file fpos with
  | none => some rv
  | some wbh =>
    if _hsense : 0 ≤ wbh.blocknum ∧ 0 < wbh.wbSize then
      let chunk := FileChunk.mark6 wbh.blocknum.toNat (fpos + sizeofWbHeader)
        (sizeT (wbh.wbSize - sizeofWbHeader)) fd datastreamid
      if rv.any fun c => !c.lt chunk && !chunk.lt c then none
      else scanBlocks file fd datastreamid (fpos + wbh.wbSize.toNat) (insertChunk chunk rv)
    else none
  termination_by file.length - fpos
  decreasing_by
    have hlt := readWbHeader_within _h
    obtain ⟨-, hpos⟩ := _hsense
    omega

def scanMk6RecordingFile (file : List UInt8) (fd datastreamid : Nat) : Option (List FileChunk) :=
  if isMk6File file then scanBlocks file fd datastreamid sizeofFileHeader [] else some []

/-- A file that matches the recording's name, and the descriptor it is opened at. -/
structure Mk6File where
  path : String
  fd : Nat
  datastreamid : Nat

/-- The chunks of a file go into the common set together, whichever thread comes
first. One that is there already stays out. -/
def scanMk6Recording (k : Kernel) (files : List Mk6File) : Option (List FileChunk) :=
  files.foldlM (fun fcs f =>
    (scanMk6RecordingFile (k.content f.path) f.fd f.datastreamid).map fun lcl =>
      lcl.foldl (fun fcs c => insertChunk c fcs) fcs) []

theorem scanMk6Recording_eq {ι : Type} {k : Kernel} {l : List ι} {file : ι → Mk6File}
    {found : ι → List FileChunk}
    (h : ∀ i ∈ l, scanMk6RecordingFile (k.content (file i).path) (file i).fd (file i).datastreamid =
      some (found i)) :
    scanMk6Recording k (l.map file) = some (scan (l.flatMap found)) := by
  unfold scanMk6Recording scan
  generalize ([] : List FileChunk) = fcs
  induction l generalizing fcs with
  | nil => rfl
  | cons i is ih =>
    rw [List.map_cons, List.foldlM_cons, h i List.mem_cons_self, List.flatMap_cons, List.foldl_append]
    exact ih (fun j hj => h j (List.mem_cons_of_mem _ hj)) _

/-! ## A set of different chunks -/

/-- No two chunks have the same number. -/
def Distinct (fcs : List FileChunk) : Prop := (fcs.map FileChunk.chunkNumber).Nodup

theorem insertChunk_perm {c : FileChunk} {fcs : List FileChunk}
    (h : c.chunkNumber ∉ fcs.map FileChunk.chunkNumber) : (insertChunk c fcs).Perm (c :: fcs) := by
  induction fcs with
  | nil => exact .refl _
  | cons d ds ih =>
    rw [List.map_cons, List.mem_cons, not_or] at h
    unfold insertChunk
    split
    · exact .refl _
    split
    · exact ((ih h.2).cons d).trans (.swap c d ds)
    · rename_i hcd hdc
      unfold FileChunk.lt at hcd hdc
      rw [if_neg h.1, decide_eq_true_eq] at hcd
      rw [if_neg (Ne.symm h.1), decide_eq_true_eq] at hdc
      omega

theorem foldl_insertChunk_perm {found fcs : List FileChunk} (h : Distinct (fcs ++ found)) :
    (found.foldl (fun fcs c => insertChunk c fcs) fcs).Perm (fcs ++ found) := by
  induction found generalizing fcs with
  | nil => rw [List.append_nil]; exact .refl _
  | cons c cs ih =>
    have hperm : (fcs ++ c :: cs).Perm (c :: fcs ++ cs) := List.perm_middle
    have hdistinct : Distinct (c :: fcs ++ cs) := (hperm.map _).nodup_iff.mp h
    have hnew : c.chunkNumber ∉ fcs.map FileChunk.chunkNumber := by
      intro hmem
      unfold Distinct at hdistinct
      rw [List.cons_append, List.map_cons, List.nodup_cons, List.map_append, List.mem_append,
        not_or] at hdistinct
      exact hdistinct.1.1 hmem
    have hins := insertChunk_perm hnew
    have hnext : Distinct (insertChunk c fcs ++ cs) :=
      ((hins.append_right cs).map _).nodup_iff.mpr hdistinct
    exact (ih hnext).trans ((hins.append_right cs).trans hperm.symm)

theorem scan_perm {found : List FileChunk} (h : Distinct found) : (scan found).Perm found :=
  foldl_insertChunk_perm h

/-! ## Files made of blocks -/

/-- Numbers and sizes that the header's signed words can hold. -/
def Admissible (c : Chunk) : Prop :=
  c.chunkSequenceNr.toNat < 2 ^ 31 ∧ c.data.length + sizeofWbHeader < 2 ^ 31

instance (c : Chunk) : Decidable (Admissible c) :=
  inferInstanceAs (Decidable (c.chunkSequenceNr.toNat < 2 ^ 31 ∧ _))

def wbBlock (c : Chunk) : List UInt8 := c.wbHeader.bytes ++ c.data

/-- Where the blocks are that are written from a position on. -/
def blocksFrom (fd datastreamid : Nat) : Nat → List Chunk → List FileChunk
  | _, [] => []
  | fpos, c :: cs =>
    .mark6 c.chunkSequenceNr.toNat (fpos + sizeofWbHeader) c.data.length fd datastreamid ::
      blocksFrom fd datastreamid (fpos + sizeofWbHeader + c.data.length) cs

theorem blocksFrom_numbers (fd datastreamid fpos : Nat) (cs : List Chunk) :
    (blocksFrom fd datastreamid fpos cs).map FileChunk.chunkNumber =
      cs.map fun c => c.chunkSequenceNr.toNat := by
  induction cs generalizing fpos with
  | nil => rfl
  | cons c cs ih =>
    rw [blocksFrom, List.map_cons, List.map_cons, ih]
    rfl

theorem word32_toBytes {file pre post : List UInt8} {v pos : Nat}
    (h : file = pre ++ (toBytes 4 v ++ post)) (hpos : pos = pre.length) :
    word32 file pos = .ofNat 32 v := by
  unfold word32
  rw [h, hpos, slice_middle pre _ post (Nat.le_refl _) (by rw [length_toBytes]), Nat.sub_self]
  have hall : slice (toBytes 4 v) 0 4 = toBytes 4 v := by
    conv => lhs; rw [← length_toBytes 4 v]
    exact slice_all _
  rw [hall, ofBytes_toBytes]
  apply BitVec.eq_of_toNat_eq
  rw [BitVec.toNat_ofNat, BitVec.toNat_ofNat]
  exact Nat.mod_mod _ _

theorem toInt_of_small {v : BitVec 32} {n : Nat} (hv : v.toNat = n) (h : n < 2 ^ 31) :
    v.toInt = n := by
  rw [BitVec.toInt_eq_toNat_of_lt (by omega), hv]

/-- The header of a block, read where it was written. -/
theorem readWbHeader_block {file pre rest : List UInt8} {c : Chunk} (hc : Admissible c)
    (h : file = pre ++ (c.wbHeader.bytes ++ rest)) :
    readWbHeader file pre.length =
      some ⟨c.chunkSequenceNr.toNat, (c.data.length + sizeofWbHeader : Nat)⟩ := by
  have hlen : c.wbHeader.bytes.length = sizeofWbHeader := by
    simp [Mk6WbHeader.bytes, sizeofWbHeader]
  have hnum : word32 file pre.length = c.chunkSequenceNr := by
    have hfile : file = pre ++ (toBytes 4 c.chunkSequenceNr.toNat ++
        (toBytes 4 c.wbHeader.wbSize.toNat ++ rest)) := by
      rw [h]
      unfold Mk6WbHeader.bytes
      rw [List.append_assoc]
      rfl
    rw [word32_toBytes hfile rfl, BitVec.ofNat_toNat, BitVec.setWidth_eq]
  have hsize : word32 file (pre.length + 4) = c.wbHeader.wbSize := by
    have hfile : file = (pre ++ toBytes 4 c.wbHeader.blocknum.toNat) ++
        (toBytes 4 c.wbHeader.wbSize.toNat ++ rest) := by
      rw [h]
      unfold Mk6WbHeader.bytes
      rw [List.append_assoc, List.append_assoc]
    have hpos : pre.length + 4 = (pre ++ toBytes 4 c.wbHeader.blocknum.toNat).length := by
      rw [List.length_append, length_toBytes]
    rw [word32_toBytes hfile hpos, BitVec.ofNat_toNat, BitVec.setWidth_eq]
  have hwb : c.wbHeader.wbSize.toNat = c.data.length + sizeofWbHeader := by
    have hsmall := hc.2
    show (BitVec.ofNat 32 c.data.length + BitVec.ofNat 32 sizeofWbHeader).toNat = _
    rw [← BitVec.ofNat_add, BitVec.toNat_ofNat, Nat.mod_eq_of_lt (by omega)]
  have hwhole : (slice file pre.length sizeofWbHeader).length = sizeofWbHeader := by
    rw [length_slice, h, List.length_append, List.length_append, hlen]
    omega
  unfold readWbHeader
  rw [if_pos hwhole, hnum, hsize, toInt_of_small rfl hc.1, toInt_of_small hwb hc.2]

theorem sizeT_of_lt {n : Nat} (h : n < 2 ^ 31) : sizeT n = n := by
  unfold sizeT
  omega

/-- Nothing more to read. -/
theorem scanBlocks_end (file : List UInt8) (fd datastreamid : Nat) (rv : List FileChunk) :
    scanBlocks file fd datastreamid file.length rv = some rv := by
  have hnone : readWbHeader file file.length = none := by
    unfold readWbHeader
    rw [slice_past (Nat.le_refl _)]
    rfl
  rw [scanBlocks]
  split
  · rfl
  · rename_i hsome
    rw [hnone] at hsome
    cases hsome

/-- One turn of the loop, at a block. -/
theorem scanBlocks_block {file pre rest : List UInt8} {fd datastreamid : Nat} {c : Chunk}
    {rv : List FileChunk} (hc : Admissible c) (h : file = pre ++ (c.wbHeader.bytes ++ rest))
    (hnew : c.chunkSequenceNr.toNat ∉ rv.map FileChunk.chunkNumber) :
    scanBlocks file fd datastreamid pre.length rv =
      scanBlocks file fd datastreamid (pre.length + sizeofWbHeader + c.data.length)
        (insertChunk (.mark6 c.chunkSequenceNr.toNat (pre.length + sizeofWbHeader) c.data.length fd
          datastreamid) rv) := by
  have hread := readWbHeader_block hc h
  have hsmall := hc.2
  rw [scanBlocks]
  split
  · rename_i hnone
    rw [hread] at hnone
    cases hnone
  · rename_i wbh hsome
    rw [hread] at hsome
    obtain rfl := Option.some.inj hsome
    have hsense : 0 ≤ (c.chunkSequenceNr.toNat : Int) ∧
        0 < ((c.data.length + sizeofWbHeader : Nat) : Int) := by
      unfold sizeofWbHeader
      omega
    rw [dif_pos hsense]
    have hdata : sizeT (((c.data.length + sizeofWbHeader : Nat) : Int) - sizeofWbHeader) =
        c.data.length := by
      have hsub : ((c.data.length + sizeofWbHeader : Nat) : Int) - sizeofWbHeader = c.data.length := by
        omega
      rw [hsub]
      exact sizeT_of_lt (by omega)
    have hfresh : (rv.any fun d => !d.lt (.mark6 c.chunkSequenceNr.toNat
        (pre.length + sizeofWbHeader) c.data.length fd datastreamid) &&
        !(FileChunk.mark6 c.chunkSequenceNr.toNat (pre.length + sizeofWbHeader) c.data.length fd
          datastreamid).lt d) = false := by
      refine List.any_eq_false.mpr fun d hd => ?_
      have hne : d.chunkNumber ≠ c.chunkSequenceNr.toNat := fun heq =>
        hnew (heq ▸ List.mem_map_of_mem hd)
      unfold FileChunk.lt FileChunk.mark6
      dsimp only
      rw [if_neg hne, if_neg (Ne.symm hne)]
      simp only [Bool.and_eq_true, Bool.not_eq_true', decide_eq_false_iff_not]
      omega
    dsimp only
    rw [hdata, Int.toNat_natCast, Int.toNat_natCast, hfresh]
    have hnext : pre.length + (c.data.length + sizeofWbHeader) =
        pre.length + sizeofWbHeader + c.data.length := by omega
    rw [hnext]
    rfl

theorem scanBlocks_blocks {file pre : List UInt8} {fd datastreamid : Nat} {cs : List Chunk}
    {rv : List FileChunk} (hcs : ∀ c ∈ cs, Admissible c) (h : file = pre ++ cs.flatMap wbBlock)
    (hnodup : Distinct (rv ++ blocksFrom fd datastreamid pre.length cs)) :
    scanBlocks file fd datastreamid pre.length rv =
      some ((blocksFrom fd datastreamid pre.length cs).foldl (fun fcs c => insertChunk c fcs) rv) := by
  induction cs generalizing pre rv with
  | nil =>
    rw [List.flatMap_nil, List.append_nil] at h
    rw [← h]
    exact scanBlocks_end ..
  | cons c cs ih =>
    have hfile : file = pre ++ (c.wbHeader.bytes ++ (c.data ++ cs.flatMap wbBlock)) := by
      rw [h, List.flatMap_cons, wbBlock, List.append_assoc]
    have hnext : file = (pre ++ wbBlock c) ++ cs.flatMap wbBlock := by
      rw [h, List.flatMap_cons, List.append_assoc]
    have hlen : (pre ++ wbBlock c).length = pre.length + sizeofWbHeader + c.data.length := by
      have hwb : c.wbHeader.bytes.length = sizeofWbHeader := by
        simp [Mk6WbHeader.bytes, sizeofWbHeader]
      rw [List.length_append, wbBlock, List.length_append, hwb, Nat.add_assoc]
    have hnew : c.chunkSequenceNr.toNat ∉ rv.map FileChunk.chunkNumber := by
      intro hmem
      unfold Distinct at hnodup
      rw [blocksFrom, List.map_append, List.map_cons, List.nodup_append] at hnodup
      exact hnodup.2.2 _ hmem _ List.mem_cons_self rfl
    rw [scanBlocks_block (hcs c List.mem_cons_self) hfile hnew, ← hlen, blocksFrom, List.foldl_cons,
      ← hlen]
    refine ih (fun d hd => hcs d (List.mem_cons_of_mem _ hd)) hnext ?_
    rw [blocksFrom, ← hlen] at hnodup
    refine ((((insertChunk_perm hnew).append_right _).map _).nodup_iff).mpr ?_
    exact ((List.perm_middle.map FileChunk.chunkNumber).nodup_iff).mp hnodup

/-- Blocks behind each other in an open file: numbers, payloads and sizes are what
was written. -/
theorem blocksFrom_view {k : Kernel} {file pre : List UInt8} {fd datastreamid : Nat} {d : Descr}
    (hfd : 0 < fd) (hd : k.table fd = some d) (hfile : k.content d.file = file) {cs : List Chunk}
    (h : file = pre ++ cs.flatMap wbBlock) :
    (blocksFrom fd datastreamid pre.length cs).map
        (fun c => (c.chunkNumber, payload k c, c.chunkSize)) =
      cs.map fun c => (c.chunkSequenceNr.toNat, c.data, c.data.length) := by
  induction cs generalizing pre with
  | nil => rfl
  | cons c cs ih =>
    have hwb : c.wbHeader.bytes.length = sizeofWbHeader := by
      simp [Mk6WbHeader.bytes, sizeofWbHeader]
    have hnext : file = (pre ++ wbBlock c) ++ cs.flatMap wbBlock := by
      rw [h, List.flatMap_cons, List.append_assoc]
    have hlen : (pre ++ wbBlock c).length = pre.length + sizeofWbHeader + c.data.length := by
      rw [List.length_append, wbBlock, List.length_append, hwb, Nat.add_assoc]
    have hpayload : payload k (.mark6 c.chunkSequenceNr.toNat (pre.length + sizeofWbHeader)
        c.data.length fd datastreamid) = c.data := by
      have hheld : (FileChunk.mark6 c.chunkSequenceNr.toNat (pre.length + sizeofWbHeader)
          c.data.length fd datastreamid).chunkFd < 0 := by
        show -(fd : Int) < 0
        omega
      have hopened : fileOf k (.mark6 c.chunkSequenceNr.toNat (pre.length + sizeofWbHeader)
          c.data.length fd datastreamid) = some d.file := by
        unfold fileOf
        rw [if_pos hheld]
        show (k.table (-(-(fd : Int))).toNat).map Descr.file = _
        rw [Int.neg_neg, Int.toNat_natCast, hd]
        rfl
      unfold payload
      rw [hopened]
      show slice (k.content d.file) (pre.length + sizeofWbHeader) c.data.length = _
      have hparts : file = (pre ++ c.wbHeader.bytes) ++ (c.data ++ cs.flatMap wbBlock) := by
        rw [h, List.flatMap_cons, wbBlock, List.append_assoc, List.append_assoc]
      have hpos : (pre ++ c.wbHeader.bytes).length = pre.length + sizeofWbHeader := by
        rw [List.length_append, hwb]
      rw [hfile, hparts, slice_middle _ _ _ (Nat.le_of_eq hpos) (by rw [hpos]), hpos, Nat.sub_self,
        slice_all]
    rw [blocksFrom, List.map_cons, List.map_cons, hpayload, ← hlen, ih hnext]
    rfl

theorem blocksFrom_chunkFd (fd datastreamid fpos : Nat) (cs : List Chunk) :
    ∀ c ∈ blocksFrom fd datastreamid fpos cs, c.chunkFd = -fd := by
  induction cs generalizing fpos with
  | nil => exact fun _ hc => nomatch hc
  | cons c cs ih =>
    intro b hb
    rcases List.mem_cons.mp hb with rfl | hb
    · rfl
    · exact ih _ b hb

theorem blocksFrom_scanned {k : Kernel} {file pre : List UInt8} {fd datastreamid : Nat} {d : Descr}
    (hfd : 0 < fd) (hmax : (fd : Int) < invalidFileDescriptor) (hd : k.table fd = some d)
    (hfile : k.content d.file = file) {cs : List Chunk} (h : file = pre ++ cs.flatMap wbBlock) :
    ∀ c ∈ blocksFrom fd datastreamid pre.length cs, Scanned k c := by
  intro c hc
  have hview := @blocksFrom_view k file pre fd datastreamid d hfd hd hfile cs h
  have hmem : (c.chunkNumber, payload k c, c.chunkSize) ∈
      cs.map fun c => (c.chunkSequenceNr.toNat, c.data, c.data.length) := by
    rw [← hview]
    exact List.mem_map_of_mem hc
  obtain ⟨b, -, heq⟩ := List.mem_map.mp hmem
  obtain ⟨-, hpayload, hsize⟩ : _ ∧ b.data = payload k c ∧ b.data.length = c.chunkSize := by
    simpa using heq
  refine ⟨by rw [← hpayload, hsize], fun _ => ?_⟩
  rw [blocksFrom_chunkFd fd datastreamid _ cs c hc]
  exact ⟨by omega, d, by rw [Int.neg_neg, Int.toNat_natCast, hd]⟩

/-! ## Reading what is open already -/

/-- All chunks are parts of files that the scan left open. -/
def AllHeld (s : State) : Prop := ∀ c ∈ s.of.fileChunks, c.chunkFd < 0

/-- A call that opens no file. -/
structure OpensNothing (s t : State) : Prop where
  held : AllHeld t
  log : ∃ new, t.k.log = s.k.log ++ new ∧ ∀ path, SysCall.opened path none ∉ new

theorem OpensNothing.refl {s : State} (h : AllHeld s) : OpensNothing s s :=
  ⟨h, [], (List.append_nil _).symm, fun _ => List.not_mem_nil⟩

theorem OpensNothing.trans {s t u : State} (h : OpensNothing s t) (k : OpensNothing t u) :
    OpensNothing s u := by
  obtain ⟨new, hnew, hno⟩ := h.log
  obtain ⟨new', hnew', hno'⟩ := k.log
  refine ⟨k.held, new ++ new', ?_, fun path hmem => ?_⟩
  · rw [hnew', hnew, List.append_assoc]
  · rcases List.mem_append.mp hmem with hmem | hmem
    · exact hno path hmem
    · exact hno' path hmem

theorem closeChunk_held (k : Kernel) {c : FileChunk} (h : c.chunkFd < 0) : c.closeChunk k = (c, k) := by
  unfold FileChunk.closeChunk
  rw [if_neg]
  omega

theorem openChunk_held (os : Os) (k : Kernel) {c : FileChunk} (h : c.chunkFd < 0) :
    c.openChunk os k = (-c.chunkFd, c, k) := by
  have hvalid : c.chunkFd ≠ invalidFileDescriptor := by
    unfold invalidFileDescriptor
    omega
  unfold FileChunk.openChunk
  rw [if_neg hvalid]
  dsimp only
  rw [if_pos h]

theorem lseek_log (k : Kernel) (fd : Nat) (pos : Int) : (k.lseek fd pos).log = k.log := by
  unfold Kernel.lseek
  split
  · split <;> rfl
  · rfl

theorem read_log (os : Os) (k : Kernel) (fd n : Nat) :
    ∃ m, (k.read os fd n).2.log = k.log ++ [.read fd m] := by
  unfold Kernel.read
  split
  · exact ⟨none, rfl⟩
  · split
    · exact ⟨none, rfl⟩
    · exact ⟨_, rfl⟩

/-- Where a turn of the loop ends. -/
def ReadStep.state : ReadStep → State
  | .more _ _ s => s
  | .stop _ s => s

theorem readStep_held (os : Os) (nr : Nat) (buf : List UInt8) {s : State} (h : AllHeld s) :
    OpensNothing s (readStep os nr buf s).state := by
  unfold readStep
  dsimp only
  split
  · exact .refl h
  · rename_i chunk hchunk
    obtain ⟨hlt, hget⟩ := List.getElem?_eq_some_iff.mp hchunk
    have hheld := h chunk (List.mem_of_getElem? hchunk)
    have hset : s.of.fileChunks.set s.of.chunkPtr chunk = s.of.fileChunks := by
      rw [← hget, List.set_getElem_self]
    rw [closeChunk_held s.k hheld, openChunk_held os s.k hheld]
    dsimp only
    rw [hset]
    split
    · exact ⟨h, [], (List.append_nil _).symm, fun _ => List.not_mem_nil⟩
    split
    · exact ⟨h, [], (List.append_nil _).symm, fun _ => List.not_mem_nil⟩
    · have hread := read_log os (s.k.lseek (-chunk.chunkFd).toNat ((s.of.filePointer : Int) -
        chunk.chunkOffset + chunk.chunkPos)) (-chunk.chunkFd).toNat (min (offT nr)
          ((chunk.chunkOffset : Int) + chunk.chunkSize - s.of.filePointer)).toNat
      obtain ⟨m, hlog⟩ := hread
      rw [lseek_log] at hlog
      split <;> rename_i heq <;> rw [heq] at hlog <;>
        exact ⟨h, _, hlog, fun path hmem => nomatch List.mem_singleton.mp hmem⟩

theorem readLoop_held {os : Os} {fuel nr : Nat} {buf : List UInt8} {s t : State} {r : Reply}
    (h : AllHeld s) (hread : readLoop os fuel nr buf s = some (r, t)) : OpensNothing s t := by
  induction fuel generalizing nr buf s with
  | zero => cases hread
  | succ fuel ih =>
    unfold readLoop at hread
    split at hread
    · obtain ⟨-, rfl⟩ := Prod.mk.inj (Option.some.inj hread)
      exact .refl h
    · have hstep := readStep_held os nr buf h
      split at hread
      · rename_i heq
        obtain ⟨-, rfl⟩ := Prod.mk.inj (Option.some.inj hread)
        rwa [heq] at hstep
      · rename_i heq
        rw [heq] at hstep
        exact hstep.trans (ih hstep.held hread)

theorem vbsCall_held {os : Os} {fuel : Nat} {s t : State} {c : Call} {r : Reply} (h : AllHeld s)
    (hcall : vbsCall os fuel s c = some (r, t)) : OpensNothing s t := by
  cases c with
  | read count =>
    change vbsRead os fuel s count = some (r, t) at hcall
    unfold vbsRead at hcall
    split at hcall
    · obtain ⟨-, rfl⟩ := Prod.mk.inj (Option.some.inj hcall)
      exact .refl h
    split at hcall
    · obtain ⟨-, rfl⟩ := Prod.mk.inj (Option.some.inj hcall)
      exact ⟨h, [], (List.append_nil _).symm, fun _ => List.not_mem_nil⟩
    split at hcall
    · obtain ⟨-, rfl⟩ := Prod.mk.inj (Option.some.inj hcall)
      exact .refl h
    · exact readLoop_held h hcall
  | lseek offset whence =>
    have hseek : ∀ newfp, OpensNothing s (seekTo s newfp).2 := by
      intro newfp
      unfold seekTo
      dsimp only
      split
      · exact .refl h
      split
      · exact .refl h
      · cases hchunk : s.of.fileChunks[s.of.chunkPtr]? with
        | none => exact ⟨h, [], (List.append_nil _).symm, fun _ => List.not_mem_nil⟩
        | some chunk =>
          obtain ⟨hlt, hget⟩ := List.getElem?_eq_some_iff.mp hchunk
          have hset : s.of.fileChunks.set s.of.chunkPtr chunk = s.of.fileChunks := by
            rw [← hget, List.set_getElem_self]
          dsimp only
          rw [closeChunk_held s.k (h chunk (List.mem_of_getElem? hchunk)), hset, ite_self]
          exact ⟨h, [], (List.append_nil _).symm, fun _ => List.not_mem_nil⟩
    have heq : (vbsLseek s offset whence).2 = t := by
      rw [Option.some.inj hcall]
    rw [← heq]
    cases whence with
    | seekSet | seekCur | seekEnd => exact hseek _
    | other => exact .refl h

/-- The pointer is in a chunk, at a place that its file does not have. -/
structure Torn (s : State) (c : FileChunk) (d : Descr) : Prop where
  current : s.of.fileChunks[s.of.chunkPtr]? = some c
  held : c.chunkFd < 0
  valid : -c.chunkFd ≠ invalidFileDescriptor
  opened : ∃ pos, s.k.table (-c.chunkFd).toNat = some { d with pos := pos }
  inside : c.chunkOffset ≤ s.of.filePointer ∧ s.of.filePointer < c.chunkOffset + c.chunkSize
  past : (s.k.content d.file).length ≤ s.of.filePointer - c.chunkOffset + c.chunkPos

theorem readStep_torn {os : Os} {s : State} {c : FileChunk} {d : Descr} (h : Torn s c d) {nr : Nat}
    (hnr : 0 < nr) (hmax : nr < 2 ^ 63) (buf : List UInt8) :
    (∃ t, readStep os nr buf s = .more nr buf t ∧ Torn t c d) ∨
      ∃ t, readStep os nr buf s = .stop .vbsExcept t := by
  obtain ⟨hlt, hget⟩ := List.getElem?_eq_some_iff.mp h.current
  have hset : s.of.fileChunks.set s.of.chunkPtr c = s.of.fileChunks := by
    rw [← hget, List.set_getElem_self]
  obtain ⟨pos, hd⟩ := h.opened
  obtain ⟨hlow, hhigh⟩ := h.inside
  have hwanted : ¬ min (offT nr) ((c.chunkOffset : Int) + c.chunkSize - s.of.filePointer) ≤ 0 := by
    rw [offT_of_lt hmax]
    omega
  have hfrom : (s.of.filePointer : Int) - c.chunkOffset + c.chunkPos =
      ((s.of.filePointer - c.chunkOffset + c.chunkPos : Nat) : Int) := by omega
  unfold readStep
  simp only [h.current, openChunk_held os s.k h.held, if_neg hwanted, if_neg h.valid, hset, hfrom]
  generalize (min (offT nr) ((c.chunkOffset : Int) + c.chunkSize - s.of.filePointer)).toNat = n
  cases hres : (s.k.lseek (-c.chunkFd).toNat
      ((s.of.filePointer - c.chunkOffset + c.chunkPos : Nat) : Int)).read os (-c.chunkFd).toNat n with
  | mk res k' =>
    obtain ⟨hcontent, hkeeps, hout⟩ := lseek_read hd (Int.natCast_nonneg _) hres
    rcases hout with ⟨rfl, -⟩ | ⟨m, rfl, hm, -, -⟩
    · exact .inr ⟨_, rfl⟩
    · have hpast := h.past
      rw [Int.toNat_natCast] at hm
      have hnone : m = 0 := by
        have hle := Nat.le_trans hm (Nat.min_le_right ..)
        dsimp only at hle
        omega
      subst hnone
      obtain ⟨d', hd', hfile⟩ := hkeeps _ _ hd
      refine .inl ⟨⟨s.of, k'⟩, ?_, ⟨h.current, h.held, h.valid, ⟨d'.pos, ?_⟩, h.inside, ?_⟩⟩
      · rw [slice_zero]
        show ReadStep.more nr (buf ++ []) _ = _
        rw [List.append_nil]
        rfl
      · obtain ⟨file, pos'⟩ := d'
        obtain rfl : file = d.file := hfile
        exact hd'
      · show (k'.content d.file).length ≤ _
        rw [hcontent]
        exact hpast

/-- It cannot be read from, and `vbs_read` does not give up. -/
theorem readLoop_torn {os : Os} {fuel nr : Nat} {buf : List UInt8} {s t : State} {r : Reply}
    {c : FileChunk} {d : Descr} (h : Torn s c d) (hnr : 0 < nr) (hmax : nr < 2 ^ 63)
    (hread : readLoop os fuel nr buf s = some (r, t)) : r = .vbsExcept := by
  induction fuel generalizing s with
  | zero => cases hread
  | succ fuel ih =>
    unfold readLoop at hread
    rw [if_neg (Nat.ne_of_gt hnr)] at hread
    rcases @readStep_torn os s c d h nr hnr hmax buf with ⟨u, hstep, hu⟩ | ⟨u, hstep⟩
    · rw [hstep] at hread
      exact ih hu hread
    · rw [hstep] at hread
      exact (Prod.mk.inj (Option.some.inj hread)).1.symm

/-- Exactly the bytes that are there, or the exception of a `read` that failed. -/
def ReadsExactly (content : List UInt8) (s : State) (count : Nat) (r : Reply) (t : State) : Prop :=
  (r = .read (slice content s.of.filePointer count) ∧
      t.of.filePointer = s.of.filePointer + (slice content s.of.filePointer count).length) ∨
    r = .vbsExcept ∧ ∃ fd new, t.k.log = s.k.log ++ new ∧ SysCall.read fd none ∈ new

theorem ReadsAsFile.exactly {content : List UInt8} {s t : State} {count : Nat} {r : Reply}
    (h : ReadsAsFile content s count r t) (hopens : OpensNothing s t) :
    ReadsExactly content s count r t := by
  obtain ⟨n, new, hn, hpointer, hlog, hres⟩ := h
  obtain ⟨new', hlog', hno⟩ := hopens.log
  have hsame : new = new' := List.append_cancel_left (hlog.symm.trans hlog')
  rcases hres with ⟨rfl, hlen, hshort⟩ | ⟨rfl, fd, hfail⟩
  · have hwhole : slice content s.of.filePointer count = slice content s.of.filePointer n := by
      rcases Nat.lt_or_ge n count with hlt | hge
      · rcases hshort hlt with hend | ⟨path, hpath⟩
        · unfold slice
          rw [List.take_of_length_le (by rw [List.length_drop]; omega),
            List.take_of_length_le (by rw [List.length_drop]; omega)]
        · exact absurd (hsame ▸ hpath) (hno path)
      · rw [Nat.le_antisymm hn hge]
    rw [← hwhole] at hlen ⊢
    exact .inl ⟨rfl, by rw [hpointer, hlen]⟩
  · exact .inr ⟨rfl, fd, new, hlog, hfail⟩

theorem ofChunks_held {k : Kernel} {fcs : List FileChunk} (h : ∀ c ∈ fcs, c.chunkFd < 0) :
    AllHeld ⟨OpenFile.ofChunks fcs, k⟩ := by
  have hoffsets : ∀ (size : Nat) (cs : List FileChunk), (∀ c ∈ cs, c.chunkFd < 0) →
      ∀ c ∈ (setOffsets size cs).1, c.chunkFd < 0 := by
    intro size cs
    induction cs generalizing size with
    | nil => exact fun _ c hc => nomatch hc
    | cons d ds ih =>
      intro hds c hc
      rcases List.mem_cons.mp hc with rfl | hc
      · exact hds d List.mem_cons_self
      · exact ih _ (fun e he => hds e (List.mem_cons_of_mem _ he)) c hc
  refine hoffsets 0 _ fun c hc => ?_
  obtain ⟨d, hd, rfl⟩ := List.mem_map.mp hc
  have hneg := h d hd
  unfold FileChunk.copy
  rwa [if_pos hneg]

/-- A recording whose files are all open reads exactly. -/
theorem held_reads_exactly {os : Os} {k : Kernel} {fcs : List FileChunk}
    (hscanned : ∀ c ∈ fcs, Scanned k c) (hheld : ∀ c ∈ fcs, c.chunkFd < 0) {s : State}
    {as : List (Call × Reply)}
    (h : (recording os ⟨OpenFile.ofChunks fcs, k⟩).Run ⟨OpenFile.ofChunks fcs, k⟩ as s)
    (has : ∀ a ∈ as, a.1.Fits) {count : Nat} (hcount : count < 2 ^ 63) {fuel : Nat}
    (hfuel : count + fcs.length < fuel) :
    ∃ r t, vbsRead os fuel s count = some (r, t) ∧
      ReadsExactly (contents k fcs).flatten s count r t := by
  have hinv : Inv (contents k fcs) s := run_inv h (ofChunks_inv hscanned) has
  have hs : AllHeld s := by
    refine h.invariant AllHeld (fun u a v hu hstep => ?_) (ofChunks_held hheld)
    obtain ⟨fuel', hcall⟩ := hstep
    exact (vbsCall_held hu hcall).held
  obtain ⟨hsome, hdone⟩ := vbsRead_sound os fuel hinv hcount
  rw [contents, List.length_map] at hsome
  obtain ⟨⟨r, t⟩, hrt⟩ := Option.isSome_iff_exists.mp (hsome hfuel)
  have hopens := vbsCall_held (c := .read count) hs hrt
  exact ⟨r, t, hrt, (hdone r t hrt).readsAsFile.exactly hopens⟩

end Jive5ab.Vbs
