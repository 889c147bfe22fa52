import Jive5ab.Lib.Slice
import Jive5ab.Streamstor.DiskReader

/-! # The StreamStor as a file descriptor

`etd_streamstor_fd` of `etransfer.cc` mimicks the reads and seeks of a file on a range of the disk,
which `streamstor_reader_type` reads. The mutex is left out. -/
namespace Jive5ab.Streamstor.EtdFd
open Lib

inductive Whence
  | seekSet
  | seekCur
  | seekEnd
  | other
  deriving DecidableEq

/-- The two calls that go on with the file. -/
inductive Op
  | lseek (offset : Int64) (whence : Whence)
  | read (n : UInt64)

/-- What a call returns, and the buffer of a read; `einval` is -1. -/
inductive Result
  | position (p : Int)
  | einval
  | read (n : Int) (buf : List UInt8)
  | throws (what : String)
  deriving DecidableEq

/-! ## The reader -/

/-- `streamstor_reader_type::read_into`: what is put in the buffer. A transfer length is an
`unsigned long`, of `ulong` bits. -/
def readInto (r : Recording) (ulong : Nat) (start ppEnd : Playpointer) (offset len : Nat) :
    Except String (List UInt8) :=
  let readPointer := start.add offset
  if ppEnd.sub readPointer < int64 len then
    .error ("Read request goes " ++ toString ((len - ppEnd.sub readPointer) % 2 ^ 64) ++
      " beyond bounds")
  else .ok (r.xlrRead ⟨readPointer.addr, len % 2 ^ ulong⟩)

theorem int64_of_lt {n : Int} (h : -2 ^ 63 ≤ n) (hn : n < 2 ^ 63) : int64 n = n := by
  rw [int64, Int.bmod_def]
  split <;> omega

/-- In bounds, and on a multiple of eight, it delivers what it is asked for. -/
theorem readInto_delivers (r : Recording) {ulong : Nat} (hulong : ulong = 32 ∨ ulong = 64)
    {start ppEnd : Playpointer} (hend : ppEnd.addr < 2 ^ 63) {offset len : Nat} (height : 8 ∣ offset)
    (hfits : start.addr + offset + len ≤ ppEnd.addr) (hlen : len < 2 ^ 32) :
    readInto r ulong start ppEnd offset len = .ok (r.bytes (start.addr + offset) len) := by
  have haddr : (start.add offset).addr = start.addr + offset := by
    rw [Playpointer.add]
    dsimp only
    rw [Nat.div_mul_cancel height, Nat.mod_eq_of_lt (by omega)]
  have hx : int64 ppEnd.addr = ppEnd.addr := int64_of_lt (by omega) (by omega)
  have hy : int64 (start.addr + offset : Nat) = (start.addr + offset : Nat) :=
    int64_of_lt (by omega) (by omega)
  have hsub : ppEnd.sub (start.add offset) = ppEnd.addr - (start.addr + offset : Nat) := by
    rw [Playpointer.sub, haddr, hx, hy, int64_of_lt (by omega) (by omega)]
  have hmod : len % 2 ^ ulong = len := by
    rcases hulong with rfl | rfl
    · exact Nat.mod_eq_of_lt hlen
    · exact Nat.mod_eq_of_lt (by omega)
  rw [readInto, hsub, if_neg (by rw [int64_of_lt (by omega) (by omega)]; omega), haddr, hmod, r.reads]
  rfl

/-! ## The file descriptor -/

/-- The static members `__m_start`, `__m_offset` and `__m_end`. -/
structure Fd where
  mStart : Int
  mOffset : Int
  mEnd : Int
  deriving DecidableEq

def maxPlayPointer : Nat := 2 ^ 63 - 1

def mkFd (start ppEnd : Playpointer) : Except String Fd :=
  if start.addr < maxPlayPointer ∧ ppEnd.addr < maxPlayPointer then .ok ⟨start.addr, 0, ppEnd.addr⟩
  else .error ("start (" ++ toString start.addr ++ ") or end (" ++ toString ppEnd.addr ++
    ") playpointer >=" ++ toString maxPlayPointer)

namespace Fd

variable (readInto : Nat → Nat → Except String (List UInt8))

def read (fd : Fd) (n : UInt64) : Result × Fd :=
  if fd.mEnd ≤ int64 (fd.mStart + fd.mOffset) then (.read 0 [], fd)
  else
    match readInto (fd.mOffset % 2 ^ 64).toNat n.toNat with
    | .error what => (.throws what, fd)
    | .ok buf => (.read (int64 n.toNat) buf, { fd with mOffset := int64 (fd.mOffset + n.toNat) })

def close (fd : Fd) : Fd := { fd with mStart := fd.mEnd, mOffset := 0 }

def newOffset (fd : Fd) (offset : Int64) : Whence → Option Int
  | .seekSet => some offset.toInt
  | .seekEnd => some (int64 (fd.mEnd + offset.toInt))
  | .seekCur => some (int64 (fd.mOffset + offset.toInt))
  | .other => none

def lseek (fd : Fd) (offset : Int64) (whence : Whence) : Result × Fd :=
  match fd.newOffset offset whence with
  | none => (.einval, fd)
  | some x =>
    if x < fd.mStart ∨ fd.mEnd < x then (.einval, fd) else (.position x, { fd with mOffset := x })

def step (fd : Fd) : Op → Result × Fd
  | .lseek offset whence => fd.lseek offset whence
  | .read n => fd.read readInto n

def run (fd : Fd) : List Op → List Result
  | [] => []
  | op :: ops => (fd.step readInto op).1 :: run (fd.step readInto op).2 ops

end Fd

/-! ## The file -/

structure File where
  data : List UInt8
  pos : Nat

namespace File

def read (f : File) (n : UInt64) : Result × File :=
  let buf := slice f.data f.pos n.toNat
  (.read buf.length buf, { f with pos := f.pos + buf.length })

def newPos (f : File) (offset : Int64) : Whence → Option Int
  | .seekSet => some offset.toInt
  | .seekEnd => some (f.data.length + offset.toInt)
  | .seekCur => some (f.pos + offset.toInt)
  | .other => none

/-- A position outside of the file is refused. -/
def lseek (f : File) (offset : Int64) (whence : Whence) : Result × File :=
  match f.newPos offset whence with
  | none => (.einval, f)
  | some x =>
    if x < 0 ∨ f.data.length < x then (.einval, f) else (.position x, { f with pos := x.toNat })

def step (f : File) : Op → Result × File
  | .lseek offset whence => f.lseek offset whence
  | .read n => f.read n

def run (f : File) : List Op → List Result
  | [] => []
  | op :: ops => (f.step op).1 :: run (f.step op).2 ops

end File

/-! ## When they agree -/

namespace Fd

/-- A read does not go past the end, and what is taken for a place in the range is one in the file:
the reads count from the start of the range, and the seeks from that of the disk. -/
def Meets (fd : Fd) : Op → Prop
  | .read n => n.toNat ≤ fd.mEnd - (fd.mStart + fd.mOffset) ∨ fd.mEnd ≤ fd.mStart + fd.mOffset
  | .lseek offset whence =>
    match whence with
    | .seekEnd => fd.mStart = 0 ∨ fd.mEnd + offset.toInt < fd.mStart ∨ 0 < offset.toInt
    | .seekSet => (fd.mStart ≤ offset.toInt ∧ offset.toInt ≤ fd.mEnd ↔
        0 ≤ offset.toInt ∧ offset.toInt ≤ fd.mEnd - fd.mStart)
    | .seekCur => (fd.mStart ≤ fd.mOffset + offset.toInt ∧ fd.mOffset + offset.toInt ≤ fd.mEnd ↔
        0 ≤ fd.mOffset + offset.toInt ∧ fd.mOffset + offset.toInt ≤ fd.mEnd - fd.mStart)
    | .other => True

variable (readInto : Nat → Nat → Except String (List UInt8))

/-- Every step of a run meets its condition in the state that it is taken in. -/
def RunMeets (fd : Fd) : List Op → Prop
  | [] => True
  | op :: ops => fd.Meets op ∧ RunMeets (fd.step readInto op).2 ops

end Fd

/-! ## The simulation -/

/-- The descriptor is where the file is, which has the bytes of the range. -/
structure Sim (r : Recording) (start ppEnd : Playpointer) (fd : Fd) (f : File) : Prop where
  mStart : fd.mStart = start.addr
  mEnd : fd.mEnd = ppEnd.addr
  mOffset : fd.mOffset = f.pos
  data : f.data = r.bytes start.addr (ppEnd.addr - start.addr)
  pos_le : f.pos ≤ ppEnd.addr - start.addr

/-- What is read of a range is delivered. -/
def Delivers (r : Recording) (start ppEnd : Playpointer)
    (readInto : Nat → Nat → Except String (List UInt8)) : Prop :=
  ∀ offset len, start.addr + offset + len ≤ ppEnd.addr →
    readInto offset len = .ok (r.bytes (start.addr + offset) len)

@[simp] theorem length_bytes (r : Recording) (addr n : Nat) : (r.bytes addr n).length = n := by
  simp [Recording.bytes]

theorem slice_bytes (r : Recording) {addr n pos m : Nat} (h : pos + m ≤ n) :
    slice (r.bytes addr n) pos m = r.bytes (addr + pos) m := by
  refine List.ext_getElem (by simp; omega) fun i hi hi' => ?_
  simp [slice, Recording.bytes, Nat.add_assoc]

variable {r : Recording} {start ppEnd : Playpointer} {fd : Fd} {f : File}
  {readInto : Nat → Nat → Except String (List UInt8)}

theorem Sim.length (h : Sim r start ppEnd fd f) : f.data.length = ppEnd.addr - start.addr := by
  rw [h.data, length_bytes]

/-- More than a machine word of signs comes out negative. -/
theorem int64_add (a : Nat) (ha : a < 2 ^ 63) (o : Int64) :
    int64 (a + o.toInt) = a + o.toInt ∨ int64 (a + o.toInt) < 0 ∧ 2 ^ 63 ≤ a + o.toInt := by
  have hlt := o.toInt_lt
  have hle := o.le_toInt
  rw [int64, Int.bmod_def]
  split <;> omega

theorem Sim.slice (h : Sim r start ppEnd fd f) {n : Nat}
    (hn : f.pos + n ≤ ppEnd.addr - start.addr) :
    slice f.data f.pos n = r.bytes (start.addr + f.pos) n := by
  rw [h.data, slice_bytes r hn]

/-- A number of bytes as it is returned is not that of fewer bytes. -/
theorem int64_ne {n : UInt64} {m : Nat} (hm : m < n.toNat) : int64 n.toNat ≠ m := by
  have hlt := n.toNat_lt
  rw [int64, Int.bmod_def]
  split <;> omega

theorem Sim.read_iff (h : Sim r start ppEnd fd f) (hend : ppEnd.addr < 2 ^ 63)
    (hle : start.addr ≤ ppEnd.addr) (hread : Delivers r start ppEnd readInto) (n : UInt64) :
    ((fd.read readInto n).1 = (f.read n).1 ↔ fd.Meets (.read n)) ∧
      (fd.Meets (.read n) → Sim r start ppEnd (fd.read readInto n).2 (f.read n).2) := by
  have hpos := h.pos_le
  have hplace : int64 ((start.addr : Int) + f.pos) = start.addr + f.pos :=
    int64_of_lt (by omega) (by omega)
  have hoffset : ((f.pos : Int) % 2 ^ 64).toNat = f.pos := by omega
  unfold Fd.read Fd.Meets
  dsimp only
  rw [h.mStart, h.mEnd, h.mOffset, hplace, hoffset]
  by_cases hatEnd : (ppEnd.addr : Int) ≤ start.addr + f.pos
  · have hnone : Lib.slice f.data f.pos n.toNat = [] := slice_past (by rw [h.length]; omega) _
    rw [if_pos hatEnd, File.read, hnone]
    exact ⟨iff_of_true rfl (.inr hatEnd), fun _ => ⟨h.mStart, h.mEnd, h.mOffset, h.data, hpos⟩⟩
  · rw [if_neg hatEnd]
    by_cases hfits : (n.toNat : Int) ≤ ppEnd.addr - (start.addr + f.pos)
    · have hn : int64 n.toNat = n.toNat := int64_of_lt (by omega) (by omega)
      have hnext : int64 ((f.pos : Int) + n.toNat) = f.pos + n.toNat := int64_of_lt (by omega) (by omega)
      rw [hread _ _ (by omega), File.read, h.slice (by omega)]
      dsimp only
      rw [hn, hnext, length_bytes]
      exact ⟨iff_of_true rfl (.inl hfits),
        fun _ => ⟨rfl, rfl, rfl, h.data, by dsimp only; omega⟩⟩
    · have hless : (Lib.slice f.data f.pos n.toNat).length < n.toNat := by
        rw [length_slice, h.length]
        omega
      have hnot : ¬((n.toNat : Int) ≤ ppEnd.addr - (start.addr + f.pos) ∨
          (ppEnd.addr : Int) ≤ start.addr + f.pos) := not_or.mpr ⟨hfits, hatEnd⟩
      refine ⟨iff_of_false ?_ hnot, fun hmeets => absurd hmeets hnot⟩
      cases readInto f.pos n.toNat with
      | error what => exact nofun
      | ok buf => exact fun heq => int64_ne hless (Result.read.inj heq).1

/-- Both come to a place, which is the same, or to none. -/
theorem Sim.place (h : Sim r start ppEnd fd f) (hle : start.addr ≤ ppEnd.addr) (c x : Int) :
    let fd' := if c < fd.mStart ∨ fd.mEnd < c then (Result.einval, fd)
      else (.position c, { fd with mOffset := c })
    let f' := if x < 0 ∨ f.data.length < x then (Result.einval, f)
      else (.position x, { f with pos := x.toNat })
    (fd'.1 = f'.1 ↔ (start.addr ≤ c ∧ c ≤ ppEnd.addr ↔ 0 ≤ x ∧ x ≤ ppEnd.addr - start.addr) ∧
        (0 ≤ x → x ≤ ppEnd.addr - start.addr → c = x)) ∧
      (fd'.1 = f'.1 → Sim r start ppEnd fd'.2 f'.2) := by
  dsimp only
  rw [h.mStart, h.mEnd, h.length]
  split
  · rename_i hc
    split
    · rename_i hx
      exact ⟨iff_of_true rfl ⟨by omega, fun _ _ => by omega⟩, fun _ => h⟩
    · rename_i hx
      exact ⟨iff_of_false nofun fun hand => by omega, nofun⟩
  · rename_i hc
    split
    · rename_i hx
      exact ⟨iff_of_false nofun fun hand => by omega, nofun⟩
    · rename_i hx
      have hpos : (x.toNat : Int) = x := Int.toNat_of_nonneg (by omega)
      constructor
      · refine ⟨fun heq => ?_, fun hand => congrArg Result.position (hand.2 (by omega) (by omega))⟩
        obtain rfl : c = x := Result.position.inj heq
        exact ⟨by omega, fun _ _ => rfl⟩
      · intro heq
        obtain rfl : c = x := Result.position.inj heq
        exact ⟨rfl, rfl, hpos.symm, h.data, by dsimp only; omega⟩

theorem Sim.lseek_iff (h : Sim r start ppEnd fd f) (hend : ppEnd.addr < 2 ^ 63)
    (hle : start.addr ≤ ppEnd.addr) (offset : Int64) (whence : Whence) :
    ((fd.lseek offset whence).1 = (f.lseek offset whence).1 ↔ fd.Meets (.lseek offset whence)) ∧
      (fd.Meets (.lseek offset whence) →
        Sim r start ppEnd (fd.lseek offset whence).2 (f.lseek offset whence).2) := by
  have hpos := h.pos_le
  have hlen := h.length
  cases whence with
  | other => exact ⟨iff_of_true rfl trivial, fun _ => h⟩
  | seekSet =>
    obtain ⟨hiff, hsim⟩ := h.place hle offset.toInt offset.toInt
    have hmeets : fd.Meets (.lseek offset .seekSet) ↔
        (fd.lseek offset .seekSet).1 = (f.lseek offset .seekSet).1 := by
      refine Iff.trans ?_ hiff.symm
      simp only [Fd.Meets, h.mStart, h.mEnd, implies_true, and_true]
    exact ⟨hmeets.symm, fun hm => hsim (hmeets.mp hm)⟩
  | seekCur =>
    obtain ⟨hiff, hsim⟩ := h.place hle (int64 (fd.mOffset + offset.toInt)) (f.pos + offset.toInt)
    have hmeets : fd.Meets (.lseek offset .seekCur) ↔
        (fd.lseek offset .seekCur).1 = (f.lseek offset .seekCur).1 := by
      refine Iff.trans ?_ hiff.symm
      have hadd := int64_add f.pos (Nat.lt_of_le_of_lt (Nat.le_trans hpos (Nat.sub_le _ _)) hend) offset
      simp only [Fd.Meets, h.mStart, h.mEnd, h.mOffset]
      clear hiff hsim hlen
      rcases hadd with hsame | hwraps
      · rw [hsame]
        omega
      · omega
    exact ⟨hmeets.symm, fun hm => hsim (hmeets.mp hm)⟩
  | seekEnd =>
    obtain ⟨hiff, hsim⟩ := h.place hle (int64 (fd.mEnd + offset.toInt))
      (f.data.length + offset.toInt)
    have hmeets : fd.Meets (.lseek offset .seekEnd) ↔
        (fd.lseek offset .seekEnd).1 = (f.lseek offset .seekEnd).1 := by
      refine Iff.trans ?_ hiff.symm
      have hadd := int64_add ppEnd.addr hend offset
      simp only [Fd.Meets, h.mStart, h.mEnd, hlen]
      rw [Int.natCast_sub hle]
      clear hiff hsim hlen hpos
      rcases hadd with hsame | hwraps
      · rw [hsame]
        omega
      · omega
    exact ⟨hmeets.symm, fun hm => hsim (hmeets.mp hm)⟩

theorem Sim.step_iff (h : Sim r start ppEnd fd f) (hend : ppEnd.addr < 2 ^ 63)
    (hle : start.addr ≤ ppEnd.addr) (hread : Delivers r start ppEnd readInto) (op : Op) :
    ((fd.step readInto op).1 = (f.step op).1 ↔ fd.Meets op) ∧
      (fd.Meets op → Sim r start ppEnd (fd.step readInto op).2 (f.step op).2) := by
  cases op with
  | lseek offset whence => exact h.lseek_iff hend hle offset whence
  | read n => exact h.read_iff hend hle hread n

theorem Sim.run_iff (h : Sim r start ppEnd fd f) (hend : ppEnd.addr < 2 ^ 63)
    (hle : start.addr ≤ ppEnd.addr) (hread : Delivers r start ppEnd readInto) (ops : List Op) :
    fd.run readInto ops = f.run ops ↔ fd.RunMeets readInto ops := by
  induction ops generalizing fd f with
  | nil => exact iff_of_true rfl trivial
  | cons op ops ih =>
    obtain ⟨hstep, hsim⟩ := h.step_iff hend hle hread op
    rw [Fd.run, File.run, List.cons.injEq, hstep, Fd.RunMeets]
    exact and_congr_right fun hmeets => ih (hsim hmeets)

/-- The descriptor behaves as the file with the bytes of the range in exactly the runs whose steps
all meet their condition. -/
theorem run_eq_file_iff (r : Recording) (start ppEnd : Playpointer) (fd : Fd)
    (readInto : Nat → Nat → Except String (List UInt8)) (hopen : mkFd start ppEnd = .ok fd)
    (hle : start.addr ≤ ppEnd.addr) (hread : Delivers r start ppEnd readInto) (ops : List Op) :
    fd.run readInto ops = (File.mk (r.bytes start.addr (ppEnd.addr - start.addr)) 0).run ops ↔
      fd.RunMeets readInto ops := by
  unfold mkFd at hopen
  split at hopen
  · rename_i hmax
    obtain rfl := Except.ok.inj hopen
    have hend : ppEnd.addr < 2 ^ 63 := Nat.lt_trans hmax.2 (by decide)
    exact Sim.run_iff ⟨rfl, rfl, rfl, rfl, Nat.zero_le _⟩ hend hle hread ops
  · cases hopen

theorem eight_dvd_first : 8 ∣ 8 := by decide
theorem eight_dvd_last : 8 ∣ 16 := by decide

/-- Bytes 8 to 16 of a disk. -/
def first : Playpointer := ⟨8, by decide, eight_dvd_first⟩

def last : Playpointer := ⟨16, by decide, eight_dvd_last⟩

def readZeros (offset len : Nat) : Except String (List UInt8) :=
  .ok (Streamstor.zeros.bytes (first.addr + offset) len)

theorem run_eq_file_read :
    (Fd.mk 8 0 16).run readZeros [.read 4, .read 4, .read 4] =
        (File.mk (Streamstor.zeros.bytes 8 (16 - 8)) 0).run [.read 4, .read 4, .read 4] ↔
      (Fd.mk 8 0 16).RunMeets readZeros [.read 4, .read 4, .read 4] :=
  run_eq_file_iff Streamstor.zeros first last ⟨8, 0, 16⟩ readZeros rfl (by decide)
    (fun _ _ _ => rfl) _

/-- The begin of the range is not found. -/
theorem begin_refused : ¬∀ (r : Recording) (start ppEnd : Playpointer) (fd : Fd)
    (readInto : Nat → Nat → Except String (List UInt8)) (ops : List Op),
    mkFd start ppEnd = .ok fd → start.addr ≤ ppEnd.addr → Delivers r start ppEnd readInto →
    fd.run readInto ops = (File.mk (r.bytes start.addr (ppEnd.addr - start.addr)) 0).run ops := by
  intro hall
  have hrun := hall Streamstor.zeros first last ⟨8, 0, 16⟩ readZeros [.lseek 0 .seekSet] rfl
    (by decide) fun _ _ _ => rfl
  have hcode : (Fd.mk 8 0 16).run readZeros [.lseek 0 .seekSet] = [.einval] := by decide
  have hfile : (File.mk (Streamstor.zeros.bytes 8 (16 - 8)) 0).run [.lseek 0 .seekSet] =
      [.position 0] := by
    decide
  rw [hcode] at hrun
  exact absurd (hrun.trans hfile) (by decide)

/-! ## Where the condition holds -/

/-- Of a range at the begin of the disk no seek is wrong. -/
theorem Fd.meets_lseek {fd : Fd} (h : fd.mStart = 0) (offset : Int64) (whence : Whence) :
    fd.Meets (.lseek offset whence) := by
  cases whence <;> simp [Fd.Meets, h]

/-- A descriptor that is closed is at its end. -/
theorem Fd.read_close (readInto : Nat → Nat → Except String (List UInt8)) {fd : Fd}
    (h : 0 ≤ fd.mEnd) (hend : fd.mEnd < 2 ^ 63) (n : UInt64) :
    (fd.close.read readInto n).1 = .read 0 [] := by
  have hplace : int64 (fd.mEnd + 0) = fd.mEnd := by
    rw [Int.add_zero]
    exact int64_of_lt (by omega) hend
  rw [Fd.read, if_pos]
  exact Int.le_of_eq hplace.symm

end Jive5ab.Streamstor.EtdFd
