import Jive5ab.Headersearch.Mark4

/-! # Straight-through Mark4 headers

The bits of 32 tracks as they are on tape: a parity bit behind every eight, and a
change of level for every one. The encoder puts in both; `generate_nrzm` takes the
levels out again and the reader skips the parity. -/
namespace Jive5ab.Headersearch
open Lib Lib.Calendar Vdif

/-- A frame as words, one bit of all tracks each. -/
abbrev StWords := Nat → BitVec 32

/-- A word as a little-endian host reads it. -/
def wordAt (frame : Framedata) (i : Nat) : BitVec 32 :=
  (frame (4 * i + 3) ++ frame (4 * i + 2) ++ frame (4 * i + 1) ++ frame (4 * i) : BitVec 32)

def bytesOf (words : StWords) : Framedata := fun a => (words (a / 4) >>> (8 * (a % 4))).setWidth 8

/-! ## Encoding -/

/-- The loop over the words that are left: `i` counts those of the header, `j` those of
the frame, `ones` the words since the last parity that are not zero. -/
def insertParity (header32 : StWords) : Nat → Nat → Nat → Nat → StWords → StWords
  | 0, _, _, _, frame => frame
  | n + 1, i, j, ones, frame =>
    let frame := Function.update frame j (header32 i)
    let ones := if header32 i ≠ 0 then ones + 1 else ones
    let i := i + 1
    if i % 8 = 0 then
      let parity : BitVec 32 := if ones % 2 = 1 then ~~~0 else 0
      -- syncword has opposite parity
      let parity := if 64 ≤ i ∧ i < 96 then ~~~parity else parity
      insertParity header32 n i (j + 2) 0 (Function.update frame (j + 1) parity)
    else insertParity header32 n i (j + 1) ones frame

/-- `frame32[i] = frame32[i] ^ frame32[i-1]`, for `n` words from the second on. -/
def encodeNrzm (frame : StWords) : Nat → StWords
  | 0 => frame
  | n + 1 =>
    let frame := encodeNrzm frame n
    Function.update frame (n + 1) (frame (n + 1) ^^^ frame n)

/-- The header in a buffer of its own first, of which all is written. -/
def encodeMk4TimestampSt (framedata : Framedata) (ts : HighResTime) (hdr : Headersearch) :
    Except HeaderError Framedata :=
  match encodeMk4Timestamp (fun _ => 0) ts hdr with
  | .error e => .error e
  | .ok header =>
    .ok (bytesOf (encodeNrzm (insertParity (wordAt header) 160 0 0 0 (wordAt framedata)) 159))

/-! ## Decoding -/

/-- A word changes every level that it has a one for. -/
def generateNrzm (data : Framedata) : Framedata := bytesOf fun i =>
  match i with
  | 0 => wordAt data 0
  | i + 1 => wordAt data (i + 1) ^^^ wordAt data i

/-- Eight bytes of ones and one of zeroes on every track, four times. -/
def stSyncword : List Crc.Byte :=
  (List.replicate 4 (List.replicate 32 0xff ++ List.replicate 4 0)).flatten

def stSyncwordoffset : Nat := 8 * 32 * 9 / 8

/-- `headersearch_type` for straight-through data, always of 32 tracks. -/
def mark4St (bitrate : ℚ≥0) : Headersearch := .make .mark4St 32 bitrate (2500 * 32)

/-! ## The words of a frame -/

theorem bytes_append (w : BitVec 32) :
    ((w >>> 24).setWidth 8 ++ (w >>> 16).setWidth 8 ++ (w >>> 8).setWidth 8 ++ w.setWidth 8 :
      BitVec 32) = w := by
  refine BitVec.eq_of_getLsbD_eq fun k hk => ?_
  simp only [BitVec.getLsbD_append, BitVec.getLsbD_setWidth, BitVec.getLsbD_ushiftRight]
  by_cases h8 : k < 8
  · simp [h8]
  by_cases h16 : k - 8 < 8
  · have hplace : 8 + (k - 8) = k := by omega
    simp [h8, h16, hplace]
  by_cases h24 : k - 8 - 8 < 8
  · have hplace : 16 + (k - 8 - 8) = k := by omega
    simp [h8, h16, h24, hplace]
  · have hplace : 24 + (k - 8 - 8 - 8) = k := by omega
    have hlast : k - 8 - 8 - 8 < 8 := by omega
    simp [h8, h16, h24, hlast, hplace]

@[simp] theorem wordAt_bytesOf (words : StWords) (i : Nat) : wordAt (bytesOf words) i = words i := by
  have hbyte : ∀ b < 4, bytesOf words (4 * i + b) = (words i >>> (8 * b)).setWidth 8 := by
    intro b hb
    have hword : (4 * i + b) / 4 = i := by omega
    have hoff : (4 * i + b) % 4 = b := by omega
    unfold bytesOf
    rw [hword, hoff]
  have hfirst := hbyte 0 (by simp)
  rw [Nat.add_zero, Nat.mul_zero, BitVec.ushiftRight_zero] at hfirst
  unfold wordAt
  rw [hbyte 3 (by simp), hbyte 2 (by simp), hbyte 1 (by simp), hfirst]
  exact bytes_append (words i)

/-! ## Levels -/

/-- The words past the last one are as they were. -/
theorem encodeNrzm_above (frame : StWords) {n i : Nat} (h : n < i) : encodeNrzm frame n i = frame i := by
  induction n with
  | zero => rfl
  | succ n ih =>
    unfold encodeNrzm
    dsimp only
    rw [Function.update_of_ne (by omega)]
    exact ih (by omega)

/-- Once a word is coded it stays. -/
theorem encodeNrzm_stays (frame : StWords) {n i : Nat} (h : i ≤ n) :
    encodeNrzm frame n i = encodeNrzm frame i i := by
  induction n with
  | zero =>
    have hzero : i = 0 := Nat.le_zero.mp h
    rw [hzero]
  | succ n ih =>
    rcases Nat.eq_or_lt_of_le h with rfl | hlt
    · rfl
    · unfold encodeNrzm
      dsimp only
      rw [Function.update_of_ne (by omega)]
      rw [ih (Nat.le_of_lt_succ hlt)]
      cases i <;> rfl

/-- The checker gets back what was coded. -/
theorem generateNrzm_coded (frame : StWords) {n i : Nat} (h : i ≤ n) :
    wordAt (generateNrzm (bytesOf (encodeNrzm frame n))) i = frame i := by
  unfold generateNrzm
  rw [wordAt_bytesOf]
  cases i with
  | zero =>
    dsimp only
    rw [wordAt_bytesOf, encodeNrzm_stays frame h]
    rfl
  | succ i =>
    have hcoded : encodeNrzm frame (i + 1) (i + 1) = frame (i + 1) ^^^ encodeNrzm frame i i := by
      rw [← encodeNrzm_above frame (Nat.lt_succ_self i)]
      exact Function.update_self ..
    dsimp only
    rw [wordAt_bytesOf, wordAt_bytesOf, encodeNrzm_stays frame h,
      encodeNrzm_stays frame (Nat.le_of_succ_le h), hcoded, BitVec.xor_assoc, BitVec.xor_self,
      BitVec.xor_zero]

/-! ## Parity -/

section
variable (header32 : StWords)

def onesIn (g r : Nat) : Nat := (List.range r).countP fun t => header32 (8 * g + t) ≠ 0

def parityOf (g : Nat) : BitVec 32 :=
  let parity : BitVec 32 := if onesIn header32 g 8 % 2 = 1 then ~~~0 else 0
  if 64 ≤ 8 * g + 8 ∧ 8 * g + 8 < 96 then ~~~parity else parity

/-- What the encoder makes of word `j` of a frame before it codes levels. -/
def stWord (j : Nat) : BitVec 32 :=
  if j % 9 = 8 then parityOf header32 (j / 9) else header32 (8 * (j / 9) + j % 9)

theorem onesIn_succ (g r : Nat) :
    onesIn header32 g (r + 1) =
      if header32 (8 * g + r) ≠ 0 then onesIn header32 g r + 1 else onesIn header32 g r := by
  unfold onesIn
  rw [List.range_succ, List.countP_append, List.countP_singleton]
  by_cases hzero : header32 (8 * g + r) ≠ 0
  · rw [if_pos hzero, decide_eq_true hzero, if_pos rfl]
  · rw [if_neg hzero, decide_eq_false hzero, if_neg Bool.false_ne_true, Nat.add_zero]

theorem stWord_data (g : Nat) {r : Nat} (hr : r < 8) :
    stWord header32 (9 * g + r) = header32 (8 * g + r) := by
  have hgroup : (9 * g + r) / 9 = g := by omega
  have hword : (9 * g + r) % 9 = r := by omega
  unfold stWord
  rw [hgroup, hword, if_neg (by omega)]

theorem stWord_parity (g : Nat) : stWord header32 (9 * g + 8) = parityOf header32 g := by
  have hgroup : (9 * g + 8) / 9 = g := by omega
  have hword : (9 * g + 8) % 9 = 8 := by omega
  unfold stWord
  rw [hgroup, hword, if_pos rfl]

/-- The rest of a group of eight, `k` words of it, and its parity. -/
theorem insertParity_group (g n k : Nat) (hk : k < 8) (frame : StWords) :
    insertParity header32 (n + (k + 1)) (8 * g + (7 - k)) (9 * g + (7 - k))
        (onesIn header32 g (7 - k)) frame =
      insertParity header32 n (8 * (g + 1)) (9 * (g + 1)) 0
        fun a => if 9 * g + (7 - k) ≤ a ∧ a < 9 * (g + 1) then stWord header32 a else frame a := by
  induction k generalizing frame with
  | zero =>
    have hend : (8 * g + 7 + 1) % 8 = 0 := by omega
    have hcount := onesIn_succ header32 g 7
    conv_lhs => unfold insertParity
    dsimp only
    rw [Nat.sub_zero, ← hcount, if_pos hend]
    have hframe : Function.update (Function.update frame (9 * g + 7) (header32 (8 * g + 7)))
        (9 * g + 7 + 1) (parityOf header32 g) =
          fun a => if 9 * g + 7 ≤ a ∧ a < 9 * (g + 1) then stWord header32 a else frame a := by
      funext a
      by_cases hparity : a = 9 * g + 7 + 1
      · subst hparity
        rw [Function.update_self, if_pos (by omega)]
        exact (stWord_parity header32 g).symm
      rw [Function.update_of_ne hparity]
      by_cases hdata : a = 9 * g + 7
      · subst hdata
        rw [Function.update_self, if_pos (by omega)]
        exact (stWord_data header32 g (by simp)).symm
      · rw [Function.update_of_ne hdata, if_neg (by omega)]
    exact congrArg (insertParity header32 n (8 * (g + 1)) (9 * (g + 1)) 0) hframe
  | succ k ih =>
    have hnext : 7 - (k + 1) + 1 = 7 - k := by omega
    have hmid : ¬ (8 * g + (7 - (k + 1)) + 1) % 8 = 0 := by omega
    have hcount := onesIn_succ header32 g (7 - (k + 1))
    have hrest := ih (by omega)
      (Function.update frame (9 * g + (7 - (k + 1))) (header32 (8 * g + (7 - (k + 1)))))
    rw [← Nat.add_assoc n]
    conv_lhs => unfold insertParity
    dsimp only
    rw [← hcount, if_neg hmid, hnext, Nat.add_assoc (8 * g), Nat.add_assoc (9 * g), hnext, hrest]
    congr 1
    funext a
    by_cases hdata : a = 9 * g + (7 - (k + 1))
    · subst hdata
      rw [if_neg (by omega), Function.update_self, if_pos (by omega)]
      exact (stWord_data header32 g (by omega)).symm
    · rw [Function.update_of_ne hdata]
      by_cases hin : 9 * g + (7 - k) ≤ a ∧ a < 9 * (g + 1)
      · rw [if_pos hin, if_pos (by omega)]
      · rw [if_neg hin, if_neg (by omega)]

/-- The groups that are left. -/
theorem insertParity_groups (n g : Nat) (frame : StWords) :
    insertParity header32 (8 * n) (8 * g) (9 * g) 0 frame =
      fun a => if 9 * g ≤ a ∧ a < 9 * (g + n) then stWord header32 a else frame a := by
  induction n generalizing g frame with
  | zero =>
    funext a
    rw [if_neg (by omega)]
    rfl
  | succ n ih =>
    have hgroup := insertParity_group header32 g (8 * n) 7 (by simp) frame
    rw [Nat.sub_self] at hgroup
    rw [Nat.mul_succ]
    refine hgroup.trans ?_
    rw [ih (g + 1)]
    funext a
    by_cases hlater : 9 * (g + 1) ≤ a ∧ a < 9 * (g + 1 + n)
    · rw [if_pos hlater, if_pos (by omega)]
    rw [if_neg hlater]
    by_cases hhere : 9 * g + 0 ≤ a ∧ a < 9 * (g + 1)
    · rw [if_pos hhere, if_pos (by omega)]
    · rw [if_neg hhere, if_neg (by omega)]

end

/-! ## The sync word -/

theorem encodeMk4_ok {framedata out : Framedata} {ts : HighResTime} {hdr : Headersearch}
    (h : encodeMk4Timestamp framedata ts hdr = .ok out) :
    validNtrack hdr.ntrack = true ∧ out = putBits (hdr.ntrack / 8) framedata 0 (headerBits
      (mk4Header (gmtime ts.tvSec) (yday ts.tvSec + 1) (milliseconds ts.tvSubsecond))) := by
  unfold encodeMk4Timestamp putHeader at h
  split at h
  · cases h
  split at h
  · cases h
  dsimp only at h
  split at h
  · cases h
  split at h
  · cases h
  split at h
  · rename_i hntrack
    exact ⟨hntrack, (Except.ok.inj h).symm⟩
  · cases h

/-- The words of the sync word of 32 tracks. -/
theorem wordAt_syncword {bitrate : ℚ≥0} {framedata header : Framedata} {ts : HighResTime}
    (h : encodeMk4Timestamp framedata ts (mark4St bitrate) = .ok header) {i : Nat} (h64 : 64 ≤ i)
    (h96 : i < 96) : wordAt header i = ~~~0 := by
  obtain ⟨hntrack, hheader⟩ := encodeMk4_ok h
  have hbyte : ∀ b < 4, header (4 * i + b) = 0xff := by
    intro b hb
    rw [hheader]
    exact @putBits_syncword 32 framedata (gmtime ts.tvSec) (yday ts.tvSec + 1)
      (milliseconds ts.tvSubsecond) hntrack (4 * i + b) (by omega) (by omega)
  have hfirst := hbyte 0 (by simp)
  rw [Nat.add_zero] at hfirst
  unfold wordAt
  rw [hbyte 3 (by simp), hbyte 2 (by simp), hbyte 1 (by simp), hfirst]
  rfl

/-- Eight ones have even parity, and that is turned around. -/
theorem parityOf_syncword {header32 : StWords} (h : ∀ i, 64 ≤ i → i < 96 → header32 i = ~~~0) :
    parityOf header32 8 = ~~~0 := by
  have hall : onesIn header32 8 8 = 8 := by
    unfold onesIn
    rw [List.countP_eq_length.mpr, List.length_range]
    intro t ht
    rw [h _ (by omega) (by have hlt := List.mem_range.mp ht; omega)]
    rfl
  unfold parityOf
  rw [hall]
  rfl

/-- The parity behind the first byte of the sync word is not the one in the table. -/
theorem straightThrough_syncword {bitrate : ℚ≥0} {framedata out : Framedata} {ts : HighResTime}
    (h : encodeMk4TimestampSt framedata ts (mark4St bitrate) = .ok out) :
    checkSyncword stSyncword stSyncwordoffset (generateNrzm out) = false := by
  unfold encodeMk4TimestampSt at h
  split at h
  · cases h
  rename_i header hheader
  have hout := Except.ok.inj h
  have hwords := insertParity_groups (wordAt header) 20 0 (wordAt framedata)
  have hword : wordAt (generateNrzm out) 80 = ~~~0 := by
    rw [← hout, generateNrzm_coded _ (by simp)]
    refine (congrFun hwords 80).trans ?_
    rw [if_pos (by simp)]
    exact (stWord_parity (wordAt header) 8).trans
      (parityOf_syncword fun i h64 h96 => wordAt_syncword hheader h64 h96)
  have hbyte : generateNrzm out 320 = 0xff := by
    unfold generateNrzm at hword ⊢
    rw [wordAt_bytesOf] at hword
    have hlow : ((~~~0 : BitVec 32) >>> (8 * (320 % 4))).setWidth 8 = (0xff : Crc.Byte) := rfl
    unfold bytesOf
    rw [← hlow, ← hword]
    rfl
  rw [Bool.eq_false_iff]
  intro hall
  have hparity := List.all_eq_true.mp hall 32 (List.mem_range.mpr (by simp [stSyncword]))
  have hplace : stSyncwordoffset + 32 = 320 := rfl
  rw [hplace, hbyte] at hparity
  exact Bool.noConfusion hparity

theorem straightThrough_rejected {bitrate : ℚ≥0} {framedata out : Framedata} {ts : HighResTime}
    (h : encodeMk4TimestampSt framedata ts (mark4St bitrate) = .ok out) (track : Nat) :
    checkMark4 true stSyncword stSyncwordoffset (generateNrzm out) .chkDefault track (mark4St bitrate) =
      .ok false := by
  unfold checkMark4 checkTape
  rw [straightThrough_syncword h]
  rfl

/-- What is encoded, with its levels decoded, passes the checks and gives the same time
on every track. -/
def StRoundTrips (currentYear : Int) (framedata : Framedata) (ts : HighResTime)
    (hdr : Headersearch) : Prop :=
  ∃ out, encodeMk4TimestampSt framedata ts hdr = .ok out ∧ ∀ track < hdr.ntrack,
    checkMark4 true stSyncword stSyncwordoffset (generateNrzm out) .chkDefault track hdr = .ok true ∧
      mk4FrameTimestamp true currentYear (generateNrzm out) track hdr .chkDefault =
        .ok (ts.tvSec, ts.tvSubsecond)

theorem straightThrough_never (currentYear : Int) (framedata : Framedata) (ts : HighResTime)
    (bitrate : ℚ≥0) : ¬ StRoundTrips currentYear framedata ts (mark4St bitrate) := by
  rintro ⟨out, hout, hall⟩
  have hok := (hall 0 (Nat.zero_lt_succ 31)).1
  rw [straightThrough_rejected hout 0] at hok
  exact Bool.noConfusion (Except.ok.inj hok)

theorem straightThrough_rejected_late :
    ∃ out, encodeMk4TimestampSt (fun _ => 0) mark4Late (mark4St 16000000) = .ok out ∧
      checkMark4 true stSyncword stSyncwordoffset (generateNrzm out) .chkDefault 0 (mark4St 16000000) =
        .ok false := by
  have hok : (encodeMk4Timestamp (fun _ => 0) mark4Late (mark4St 16000000)).isOk = true := by
    decide +kernel
  cases hheader : encodeMk4Timestamp (fun _ => 0) mark4Late (mark4St 16000000) with
  | error e =>
    rw [hheader] at hok
    exact Bool.noConfusion hok
  | ok header =>
    have hencoded : ∃ out,
        encodeMk4TimestampSt (fun _ => 0) mark4Late (mark4St 16000000) = .ok out := by
      unfold encodeMk4TimestampSt
      rw [hheader]
      exact ⟨_, rfl⟩
    obtain ⟨out, hout⟩ := hencoded
    exact ⟨out, hout, straightThrough_rejected hout 0⟩

end Jive5ab.Headersearch
