import Jive5ab.Headersearch.DataCheck

/-! # Which header is found

The search goes on behind each sync word that it has refused, so it finds the headers whose sync
word is not preceded by part of another. -/
namespace Jive5ab.Headersearch
open Lib

/-! ## Formats that are constructed -/

def Constructed (hdr : Headersearch) : Prop :=
  ∃ trackbitrate payloadsz, checkFormat hdr.frameformat hdr.ntrack trackbitrate payloadsz = .ok ()

theorem checkFormat_st {fmt : FormatType} {ntrack payloadsz : Nat} {trackbitrate : Samplerate}
    (hfmt : isSt fmt = true) (h : checkFormat fmt ntrack trackbitrate payloadsz = .ok ()) :
    ntrack = 32 := by
  have hother : (isMk4Vlba fmt || fmt == .mark5b) = false := by
    cases fmt <;> first | rfl | cases hfmt
  unfold checkFormat ezassert at h
  rw [hother, hfmt, if_neg Bool.false_ne_true, if_pos rfl] at h
  by_contra hne
  rw [if_neg hne] at h
  cases h

/-! ## Sync words that repeat -/

/-- The shorter word of which a sync word is a number of copies: a byte of ones, with parity a
group of 32 of them and the parity bits, or the whole of it. -/
def syncwordUnit (fmt : FormatType) : Nat :=
  match fmt with
  | .mark5b => 4
  | .mark4St | .vlbaSt => 36
  | _ => 1

def syncwordCopies (fmt : FormatType) (n : Nat) : Nat :=
  match fmt with
  | .mark5b => 1
  | .mark4St | .vlbaSt => 4
  | _ => n * 4

theorem repeats_ones {n : Nat} (hn : 0 < n) :
    Repeats (fun _ => (0xff : Crc.Byte)) (n * 4) 1 (n * 4) :=
  ⟨Nat.one_pos, by omega, (Nat.mul_one _).symm, fun _ _ => rfl, fun d _ _ _ => Nat.one_dvd d⟩

theorem repeats_mark5b : Repeats (syncword .mark5b) 4 4 1 := by
  have hall : ∀ d < 4, 0 < d → syncword .mark5b (0 + d) ≠ syncword .mark5b 0 := by decide
  refine ⟨by decide, Nat.one_pos, rfl, fun t ht => absurd ht (by omega), fun d hpos hd heq => ?_⟩
  exact absurd (heq 0 (by omega)) (hall d hd hpos)

/-- The parity bits follow each group. -/
theorem syncword_st {t : Nat} (ht : t < 144) :
    syncword .mark4St t = if t % 36 < 32 then 0xff else 0 := by
  have hlist : stSyncword = (List.range 144).map fun t => if t % 36 < 32 then 0xff else 0 := rfl
  have hlength : t < (List.range 144).length := by rwa [List.length_range]
  change stSyncword.getD t 0 = _
  rw [hlist, List.getD_eq_getElem _ _ (by rwa [List.length_map]), List.getElem_map,
    List.getElem_range]

theorem repeats_st : Repeats (syncword .mark4St) 144 36 4 := by
  refine ⟨by decide, by decide, rfl, fun t ht => ?_, fun d hpos hd h => ?_⟩
  · rw [syncword_st ht, syncword_st (by omega), Nat.add_mod_right]
  · by_contra hdvd
    -- the last ones of a group, or the first, come to the parity bits
    have hmoved := h (32 - d % 36) (by omega)
    rw [syncword_st (by omega), syncword_st (by omega), if_neg (by omega), if_pos (by omega)] at hmoved
    revert hmoved
    decide

/-- A sync word that there is, is such a number of copies. -/
theorem repeats_syncword {hdr : Headersearch}
    (hsize : 0 < syncwordsize hdr.frameformat hdr.ntrack) :
    Repeats (syncword hdr.frameformat) (syncwordsize hdr.frameformat hdr.ntrack)
      (syncwordUnit hdr.frameformat) (syncwordCopies hdr.frameformat hdr.ntrack) := by
  revert hsize
  unfold syncwordsize syncwordCopies syncwordUnit
  cases hdr.frameformat with
  | mark4 | vlba => exact fun hsize => repeats_ones (by dsimp only at hsize; omega)
  | mark5b => exact fun _ => repeats_mark5b
  | mark4St | vlbaSt => exact fun _ => repeats_st
  | _ => exact fun hsize => absurd hsize (Nat.lt_irrefl 0)

/-- The sync word is within the header. -/
theorem Constructed.sizes {hdr : Headersearch} (h : Constructed hdr)
    (hsize : 0 < syncwordsize hdr.frameformat hdr.ntrack) :
    syncwordoffset hdr.frameformat hdr.ntrack + syncwordsize hdr.frameformat hdr.ntrack <
        headersize hdr.frameformat hdr.ntrack ∧
      headersize hdr.frameformat hdr.ntrack ≤ 1280 := by
  obtain ⟨trackbitrate, payloadsz, hcheck⟩ := h
  obtain ⟨fmt, ntrack, bitrate, state⟩ := hdr
  dsimp only at hcheck hsize ⊢
  cases fmt with
  | mark4 =>
    obtain ⟨hmin, hdvd⟩ := checkFormat_tape rfl hcheck
    have hle := Nat.le_of_dvd (by decide) hdvd
    change 8 * ntrack + ntrack * 4 < ntrack * 20 % 2 ^ 32 ∧ ntrack * 20 % 2 ^ 32 ≤ 1280
    rw [Nat.mod_eq_of_lt (by omega)]
    omega
  | vlba =>
    obtain ⟨hmin, hdvd⟩ := checkFormat_tape rfl hcheck
    have hle := Nat.le_of_dvd (by decide) hdvd
    change 0 + ntrack * 4 < ntrack * 12 % 2 ^ 32 ∧ ntrack * 12 % 2 ^ 32 ≤ 1280
    rw [Nat.mod_eq_of_lt (by omega)]
    omega
  | mark4St | vlbaSt =>
    obtain rfl := checkFormat_st rfl hcheck
    decide
  | mark5b => exact (by decide : 0 + 4 < 16 ∧ 16 ≤ 1280)
  | _ => exact absurd hsize (Nat.lt_irrefl 0)

/-! ## What refuses -/

theorem extractBitstream_ok {stripParity : Bool} {track ntrack nbytes : Nat} {frame : Framedata}
    {bytes : List Crc.Byte} (h : extractBitstream stripParity track ntrack nbytes frame = .ok bytes) :
    track < ntrack := by
  unfold extractBitstream at h
  split at h
  · cases h
  · omega

theorem extractBitstream_error {stripParity : Bool} {track ntrack nbytes : Nat} {frame : Framedata}
    {e : HeaderError} (h : extractBitstream stripParity track ntrack nbytes frame = .error e) :
    ntrack ≤ track := by
  unfold extractBitstream at h
  split at h
  · assumption
  · cases h

/-- A track that there is not throws, or is never looked at. -/
theorem checkTape_error {buffer buffer' : Framedata} {strict : Strict} {track ntrack offset : Nat}
    {word : List Crc.Byte} {strip : Bool} {size : Nat} {crc : List Crc.Byte → BitVec 32}
    {e : HeaderError} (h : checkTape buffer strict track ntrack word offset strip size crc = .error e) :
    checkTape buffer' strict track ntrack word offset strip size crc ≠ .ok true := by
  have htrack : ntrack ≤ track := by
    unfold checkTape at h
    split at h
    · cases h
    split at h
    · cases h
    split at h
    · rename_i hread
      exact extractBitstream_error hread
    · cases h
  intro hok
  unfold checkTape at hok
  split at hok
  · cases hok
  split at hok
  · cases hok
  split at hok
  · cases hok
  · rename_i hread
    have := extractBitstream_ok hread
    omega

theorem checkFrame_error {hdr : Headersearch} {buffer buffer' : Framedata} {strict : Strict}
    {track : Nat} {e : HeaderError} (h : checkFrame hdr buffer strict track = .error e) :
    checkFrame hdr buffer' strict track ≠ .ok true := by
  revert h
  unfold checkFrame
  cases hdr.frameformat with
  | mark4 | mark4St | vlba | vlbaSt => exact checkTape_error
  | _ => exact fun h => nomatch h

theorem wraps_cleared {tvSec : Int} {frameno : ℚ≥0} {wrap : Bool}
    (h : M5bState.cleared.wraps tvSec frameno = some wrap) : wrap = false := by
  unfold M5bState.wraps at h
  by_cases hsec : tvSec ≠ M5bState.cleared.second
  · rw [if_pos hsec] at h
    exact (Option.some.inj h).symm
  · rw [if_neg hsec] at h
    cases h

/-- A decoder that has not decoded yet is left as it is by a header that it refuses. -/
theorem mk5bFrameTimestamp_refuses {currentMjd : Int} {w : Words} {trackbitrate : ℚ≥0}
    {state : DecoderState} {strict : Strict} {m5b : M5bState} {e : HeaderError}
    (h : mk5bFrameTimestamp currentMjd w trackbitrate state .cleared strict = (m5b, .error e)) :
    m5b = .cleared := by
  unfold mk5bFrameTimestamp at h
  dsimp only at h
  split at h
  · exact (Prod.mk.inj h).1.symm
  · rename_i wrap hwrap
    obtain rfl := wraps_cleared hwrap
    simp only [Bool.false_eq_true, if_false, add_zero] at h
    split at h
    · cases (Prod.mk.inj h).2
    split at h
    · split at h
      · exact (Prod.mk.inj h).1.symm
      · cases (Prod.mk.inj h).2
    · split at h
      · exact (Prod.mk.inj h).1.symm
      · cases (Prod.mk.inj h).2

theorem tryFrame_refuses {hdr : Headersearch} {clock : Clock} {buffer : Framedata} {strict : Strict}
    {track : Nat} {m5b : M5bState}
    (h : tryFrame hdr clock buffer strict track .cleared = (m5b, .refuses)) : m5b = .cleared := by
  unfold tryFrame at h
  split at h
  · cases (Prod.mk.inj h).2
  · exact (Prod.mk.inj h).1.symm
  · split at h
    · rename_i e hdecode
      obtain ⟨rfl, -⟩ := Prod.mk.inj h
      revert hdecode
      unfold frameTimestamp
      cases hdr.frameformat with
      | mark5b =>
        dsimp only
        intro hdecode
        obtain ⟨hstate, herror⟩ := Prod.mk.inj hdecode
        generalize hrun : mk5bFrameTimestamp _ _ _ _ _ _ = run at hstate herror
        obtain ⟨m5b', t⟩ := run
        cases t with
        | ok t => cases herror
        | error e' =>
          rw [← hstate]
          exact mk5bFrameTimestamp_refuses hrun
      | _ => exact fun hdecode => (Prod.mk.inj hdecode).1.symm
    · cases (Prod.mk.inj h).2

theorem tryFrame_decodes {hdr : Headersearch} {clock : Clock} {buffer : Framedata} {strict : Strict}
    {track : Nat} {m5b : M5bState} {t : TimeStamp}
    (h : (tryFrame hdr clock buffer strict track m5b).2 = .decodes t) :
    checkFrame hdr buffer strict track = .ok true := by
  unfold tryFrame at h
  split at h
  · cases h
  · cases h
  · assumption

theorem tryFrame_throws {hdr : Headersearch} {clock : Clock} {buffer : Framedata} {strict : Strict}
    {track : Nat} {m5b : M5bState} {e : HeaderError}
    (h : (tryFrame hdr clock buffer strict track m5b).2 = .throws e) :
    checkFrame hdr buffer strict track = .error e := by
  unfold tryFrame at h
  split at h
  · rename_i hcheck
    rw [hcheck, Verdict.throws.inj h]
  · cases h
  · split at h
    · cases h
    · cases h

namespace DataCheck

variable {c : DataCheck}

variable (c) in
def word : Nat → Crc.Byte := syncword c.format.frameformat

/-- How many bytes are searched: the length, in an `unsigned int`. -/
def searched (c : DataCheck) : Nat := c.len % 2 ^ 32

theorem tryAt_refuses {m5b : M5bState} {start : Nat}
    (h : c.tryAt .cleared start = (m5b, .refuses)) : m5b = .cleared :=
  tryFrame_refuses h

/-- Where there is a header, there is a track to decode. -/
theorem IsHeader.not_throws {o start : Nat} {m5b : M5bState} {e : HeaderError} (h : c.IsHeader o) :
    (c.tryAt m5b start).2 ≠ .throws e := by
  intro hthrows
  obtain ⟨t, ht⟩ := h.decodes
  exact checkFrame_error (tryFrame_throws hthrows) (tryFrame_decodes ht)

theorem IsHeader.fits {o : Nat} (h : c.IsHeader o) (hformat : Constructed c.format)
    (hsize : 0 < c.size) : o + c.offset + c.size < c.len := by
  have hlt : c.offset + c.size < c.header := (hformat.sizes hsize).1
  have := h.full
  omega

/-! ## What is found -/

theorem find_spec {s : Nat} (hsize : 0 < c.size) (hlen : c.searched < 2 ^ 31 - 1)
    (hs : s ≤ c.searched) :
    ∃ found, c.find s = .ok found ∧
      match found with
      | some p => FirstFrom c.word c.size c.data c.searched s p
      | none => ∀ p, s ≤ p → p + c.size ≤ c.searched → ¬Occurs c.word c.size c.data p := by
  have hmoved (p : Nat) : Occurs c.word c.size (fun a => c.data (s + a)) p ↔
      Occurs c.word c.size c.data (s + p) := by
    unfold Occurs
    simp only [Nat.add_assoc]
  have hhaystack : (c.len - s) % 2 ^ 32 = c.searched - s := by
    unfold searched at hlen hs ⊢
    omega
  have hspec := @BoyerMoore.search_spec Crc.Byte _ c.word (fun a => c.data (s + a)) c.size
    (c.searched - s) hsize
  unfold find
  dsimp only
  rw [hhaystack, if_neg (by omega)]
  refine ⟨_, rfl, ?_⟩
  change match (BoyerMoore.search c.word c.size (fun a => c.data (s + a)) (c.searched - s)).map
    (s + ·) with | some p => _ | none => _
  cases hfound : BoyerMoore.search c.word c.size (fun a => c.data (s + a)) (c.searched - s) with
  | none =>
    rw [hfound] at hspec
    intro p hsp hp hocc
    obtain ⟨d, rfl⟩ := Nat.exists_eq_add_of_le hsp
    exact hspec d (by omega) ((hmoved d).mpr hocc)
  | some p =>
    rw [hfound] at hspec
    refine ⟨Nat.le_add_right s p, ?_, (hmoved p).mp hspec.occurs, fun q hsq hq hocc => ?_⟩
    · have := hspec.le
      dsimp only
      omega
    · dsimp only at hq
      obtain ⟨d, rfl⟩ := Nat.exists_eq_add_of_le hsq
      exact hspec.first d (Nat.zero_le d) (by omega) ((hmoved d).mpr hocc)

/-- From where the search is resumed. -/
def next (c : DataCheck) (fuel s : Nat) : Except SearchError (Option Found) :=
  if s + c.size < c.len then
    match c.find s with
    | .error e => .error e
    | .ok syncWord => c.loop fuel .cleared syncWord
  else .ok none

/-- What the loop does at a hit, where nothing wraps. -/
theorem loop_hit {fuel p : Nat} (hformat : Constructed c.format) (hsize : 0 < c.size)
    (hlen : c.searched < 2 ^ 31 - 1) (hp : p + c.size ≤ c.searched) :
    c.loop (fuel + 1) .cleared (some p) =
      if p < c.offset then c.next fuel (p + c.size)
      else if c.len < p - c.offset + c.header then .ok none
      else
        match (c.tryAt .cleared (p - c.offset)).2 with
        | .throws e => .error (.header e)
        | .decodes t => .ok (some ⟨p - c.offset, t⟩)
        | .refuses => c.next fuel (p + c.size) := by
  have hheader : c.offset + c.size < c.header ∧ c.header ≤ 1280 := hformat.sizes hsize
  have hwrap {a : Nat} (ha : a ≤ c.searched + 1280) : a % 2 ^ 32 = a :=
    Nat.mod_eq_of_lt (by omega)
  rw [loop]
  dsimp only
  rw [hwrap (show p ≤ _ by omega)]
  by_cases hbefore : p < c.offset
  · rw [if_pos hbefore, if_pos hbefore, hwrap (show p + c.size ≤ _ by omega),
      hwrap (show p + c.size + c.size ≤ _ by omega)]
    rfl
  · rw [if_neg hbefore, if_neg hbefore, hwrap (show p - c.offset + c.header ≤ _ by omega)]
    by_cases hshort : c.len < p - c.offset + c.header
    · rw [if_pos hshort, if_pos hshort]
    · rw [if_neg hshort, if_neg hshort]
      generalize htry : c.tryAt .cleared (p - c.offset) = tried
      obtain ⟨m5b, verdict⟩ := tried
      cases verdict with
      | throws e => rfl
      | decodes t => rfl
      | refuses =>
        have hback : p - c.offset + c.offset + c.size = p + c.size := by omega
        dsimp only
        rw [tryAt_refuses htry, hback, hwrap (show p + c.size ≤ _ by omega),
          hwrap (show p + c.size + c.size ≤ _ by omega)]
        rfl

theorem isHeader_of_decodes {p : Nat} {t : TimeStamp} (hocc : Occurs c.word c.size c.data p)
    (hbefore : ¬p < c.offset) (hfull : ¬c.len < p - c.offset + c.header)
    (hdecodes : (c.tryAt .cleared (p - c.offset)).2 = .decodes t) : c.IsHeader (p - c.offset) := by
  have hback : p - c.offset + c.offset = p := by omega
  refine ⟨?_, by omega, t, hdecodes⟩
  rw [hback]
  exact hocc

/-! ## What is found is a header -/

variable (c) in
/-- The search comes to the header at `o` from `s` on. -/
def Meets (o s : Nat) : Prop := Reaches c.word c.size c.data c.searched (o + c.offset) s

theorem loop_sound {fuel s p : Nat} {found : Found} (hformat : Constructed c.format)
    (hsize : 0 < c.size) (hlen : c.searched < 2 ^ 31 - 1)
    (hfirst : FirstFrom c.word c.size c.data c.searched s p)
    (h : c.loop fuel .cleared (some p) = .ok (some found)) :
    c.IsHeader found.byteOffset ∧ c.Meets found.byteOffset s := by
  induction fuel generalizing s p with
  | zero => cases h
  | succ fuel ih =>
    have hresume (hnext : c.next fuel (p + c.size) = .ok (some found)) :
        c.IsHeader found.byteOffset ∧ c.Meets found.byteOffset s := by
      unfold next at hnext
      split at hnext
      · obtain ⟨next, hfind, hspec⟩ := find_spec hsize hlen hfirst.le
        rw [hfind] at hnext
        cases next with
        | none =>
          dsimp only at hnext
          unfold loop at hnext
          cases hnext
        | some p' =>
          obtain ⟨hheader, hmeets⟩ := ih hspec hnext
          exact ⟨hheader, .behind hfirst hmeets⟩
      · cases hnext
    rw [loop_hit hformat hsize hlen hfirst.le] at h
    split at h
    · exact hresume h
    · rename_i hbefore
      split at h
      · cases h
      · rename_i hfull
        split at h
        · cases h
        · rename_i t hdecodes
          obtain rfl : ⟨p - c.offset, t⟩ = found := Option.some.inj (Except.ok.inj h)
          have hback : p - c.offset + c.offset = p := by omega
          refine ⟨isHeader_of_decodes hfirst.occurs hbefore hfull hdecodes, .here ?_⟩
          dsimp only
          rwa [hback]
        · exact hresume h

theorem search_sound {found : Found} (hformat : Constructed c.format)
    (h : c.search = .ok (some found)) :
    0 < c.size ∧ c.searched < 2 ^ 31 - 1 ∧ c.IsHeader found.byteOffset ∧
      c.Meets found.byteOffset 0 := by
  unfold search at h
  have hlen : c.searched < 2 ^ 31 - 1 := by
    by_contra hlong
    unfold find at h
    dsimp only at h
    have hlong : 2 ^ 31 - 1 ≤ c.len % 2 ^ 32 := Nat.not_lt.mp hlong
    rw [Nat.sub_zero, if_pos hlong] at h
    cases h
  have hsize : 0 < c.size := by
    by_contra hnone
    have hzero : c.size = 0 := by omega
    unfold find BoyerMoore.search at h
    dsimp only at h
    have hshort : ¬2 ^ 31 - 1 ≤ c.len % 2 ^ 32 := Nat.not_le.mpr hlen
    rw [Nat.sub_zero, if_neg hshort, if_pos (.inr (.inl hzero))] at h
    cases h
  obtain ⟨first, hfind, hspec⟩ := find_spec hsize hlen (Nat.zero_le c.searched)
  rw [hfind] at h
  cases first with
  | none => cases h
  | some p => exact ⟨hsize, hlen, loop_sound hformat hsize hlen hspec h⟩

/-! ## What is met is found -/

theorem loop_complete {fuel o s p : Nat} (hformat : Constructed c.format) (hsize : 0 < c.size)
    (hlen : c.searched < 2 ^ 31 - 1) (hheader : c.IsHeader o) (hmin : ∀ o' < o, ¬c.IsHeader o')
    (hmeets : c.Meets o s) (hfirst : FirstFrom c.word c.size c.data c.searched s p)
    (hfuel : o + c.offset < fuel + s) :
    ∃ t, c.loop fuel .cleared (some p) = .ok (some ⟨o, t⟩) := by
  have hfits := hheader.fits hformat hsize
  have hfull := hheader.full
  induction fuel generalizing s p with
  | zero =>
    have := hmeets.le
    omega
  | succ fuel ih =>
    rw [loop_hit hformat hsize hlen hfirst.le]
    by_cases hp : p = o + c.offset
    · obtain ⟨t, ht⟩ := hheader.decodes
      have hback : p - c.offset = o := by omega
      rw [if_neg (by omega), hback, if_neg (by omega), ht]
      exact ⟨t, rfl⟩
    · have hbehind : c.Meets o (p + c.size) := (reaches_behind_iff hfirst hp).mp hmeets
      have hle := hbehind.le
      have hge := hfirst.ge
      have hresume : ∃ t, c.next fuel (p + c.size) = .ok (some ⟨o, t⟩) := by
        obtain ⟨p', hfirst'⟩ := hbehind.exists_first
        obtain ⟨next, hfind, hspec⟩ := find_spec hsize hlen hfirst.le
        unfold DataCheck.next
        rw [if_pos (by omega), hfind]
        cases next with
        | none => exact absurd hfirst'.occurs (hspec p' hfirst'.ge hfirst'.le)
        | some p'' => exact ih hbehind hspec (by omega)
      by_cases hbefore : p < c.offset
      · rw [if_pos hbefore]
        exact hresume
      · rw [if_neg hbefore, if_neg (by omega)]
        cases hverdict : (c.tryAt .cleared (p - c.offset)).2 with
        | throws e => exact absurd hverdict hheader.not_throws
        | decodes t =>
          -- a header before the first
          refine absurd ?_ (hmin (p - c.offset) (by omega))
          exact isHeader_of_decodes hfirst.occurs hbefore (by omega) hverdict
        | refuses => exact hresume

theorem search_complete {o : Nat} (hformat : Constructed c.format) (hsize : 0 < c.size)
    (hlen : c.searched < 2 ^ 31 - 1) (hheader : c.IsHeader o) (hmin : ∀ o' < o, ¬c.IsHeader o')
    (hmeets : c.Meets o 0) : ∃ t, c.search = .ok (some ⟨o, t⟩) := by
  obtain ⟨p, hfirst⟩ := hmeets.exists_first
  obtain ⟨first, hfind, hspec⟩ := find_spec hsize hlen (Nat.zero_le c.searched)
  have hfits := hheader.fits hformat hsize
  unfold search
  rw [hfind]
  cases first with
  | none => exact absurd hfirst.occurs (hspec p hfirst.ge hfirst.le)
  | some p' =>
    exact loop_complete hformat hsize hlen hheader hmin hmeets hspec (by omega)

/-! ## Which header is first and found -/

variable (c) in
/-- The bytes that make up sync words end where the sync word of the header at `o` starts. -/
structure Clear (o : Nat) : Prop where
  size : 0 < c.size
  length : c.searched < 2 ^ 31 - 1
  searched : o + c.offset + c.size ≤ c.searched
  aligned : syncwordCopies c.format.frameformat c.format.ntrack ∣
    copiesBefore c.word (syncwordUnit c.format.frameformat) c.data (o + c.offset)

theorem meets_iff {o : Nat} (hsize : 0 < c.size) (hheader : c.IsHeader o)
    (hle : o + c.offset + c.size ≤ c.searched) :
    c.Meets o 0 ↔ syncwordCopies c.format.frameformat c.format.ntrack ∣
      copiesBefore c.word (syncwordUnit c.format.frameformat) c.data (o + c.offset) :=
  (repeats_syncword hsize).reaches_iff hheader.sync hle

theorem clear_of_reports {o : Nat} (hformat : Constructed c.format) (hreports : c.Reports)
    (hheader : c.IsHeader o) (hmin : ∀ o' < o, ¬c.IsHeader o') : c.Clear o := by
  unfold Reports at hreports
  cases hsearch : c.search with
  | error e =>
    rw [hsearch] at hreports
    exact absurd hheader (hreports o)
  | ok first =>
    rw [hsearch] at hreports
    cases first with
    | none => exact absurd hheader (hreports o)
    | some found =>
      obtain ⟨hfound, hfirst⟩ := hreports
      obtain ⟨hsize, hlen, -, hmeets⟩ := search_sound hformat hsearch
      have hsame : found.byteOffset = o := by
        obtain hlt | heq | hgt := Nat.lt_trichotomy found.byteOffset o
        · exact absurd hfound (hmin _ hlt)
        · exact heq
        · exact absurd hheader (hfirst o hgt)
      rw [hsame] at hmeets
      exact ⟨hsize, hlen, hmeets.fits, (meets_iff hsize hheader hmeets.fits).mp hmeets⟩

theorem reports_of_clear (hformat : Constructed c.format)
    (hclear : ∀ o, c.IsHeader o → (∀ o' < o, ¬c.IsHeader o') → c.Clear o) : c.Reports := by
  have hcomplete {o : Nat} (hheader : c.IsHeader o) :
      ∃ o' ≤ o, ∃ t, c.search = .ok (some ⟨o', t⟩) := by
    classical
    have hex : ∃ o, c.IsHeader o := ⟨o, hheader⟩
    have hmin : ∀ o' < Nat.find hex, ¬c.IsHeader o' := fun o' ho' => Nat.find_min hex ho'
    obtain ⟨hsize, hlen, hsearched, haligned⟩ := hclear _ (Nat.find_spec hex) hmin
    have hmeets := (meets_iff hsize (Nat.find_spec hex) hsearched).mpr haligned
    exact ⟨Nat.find hex, Nat.find_min' hex hheader,
      search_complete hformat hsize hlen (Nat.find_spec hex) hmin hmeets⟩
  unfold Reports
  cases hsearch : c.search with
  | error e =>
    intro o hheader
    obtain ⟨o', -, t, hfound⟩ := hcomplete hheader
    rw [hsearch] at hfound
    cases hfound
  | ok first =>
    cases first with
    | none =>
      intro o hheader
      obtain ⟨o', -, t, hfound⟩ := hcomplete hheader
      rw [hsearch] at hfound
      cases hfound
    | some found =>
      refine ⟨(search_sound hformat hsearch).2.2.1, fun o hlt hheader => ?_⟩
      obtain ⟨o', hle, t, hfound⟩ := hcomplete hheader
      rw [hsearch] at hfound
      obtain rfl : found = ⟨o', t⟩ := Option.some.inj (Except.ok.inj hfound)
      exact absurd hlt (Nat.not_lt.mpr hle)

theorem reports_iff (hformat : Constructed c.format) :
    c.Reports ↔ ∀ o, c.IsHeader o → (∀ o' < o, ¬c.IsHeader o') → c.Clear o :=
  ⟨fun hreports _ => clear_of_reports hformat hreports, reports_of_clear hformat⟩

theorem not_reports {o : Nat} (hsearch : c.search = .ok none) (hheader : c.IsHeader o) :
    ¬c.Reports := by
  intro hreports
  unfold Reports at hreports
  rw [hsearch] at hreports
  exact hreports o hheader

section
attribute [local instance] atLeastTwo_8000000

/-- A byte of ones before a header of VLBA, of eight tracks, at midnight. -/
def onesBefore : DataCheck where
  data a := if a < 33 then 0xff else 0
  len := 97
  track := 4
  format := .make .vlba 8 8000000 20000
  strict := true
  now _ := ⟨2026, 61000⟩

end

theorem constructed_onesBefore : Constructed onesBefore.format :=
  ⟨.ofNat 8000000, 20000, by decide⟩

theorem reports_iff_onesBefore :
    Constructed onesBefore.format ∧
      (onesBefore.Reports ↔ ∀ o, onesBefore.IsHeader o →
        (∀ o' < o, ¬onesBefore.IsHeader o') → onesBefore.Clear o) :=
  ⟨constructed_onesBefore, reports_iff constructed_onesBefore⟩

theorem onesBefore_search : onesBefore.search = .ok none := by decide +kernel

/-- Behind a byte more there is a header. -/
theorem onesBefore_isHeader : onesBefore.IsHeader 1 := by
  have hsync : Occurs (syncword .vlba) 32 onesBefore.data 1 := by decide
  have hdecodes : ∃ t ∈ [timeStamp (decodeVlbaTimestamp 61000 (vlbaTapeTs (List.replicate 8 0)))],
      (onesBefore.tryAt .cleared 1).2 = .decodes t := by
    decide +kernel
  obtain ⟨t, -, ht⟩ := hdecodes
  exact ⟨hsync, by decide, t, ht⟩

/-- The sync word is found a byte early, and the one at the header with it passed over. -/
theorem onesBefore_skips : Constructed onesBefore.format ∧ ¬onesBefore.Reports :=
  ⟨constructed_onesBefore, not_reports onesBefore_search onesBefore_isHeader⟩

/-- The sync word of Mark5B does not overlap itself. -/
theorem reports_mark5b (hfmt : c.format.frameformat = .mark5b) (hformat : Constructed c.format)
    (hlen : c.len < 2 ^ 31 - 1) : c.Reports := by
  have hsearched : c.searched = c.len := Nat.mod_eq_of_lt (by omega)
  have hsize : c.size = 4 := by
    unfold size
    rw [hfmt]
    rfl
  refine reports_of_clear hformat fun o hheader _ => ⟨by omega, by omega, ?_, ?_⟩
  · have := hheader.fits hformat (by omega)
    omega
  · rw [hfmt]
    exact Nat.one_dvd _

end DataCheck

end Jive5ab.Headersearch
