import Mathlib.Data.Nat.Prime.Basic
import Jive5ab.Constraints.Sizes

/-! # The search over write sizes finds one

`constrain_by_blocksize` for datagrams: which write size it comes to, and that it comes to
one whenever some read size that fits in the block is sent in a datagram. -/
namespace Jive5ab.Constraints
open Trackmask Trackmask.Solution

/-! ## The sizes it looks at -/

/-- `min_read_bytes`. -/
def minRead (s : Solution) : Nat := if compressing s then 8 * s.cycle else 8

/-- `abs_min_wr_size`; the words that the compressor makes of `cycle / 8` words count eightfold. -/
def minWrite (cs : ConstraintSet) (s : Solution) : Nat :=
  cs.compressOffset.toNat + 8 * if compressing s then 8 * s.compressedWords (s.cycle / 8) else 1

/-- What the checks at the entry admit, for datagrams. -/
structure Entered (cs : ConstraintSet) (s : Solution) : Prop where
  nMtu : cs.nMtu = 1
  blocksize_set : cs.blocksize ≠ unconstrained
  offset_words : cs.compressOffset.toNat % 8 = 0
  block : cs.compressOffset.toNat + minRead s ≤ cs.blocksize.toNat
  datagram : cs.protocolOverhead.toNat + cs.applicationOverhead.toNat + cs.compressOffset.toNat ≤
    cs.mtu.toNat

/-- Moreover no size leaves 32 bits, and the minimum can be computed. -/
structure Admitted (cs : ConstraintSet) (s : Solution) : Prop extends Entered cs s where
  reads : readBytes s cs.compressOffset.toNat
    (cs.mtu.toNat - cs.protocolOverhead.toNat - cs.applicationOverhead.toNat) < 2 ^ 32
  cycle_words : compressing s = true → s.cycle % 8 = 0

/-- The write sizes to choose from: whole words that fit in a datagram, with a read size that
fits in the block. -/
def WriteSizes (cs : ConstraintSet) (s : Solution) : Set Nat :=
  {w | w % 8 = 0 ∧
    cs.protocolOverhead.toNat + cs.applicationOverhead.toNat + w ≤ cs.mtu.toNat ∧
    readBytes s cs.compressOffset.toNat w ≤ cs.blocksize.toNat}

/-- The last word of a compressed block need not be full. -/
def slack (s : Solution) : Nat := if compressing s then 8 else 0

variable {cs : ConstraintSet} {s : Solution}

theorem readBytes_mono (hs : FromSolver s) (offset : Nat) {m n : Nat} (h : m ≤ n) :
    readBytes s offset m ≤ readBytes s offset n := by
  unfold readBytes
  split
  · rename_i hc
    obtain ⟨mask, hsolved⟩ := hs.solved hc
    have hwords : s.fittingWords ((m - offset) / 8) ≤ s.fittingWords ((n - offset) / 8) := by
      rw [← hsolved.compressedWords_le_iff]
      refine Nat.le_trans ((hsolved.compressedWords_le_iff _ _).mpr (Nat.le_refl _)) ?_
      exact Nat.div_le_div_right (Nat.sub_le_sub_right h offset)
    omega
  · exact h

/-- At least what is sent is read. -/
theorem le_readBytes (hs : FromSolver s) {offset n : Nat} (hoffset : offset % 8 = 0)
    (hn : n % 8 = 0) (hle : offset ≤ n) : n ≤ readBytes s offset n := by
  unfold readBytes
  split
  · rename_i hc
    obtain ⟨mask, hsolved⟩ := hs.solved hc
    have hwords := (hsolved.compressedWords_le_iff ((n - offset) / 8) _).mp
      (hsolved.compressedWords_le _)
    omega
  · exact Nat.le_refl n

/-- The word before the last one is full: what is read for one word less fits in `rd`. -/
theorem readBytes_slack (hs : FromSolver s) {offset rd : Nat}
    (h : offset + slack s ≤ writeBytes s offset rd) (hle : offset ≤ rd) :
    readBytes s offset (writeBytes s offset rd - slack s) ≤ rd := by
  unfold slack writeBytes readBytes at *
  by_cases hc : compressing s = true
  · obtain ⟨mask, hsolved⟩ := hs.solved hc
    simp only [if_pos hc] at h ⊢
    obtain ⟨k, hk⟩ : ∃ k, s.compressedWords ((rd - offset) / 8) = k + 1 :=
      ⟨s.compressedWords ((rd - offset) / 8) - 1, by omega⟩
    have hone : (8 * (k + 1) + offset - 8 - offset) / 8 = k := by omega
    have hfit : ¬(rd - offset) / 8 ≤ s.fittingWords k := by
      rw [← hsolved.compressedWords_le_iff, hk]
      exact Nat.not_succ_le_self k
    rw [hk, hone]
    omega
  · simp only [if_neg hc] at h ⊢
    exact Nat.sub_le rd 0

/-! ## One write size -/

theorem toNat_words {n : UInt32} : n % 8 = 0 ↔ n.toNat % 8 = 0 := by
  rw [← UInt32.toNat_inj, UInt32.toNat_mod]
  rfl

/-- The read size is computed as it is meant, unless it leaves 32 bits. -/
theorem uncompressedSize_eq (hs : FromSolver s) {wr : UInt32} (hwr : wr.toNat % 8 = 0)
    (hoff : cs.compressOffset.toNat % 8 = 0) (hle : cs.compressOffset.toNat ≤ wr.toNat)
    (hlt : readBytes s cs.compressOffset.toNat wr.toNat < 2 ^ 32) :
    ∃ n, uncompressedSize (wr - cs.compressOffset) s = .ok n ∧
      (n + cs.compressOffset).toNat = readBytes s cs.compressOffset.toNat wr.toNat := by
  have hsub : (wr - cs.compressOffset).toNat = wr.toNat - cs.compressOffset.toNat :=
    UInt32.toNat_sub_of_le _ _ (UInt32.le_iff_toNat_le.mpr hle)
  unfold readBytes at hlt ⊢
  unfold uncompressedSize
  by_cases hc : compressing s = true
  · obtain ⟨mask, hsolved⟩ := hs.solved hc
    rw [if_pos hc] at hlt ⊢
    have hwords : (wr - cs.compressOffset) % 8 = 0 := by
      rw [toNat_words, hsub]
      omega
    have hdiv : ((wr - cs.compressOffset) / 8).toNat =
        (wr.toNat - cs.compressOffset.toNat) / 8 := by
      rw [UInt32.toNat_div, hsub]
      rfl
    have hfit : (UInt32.ofNat
        (s.fittingWords ((wr.toNat - cs.compressOffset.toNat) / 8))).toNat =
        s.fittingWords ((wr.toNat - cs.compressOffset.toNat) / 8) :=
      UInt32.toNat_ofNat_of_lt' (by rw [UInt32.size]; omega)
    rw [if_pos hc, if_pos hwords, hdiv, hsolved.inputsize_eq, Nat.mod_eq_of_lt (by omega)]
    refine ⟨_, rfl, ?_⟩
    rw [UInt32.toNat_add, toNat_mul_eight (by omega), hfit, Nat.mod_eq_of_lt (by omega),
      Nat.mul_comm]
  · rw [if_neg hc, if_neg hc]
    refine ⟨_, rfl, ?_⟩
    rw [UInt32.toNat_add, hsub, Nat.sub_add_cancel hle, Nat.mod_eq_of_lt wr.toNat_lt]

theorem readSizeOf_toNat (hs : FromSolver s) {wr : UInt32} (hwr : wr.toNat % 8 = 0)
    (hoff : cs.compressOffset.toNat % 8 = 0) (hle : cs.compressOffset.toNat ≤ wr.toNat)
    (hlt : readBytes s cs.compressOffset.toNat wr.toNat < 2 ^ 32) :
    (readSizeOf cs s wr).toNat = readBytes s cs.compressOffset.toNat wr.toNat := by
  obtain ⟨n, hn, hval⟩ := uncompressedSize_eq hs hwr hoff hle hlt
  rw [readSizeOf, hn]
  exact hval

/-- A write size is tried without an error. -/
theorem tryWriteSize_eq (hs : FromSolver s) {wr : UInt32} (hwr : wr.toNat % 8 = 0)
    (hoff : cs.compressOffset.toNat % 8 = 0) (hle : cs.compressOffset.toNat < wr.toNat)
    (hlt : readBytes s cs.compressOffset.toNat wr.toNat < 2 ^ 32) :
    ∃ o, tryWriteSize cs s wr = .ok o ∧
      (readBytes s cs.compressOffset.toNat wr.toNat ≤ cs.blocksize.toNat → o ≠ none) := by
  obtain ⟨n, hn, hval⟩ := uncompressedSize_eq hs hwr hoff (Nat.le_of_lt hle) hlt
  have hread := le_readBytes hs hoff hwr (Nat.le_of_lt hle)
  have hne : n + cs.compressOffset ≠ 0 := by
    intro hzero
    rw [hzero] at hval
    have hpos : 0 < (0 : UInt32).toNat := hval ▸ Nat.lt_of_lt_of_le (Nat.zero_lt_of_lt hle) hread
    exact Nat.lt_irrefl 0 hpos
  have hok : ∃ o, tryWriteSize cs s wr = .ok o := by
    unfold tryWriteSize
    rw [hn]
    dsimp only [bind, Except.bind]
    rw [if_neg hne]
    split
    · split
      · exact ⟨_, rfl⟩
      · exact ⟨_, rfl⟩
    · exact ⟨_, rfl⟩
  obtain ⟨o, ho⟩ := hok
  refine ⟨o, ho, fun hfit hnone => ?_⟩
  obtain ⟨-, ⟨hgt, -⟩ | ⟨-, -, hsome⟩⟩ :=
    tryWriteSize_ok (toNat_words.mpr hoff) (toNat_words.mpr hwr) ho
  · rw [UInt32.lt_iff_toNat_lt, readSizeOf_toNat hs hwr hoff (Nat.le_of_lt hle) hlt] at hgt
    omega
  · rw [hnone] at hsome
    cases hsome

/-! ## The search -/

/-- From `start` downwards to a write size that does fit. -/
theorem searchWriteSize_exists {absMin target : UInt32} (htarget : target.toNat % 8 = 0)
    (hmin : absMin ≤ target) (hfit : ∃ p, tryWriteSize cs s target = .ok (some p)) {left : Nat}
    {start : UInt32} (hstart : start.toNat % 8 = 0) (hle : target ≤ start)
    (hleft : start.toNat - target.toNat < 8 * left)
    (htry : ∀ wr : UInt32, wr.toNat % 8 = 0 → target ≤ wr → wr ≤ start →
      ∃ o, tryWriteSize cs s wr = .ok o) :
    ∃ rv, searchWriteSize cs s absMin left start = .ok rv := by
  induction left generalizing start with
  | zero => exact absurd hleft (Nat.not_lt_zero _)
  | succ left ih =>
    obtain ⟨o, ho⟩ := htry start hstart hle (UInt32.le_refl _)
    rw [searchWriteSize, if_pos (UInt32.le_trans hmin hle), ho]
    cases o with
    | some p => exact ⟨_, rfl⟩
    | none =>
      have hne : start ≠ target := by
        rintro rfl
        obtain ⟨p, hp⟩ := hfit
        rw [ho] at hp
        cases hp
      have hne' : start.toNat ≠ target.toNat := UInt32.toNat_inj.ne.mpr hne
      have hle' := UInt32.le_iff_toNat_le.mp hle
      have height : (8 : UInt32).toNat = 8 := rfl
      have hge : 8 ≤ start := by
        rw [UInt32.le_iff_toNat_le, height]
        omega
      have hsub := UInt32.toNat_sub_of_le _ _ hge
      rw [height] at hsub
      change ∃ rv, searchWriteSize cs s absMin left (start - 8) = .ok rv
      refine ih (by omega) ?_ (by omega) fun wr hwr hlow hup => ?_
      · rw [UInt32.le_iff_toNat_le, hsub]
        omega
      · refine htry wr hwr hlow (UInt32.le_trans hup ?_)
        rw [UInt32.le_iff_toNat_le, hsub]
        exact Nat.sub_le _ _

theorem minReadBytes_toNat (h : minRead s < 2 ^ 32) : (minReadBytes s).toNat = minRead s := by
  unfold minReadBytes minRead at *
  split
  · rename_i hc
    rw [if_pos hc] at h
    have hcycle : (UInt32.ofNat s.cycle).toNat = s.cycle :=
      UInt32.toNat_ofNat_of_lt' (by rw [UInt32.size]; omega)
    rw [toNat_mul_eight (by omega), hcycle, Nat.mul_comm]
  · rfl

/-- `min_read_bytes/8`. -/
theorem Entered.minWords (h : Entered cs s) :
    (minReadBytes s / 8).toNat = if compressing s then s.cycle else 1 := by
  have hblock := h.block
  have hlt := cs.blocksize.toNat_lt
  have height : (8 : UInt32).toNat = 8 := rfl
  rw [UInt32.toNat_div, minReadBytes_toNat (by omega), height, minRead]
  split
  · exact Nat.mul_div_cancel_left _ (by decide)
  · rfl

/-- The checks let the sizes through; what is left is the minimum and the search. -/
theorem Entered.passes (h : Entered cs s) : constrainByBlocksize cs s = (do
    let compressed ← compressedSize (minReadBytes s / 8) s
    searchWriteSize cs s (cs.compressOffset + compressed * 8) (2 ^ 29) (payload cs)) := by
  have hok : ∀ {p : Prop} [Decidable p] {msg : String}, ¬p → throwIf p msg = .ok () := by
    intro p _ msg hp
    exact throwIf_eq_ok.mpr hp
  have hblock := h.block
  have hdatagram := h.datagram
  have hblt := cs.blocksize.toNat_lt
  have hmlt := cs.mtu.toNat_lt
  have hread : ¬cs.blocksize < cs.compressOffset + minReadBytes s := by
    rw [UInt32.not_lt, UInt32.le_iff_toNat_le, UInt32.toNat_add, minReadBytes_toNat (by omega),
      Nat.mod_eq_of_lt (by omega)]
    exact hblock
  have hmtu : ¬(cs.nMtu = 1 ∧
      cs.mtu < cs.protocolOverhead + cs.applicationOverhead + cs.compressOffset) := by
    rintro ⟨-, hlt⟩
    rw [UInt32.lt_iff_toNat_lt, UInt32.toNat_add, UInt32.toNat_add, Nat.mod_add_mod,
      Nat.mod_eq_of_lt (by omega)] at hlt
    omega
  rw [constrainByBlocksize, hok h.blocksize_set,
    hok (not_not.mpr (toNat_words.mpr h.offset_words)), hok hread, hok fun hn => hn.1 h.nMtu,
    hok hmtu, h.nMtu]
  dsimp only [bind, Except.bind]
  rw [if_neg one_ne_unconstrained]
  rfl

/-- The minimum is asked for `cycle` bytes, so a cycle that is not in eights fails the assertion
of `compressed_size`. -/
theorem Entered.asserts (h : Entered cs s) (hc : compressing s = true) (hodd : s.cycle % 8 ≠ 0) :
    constrainByBlocksize cs s = .error .assertion := by
  have hwords : ¬minReadBytes s / 8 % 8 = 0 := by
    rw [toNat_words, h.minWords, if_pos hc]
    exact hodd
  rw [h.passes, compressedSize, if_pos hc, if_neg hwords]
  rfl

/-- The minimum, as the code computes it. -/
theorem Admitted.minimum (hs : FromSolver s) (h : Admitted cs s) :
    ∃ r, compressedSize (minReadBytes s / 8) s = .ok r ∧
      (cs.compressOffset + r * 8).toNat = minWrite cs s ∧
      cs.compressOffset.toNat < minWrite cs s := by
  have hblock := h.block
  have hlt := cs.blocksize.toNat_lt
  have hwords := h.minWords
  obtain ⟨r, hr, hval⟩ := compressedSize_eq (n := minReadBytes s / 8) hs (fun hc => by
    rw [hwords, if_pos hc]
    exact h.cycle_words hc)
  obtain ⟨hrpos, -⟩ := minReadBytes_pos hs hr (fun hc => by
    rw [minRead, if_pos hc] at hblock
    omega)
  have hrpos' : 0 < r.toNat := UInt32.lt_iff_toNat_lt.mp hrpos
  have hrval : r.toNat = if compressing s then 8 * s.compressedWords (s.cycle / 8) else 1 := by
    rw [hval, hwords]
    split <;> rfl
  have hsmall : 8 * r.toNat ≤ minRead s := by
    rw [hrval, minRead]
    split
    · rename_i hc
      obtain ⟨mask, hsolved⟩ := hs.solved hc
      have hle := hsolved.compressedWords_le (s.cycle / 8)
      omega
    · exact Nat.le_refl _
  have hmul : (r * 8).toNat = r.toNat * 8 := toNat_mul_eight (by omega)
  have hmin : minWrite cs s = cs.compressOffset.toNat + 8 * r.toNat := by
    rw [minWrite, hrval]
  refine ⟨r, hr, ?_, by omega⟩
  rw [UInt32.toNat_add, hmul, Nat.mod_eq_of_lt (by omega), hmin]
  omega

theorem payload_eq (h : cs.protocolOverhead.toNat + cs.applicationOverhead.toNat ≤ cs.mtu.toNat) :
    (payload cs).toNat =
      (cs.mtu.toNat - cs.protocolOverhead.toNat - cs.applicationOverhead.toNat) / 8 * 8 := by
  have hproto : cs.protocolOverhead ≤ cs.mtu := by
    rw [UInt32.le_iff_toNat_le]
    omega
  have hsub := UInt32.toNat_sub_of_le _ _ hproto
  have happ : cs.applicationOverhead ≤ cs.mtu - cs.protocolOverhead := by
    rw [UInt32.le_iff_toNat_le, hsub]
    omega
  have hdiv : ((cs.mtu - cs.protocolOverhead - cs.applicationOverhead) / 8).toNat =
      (cs.mtu.toNat - cs.protocolOverhead.toNat - cs.applicationOverhead.toNat) / 8 := by
    rw [UInt32.toNat_div, UInt32.toNat_sub_of_le _ _ happ, hsub]
    rfl
  have hlt := cs.mtu.toNat_lt
  rw [payload, truncate8, toNat_mul_eight (by omega), hdiv]

theorem Admitted.search (hs : FromSolver s) (h : Admitted cs s) : ∃ absMin : UInt32,
    absMin.toNat = minWrite cs s ∧
      constrainByBlocksize cs s = searchWriteSize cs s absMin (2 ^ 29) (payload cs) := by
  obtain ⟨r, hr, hmin, -⟩ := h.minimum hs
  refine ⟨cs.compressOffset + r * 8, hmin, ?_⟩
  rw [h.passes, hr]
  rfl

/-- There is a write size to choose that is not below the minimum: the largest one is found. -/
theorem Admitted.found (hs : FromSolver s) (h : Admitted cs s) {target : Nat}
    (ht : target ∈ WriteSizes cs s) (htmin : minWrite cs s ≤ target) : ∃ rv, constrainByBlocksize cs s = .ok rv ∧
      IsGreatest (WriteSizes cs s) rv.writeSize.toNat ∧
      rv.readSize.toNat = readBytes s cs.compressOffset.toNat rv.writeSize.toNat ∧
      rv = { cs with
        blocksize := cs.blocksize - cs.blocksize % rv.readSize
        readSize := rv.readSize
        writeSize := rv.writeSize } := by
  obtain ⟨absMin, hmin, hsearch⟩ := h.search hs
  obtain ⟨-, -, -, hpos⟩ := h.minimum hs
  obtain ⟨ht8, htsum, htfit⟩ := ht
  have hoff := h.offset_words
  have hdatagram := h.datagram
  have hmlt := cs.mtu.toNat_lt
  have hblt := cs.blocksize.toNat_lt
  have hpay := @payload_eq cs (by omega)
  -- up to the payload no read size leaves 32 bits
  have hreads : ∀ w, w ≤ (payload cs).toNat →
      readBytes s cs.compressOffset.toNat w < 2 ^ 32 := by
    intro w hw
    refine Nat.lt_of_le_of_lt (readBytes_mono hs _ (Nat.le_trans hw ?_)) h.reads
    rw [hpay]
    exact Nat.div_mul_le_self _ _
  have htn : (UInt32.ofNat target).toNat = target :=
    UInt32.toNat_ofNat_of_lt' (by rw [UInt32.size]; omega)
  have htry : ∀ wr : UInt32, wr.toNat % 8 = 0 → UInt32.ofNat target ≤ wr → wr ≤ payload cs →
      ∃ o, tryWriteSize cs s wr = .ok o ∧
        (readBytes s cs.compressOffset.toNat wr.toNat ≤ cs.blocksize.toNat → o ≠ none) := by
    intro wr hwr hlow hup
    rw [UInt32.le_iff_toNat_le] at hlow hup
    exact tryWriteSize_eq hs hwr hoff (by omega) (hreads _ hup)
  have hle : UInt32.ofNat target ≤ payload cs := by
    rw [UInt32.le_iff_toNat_le, htn, hpay]
    omega
  obtain ⟨o, ho, hsome⟩ := htry (.ofNat target) (by rw [htn]; exact ht8) (UInt32.le_refl _) hle
  obtain ⟨p, rfl⟩ := Option.ne_none_iff_exists'.mp (hsome (by rw [htn]; exact htfit))
  have hpay8 : (payload cs).toNat % 8 = 0 := by
    rw [hpay]
    exact Nat.mul_mod_left _ _
  obtain ⟨rv, hrv⟩ : ∃ rv, searchWriteSize cs s absMin (2 ^ 29) (payload cs) = .ok rv := by
    refine searchWriteSize_exists (by rw [htn]; exact ht8) ?_ ⟨p, ho⟩ hpay8 hle ?_
      fun wr hwr hlow hup => (htry wr hwr hlow hup).imp fun _ h => h.1
    · rw [UInt32.le_iff_toNat_le, htn, hmin]
      exact htmin
    · have hplt := (payload cs).toNat_lt
      omega
  obtain ⟨wr, hwr, hge, hup, -, hfit, -, hfirst, heq⟩ :=
    searchWriteSize_ok (toNat_words.mpr hoff) (toNat_words.mpr hpay8) hrv
  have hge' : minWrite cs s ≤ wr.toNat := hmin ▸ UInt32.le_iff_toNat_le.mp hge
  have hup' := UInt32.le_iff_toNat_le.mp (hup (by
    rw [UInt32.lt_iff_toNat_lt, hmin]
    exact Nat.zero_lt_of_lt hpos))
  have hread := readSizeOf_toNat hs (toNat_words.mp hwr) hoff (by omega) (hreads _ hup')
  rw [UInt32.le_iff_toNat_le, hread] at hfit
  have hws : rv.writeSize = wr := by rw [heq]
  have hrs : rv.readSize = readSizeOf cs s wr := by rw [heq]
  refine ⟨rv, hsearch.trans hrv, ?_, by rw [hws, hrs, hread], by rw [hws, hrs]; exact heq⟩
  rw [hws]
  refine ⟨⟨toNat_words.mp hwr, by omega, hfit⟩, ?_⟩
  rintro w ⟨hw8, hwsum, hwfit⟩
  refine Nat.le_of_not_lt fun hlt => ?_
  have hwn : (UInt32.ofNat w).toNat = w := UInt32.toNat_ofNat_of_lt' (by rw [UInt32.size]; omega)
  have hwpay : w ≤ (payload cs).toNat := by
    rw [hpay]
    omega
  have hwle : UInt32.ofNat w ≤ payload cs := by
    rw [UInt32.le_iff_toNat_le, hwn]
    exact hwpay
  have hbelow : payload cs - .ofNat w < payload cs - wr := by
    rw [UInt32.lt_iff_toNat_lt, UInt32.toNat_sub_of_le _ _ hwle,
      UInt32.toNat_sub_of_le _ _ (UInt32.le_iff_toNat_le.mpr hup'), hwn]
    omega
  have hmore := hfirst (.ofNat w) (toNat_words.mpr (by rw [hwn]; exact hw8)) hbelow
  rw [UInt32.lt_iff_toNat_lt, readSizeOf_toNat hs (by rw [hwn]; exact hw8) hoff
    (by rw [hwn]; omega) (by rw [hwn]; exact hreads w hwpay), hwn] at hmore
  omega

/-! ## Complete -/

/-- Whole words that fit in the block, with a part to compress, and that are sent in a datagram;
what is sent is not below the minimum. -/
structure Sendable (cs : ConstraintSet) (s : Solution) (rd : Nat) : Prop where
  words : rd % 8 = 0
  block : rd ≤ cs.blocksize.toNat
  offset : cs.compressOffset.toNat < rd
  datagram : cs.protocolOverhead.toNat + cs.applicationOverhead.toNat +
    writeBytes s cs.compressOffset.toNat rd ≤ cs.mtu.toNat
  minimum : minWrite cs s + slack s ≤ writeBytes s cs.compressOffset.toNat rd

theorem Sendable.target (hs : FromSolver s) (h : Admitted cs s) {rd : Nat}
    (hrd : Sendable cs s rd) :
    writeBytes s cs.compressOffset.toNat rd - slack s ∈ WriteSizes cs s ∧
      minWrite cs s ≤ writeBytes s cs.compressOffset.toNat rd - slack s := by
  obtain ⟨-, -, -, hpos⟩ := h.minimum hs
  have hoff := h.offset_words
  have hmin := hrd.minimum
  have hwords := hrd.words
  have hdatagram := hrd.datagram
  refine ⟨⟨?_, by omega, ?_⟩, by omega⟩
  · unfold slack writeBytes
    split
    · omega
    · omega
  · refine Nat.le_trans (readBytes_slack hs ?_ (Nat.le_of_lt hrd.offset)) hrd.block
    exact Nat.le_trans (Nat.add_le_add_right (Nat.le_of_lt hpos) _) hmin

theorem byBlocksize_complete (cs : ConstraintSet) (s : Solution)
    (hs : s = .empty ∨ ∃ mask, Built mask s ∧ s.complete = true) (h : Admitted cs s) (rd : Nat)
    (hrd : Sendable cs s rd) : ∃ rv, constrainByBlocksize cs s = .ok rv ∧
      IsGreatest (WriteSizes cs s) rv.writeSize.toNat ∧
      rv.readSize.toNat = readBytes s cs.compressOffset.toNat rv.writeSize.toNat ∧
      rv = { cs with
        blocksize := cs.blocksize - cs.blocksize % rv.readSize
        readSize := rv.readSize
        writeSize := rv.writeSize } ∧
      writeBytes s cs.compressOffset.toNat rd ≤ rv.writeSize.toNat + slack s := by
  have hsolver := fromSolver_of_built hs
  obtain ⟨htarget, htmin⟩ := hrd.target hsolver h
  obtain ⟨rv, hrv, htop, hread, heq⟩ := h.found hsolver htarget htmin
  exact ⟨rv, hrv, htop, hread, heq, Nat.sub_le_iff_le_add.mp (htop.2 htarget)⟩

/-- Datagrams of 1500 bytes, 28 of them for UDP/IP and 8 for the sequence number. -/
def udpBlocks : ConstraintSet where
  blocksize := 131072
  mtu := 1500
  compressOffset := 0
  applicationOverhead := 8
  protocolOverhead := 28
  nMtu := 1

/-- The same with the top byte of each word left out; the header of the frame is not
compressed. -/
theorem byBlocksize_complete_bytes : ∃ rv,
    constrainByBlocksize { udpBlocks with compressOffset := 16 } (solve 0x00FFFFFFFFFFFFFF) =
      .ok rv ∧
    IsGreatest (WriteSizes { udpBlocks with compressOffset := 16 } (solve 0x00FFFFFFFFFFFFFF))
      rv.writeSize.toNat ∧
    rv.readSize.toNat = readBytes (solve 0x00FFFFFFFFFFFFFF) 16 rv.writeSize.toNat ∧
    rv = { { udpBlocks with compressOffset := 16 } with
      blocksize := 131072 - 131072 % rv.readSize
      readSize := rv.readSize
      writeSize := rv.writeSize } ∧
    writeBytes (solve 0x00FFFFFFFFFFFFFF) 16 1024 ≤
      rv.writeSize.toNat + slack (solve 0x00FFFFFFFFFFFFFF) :=
  have hcomplete : (solve 0x00FFFFFFFFFFFFFF).complete = true := by decide +kernel
  byBlocksize_complete { udpBlocks with compressOffset := 16 } (solve 0x00FFFFFFFFFFFFFF)
    (.inr ⟨_, solve_built hcomplete, hcomplete⟩)
    { nMtu := rfl
      blocksize_set := by decide
      offset_words := by decide
      block := by decide +kernel
      datagram := by decide
      reads := by decide +kernel
      cycle_words := by decide +kernel }
    1024
    { words := by decide
      block := by decide
      offset := by decide
      datagram := by decide +kernel
      minimum := by decide +kernel }

/-- The largest read size that divides the block and is sent in a datagram is 1024; the block
is truncated instead, to 89 times 1464. -/
theorem byBlocksize_truncates :
    constrain udpBlocks .empty =
      .ok { udpBlocks with blocksize := 130296, readSize := 1464, writeSize := 1464 } ∧
    IsGreatest {w | ∃ rd, rd % 8 = 0 ∧ 131072 % rd = 0 ∧ 0 < rd ∧ w = writeBytes .empty 0 rd ∧
      28 + 8 + w ≤ 1500} 1024 := by
  refine ⟨by decide +kernel, ⟨1024, by decide, by decide, by decide, rfl, by decide⟩, ?_⟩
  rintro w ⟨rd, -, hdvd, -, hw, hfit⟩
  have hsize : w = rd := hw
  rw [hsize] at hfit ⊢
  obtain ⟨k, -, rfl⟩ := (Nat.dvd_prime_pow (m := 17) Nat.prime_two).mp (Nat.dvd_of_mod_eq_zero hdvd)
  have hk : k ≤ 10 := by
    by_contra hk
    have hlarge : 2 ^ 11 ≤ 2 ^ k := Nat.pow_le_pow_right (by decide) (by omega)
    omega
  exact Nat.pow_le_pow_right (by decide) hk

end Jive5ab.Constraints
