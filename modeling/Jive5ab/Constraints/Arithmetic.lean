import Jive5ab.Lib.Checked
import Jive5ab.Constraints.Sizes

/-! # The arithmetic of `constrain_by_framesize`

The function once more, with every sum, difference, product and quotient watched: what
it takes for none of them to leave 32 bits, and for no divisor to be zero. -/
namespace Jive5ab.Constraints
open Trackmask Trackmask.Solution Lib.Checked

abbrev Arith (α : Type) := Watched Failure α

/-! ## The function, watched -/

def arithIf (p : Prop) [Decidable p] (msg : String) : Arith Unit :=
  if p then throws (constraintError msg) else .ok ()

def arithCompressedSize (uncompressedbytes : UInt32) (s : Solution) : Arith UInt32 :=
  if compressing s then
    if uncompressedbytes % 8 = 0 then
      match s.outputsize (uncompressedbytes / 8).toNat with
      | some n => mul (.ofNat n) 8
      | none => throws .assertion
    else throws .assertion
  else .ok uncompressedbytes

def arithDivideFramesize (cs : ConstraintSet) : Nat → UInt32 → Arith UInt32
  | 0, _ => throws (constraintError "failed to find a suitable blocksize")
  | left + 1, bs => do
    let rest ← mod cs.framesize bs
    if rest = 0 ∧ bs % 8 = 0 ∧ bs > cs.compressOffset then .ok bs
    else do
      let bs ← div cs.framesize (.ofNat (cs.framesize.toNat - (left + 1)))
      arithDivideFramesize cs left bs

def arithStreamBlocksize (cs : ConstraintSet) : Arith UInt32 :=
  let bs := if cs.blocksize = unconstrained then cs.framesize else truncate8 cs.blocksize
  if bs > cs.framesize then do
    let rest ← mod bs cs.framesize
    sub bs rest
  else do
    let i ← div cs.framesize bs
    arithDivideFramesize cs (cs.framesize.toNat - i.toNat) bs

def arithSearchReadSize (cs : ConstraintSet) (s : Solution) : Nat → Arith (UInt32 × UInt32)
  | 0 => throws noSolution
  | left + 1 => do
    let i : UInt32 := .ofNat (cs.framesize.toNat - (left + 1))
    let rest ← mod cs.framesize i
    let rdSize ← div cs.framesize i
    if rest = 0 ∧ (compressing s → rdSize % 8 = 0) then
      if rdSize < cs.compressOffset then throws noSolution
      else do
        let n ← sub rdSize cs.compressOffset
        let compressed ← arithCompressedSize n s
        let wrSize ← add compressed cs.compressOffset
        let overhead ← add cs.protocolOverhead cs.applicationOverhead
        let datagram ← add overhead wrSize
        if datagram < cs.mtu ∧ (compressing s → wrSize < rdSize) then .ok (rdSize, wrSize)
        else arithSearchReadSize cs s left
    else arithSearchReadSize cs s left

def arithDatagramBlocksize (cs : ConstraintSet) (rdSize : UInt32) : Arith UInt32 :=
  if cs.blocksize = unconstrained then .ok cs.framesize
  else if cs.blocksize > cs.framesize then do
    let rest ← mod cs.blocksize cs.framesize
    sub cs.blocksize rest
  else if cs.blocksize > rdSize then do
    let rest ← mod cs.blocksize rdSize
    sub cs.blocksize rest
  else throws (constraintError "blocksize too small")

def arithByFramesize (cs : ConstraintSet) (s : Solution) : Arith ConstraintSet := do
  arithIf (cs.compressOffset % 8 ≠ 0) "compress_offset must be a multiple of 8"
  arithIf (cs.nMtu ≠ 1 ∧ cs.nMtu ≠ unconstrained) "n_mtu must be 1 or unconstrained"
  arithIf (cs.framesize = unconstrained ∨ cs.framesize = 0)
    "constraining by framesize but it is invalid! (0 or unconstrained)"
  if cs.nMtu = unconstrained then do
    let blocksize ← arithStreamBlocksize cs
    let n ← sub cs.framesize cs.compressOffset
    let compressed ← arithCompressedSize n s
    let writeSize ← add compressed cs.compressOffset
    .ok { cs with
      blocksize := blocksize
      readSize := cs.framesize
      writeSize := writeSize }
  else do
    let (rdSize, wrSize) ← arithSearchReadSize cs s (cs.framesize.toNat - 1)
    let blocksize ← arithDatagramBlocksize cs rdSize
    .ok { cs with blocksize := blocksize, readSize := rdSize, writeSize := wrSize }

/-! ## It is the same function -/

variable {cs : ConstraintSet} {s : Solution}

theorem watches_throwIf (p : Prop) [Decidable p] (msg : String) :
    Watches (arithIf p msg) (throwIf p msg) := by
  unfold arithIf throwIf
  split
  · exact watches_throws _
  · exact watches_ok ()

theorem watches_compressedSize (n : UInt32) (s : Solution) :
    Watches (arithCompressedSize n s) (compressedSize n s) := by
  unfold arithCompressedSize compressedSize
  split
  · split
    · generalize s.outputsize (n / 8).toNat = words
      cases words with
      | none => exact watches_throws _
      | some m => exact watches_mul_last _ _
    · exact watches_throws _
  · exact watches_ok n

theorem ofNat_div (n : UInt32) (i : Nat) (hi : i < 2 ^ 32) :
    UInt32.ofNat (n.toNat / i) = n / .ofNat i := by
  have hin : (UInt32.ofNat i).toNat = i := UInt32.toNat_ofNat_of_lt' hi
  have hlt := n.toNat_lt
  have hle := Nat.div_le_self n.toNat i
  rw [← UInt32.toNat_inj, UInt32.toNat_div, hin,
    UInt32.toNat_ofNat_of_lt' (by rw [UInt32.size]; omega)]

theorem watches_divideFramesize (left : Nat) (bs : UInt32) :
    Watches (arithDivideFramesize cs left bs) (divideFramesize cs left bs) := by
  induction left generalizing bs with
  | zero => exact watches_throws _
  | succ left ih =>
    have hlt := cs.framesize.toNat_lt
    unfold arithDivideFramesize divideFramesize
    refine watches_mod fun _ => ?_
    split
    · exact watches_ok bs
    · refine watches_div fun _ => ?_
      rw [ofNat_div _ _ (by omega)]
      exact ih _

theorem watches_streamBlocksize (cs : ConstraintSet) :
    Watches (arithStreamBlocksize cs) (streamBlocksize cs) := by
  unfold arithStreamBlocksize streamBlocksize
  generalize (if cs.blocksize = unconstrained then cs.framesize else truncate8 cs.blocksize) = bs
  dsimp only
  split
  · exact watches_mod fun _ => watches_sub_last _ _
  · refine watches_div fun hne => ?_
    rw [if_neg hne]
    exact watches_divideFramesize _ _

theorem watches_searchReadSize (left : Nat) :
    Watches (arithSearchReadSize cs s left) (searchReadSize cs s left) := by
  induction left with
  | zero => exact watches_throws _
  | succ left ih =>
    have hlt := cs.framesize.toNat_lt
    have hi : cs.framesize.toNat - (left + 1) < 2 ^ 32 := by omega
    have hin : (UInt32.ofNat (cs.framesize.toNat - (left + 1))).toNat =
        cs.framesize.toNat - (left + 1) := UInt32.toNat_ofNat_of_lt' hi
    have hrest : cs.framesize % .ofNat (cs.framesize.toNat - (left + 1)) = 0 ↔
        cs.framesize.toNat % (cs.framesize.toNat - (left + 1)) = 0 := by
      rw [← UInt32.toNat_inj, UInt32.toNat_mod, hin]
      rfl
    unfold arithSearchReadSize searchReadSize
    refine watches_mod fun _ => watches_div fun _ => ?_
    dsimp only
    rw [ofNat_div _ _ hi]
    simp only [hrest]
    split
    · split
      · exact watches_throws _
      · refine watches_sub (watches_bind (watches_compressedSize _ s) fun _ _ => ?_)
        refine watches_add (watches_add (watches_add ?_))
        split
        · exact watches_ok _
        · exact ih
    · exact ih

theorem watches_datagramBlocksize (rdSize : UInt32) :
    Watches (arithDatagramBlocksize cs rdSize) (datagramBlocksize cs rdSize) := by
  unfold arithDatagramBlocksize datagramBlocksize
  split
  · exact watches_ok _
  · split
    · exact watches_mod fun _ => watches_sub_last _ _
    · split
      · exact watches_mod fun _ => watches_sub_last _ _
      · exact watches_throws _

/-- Without a fault the watched function does what `constrain_by_framesize` does. -/
theorem watches_byFramesize (cs : ConstraintSet) (s : Solution) :
    Watches (arithByFramesize cs s) (constrainByFramesize cs s) := by
  unfold arithByFramesize constrainByFramesize
  refine watches_bind (watches_throwIf _ _) fun _ _ => watches_bind (watches_throwIf _ _) fun _ _ =>
    watches_bind (watches_throwIf _ _) fun _ _ => ?_
  split
  · refine watches_bind (watches_streamBlocksize cs) fun _ _ => watches_sub ?_
    exact watches_bind (watches_compressedSize _ s) fun _ _ => watches_add (watches_ok _)
  · refine watches_bind (watches_searchReadSize _) fun _ _ => ?_
    exact watches_bind (watches_datagramBlocksize _) fun _ _ => watches_ok _

/-! ## Parts without a fault -/

theorem arithIf_ok {p : Prop} [Decidable p] {msg : String} {u : Unit} :
    arithIf p msg = .ok u ↔ ¬p := by
  unfold arithIf
  split
  · rename_i h
    exact iff_of_false nofun (fun hn => hn h)
  · rename_i h
    exact iff_of_true rfl h

theorem toNat_mod_le (a b : UInt32) : a % b ≤ a := by
  rw [UInt32.le_iff_toNat_le, UInt32.toNat_mod]
  exact Nat.mod_le _ _

theorem faultless_mod_sub {a b : UInt32} (hb : b ≠ 0) :
    Faultless (do let rest ← mod a b; sub a rest : Arith UInt32) := by
  rw [faultless_bind_ok (mod_ok hb), faultless_sub]
  exact toNat_mod_le a b

/-- The size it computes, which needs no more bits than what it is given. -/
theorem arithCompressedSize_spec (hs : FromSolver s) (n : UInt32) :
    Faultless (arithCompressedSize n s) ∧
      ∀ r, arithCompressedSize n s = .ok r → compressedSize n s = .ok r ∧ r ≤ n := by
  have hok : ∀ r, arithCompressedSize n s = .ok r → compressedSize n s = .ok r := by
    intro r hr
    have hw := watches_compressedSize n s
    rwa [hr] at hw
  refine ⟨?_, fun r hr => ⟨hok r hr, (compressedSize_ok hs (hok r hr)).1⟩⟩
  unfold arithCompressedSize
  split
  · rename_i hc
    obtain ⟨mask, hsolved⟩ := hs.solved hc
    split
    · have hlt := n.toNat_lt
      have hdiv : (n / 8).toNat = n.toNat / 8 := UInt32.toNat_div n 8
      obtain ⟨m, hm, hle, -⟩ := hsolved.outputsize_bounds (n / 8).toNat_lt
      rw [hm]
      have hmn : (UInt32.ofNat m).toNat = m :=
        UInt32.toNat_ofNat_of_lt' (by rw [UInt32.size]; omega)
      have height : (8 : UInt32).toNat = 8 := rfl
      refine faultless_mul.mpr ?_
      rw [hmn, height]
      omega
    · trivial
  · trivial

/-- The value of `i` with `left` values after it. -/
theorem toNat_divisor {n : UInt32} {left : Nat} (h : left + 1 < n.toNat) :
    (UInt32.ofNat (n.toNat - (left + 1))).toNat = n.toNat - (left + 1) ∧
      UInt32.ofNat (n.toNat - (left + 1)) ≠ 0 := by
  have hlt := n.toNat_lt
  have hi : (UInt32.ofNat (n.toNat - (left + 1))).toNat = n.toNat - (left + 1) :=
    UInt32.toNat_ofNat_of_lt' (by rw [UInt32.size]; omega)
  refine ⟨hi, ?_⟩
  rw [← UInt32.toNat_inj.ne, hi]
  exact Nat.sub_ne_zero_of_lt h

theorem arithDivideFramesize_faultless {left : Nat} {bs : UInt32} (hbs : bs ≠ 0)
    (hleft : left < cs.framesize.toNat) : Faultless (arithDivideFramesize cs left bs) := by
  induction left generalizing bs with
  | zero => trivial
  | succ left ih =>
    obtain ⟨hi, hne⟩ := toNat_divisor hleft
    unfold arithDivideFramesize
    rw [faultless_bind_ok (mod_ok hbs)]
    split
    · trivial
    · rw [faultless_bind_ok (div_ok hne)]
      refine ih ?_ (by omega)
      rw [← UInt32.toNat_inj.ne, UInt32.toNat_div, hi]
      exact Nat.div_ne_zero_iff.mpr ⟨by omega, Nat.sub_le _ _⟩

/-- A divider of the frame size that is found is more than the offset. -/
theorem arithDivideFramesize_ok {left : Nat} {bs b : UInt32} (hbs : bs ≤ cs.framesize)
    (h : arithDivideFramesize cs left bs = .ok b) : cs.compressOffset ≤ cs.framesize := by
  induction left generalizing bs with
  | zero => cases h
  | succ left ih =>
    unfold arithDivideFramesize mod at h
    split at h
    · cases h
    · change (if _ then _ else _) = _ at h
      split at h
      · rename_i hfound
        exact UInt32.le_trans (UInt32.le_of_lt hfound.2.2) hbs
      · unfold div at h
        split at h
        · cases h
        · refine ih ?_ h
          rw [UInt32.le_iff_toNat_le, UInt32.toNat_div]
          exact Nat.div_le_self _ _

theorem truncate8_pos {n : UInt32} : truncate8 n ≠ 0 ↔ 8 ≤ n := by
  unfold truncate8
  grind

theorem arithStreamBlocksize_faultless_iff (hf : cs.framesize ≠ 0) :
    Faultless (arithStreamBlocksize cs) ↔ cs.blocksize = unconstrained ∨ 8 ≤ cs.blocksize := by
  have hbs : cs.blocksize = unconstrained ∨ 8 ≤ cs.blocksize ↔
      (if cs.blocksize = unconstrained then cs.framesize else truncate8 cs.blocksize) ≠ 0 := by
    split
    · rename_i hunset
      exact iff_of_true (.inl hunset) hf
    · rename_i hset
      rw [truncate8_pos, or_iff_right hset]
  rw [hbs]
  unfold arithStreamBlocksize
  generalize (if cs.blocksize = unconstrained then cs.framesize else truncate8 cs.blocksize) = bs
  dsimp only
  split
  · rename_i hgt
    refine iff_of_true (faultless_mod_sub hf) ?_
    rintro rfl
    exact absurd hgt (by simp)
  · rename_i hle
    constructor
    · rintro h rfl
      exact h
    · intro hne
      rw [faultless_bind_ok (div_ok hne)]
      have hle' : bs.toNat ≤ cs.framesize.toNat :=
        UInt32.le_iff_toNat_le.mp (UInt32.not_lt.mp hle)
      have hpos : 0 < bs.toNat := Nat.pos_of_ne_zero fun hz => hne (UInt32.toNat_inj.mp hz)
      have hquot : 0 < (cs.framesize / bs).toNat := by
        rw [UInt32.toNat_div]
        exact Nat.div_pos hle' hpos
      exact arithDivideFramesize_faultless hne (by omega)

theorem arithStreamBlocksize_ok {b : UInt32} (h : arithStreamBlocksize cs = .ok b) :
    cs.compressOffset ≤ cs.framesize ∨
      cs.blocksize ≠ unconstrained ∧ cs.framesize < truncate8 cs.blocksize := by
  have hfound : ∀ bs, bs ≤ cs.framesize → (do
      let i ← div cs.framesize bs
      arithDivideFramesize cs (cs.framesize.toNat - i.toNat) bs) = .ok b →
      cs.compressOffset ≤ cs.framesize := by
    intro bs hbs h
    unfold div at h
    split at h
    · cases h
    · exact arithDivideFramesize_ok hbs h
  unfold arithStreamBlocksize at h
  by_cases hset : cs.blocksize = unconstrained
  · rw [if_pos hset] at h
    dsimp only at h
    rw [if_neg (UInt32.lt_irrefl _)] at h
    exact .inl (hfound _ (UInt32.le_refl _) h)
  · rw [if_neg hset] at h
    dsimp only at h
    by_cases hgt : truncate8 cs.blocksize > cs.framesize
    · exact .inr ⟨hset, hgt⟩
    · rw [if_neg hgt] at h
      exact .inl (hfound _ (UInt32.not_lt.mp hgt) h)

/-- A stream: the block has a word, and the offset is within the frame unless the block is,
too. -/
def StreamSound (cs : ConstraintSet) : Prop :=
  cs.blocksize = unconstrained ∨ 8 ≤ cs.blocksize ∧
    (cs.compressOffset ≤ cs.framesize ∨ truncate8 cs.blocksize ≤ cs.framesize)

theorem faultless_writeSize (hs : FromSolver s) (hoff : cs.compressOffset ≤ cs.framesize)
    (b : UInt32) : Faultless (do
      let compressed ← arithCompressedSize (cs.framesize - cs.compressOffset) s
      let writeSize ← add compressed cs.compressOffset
      .ok { cs with
        blocksize := b
        readSize := cs.framesize
        writeSize := writeSize } : Arith ConstraintSet) := by
  obtain ⟨hfault, hok⟩ := arithCompressedSize_spec hs (cs.framesize - cs.compressOffset)
  refine faultless_bind.mpr ⟨hfault, fun r hr => ?_⟩
  have hle := UInt32.le_iff_toNat_le.mp (hok r hr).2
  rw [UInt32.toNat_sub_of_le _ _ hoff] at hle
  have hlt := cs.framesize.toNat_lt
  have hoff' := UInt32.le_iff_toNat_le.mp hoff
  exact faultless_bind.mpr ⟨faultless_add.mpr (by omega), fun _ _ => trivial⟩

theorem stream_faultless_iff (hs : FromSolver s) (hf : cs.framesize ≠ 0) : Faultless (do
      let blocksize ← arithStreamBlocksize cs
      let n ← sub cs.framesize cs.compressOffset
      let compressed ← arithCompressedSize n s
      let writeSize ← add compressed cs.compressOffset
      .ok { cs with
        blocksize := blocksize
        readSize := cs.framesize
        writeSize := writeSize } : Arith ConstraintSet) ↔ StreamSound cs := by
  rw [faultless_bind, arithStreamBlocksize_faultless_iff hf]
  constructor
  · rintro ⟨hunset | hword, hrest⟩
    · exact .inl hunset
    · refine or_iff_not_imp_left.mpr fun hset => ⟨hword, or_iff_not_imp_right.mpr fun hbig => ?_⟩
      have hgt := UInt32.not_le.mp hbig
      have hok : arithStreamBlocksize cs =
          .ok (truncate8 cs.blocksize - truncate8 cs.blocksize % cs.framesize) := by
        unfold arithStreamBlocksize
        rw [if_neg hset]
        dsimp only
        rw [if_pos hgt]
        unfold mod sub
        rw [if_neg hf]
        exact if_pos (toNat_mod_le _ _)
      exact faultless_sub.mp (faultless_bind.mp (hrest _ hok)).1
  · intro hsound
    refine ⟨hsound.imp_right And.left, fun b hb => ?_⟩
    have hoff : cs.compressOffset ≤ cs.framesize := by
      rcases arithStreamBlocksize_ok hb with hoff | ⟨hset, hgt⟩
      · exact hoff
      · exact (hsound.resolve_left hset).2.resolve_right (UInt32.not_le.mpr hgt)
    rw [faultless_bind_ok (sub_ok hoff).1]
    exact faultless_writeSize hs hoff b

/-! ## Datagrams -/

theorem arithCompressedSize_eq (hs : FromSolver s) {n : UInt32}
    (h8 : compressing s = true → n.toNat % 8 = 0) : ∃ r, arithCompressedSize n s = .ok r ∧
      r.toNat = if compressing s then 8 * s.compressedWords (n.toNat / 8) else n.toNat := by
  obtain ⟨r, hr, hval⟩ := compressedSize_eq hs h8
  have hfault := (arithCompressedSize_spec hs n).1
  have hw := watches_compressedSize n s
  rw [hr] at hw
  generalize arithCompressedSize n s = x at hfault hw
  cases x with
  | ok r' => exact ⟨r', rfl, by rw [← Except.ok.inj hw]; exact hval⟩
  | error fault =>
    cases fault with
    | throws e => cases hw
    | wraps => exact hfault.elim
    | dividesByZero => exact hfault.elim

/-- The write size of a read size that the loop looks at. -/
theorem arithWriteSize_eq (hs : FromSolver s) {rd : UInt32} (hle : cs.compressOffset ≤ rd)
    (h8 : compressing s = true → rd.toNat % 8 = 0) (hoff : cs.compressOffset.toNat % 8 = 0) :
    ∃ r, arithCompressedSize (rd - cs.compressOffset) s = .ok r ∧
      r.toNat + cs.compressOffset.toNat = writeBytes s cs.compressOffset.toNat rd.toNat ∧
      r.toNat + cs.compressOffset.toNat < 2 ^ 32 := by
  have hsub := UInt32.toNat_sub_of_le _ _ hle
  have hle' := UInt32.le_iff_toNat_le.mp hle
  have hlt := rd.toNat_lt
  obtain ⟨r, hr, hval⟩ := arithCompressedSize_eq (n := rd - cs.compressOffset) hs
    (fun hc => by have := h8 hc; omega)
  have hbound := UInt32.le_iff_toNat_le.mp ((arithCompressedSize_spec hs _).2 r hr).2
  rw [hsub] at hval hbound
  refine ⟨r, hr, ?_, by omega⟩
  unfold writeBytes
  rw [hval]
  split
  · rfl
  · omega

theorem faultless_datagram {p a w : UInt32} {f : UInt32 → Arith (UInt32 × UInt32)} :
    Faultless (do let overhead ← add p a; let datagram ← add overhead w; f datagram) ↔
      p.toNat + a.toNat + w.toNat < 2 ^ 32 ∧ Faultless (f (p + a + w)) := by
  constructor
  · intro h
    obtain ⟨hpa, hrest⟩ := faultless_bind.mp h
    obtain ⟨hok, hval⟩ := add_ok (faultless_add.mp hpa)
    obtain ⟨hw, hf⟩ := faultless_bind.mp (hrest _ hok)
    have hsum := faultless_add.mp hw
    rw [hval] at hsum
    exact ⟨hsum, hf _ (add_ok (faultless_add.mp hw)).1⟩
  · rintro ⟨hsum, hf⟩
    obtain ⟨hok, hval⟩ := @add_ok Failure p a (by omega)
    rw [faultless_bind_ok hok, faultless_bind_ok (add_ok (by rw [hval]; exact hsum)).1]
    exact hf

/-- One value of `i`, one that divides the frame size. -/
theorem arithSearchReadSize_step (hs : FromSolver s) (hoff : cs.compressOffset.toNat % 8 = 0)
    {left : Nat} {rd : UInt32} (hleft : left + 1 < cs.framesize.toNat)
    (hrd : rd.toNat = cs.framesize.toNat / (cs.framesize.toNat - (left + 1)))
    (hrest : cs.framesize.toNat % (cs.framesize.toNat - (left + 1)) = 0)
    (h8 : compressing s = true → rd.toNat % 8 = 0) (hle : cs.compressOffset ≤ rd) :
    (Faultless (arithSearchReadSize cs s (left + 1)) →
      cs.protocolOverhead.toNat + cs.applicationOverhead.toNat +
        writeBytes s cs.compressOffset.toNat rd.toNat < 2 ^ 32) ∧
    (cs.protocolOverhead.toNat + cs.applicationOverhead.toNat +
        writeBytes s cs.compressOffset.toNat rd.toNat < 2 ^ 32 →
      Faultless (arithSearchReadSize cs s left) →
      Faultless (arithSearchReadSize cs s (left + 1))) := by
  obtain ⟨hi, hne⟩ := toNat_divisor hleft
  have hdiv : cs.framesize / .ofNat (cs.framesize.toNat - (left + 1)) = rd := by
    rw [← UInt32.toNat_inj, UInt32.toNat_div, hi, hrd]
  have hmod : cs.framesize % .ofNat (cs.framesize.toNat - (left + 1)) = 0 := by
    rw [← UInt32.toNat_inj, UInt32.toNat_mod, hi, hrest]
    rfl
  have hwords : compressing s = true → rd % 8 = 0 := by
    intro hc
    rw [← UInt32.toNat_inj, UInt32.toNat_mod]
    exact h8 hc
  obtain ⟨r, hr, hval, hsum⟩ := arithWriteSize_eq hs hle h8 hoff
  obtain ⟨hadd, haddval⟩ := @add_ok Failure r cs.compressOffset hsum
  have heq : Faultless (arithSearchReadSize cs s (left + 1)) ↔
      cs.protocolOverhead.toNat + cs.applicationOverhead.toNat +
        writeBytes s cs.compressOffset.toNat rd.toNat < 2 ^ 32 ∧
      Faultless (if cs.protocolOverhead + cs.applicationOverhead + (r + cs.compressOffset) < cs.mtu ∧
          (compressing s → r + cs.compressOffset < rd) then .ok (rd, r + cs.compressOffset)
        else arithSearchReadSize cs s left) := by
    conv_lhs =>
      unfold arithSearchReadSize
      dsimp only
    rw [faultless_bind_ok (mod_ok hne), faultless_bind_ok (div_ok hne), hdiv, hmod,
      if_pos ⟨rfl, hwords⟩, if_neg (UInt32.not_lt.mpr hle), faultless_bind_ok (sub_ok hle).1,
      faultless_bind_ok hr, faultless_bind_ok hadd, faultless_datagram, haddval, hval]
  refine ⟨fun h => (heq.mp h).1, fun hfit hnext => heq.mpr ⟨hfit, ?_⟩⟩
  split
  · exact faultless_ok _
  · exact hnext

theorem arithSearchReadSize_faultless (hs : FromSolver s) (hoff : cs.compressOffset.toNat % 8 = 0)
    (hfit : cs.protocolOverhead.toNat + cs.applicationOverhead.toNat +
      writeBytes s cs.compressOffset.toNat cs.framesize.toNat < 2 ^ 32) {left : Nat}
    (hleft : left < cs.framesize.toNat) : Faultless (arithSearchReadSize cs s left) := by
  induction left with
  | zero => exact faultless_throws _
  | succ left ih =>
    have hnext := ih (by omega)
    obtain ⟨hi, hne⟩ := toNat_divisor hleft
    have hrd : (cs.framesize / .ofNat (cs.framesize.toNat - (left + 1))).toNat =
        cs.framesize.toNat / (cs.framesize.toNat - (left + 1)) := by
      rw [UInt32.toNat_div, hi]
    by_cases hlook : cs.framesize.toNat % (cs.framesize.toNat - (left + 1)) = 0 ∧
        (compressing s = true →
          (cs.framesize / .ofNat (cs.framesize.toNat - (left + 1))).toNat % 8 = 0) ∧
        cs.compressOffset ≤ cs.framesize / .ofNat (cs.framesize.toNat - (left + 1))
    · obtain ⟨hrest, h8, hle⟩ := hlook
      have hmono := writeBytes_mono hs cs.compressOffset.toNat
        (Nat.div_le_self cs.framesize.toNat (cs.framesize.toNat - (left + 1)))
      rw [← hrd] at hmono
      exact (arithSearchReadSize_step hs hoff hleft hrd hrest h8 hle).2 (by omega) hnext
    · unfold arithSearchReadSize
      dsimp only
      rw [faultless_bind_ok (mod_ok hne), faultless_bind_ok (div_ok hne)]
      split
      · rename_i hcond
        split
        · exact faultless_throws _
        · rename_i hge
          refine absurd ⟨?_, fun hc => ?_, UInt32.not_lt.mp hge⟩ hlook
          · rw [← hi, ← UInt32.toNat_mod, hcond.1]
            rfl
          · have h8 := UInt32.toNat_inj.mpr (hcond.2 hc)
            rwa [UInt32.toNat_mod] at h8
      · exact hnext

/-- In datagrams: the first read size the loop looks at is the frame itself, and all that is
sent of it, with the headers, is a number of 32 bits. -/
def DatagramSound (cs : ConstraintSet) (s : Solution) : Prop :=
  cs.framesize ≤ 1 ∨ compressing s = true ∧ cs.framesize % 8 ≠ 0 ∨
    cs.framesize < cs.compressOffset ∨
    cs.protocolOverhead.toNat + cs.applicationOverhead.toNat +
      writeBytes s cs.compressOffset.toNat cs.framesize.toNat < 2 ^ 32

/-- No read size is looked at when the frame is not in words. -/
theorem arithSearchReadSize_odd (hc : compressing s = true) (hodd : cs.framesize % 8 ≠ 0)
    {left : Nat} (hleft : left < cs.framesize.toNat) :
    Faultless (arithSearchReadSize cs s left) := by
  induction left with
  | zero => exact faultless_throws _
  | succ left ih =>
    obtain ⟨hi, hne⟩ := toNat_divisor hleft
    unfold arithSearchReadSize
    dsimp only
    rw [faultless_bind_ok (mod_ok hne), faultless_bind_ok (div_ok hne), if_neg]
    · exact ih (by omega)
    · rintro ⟨hrest, hwords⟩
      have hdvd := Nat.dvd_of_mod_eq_zero
        ((UInt32.toNat_mod _ _).symm.trans (UInt32.toNat_inj.mpr hrest))
      have hdvd8 := Nat.dvd_of_mod_eq_zero
        ((UInt32.toNat_mod _ _).symm.trans (UInt32.toNat_inj.mpr (hwords hc)))
      refine hodd (UInt32.toNat_inj.mp ?_)
      rw [UInt32.toNat_div] at hdvd8
      rw [UInt32.toNat_mod]
      exact Nat.mod_eq_zero_of_dvd (Nat.dvd_trans hdvd8 (Nat.div_dvd_of_dvd hdvd))

theorem arithSearchReadSize_ok {left : Nat} {p : UInt32 × UInt32}
    (hleft : left < cs.framesize.toNat) (h : arithSearchReadSize cs s left = .ok p) : p.1 ≠ 0 := by
  induction left with
  | zero => cases h
  | succ left ih =>
    have hnext := ih (by omega)
    obtain ⟨hi, hne⟩ := toNat_divisor hleft
    have hrd : cs.framesize / .ofNat (cs.framesize.toNat - (left + 1)) ≠ 0 := by
      rw [← UInt32.toNat_inj.ne, UInt32.toNat_div, hi]
      exact Nat.div_ne_zero_iff.mpr ⟨Nat.sub_ne_zero_of_lt hleft, Nat.sub_le _ _⟩
    unfold arithSearchReadSize at h
    dsimp only at h
    rw [mod_ok hne, div_ok hne] at h
    change (if _ then _ else _) = _ at h
    split at h
    · split at h
      · cases h
      · obtain ⟨n, -, h⟩ := bind_eq_ok.mp h
        obtain ⟨compressed, -, h⟩ := bind_eq_ok.mp h
        obtain ⟨wrSize, -, h⟩ := bind_eq_ok.mp h
        obtain ⟨overhead, -, h⟩ := bind_eq_ok.mp h
        obtain ⟨datagram, -, h⟩ := bind_eq_ok.mp h
        split at h
        · rw [← Except.ok.inj h]
          exact hrd
        · exact hnext h
    · exact hnext h

theorem arithDatagramBlocksize_faultless {rdSize : UInt32} (hf : cs.framesize ≠ 0)
    (hrd : rdSize ≠ 0) : Faultless (arithDatagramBlocksize cs rdSize) := by
  unfold arithDatagramBlocksize
  split
  · exact faultless_ok _
  · split
    · exact faultless_mod_sub hf
    · split
      · exact faultless_mod_sub hrd
      · exact faultless_throws _

theorem datagram_faultless_iff (hs : FromSolver s) (hf : cs.framesize ≠ 0)
    (hoff : cs.compressOffset.toNat % 8 = 0) : Faultless (do
      let (rdSize, wrSize) ← arithSearchReadSize cs s (cs.framesize.toNat - 1)
      let blocksize ← arithDatagramBlocksize cs rdSize
      .ok { cs with
        blocksize := blocksize
        readSize := rdSize
        writeSize := wrSize } : Arith ConstraintSet) ↔ DatagramSound cs s := by
  have hpos : 0 < cs.framesize.toNat := Nat.pos_of_ne_zero fun hz => hf (UInt32.toNat_inj.mp hz)
  have hleft : cs.framesize.toNat - 1 < cs.framesize.toNat := Nat.sub_one_lt_of_lt hpos
  have hblock : ∀ p, arithSearchReadSize cs s (cs.framesize.toNat - 1) = .ok p →
      Faultless (do
        let blocksize ← arithDatagramBlocksize cs p.1
        .ok { cs with
          blocksize := blocksize
          readSize := p.1
          writeSize := p.2 } : Arith ConstraintSet) := by
    intro p hp
    have hrd := arithSearchReadSize_ok hleft hp
    exact faultless_bind.mpr ⟨arithDatagramBlocksize_faultless hf hrd, fun b _ => faultless_ok _⟩
  refine Iff.trans (faultless_bind.trans (and_iff_left hblock)) ?_
  unfold DatagramSound
  by_cases hone : cs.framesize ≤ 1
  · have hone' : cs.framesize.toNat ≤ 1 := UInt32.le_iff_toNat_le.mp hone
    refine iff_of_true ?_ (.inl hone)
    rw [Nat.sub_eq_zero_of_le hone']
    exact faultless_throws _
  · rw [or_iff_right hone]
    have hone' : 1 < cs.framesize.toNat := by
      simpa [UInt32.le_iff_toNat_le] using hone
    obtain ⟨left, hl⟩ : ∃ left, cs.framesize.toNat = left + 2 :=
      ⟨cs.framesize.toNat - 2, by omega⟩
    have hl1 : cs.framesize.toNat - 1 = left + 1 := by omega
    have hlt : left + 1 < cs.framesize.toNat := by omega
    have hi1 : cs.framesize.toNat - (left + 1) = 1 := by omega
    rw [hl1]
    by_cases hodd : compressing s = true ∧ cs.framesize % 8 ≠ 0
    · exact iff_of_true (arithSearchReadSize_odd hodd.1 hodd.2 hlt) (.inl hodd)
    · rw [or_iff_right hodd]
      have h8 : compressing s = true → cs.framesize.toNat % 8 = 0 := by
        intro hc
        have hw := not_not.mp fun hne => hodd ⟨hc, hne⟩
        exact (UInt32.toNat_mod _ _).symm.trans (UInt32.toNat_inj.mpr hw)
      obtain ⟨hi, hne⟩ := toNat_divisor hlt
      have hdiv : cs.framesize / .ofNat (cs.framesize.toNat - (left + 1)) = cs.framesize := by
        rw [← UInt32.toNat_inj, UInt32.toNat_div, hi, hi1, Nat.div_one]
      have hmod : cs.framesize % .ofNat (cs.framesize.toNat - (left + 1)) = 0 := by
        rw [← UInt32.toNat_inj, UInt32.toNat_mod, hi, hi1, Nat.mod_one]
        rfl
      by_cases hshort : cs.framesize < cs.compressOffset
      · refine iff_of_true ?_ (.inl hshort)
        unfold arithSearchReadSize
        dsimp only
        rw [faultless_bind_ok (mod_ok hne), faultless_bind_ok (div_ok hne), hdiv, hmod,
          if_pos ⟨rfl, fun hc => not_not.mp fun hw => hodd ⟨hc, hw⟩⟩, if_pos hshort]
        exact faultless_throws _
      · rw [or_iff_right hshort]
        have hwhole : cs.framesize.toNat =
            cs.framesize.toNat / (cs.framesize.toNat - (left + 1)) := by
          rw [hi1, Nat.div_one]
        have hstep := arithSearchReadSize_step hs hoff hlt hwhole (by rw [hi1, Nat.mod_one]) h8
          (UInt32.not_lt.mp hshort)
        exact ⟨hstep.1, fun hfit => arithSearchReadSize_faultless hs hoff hfit hlt⟩

/-! ## The errors -/

/-- An exception with a text of its own: an error of `constraints`, or an assertion. -/
def Failure.Described : Failure → Prop
  | .constraintError _ => True
  | .assertion => True
  | .divisionByZero => False
  | .forever => False

theorem throws_arithCompressedSize (n : UInt32) (s : Solution) :
    Throws Failure.Described (arithCompressedSize n s) := by
  unfold arithCompressedSize
  split
  · split
    · generalize s.outputsize (n / 8).toNat = words
      cases words with
      | some m => exact throws_mul _ _
      | none => exact throws_of_error trivial
    · exact throws_of_error trivial
  · exact throws_of_ok _

theorem throws_arithDivideFramesize (left : Nat) (bs : UInt32) :
    Throws Failure.Described (arithDivideFramesize cs left bs) := by
  induction left generalizing bs with
  | zero => exact throws_of_error trivial
  | succ left ih =>
    unfold arithDivideFramesize
    refine throws_bind (throws_mod _ _) fun rest _ => ?_
    split
    · exact throws_of_ok _
    · exact throws_bind (throws_div _ _) fun bs' _ => ih bs'

theorem throws_arithStreamBlocksize (cs : ConstraintSet) :
    Throws Failure.Described (arithStreamBlocksize cs) := by
  unfold arithStreamBlocksize
  generalize (if cs.blocksize = unconstrained then cs.framesize else truncate8 cs.blocksize) = bs
  dsimp only
  split
  · exact throws_bind (throws_mod _ _) fun _ _ => throws_sub _ _
  · exact throws_bind (throws_div _ _) fun _ _ => throws_arithDivideFramesize _ _

theorem throws_arithSearchReadSize (left : Nat) :
    Throws Failure.Described (arithSearchReadSize cs s left) := by
  induction left with
  | zero => exact throws_of_error trivial
  | succ left ih =>
    unfold arithSearchReadSize
    refine throws_bind (throws_mod _ _) fun rest _ => throws_bind (throws_div _ _) fun rd _ => ?_
    split
    · split
      · exact throws_of_error trivial
      · refine throws_bind (throws_sub _ _) fun n _ => ?_
        refine throws_bind (throws_arithCompressedSize n s) fun compressed _ => ?_
        refine throws_bind (throws_add _ _) fun wr _ => throws_bind (throws_add _ _) fun o _ => ?_
        refine throws_bind (throws_add _ _) fun d _ => ?_
        split
        · exact throws_of_ok _
        · exact ih
    · exact ih

theorem throws_arithDatagramBlocksize (rdSize : UInt32) :
    Throws Failure.Described (arithDatagramBlocksize cs rdSize) := by
  unfold arithDatagramBlocksize
  split
  · exact throws_of_ok _
  · split
    · exact throws_bind (throws_mod _ _) fun _ _ => throws_sub _ _
    · split
      · exact throws_bind (throws_mod _ _) fun _ _ => throws_sub _ _
      · exact throws_of_error trivial

theorem throws_arithIf (p : Prop) [Decidable p] (msg : String) :
    Throws Failure.Described (arithIf p msg) := by
  unfold arithIf
  split
  · exact throws_of_error trivial
  · exact throws_of_ok _

theorem throws_arithByFramesize (cs : ConstraintSet) (s : Solution) :
    Throws Failure.Described (arithByFramesize cs s) := by
  unfold arithByFramesize
  refine throws_bind (throws_arithIf _ _) fun _ _ => throws_bind (throws_arithIf _ _) fun _ _ =>
    throws_bind (throws_arithIf _ _) fun _ _ => ?_
  split
  · refine throws_bind (throws_arithStreamBlocksize cs) fun _ _ => ?_
    refine throws_bind (throws_sub _ _) fun n _ => ?_
    refine throws_bind (throws_arithCompressedSize n s) fun _ _ => ?_
    exact throws_bind (throws_add _ _) fun _ _ => throws_of_ok _
  · refine throws_bind (throws_arithSearchReadSize _) fun p _ => ?_
    exact throws_bind (throws_arithDatagramBlocksize p.1) fun _ _ => throws_of_ok _

/-! ## The whole function -/

/-- The sizes are turned down at once, or they are sound for the way they are sent. -/
def ArithmeticSound (cs : ConstraintSet) (s : Solution) : Prop :=
  cs.compressOffset % 8 ≠ 0 ∨ (cs.nMtu ≠ 1 ∧ cs.nMtu ≠ unconstrained) ∨
    cs.framesize = unconstrained ∨ cs.framesize = 0 ∨
    if cs.nMtu = unconstrained then StreamSound cs else DatagramSound cs s

/-- No step wraps or divides by zero, and there is a result or an error with a text. -/
def SafeArithmetic (cs : ConstraintSet) (s : Solution) : Prop :=
  Faultless (arithByFramesize cs s) ∧
    ((∃ rv, constrainByFramesize cs s = .ok rv) ∨
      ∃ e, constrainByFramesize cs s = .error e ∧ e.Described)

theorem arithByFramesize_faultless_iff (hs : FromSolver s) :
    Faultless (arithByFramesize cs s) ↔ ArithmeticSound cs s := by
  have hguard : ∀ {p : Prop} [Decidable p] {msg : String} {rest : Arith ConstraintSet} {q : Prop},
      (¬p → (Faultless rest ↔ q)) →
      (Faultless (do arithIf p msg; rest) ↔ p ∨ q) := by
    intro p _ msg rest q h
    by_cases hp : p
    · refine iff_of_true ?_ (.inl hp)
      rw [arithIf, if_pos hp]
      exact faultless_throws _
    · rw [or_iff_right hp, ← h hp, faultless_bind_ok (a := ()) (arithIf_ok.mpr hp)]
  unfold arithByFramesize ArithmeticSound
  refine hguard fun hoff => hguard fun _ => ?_
  rw [← or_assoc]
  refine hguard fun hframe => ?_
  have hf : cs.framesize ≠ 0 := fun hz => hframe (.inr hz)
  split
  · exact stream_faultless_iff hs hf
  · have hoff' := UInt32.toNat_inj.mpr (not_not.mp hoff)
    rw [UInt32.toNat_mod] at hoff'
    exact datagram_faultless_iff hs hf hoff'

theorem byFramesize_safe_iff (cs : ConstraintSet) (s : Solution)
    (hs : s = .empty ∨ ∃ mask, Built mask s ∧ s.complete = true) :
    SafeArithmetic cs s ↔ ArithmeticSound cs s := by
  rw [← arithByFramesize_faultless_iff (fromSolver_of_built hs)]
  exact ⟨And.left, fun hfault => ⟨hfault,
    (watches_byFramesize cs s).result hfault (throws_arithByFramesize cs s)⟩⟩

/-- Frames of 8000 bytes over a stream, in blocks of 4: block sizes are in words. -/
def tinyBlocks : ConstraintSet where
  framesize := 8000
  blocksize := 4
  mtu := 1500
  compressOffset := 0
  applicationOverhead := 0
  protocolOverhead := 20

theorem byFramesize_safe_datagrams : SafeArithmetic
      { tinyBlocks with nMtu := 1, blocksize := 16000 } .empty ↔
    ArithmeticSound { tinyBlocks with nMtu := 1, blocksize := 16000 } .empty :=
  byFramesize_safe_iff _ _ (.inl rfl)

theorem byFramesize_divides_by_zero :
    constrain tinyBlocks .empty = .error .divisionByZero ∧ ¬SafeArithmetic tinyBlocks .empty := by
  have hdiv : constrainByFramesize tinyBlocks .empty = .error .divisionByZero := by decide +kernel
  refine ⟨by decide +kernel, fun h => ?_⟩
  rcases h.2 with ⟨rv, hrv⟩ | ⟨e, he, hdescribed⟩
  · rw [hdiv] at hrv
    cases hrv
  · rw [hdiv] at he
    cases he
    exact hdescribed

end Jive5ab.Constraints
