import Jive5ab.Lib.Slice
import Mathlib.Data.Nat.ModEq
import Mathlib.Tactic.Common

/-! # The reader of an inter-chain queue

`queue_reader` of `interchainfns.cc` in one enabled period of its queue: from the
restart of the outer loop to the pop that fails. What it pops is cut into blocks of
`out_blocksize` bytes. The bytes at hand are counted in an `unsigned int`. -/
namespace Jive5ab.Interchain

open Lib

abbrev Block := List UInt8

/-- `block::sub`, with the truncation of its `unsigned int` arguments. -/
def sub (b : Block) (offset length : Nat) : Option Block :=
  let offset := offset % 2 ^ 32
  let length := length % 2 ^ 32
  if (offset + length) % 2 ^ 32 ≤ b.length then some (slice b offset length) else none

def memcpy (dst : Block) (pos : Nat) (src : Block) (n : Nat) : Block :=
  dst.take pos ++ src.take n ++ dst.drop (pos + n)

/-- What the reader finds: the block size it validated and asserted to be positive,
what the blocks of its pool hold, and which of its pushes downstream succeed. -/
structure Setup where
  outBlocksize : Nat
  pos : 0 < outBlocksize
  word : outBlocksize < 2 ^ 32
  pool : Nat → UInt8
  accepts : Nat → Bool

structure Reader where
  nAvail : Nat
  blocklist : List Block
  emitted : List Block
  stop : Bool

/-- A restart of the outer loop. -/
def Reader.restart : Reader := ⟨0, [], [], false⟩

namespace Setup

variable (c : Setup)

/-- `pool->get()` -/
def getBlock : Block := (List.range c.outBlocksize).map c.pool

/-- The loop that gobbles up blocks; `none` is a dereference of the end of the list. -/
def assemble : List Block → Nat → Block → Option (Block × List Block)
  | [], nCopied, outblock => if nCopied < c.outBlocksize then none else some (outblock, [])
  | b :: rest, nCopied, outblock =>
    if nCopied < c.outBlocksize then
      let n := min (c.outBlocksize - nCopied) b.length
      let outblock := memcpy outblock nCopied b n
      if n < b.length then do
        let b ← sub b n (b.length - n)
        some (outblock, b :: rest) -- `n` bytes were all that was missing: the loop ends
      else assemble rest (nCopied + n) outblock
    else some (outblock, b :: rest)

/-- The next output block, and the list without it. -/
def cut : List Block → Option (Block × List Block)
  | [] => none
  | b :: rest =>
    if b.length = c.outBlocksize then some (b, rest)
    else if c.outBlocksize < b.length then do
      let outblock ← sub b 0 c.outBlocksize
      let b ← sub b c.outBlocksize (b.length - c.outBlocksize)
      some (outblock, b :: rest)
    else c.assemble (b :: rest) 0 c.getBlock

/-- As long as there are enough bytes; every turn takes at least one off `nAvail`. -/
def drain : Nat → Reader → Option Reader
  | 0, r => some r
  | fuel + 1, r =>
    if r.nAvail < c.outBlocksize then some r
    else do
      let (outblock, blocklist) ← c.cut r.blocklist
      if c.accepts r.emitted.length then
        drain fuel { r with blocklist := blocklist, emitted := r.emitted ++ [outblock],
                            nAvail := r.nAvail - c.outBlocksize }
      else some { r with blocklist := blocklist, stop := true }

/-- A successful pop. -/
def append (r : Reader) (tmp : Block) : Reader :=
  if tmp.length ≠ 0 then
    { r with blocklist := r.blocklist ++ [tmp], nAvail := (r.nAvail + tmp.length) % 2 ^ 32 }
  else r

/-- The inner loop on the blocks that are popped before a pop fails. -/
def queueReader : List Block → Reader → Option Reader
  | [], r => c.drain r.nAvail r
  | tmp :: pops, r => do
    let r ← c.drain r.nAvail r
    if r.stop then some r else queueReader pops (append r tmp)

end Setup

/-! ## One output block -/

theorem sub_front {b : Block} {n : Nat} (hn : n ≤ b.length) (hword : n < 2 ^ 32) :
    sub b 0 n = some (b.take n) := by
  rw [sub, Nat.zero_mod, Nat.mod_eq_of_lt hword, Nat.zero_add, Nat.mod_eq_of_lt hword, if_pos hn,
    slice, List.drop_zero]

/-- The rest of a block keeps its length modulo `2^32`, and its bytes if it was
shorter than that. -/
theorem sub_rest {b : Block} {n : Nat} (hn : n ≤ b.length) (hword : n < 2 ^ 32) :
    ∃ b', sub b n (b.length - n) = some b' ∧ b'.length + n ≡ b.length [MOD 2 ^ 32] ∧
      (b.length < 2 ^ 32 → b' = b.drop n) := by
  have hle : (b.length - n) % 2 ^ 32 ≤ b.length - n := Nat.mod_le _ _
  have hsum : n + (b.length - n) % 2 ^ 32 ≡ b.length [MOD 2 ^ 32] := by
    calc n + (b.length - n) % 2 ^ 32 ≡ n + (b.length - n) [MOD 2 ^ 32] :=
          (Nat.mod_modEq _ _).add_left n
      _ = b.length := by omega
  have hfit : (n + (b.length - n) % 2 ^ 32) % 2 ^ 32 ≤ b.length := by
    rw [hsum]
    exact Nat.mod_le _ _
  refine ⟨slice b n ((b.length - n) % 2 ^ 32), ?_, ?_, fun hshort => ?_⟩
  · rw [sub, Nat.mod_eq_of_lt hword, if_pos hfit]
  · rw [length_slice, Nat.min_eq_left hle, Nat.add_comm]
    exact hsum
  · rw [Nat.mod_eq_of_lt (by omega), slice, List.take_of_length_le (by rw [List.length_drop])]

theorem length_memcpy {dst src : Block} {pos n : Nat} (hdst : pos + n ≤ dst.length)
    (hsrc : n ≤ src.length) : (memcpy dst pos src n).length = dst.length := by
  simp only [memcpy, List.length_append, List.length_take, List.length_drop]
  omega

theorem take_memcpy {dst src : Block} {pos n : Nat} (hdst : pos + n ≤ dst.length)
    (hsrc : n ≤ src.length) :
    (memcpy dst pos src n).take (pos + n) = dst.take pos ++ src.take n := by
  refine List.take_left' ?_
  rw [List.length_append, List.length_take, List.length_take]
  omega

variable (c : Setup)

/-- From a list with enough bytes: a block of the output size, and the bytes in
their order as long as there are fewer than `2^32`. -/
structure CutOff (list : List Block) (front : Block) (rest : List Block) : Prop where
  length : rest.flatten.length + front.length ≡ list.flatten.length [MOD 2 ^ 32]
  content : list.flatten.length < 2 ^ 32 → front ++ rest.flatten = list.flatten

theorem CutOff.cons {b front : Block} {list rest : List Block} (h : CutOff list front rest) :
    CutOff (b :: list) (b ++ front) rest where
  length := by
    have := h.length.add_left b.length
    simp only [List.flatten_cons, List.length_append]
    rwa [Nat.add_left_comm]
  content hshort := by
    simp only [List.flatten_cons, List.length_append] at hshort ⊢
    rw [List.append_assoc, h.content (by omega)]

theorem CutOff.split {b b' : Block} {rest : List Block} {n : Nat} (hn : n ≤ b.length)
    (hlen : b'.length + n ≡ b.length [MOD 2 ^ 32]) (hb : b.length < 2 ^ 32 → b' = b.drop n) :
    CutOff (b :: rest) (b.take n) (b' :: rest) where
  length := by
    simp only [List.flatten_cons, List.length_append, List.length_take, Nat.min_eq_left hn]
    rw [Nat.add_right_comm]
    exact hlen.add_right _
  content hshort := by
    simp only [List.flatten_cons, List.length_append] at hshort ⊢
    rw [hb (by omega), ← List.append_assoc, List.take_append_drop]

theorem assemble_spec {list : List Block} {nCopied : Nat} {outblock : Block}
    (hcopied : nCopied ≤ c.outBlocksize) (hlen : outblock.length = c.outBlocksize)
    (henough : c.outBlocksize ≤ nCopied + list.flatten.length) :
    ∃ front rest, c.assemble list nCopied outblock = some (outblock.take nCopied ++ front, rest) ∧
      nCopied + front.length = c.outBlocksize ∧ CutOff list front rest := by
  have hword := c.word
  induction list generalizing nCopied outblock with
  | nil =>
    have hdone : ¬ nCopied < c.outBlocksize := Nat.not_lt.mpr (by simpa using henough)
    have hall : outblock.take nCopied = outblock := List.take_of_length_le (by omega)
    refine ⟨[], [], ?_, Nat.le_antisymm hcopied (by omega), ⟨rfl, fun _ => rfl⟩⟩
    rw [Setup.assemble, if_neg hdone, hall, List.append_nil]
  | cons b list ih =>
    by_cases hmore : nCopied < c.outBlocksize
    · rw [Setup.assemble, if_pos hmore]
      dsimp only
      by_cases hleft : min (c.outBlocksize - nCopied) b.length < b.length
      · have hn : min (c.outBlocksize - nCopied) b.length = c.outBlocksize - nCopied := by omega
        rw [hn] at hleft ⊢
        obtain ⟨b', hsub, hmod, hdrop⟩ := sub_rest hleft.le (by omega)
        have hcopy : memcpy outblock nCopied b (c.outBlocksize - nCopied) =
            outblock.take nCopied ++ b.take (c.outBlocksize - nCopied) := by
          rw [memcpy, List.drop_eq_nil_of_le (by omega), List.append_nil]
        refine ⟨b.take (c.outBlocksize - nCopied), b' :: list, ?_, ?_,
          CutOff.split hleft.le hmod hdrop⟩
        · rw [if_pos hleft, hsub, hcopy]
          rfl
        · rw [List.length_take]
          omega
      · have hn : min (c.outBlocksize - nCopied) b.length = b.length := by omega
        rw [hn] at hleft ⊢
        have hfit : nCopied + b.length ≤ outblock.length := by omega
        have hlen' := (length_memcpy hfit (le_refl b.length)).trans hlen
        have htake := take_memcpy hfit (le_refl b.length)
        rw [List.take_length] at htake
        have henough' : c.outBlocksize ≤ nCopied + b.length + list.flatten.length := by
          simpa [Nat.add_assoc] using henough
        obtain ⟨front, rest, heq, hsum, hcut⟩ := ih (by omega) hlen' henough'
        refine ⟨b ++ front, rest, ?_, ?_, hcut.cons⟩
        · rw [if_neg hleft, heq, htake, List.append_assoc]
        · rw [List.length_append]
          omega
    · have hall : outblock.take nCopied = outblock := List.take_of_length_le (by omega)
      refine ⟨[], b :: list, ?_, Nat.le_antisymm hcopied (by omega), ⟨rfl, fun _ => rfl⟩⟩
      rw [Setup.assemble, if_neg hmore, hall, List.append_nil]

theorem Setup.length_getBlock : c.getBlock.length = c.outBlocksize := by simp [Setup.getBlock]

theorem cut_spec {list : List Block} (henough : c.outBlocksize ≤ list.flatten.length) :
    ∃ outblock rest, c.cut list = some (outblock, rest) ∧ outblock.length = c.outBlocksize ∧
      CutOff list outblock rest := by
  have hpos := c.pos
  have hword := c.word
  cases list with
  | nil => simp only [List.flatten_nil, List.length_nil] at henough; omega
  | cons b rest =>
    by_cases hsame : b.length = c.outBlocksize
    · refine ⟨b, rest, by rw [Setup.cut, if_pos hsame], hsame, ?_, fun _ => rfl⟩
      rw [List.flatten_cons, List.length_append, Nat.add_comm]
    by_cases hmore : c.outBlocksize < b.length
    · obtain ⟨b', hsub, hmod, hdrop⟩ := sub_rest hmore.le hword
      refine ⟨b.take c.outBlocksize, b' :: rest, ?_, ?_, CutOff.split hmore.le hmod hdrop⟩
      · rw [Setup.cut, if_neg hsame, if_pos hmore, sub_front hmore.le hword, hsub]
        rfl
      · rw [List.length_take, Nat.min_eq_left hmore.le]
    · have hfew : c.outBlocksize ≤ 0 + (b :: rest).flatten.length := by rwa [Nat.zero_add]
      obtain ⟨front, rest', heq, hsum, hcut⟩ := assemble_spec c (Nat.zero_le _) c.length_getBlock hfew
      rw [List.take_zero, List.nil_append] at heq
      refine ⟨front, rest', ?_, by omega, hcut⟩
      rw [Setup.cut, if_neg hsame, if_neg hmore, heq]

end Jive5ab.Interchain
