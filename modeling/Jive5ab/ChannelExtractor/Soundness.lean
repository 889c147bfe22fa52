import Jive5ab.ChannelExtractor.Codegen
import Mathlib.Data.List.Induction
import Mathlib.Data.List.Pairwise
import Mathlib.Data.Nat.GCD.Basic
import Mathlib.Tactic.Ring

/-! # What a channel extractor extracts

Each byte that is written is put together from the bits that were added for it. -/
namespace Jive5ab.ChannelExtractor
open Lib.Split Stringutil

/-! ## The set of bits -/

/-- A bit that is in the mask of a key. -/
def Marked (bitset : Bitset) (key : BitKey) (i : Nat) : Prop :=
  ∃ e ∈ bitset, e.1 = key ∧ e.2.toNat.testBit i

theorem marked_nil (key : BitKey) (i : Nat) : ¬Marked [] key i := by
  rintro ⟨e, he, -⟩
  cases he

theorem marked_cons (e : BitKey × UInt8) (bitset : Bitset) (key : BitKey) (i : Nat) :
    Marked (e :: bitset) key i ↔ (e.1 = key ∧ e.2.toNat.testBit i) ∨ Marked bitset key i := by
  unfold Marked
  rw [List.exists_mem_cons_iff]

theorem marked_addKey (key k : BitKey) (mask : UInt8) (bitset : Bitset) (i : Nat) :
    Marked (addKey key mask bitset) k i ↔
      (key = k ∧ mask.toNat.testBit i) ∨ Marked bitset k i := by
  induction bitset with
  | nil => rw [addKey, marked_cons]
  | cons e bitset ih =>
    rw [addKey]
    split
    · rename_i heq
      rw [marked_cons, marked_cons, UInt8.toNat_or, Nat.testBit_or, Bool.or_eq_true, heq]
      tauto
    · split
      · rw [marked_cons]
      · rw [marked_cons, ih, marked_cons]
        tauto

/-- The state of a channel to which these bits were added. -/
def built (bits : List UInt32) : ChannelState := bits.foldl ChannelState.addbit ⟨[], []⟩

theorem built_append (bits : List UInt32) (bit : UInt32) :
    built (bits ++ [bit]) = (built bits).addbit bit := by
  unfold built
  rw [List.foldl_append]
  rfl

theorem built_bits (bits : List UInt32) : (built bits).bits = bits := by
  induction bits using List.reverseRecOn with
  | nil => rfl
  | append_singleton bits bit ih =>
    rw [built_append]
    change (built bits).bits ++ [bit] = bits ++ [bit]
    rw [ih]

theorem testBit_mask {n i : Nat} (h : n < 8) :
    (UInt8.ofNat (2 ^ n)).toNat.testBit i ↔ i = n := by
  have hlt : 2 ^ n < 2 ^ 8 := Nat.pow_lt_pow_right (by decide) h
  rw [UInt8.toNat_ofNat', Nat.mod_eq_of_lt hlt, Nat.testBit_two_pow, decide_eq_true_iff, eq_comm]

/-- A bit is marked for the place it goes to, and nothing else is marked. -/
theorem marked_built {bits : List UInt32} (hlen : bits.length ≤ 2 ^ 32) (key : BitKey) (i : Nat) :
    Marked (built bits).bitset key i ↔ ∃ idx bit, bits[idx]? = some bit ∧
      key.srcbyte = bit.toNat / 8 ∧ key.dstbyte = idx / 8 ∧ i = bit.toNat % 8 ∧
      key.shift = (i : Int) - (idx % 8 : Nat) := by
  induction bits using List.reverseRecOn with
  | nil =>
    refine iff_of_false (marked_nil key i) ?_
    rintro ⟨idx, bit, hbit, -⟩
    cases hbit
  | append_singleton bits bit ih =>
    rw [List.length_append, List.length_singleton] at hlen
    have hidx : (UInt32.ofNat (built bits).bits.length).toNat = bits.length := by
      rw [built_bits, UInt32.toNat_ofNat', Nat.mod_eq_of_lt hlen]
    have hdstbyte : (UInt32.ofNat (built bits).bits.length / 8).toNat = bits.length / 8 := by
      rw [UInt32.toNat_div, hidx]
      rfl
    have hdstbit : (UInt32.ofNat (built bits).bits.length % 8).toNat = bits.length % 8 := by
      rw [UInt32.toNat_mod, hidx]
      rfl
    have hsrcbyte : (bit / 8).toNat = bit.toNat / 8 := UInt32.toNat_div bit 8
    have hsrcbit : (bit % 8).toNat = bit.toNat % 8 := UInt32.toNat_mod bit 8
    rw [built_append, ChannelState.addbit]
    dsimp only
    rw [marked_addKey, ih (by omega), hdstbyte, hdstbit, hsrcbyte, hsrcbit,
      testBit_mask (Nat.mod_lt _ (by decide))]
    constructor
    · rintro (⟨rfl, rfl⟩ | ⟨idx, b, hb, hkey⟩)
      · exact ⟨bits.length, bit, List.getElem?_concat_length, rfl, rfl, rfl, rfl⟩
      · obtain ⟨hold, -⟩ := List.getElem?_eq_some_iff.mp hb
        exact ⟨idx, b, (List.getElem?_append_left hold).trans hb, hkey⟩
    · rintro ⟨idx, b, hb, hsrc, hdst, hi, hshift⟩
      rcases Nat.lt_or_ge idx bits.length with hold | hnew
      · rw [List.getElem?_append_left hold] at hb
        exact .inr ⟨idx, b, hb, hsrc, hdst, hi, hshift⟩
      · rw [List.getElem?_append_right hnew] at hb
        obtain ⟨hlast, -⟩ := List.getElem?_eq_some_iff.mp hb
        rw [List.length_singleton] at hlast
        obtain rfl : idx = bits.length := by omega
        rw [Nat.sub_self] at hb
        obtain rfl := Option.some.inj hb
        refine .inl ⟨?_, hi⟩
        cases key
        simp only [BitKey.mk.injEq] at *
        exact ⟨hsrc.symm, hdst.symm, by rw [hshift, hi]⟩

theorem mem_addKey {key : BitKey} {mask : UInt8} {bitset : Bitset} {e : BitKey × UInt8}
    (h : e ∈ addKey key mask bitset) : e.1 = key ∨ ∃ e' ∈ bitset, e'.1 = e.1 := by
  induction bitset with
  | nil =>
    rw [List.mem_singleton.mp h]
    exact .inl rfl
  | cons e' bitset ih =>
    rw [addKey] at h
    split at h
    · rcases List.mem_cons.mp h with rfl | h
      · exact .inl rfl
      · exact .inr ⟨e, List.mem_cons_of_mem _ h, rfl⟩
    · split at h
      · rcases List.mem_cons.mp h with rfl | h
        · exact .inl rfl
        · exact .inr ⟨e, h, rfl⟩
      · rcases List.mem_cons.mp h with rfl | h
        · exact .inr ⟨e, List.mem_cons_self, rfl⟩
        · refine (ih h).imp_right fun ⟨k, hk, heq⟩ => ⟨k, List.mem_cons_of_mem _ hk, heq⟩

/-- Only bytes of the bits that were added are written. -/
theorem dstbyte_lt {bits : List UInt32} (hlen : bits.length ≤ 2 ^ 32) {e : BitKey × UInt8}
    (h : e ∈ (built bits).bitset) : e.1.dstbyte * 8 < bits.length := by
  induction bits using List.reverseRecOn generalizing e with
  | nil => cases h
  | append_singleton bits bit ih =>
    rw [List.length_append, List.length_singleton] at hlen ⊢
    rw [built_append, ChannelState.addbit] at h
    rcases mem_addKey h with hkey | ⟨e', he', hkey⟩
    · have hdst : e.1.dstbyte = (UInt32.ofNat (built bits).bits.length / 8).toNat := by rw [hkey]
      rw [hdst, UInt32.toNat_div, built_bits, UInt32.toNat_ofNat', Nat.mod_eq_of_lt hlen]
      change bits.length / 8 * 8 < bits.length + 1
      omega
    · have hold := ih (by omega) he'
      rw [← hkey]
      omega

/-! ## Lines -/

/-- A term of the line for a byte. -/
def HasTerm (lines : List Line) (dstbyte : Nat) (term : Term) : Prop :=
  ∃ line ∈ lines, line.dstbyte = dstbyte ∧ term ∈ line.terms

/-- One line for each byte. -/
def Distinct (lines : List Line) : Prop := lines.Pairwise fun l r => l.dstbyte < r.dstbyte

theorem hasTerm_cons (line : Line) (lines : List Line) (dstbyte : Nat) (term : Term) :
    HasTerm (line :: lines) dstbyte term ↔
      (line.dstbyte = dstbyte ∧ term ∈ line.terms) ∨ HasTerm lines dstbyte term := by
  unfold HasTerm
  rw [List.exists_mem_cons_iff]

theorem hasTerm_addTerm (d dstbyte : Nat) (t term : Term) (lines : List Line) :
    HasTerm (addTerm d t lines) dstbyte term ↔
      (d = dstbyte ∧ term = t) ∨ HasTerm lines dstbyte term := by
  induction lines with
  | nil => rw [addTerm, hasTerm_cons, List.mem_singleton]
  | cons line lines ih =>
    rw [addTerm]
    split
    · rename_i heq
      rw [hasTerm_cons, hasTerm_cons, List.mem_append, List.mem_singleton, heq]
      tauto
    · split
      · rw [hasTerm_cons, List.mem_singleton]
      · rw [hasTerm_cons, ih, hasTerm_cons]
        tauto

theorem mem_addTerm {d : Nat} {t : Term} {lines : List Line} {line : Line}
    (h : line ∈ addTerm d t lines) :
    line.dstbyte = d ∨ ∃ l ∈ lines, l.dstbyte = line.dstbyte := by
  induction lines with
  | nil =>
    rw [List.mem_singleton.mp h]
    exact .inl rfl
  | cons l lines ih =>
    rw [addTerm] at h
    split at h
    · rcases List.mem_cons.mp h with rfl | h
      · exact .inl rfl
      · exact .inr ⟨line, List.mem_cons_of_mem _ h, rfl⟩
    · split at h
      · rcases List.mem_cons.mp h with rfl | h
        · exact .inl rfl
        · exact .inr ⟨line, h, rfl⟩
      · rcases List.mem_cons.mp h with rfl | h
        · exact .inr ⟨line, List.mem_cons_self, rfl⟩
        · refine (ih h).imp_right fun ⟨k, hk, heq⟩ => ⟨k, List.mem_cons_of_mem _ hk, heq⟩

theorem Distinct.addTerm {lines : List Line} (h : Distinct lines) (d : Nat) (t : Term) :
    Distinct (addTerm d t lines) := by
  induction h with
  | nil => exact List.pairwise_singleton _ _
  | @cons line lines hline hlines ih =>
    rw [ChannelExtractor.addTerm]
    split
    · rename_i heq
      exact List.pairwise_cons.mpr ⟨fun l hl => heq ▸ hline l hl, hlines⟩
    · rename_i hne
      split
      · rename_i hlt
        refine List.pairwise_cons.mpr ⟨fun l hl => ?_, List.pairwise_cons.mpr ⟨hline, hlines⟩⟩
        rcases List.mem_cons.mp hl with rfl | hl
        · exact hlt
        · exact Nat.lt_trans hlt (hline l hl)
      · rename_i hnot
        refine List.pairwise_cons.mpr ⟨fun l hl => ?_, ih⟩
        rcases mem_addTerm hl with heq | ⟨l', hl', heq⟩
        · omega
        · rw [← heq]
          exact hline l' hl'

theorem linesOf_append (bitset : Bitset) (e : BitKey × UInt8) :
    linesOf (bitset ++ [e]) =
      addTerm e.1.dstbyte ⟨e.1.srcbyte, e.2, e.1.shift⟩ (linesOf bitset) := by
  unfold linesOf
  rw [List.foldl_append]
  rfl

theorem distinct_linesOf (bitset : Bitset) : Distinct (linesOf bitset) := by
  induction bitset using List.reverseRecOn with
  | nil => exact List.Pairwise.nil
  | append_singleton bitset e ih =>
    rw [linesOf_append]
    exact ih.addTerm _ _

theorem exists_of_mem_linesOf {bitset : Bitset} {line : Line} (h : line ∈ linesOf bitset) :
    ∃ e ∈ bitset, e.1.dstbyte = line.dstbyte := by
  induction bitset using List.reverseRecOn generalizing line with
  | nil => cases h
  | append_singleton bitset e ih =>
    rw [linesOf_append] at h
    rcases mem_addTerm h with hnew | ⟨l, hl, hold⟩
    · exact ⟨e, List.mem_append_right _ (List.mem_singleton_self e), hnew.symm⟩
    · obtain ⟨e', he', hdst⟩ := ih hl
      exact ⟨e', List.mem_append_left _ he', hdst.trans hold⟩

theorem hasTerm_linesOf (bitset : Bitset) (dstbyte : Nat) (term : Term) :
    HasTerm (linesOf bitset) dstbyte term ↔
      ∃ e ∈ bitset, e.1.dstbyte = dstbyte ∧ term = ⟨e.1.srcbyte, e.2, e.1.shift⟩ := by
  induction bitset using List.reverseRecOn with
  | nil =>
    refine iff_of_false ?_ ?_
    · rintro ⟨line, hline, -⟩
      cases hline
    · rintro ⟨e, he, -⟩
      cases he
  | append_singleton bitset e ih =>
    rw [linesOf_append, hasTerm_addTerm, ih]
    constructor
    · rintro (⟨hd, ht⟩ | ⟨e', he', h⟩)
      · exact ⟨e, List.mem_append_right _ (List.mem_singleton_self e), hd, ht⟩
      · exact ⟨e', List.mem_append_left _ he', h⟩
    · rintro ⟨e', he', h⟩
      rcases List.mem_append.mp he' with he' | he'
      · exact .inr ⟨e', he', h⟩
      · rw [List.mem_singleton.mp he'] at h
        exact .inl h

/-- In distinct lines a byte has the terms of its line. -/
theorem mem_terms_iff {lines : List Line} (h : Distinct lines) {line : Line} (hline : line ∈ lines)
    (term : Term) : term ∈ line.terms ↔ HasTerm lines line.dstbyte term := by
  refine ⟨fun hterm => ⟨line, hline, rfl, hterm⟩, ?_⟩
  rintro ⟨line', hline', heq, hterm⟩
  have hsame : line' = line := by
    by_contra hne
    have hpair : lines.Pairwise fun l r => l.dstbyte ≠ r.dstbyte := h.imp Nat.ne_of_lt
    have hsymm : Std.Symm fun l r : Line => l.dstbyte ≠ r.dstbyte := ⟨fun _ _ => Ne.symm⟩
    exact hpair.forall hline' hline hne heq
  rwa [hsame] at hterm

/-! ## Values -/

theorem Term.testBit_eval (src : Bytes) (input : Nat) (term : Term) (p : Nat) :
    (term.eval src input).testBit p ↔ ∃ i : Nat, (i : Int) = p + term.shift ∧
      (src (input + term.srcbyte)).toNat.testBit i ∧ term.mask.toNat.testBit i := by
  unfold Term.eval
  dsimp only
  split
  · rename_i hneg
    rw [Nat.testBit_shiftLeft, Nat.testBit_and, Bool.and_eq_true, Bool.and_eq_true,
      decide_eq_true_iff]
    constructor
    · rintro ⟨hle, hbits⟩
      exact ⟨p - (-term.shift).toNat, by omega, hbits⟩
    · rintro ⟨i, hi, hbits⟩
      obtain rfl : i = p - (-term.shift).toNat := by omega
      exact ⟨by omega, hbits⟩
  · rw [Nat.testBit_shiftRight, Nat.testBit_and, Bool.and_eq_true]
    constructor
    · intro hbits
      exact ⟨term.shift.toNat + p, by omega, hbits⟩
    · rintro ⟨i, hi, hbits⟩
      obtain rfl : i = term.shift.toNat + p := by omega
      exact hbits

theorem testBit_foldl_or (f : Term → Nat) (terms : List Term) (value p : Nat) :
    (terms.foldl (fun value term => value ||| f term) value).testBit p ↔
      value.testBit p ∨ ∃ term ∈ terms, (f term).testBit p := by
  induction terms generalizing value with
  | nil =>
    refine ⟨.inl, ?_⟩
    rintro (h | ⟨term, hterm, -⟩)
    · exact h
    · cases hterm
  | cons term terms ih =>
    rw [List.foldl_cons, ih, Nat.testBit_or, Bool.or_eq_true, List.exists_mem_cons_iff, or_assoc]

theorem Line.testBit_eval (src : Bytes) (input : Nat) (line : Line) {p : Nat} (hp : p < 8) :
    (line.eval src input).toNat.testBit p ↔
      ∃ term ∈ line.terms, (term.eval src input).testBit p := by
  have hmod : (2 ^ 8 : Nat) = 256 := rfl
  rw [Line.eval, UInt8.toNat_ofNat', Nat.testBit_mod_two_pow, decide_eq_true hp, Bool.true_and,
    testBit_foldl_or, Nat.zero_testBit]
  exact or_iff_right Bool.false_ne_true

/-- The line of a byte puts the bits there that were added for it. -/
theorem testBit_line {bits : List UInt32} (hlen : bits.length ≤ 2 ^ 32) {line : Line}
    (hline : line ∈ linesOf (built bits).bitset) (src : Bytes) (input : Nat) {p : Nat}
    (hp : p < 8) : (line.eval src input).toNat.testBit p ↔
      ∃ bit, bits[8 * line.dstbyte + p]? = some bit ∧ bitAt src (8 * input + bit.toNat) := by
  have hbyte (bit : Nat) : (src (input + bit / 8)).toNat.testBit (bit % 8) =
      bitAt src (8 * input + bit) := by
    unfold bitAt
    congr 1
    · congr 2
      omega
    · omega
  rw [Line.testBit_eval src input line hp]
  constructor
  · rintro ⟨term, hterm, heval⟩
    rw [mem_terms_iff (distinct_linesOf _) hline, hasTerm_linesOf] at hterm
    obtain ⟨e, he, hdst, rfl⟩ := hterm
    obtain ⟨i, hi, hsrc, hmask⟩ := (Term.testBit_eval _ _ _ _).mp heval
    obtain ⟨idx, bit, hbit, hsrcbyte, hdstbyte, rfl, hshift⟩ :=
      (marked_built hlen e.1 i).mp ⟨e, he, rfl, hmask⟩
    dsimp only at hi hsrc
    obtain rfl : idx = 8 * line.dstbyte + p := by omega
    refine ⟨bit, hbit, ?_⟩
    rwa [hsrcbyte, hbyte] at hsrc
  · rintro ⟨bit, hbit, hsrc⟩
    obtain ⟨e, he, hkey, hmask⟩ :=
      (marked_built hlen ⟨bit.toNat / 8, line.dstbyte, (bit.toNat % 8 : Nat) - p⟩
        (bit.toNat % 8)).mpr
        ⟨8 * line.dstbyte + p, bit, hbit, rfl, by dsimp only; omega, rfl, by dsimp only; omega⟩
    refine ⟨⟨e.1.srcbyte, e.2, e.1.shift⟩, ?_, ?_⟩
    · rw [mem_terms_iff (distinct_linesOf _) hline, hasTerm_linesOf]
      exact ⟨e, he, by rw [hkey], rfl⟩
    · rw [Term.testBit_eval]
      refine ⟨bit.toNat % 8, ?_, ?_, hmask⟩
      · rw [hkey]
        dsimp only
        omega
      · rw [hkey]
        dsimp only
        rwa [hbyte]

/-- Every byte has a line. -/
theorem exists_line {bits : List UInt32} (hlen : bits.length ≤ 2 ^ 32) {idx : Nat}
    (hidx : idx < bits.length) :
    ∃ line ∈ linesOf (built bits).bitset, line.dstbyte = idx / 8 := by
  obtain ⟨e, he, hkey, -⟩ := (marked_built hlen
    ⟨bits[idx].toNat / 8, idx / 8, (bits[idx].toNat % 8 : Nat) - (idx % 8 : Nat)⟩
    (bits[idx].toNat % 8)).mpr ⟨idx, bits[idx], List.getElem?_eq_getElem hidx, rfl, rfl, rfl, rfl⟩
  obtain ⟨line, hline, hdst, -⟩ :=
    (hasTerm_linesOf _ e.1.dstbyte ⟨e.1.srcbyte, e.2, e.1.shift⟩).mpr ⟨e, he, rfl, rfl⟩
  exact ⟨line, hline, by rw [hdst, hkey]⟩

/-! ## The loop -/

theorem store_apart (src : Bytes) (input output : Nat) {lines : List Line} {dst : Bytes} {x : Nat}
    (h : ∀ line ∈ lines, output + line.dstbyte ≠ x) :
    store src input output lines dst x = dst x := by
  unfold store
  induction lines generalizing dst with
  | nil => rfl
  | cons line lines ih =>
    rw [List.foldl_cons, ih fun l hl => h l (List.mem_cons_of_mem _ hl),
      Function.update_of_ne (h line List.mem_cons_self).symm]

theorem store_line (src : Bytes) (input output : Nat) {lines : List Line} (h : Distinct lines)
    {dst : Bytes} {line : Line} (hline : line ∈ lines) :
    store src input output lines dst (output + line.dstbyte) = line.eval src input := by
  induction h generalizing dst with
  | nil => cases hline
  | @cons first lines hfirst hlines ih =>
    rcases List.mem_cons.mp hline with rfl | hrest
    · have hrest : ∀ l ∈ lines, output + l.dstbyte ≠ output + line.dstbyte := by
        intro l hl
        have := hfirst l hl
        omega
      rw [store, List.foldl_cons]
      exact (store_apart src input output hrest).trans (Function.update_self _ _ _)
    · exact ih hrest

/-- Code that was made of whole bytes of bits, of each channel as many. -/
structure Emits (code : Code) (bits : List (List UInt32)) : Prop where
  lines : code.lines = bits.map fun b => linesOf (built b).bitset
  length_eq : ∀ b ∈ bits, b.length = 8 * code.outputincrement
  length_le : ∀ b ∈ bits, b.length ≤ 2 ^ 32

variable {code : Code} {bits : List (List UInt32)}

theorem Emits.body_eq (h : Emits code bits) (src : Bytes) (input output : Nat)
    (dsts : Nat → Bytes) {c : Nat} {b : List UInt32} (hb : bits[c]? = some b) :
    code.body src input output dsts c =
      store src input output (linesOf (built b).bitset) (dsts c) := by
  have hlines : code.lines[c]? = some (linesOf (built b).bitset) := by
    rw [h.lines, List.getElem?_map, hb]
    rfl
  unfold Code.body
  rw [hlines]

/-- In one turn the bits go to their places. -/
theorem Emits.body_bit (h : Emits code bits) (src : Bytes) (input output : Nat)
    (dsts : Nat → Bytes) {c j : Nat} {b : List UInt32} {bit : UInt32} (hb : bits[c]? = some b)
    (hbit : b[j]? = some bit) :
    bitAt (code.body src input output dsts c) (8 * output + j) =
      bitAt src (8 * input + bit.toNat) := by
  have hlen := h.length_le b (List.mem_of_getElem? hb)
  obtain ⟨hj, -⟩ := List.getElem?_eq_some_iff.mp hbit
  obtain ⟨line, hline, hdst⟩ := exists_line hlen hj
  have hbyte : (8 * output + j) / 8 = output + line.dstbyte := by omega
  have hpos : (8 * output + j) % 8 = j % 8 := by omega
  rw [h.body_eq src input output dsts hb]
  conv_lhs => rw [bitAt]
  rw [hbyte, hpos, store_line src input output (distinct_linesOf _) hline, Bool.eq_iff_iff,
    testBit_line hlen hline src input (Nat.mod_lt _ (by decide)), hdst, Nat.div_add_mod]
  constructor
  · rintro ⟨bit', hbit', hsrc⟩
    rw [hbit] at hbit'
    rwa [Option.some.inj hbit']
  · exact fun hsrc => ⟨bit, hbit, hsrc⟩

theorem Emits.body_apart (h : Emits code bits) (src : Bytes) (input output : Nat)
    (dsts : Nat → Bytes) {c i : Nat}
    (hi : bits.length ≤ c ∨ i < 8 * output ∨ 8 * (output + code.outputincrement) ≤ i) :
    bitAt (code.body src input output dsts c) i = bitAt (dsts c) i := by
  cases hb : bits[c]? with
  | none =>
    have hlines : code.lines[c]? = none := by
      rw [h.lines, List.getElem?_map, hb]
      rfl
    unfold Code.body
    rw [hlines]
  | some b =>
    have hmem := List.mem_of_getElem? hb
    obtain ⟨hc, -⟩ := List.getElem?_eq_some_iff.mp hb
    unfold bitAt
    rw [h.body_eq src input output dsts hb, store_apart]
    intro line hline
    have hlt : line.dstbyte * 8 < b.length := by
      obtain ⟨e, he, hdst⟩ := exists_of_mem_linesOf hline
      rw [← hdst]
      exact dstbyte_lt (h.length_le b hmem) he
    have hlen := h.length_eq b hmem
    omega

/-- All turns of the loop. -/
theorem Emits.loop (h : Emits code bits) (src : Bytes) {len turns input : Nat}
    (hin : input + turns * code.inputincrement ≤ len)
    (hout : len < input + (turns + 1) * code.inputincrement) (output : Nat)
    (dsts : Nat → Bytes) :
    ∃ out, code.loop src len (turns + 1) input output dsts = some out ∧
      (∀ c b, bits[c]? = some b → ∀ t < turns, ∀ j bit, b[j]? = some bit →
        bitAt (out c) (8 * (output + t * code.outputincrement) + j) =
          bitAt src (8 * (input + t * code.inputincrement) + bit.toNat)) ∧
      ∀ c i, bits.length ≤ c ∨ i < 8 * output ∨
          8 * (output + turns * code.outputincrement) ≤ i →
        bitAt (out c) i = bitAt (dsts c) i := by
  induction turns generalizing input output dsts with
  | zero =>
    refine ⟨dsts, ?_, fun _ _ _ t ht => absurd ht (Nat.not_lt_zero t), fun _ _ _ => rfl⟩
    rw [Code.loop, if_neg (by omega)]
  | succ turns ih =>
    have hin' : input + code.inputincrement + turns * code.inputincrement ≤ len := by
      rw [Nat.succ_mul] at hin
      omega
    have hout' : len < input + code.inputincrement + (turns + 1) * code.inputincrement := by
      rw [Nat.succ_mul (turns + 1)] at hout
      omega
    obtain ⟨out, hloop, hbits, hrest⟩ := ih hin' hout' (output + code.outputincrement)
      (code.body src input output dsts)
    refine ⟨out, ?_, fun c b hb t ht j bit hbit => ?_, fun c i hi => ?_⟩
    · rw [Code.loop, if_pos (by omega)]
      exact hloop
    · cases t with
      | zero =>
        obtain ⟨hj, -⟩ := List.getElem?_eq_some_iff.mp hbit
        have hlen := h.length_eq b (List.mem_of_getElem? hb)
        rw [Nat.zero_mul, Nat.zero_mul, Nat.add_zero, Nat.add_zero,
          ← h.body_bit src input output dsts hb hbit]
        exact hrest c _ (.inr (.inl (by omega)))
      | succ t =>
        have hnext := hbits c b hb t (Nat.lt_of_succ_lt_succ ht) j bit hbit
        have hsucc (x n : Nat) : x + (t + 1) * n = x + n + t * n := by
          rw [Nat.succ_mul]
          omega
        rw [hsucc, hsucc]
        exact hnext
    · have hlast : output + code.outputincrement + turns * code.outputincrement =
          output + (turns + 1) * code.outputincrement := by
        rw [Nat.succ_mul]
        omega
      have hle : code.outputincrement ≤ (turns + 1) * code.outputincrement :=
        Nat.le_mul_of_pos_left _ (Nat.succ_pos turns)
      rw [hrest c i (by omega), h.body_apart src input output dsts (by omega)]

/-! ## The words of a turn -/

/-- As many words as have whole bytes of each channel. -/
def Config.words (config : Config) : Nat := 8 / Nat.gcd 8 config.bitsperchannel

theorem Config.gcd_pos (config : Config) : 0 < Nat.gcd 8 config.bitsperchannel :=
  Nat.gcd_pos_of_pos_left _ (by decide)

theorem Config.words_pos (config : Config) : 0 < config.words :=
  Nat.div_pos (Nat.le_of_dvd (by decide) (Nat.gcd_dvd_left _ _)) config.gcd_pos

theorem Config.words_le (config : Config) : config.words ≤ 8 := Nat.div_le_self _ _

theorem Config.eight_dvd_iff (config : Config) (n : Nat) :
    8 ∣ n * config.bitsperchannel ↔ config.words ∣ n := by
  have hpos := config.gcd_pos
  have hcoprime : Nat.Coprime config.words
      (config.bitsperchannel / Nat.gcd 8 config.bitsperchannel) := Nat.coprime_div_gcd_div_gcd hpos
  have height : 8 = config.words * Nat.gcd 8 config.bitsperchannel :=
    (Nat.div_mul_cancel (Nat.gcd_dvd_left _ _)).symm
  have hbits : n * config.bitsperchannel =
      n * (config.bitsperchannel / Nat.gcd 8 config.bitsperchannel) *
        Nat.gcd 8 config.bitsperchannel := by
    rw [Nat.mul_assoc, Nat.div_mul_cancel (Nat.gcd_dvd_right _ _)]
  calc 8 ∣ n * config.bitsperchannel
      ↔ config.words * Nat.gcd 8 config.bitsperchannel ∣
          n * (config.bitsperchannel / Nat.gcd 8 config.bitsperchannel) *
            Nat.gcd 8 config.bitsperchannel := by rw [← hbits, ← height]
    _ ↔ config.words ∣ n * (config.bitsperchannel / Nat.gcd 8 config.bitsperchannel) :=
        Nat.mul_dvd_mul_iff_right hpos
    _ ↔ config.words ∣ n := hcoprime.dvd_mul_right

/-- The bits of a channel out of a number of words. -/
def unrolled (width : UInt32) (channel : List UInt32) (words : Nat) : List UInt32 :=
  (List.range words).flatMap fun w => channel.map fun bit => bit + .ofNat w * width

theorem unrolled_succ (width : UInt32) (channel : List UInt32) (words : Nat) :
    unrolled width channel (words + 1) =
      unrolled width channel words ++ channel.map fun bit => bit + .ofNat words * width := by
  rw [unrolled, List.range_succ, List.flatMap_append, List.flatMap_singleton]
  rfl

theorem length_unrolled (width : UInt32) (channel : List UInt32) (words : Nat) :
    (unrolled width channel words).length = words * channel.length := by
  induction words with
  | zero =>
    rw [Nat.zero_mul]
    rfl
  | succ words ih => rw [unrolled_succ, List.length_append, ih, List.length_map, Nat.succ_mul]

theorem getElem?_unrolled (width : UInt32) {channel : List UInt32} {words w b : Nat} {bit : UInt32}
    (hw : w < words) (hbit : channel[b]? = some bit) :
    (unrolled width channel words)[w * channel.length + b]? = some (bit + .ofNat w * width) := by
  obtain ⟨hb, -⟩ := List.getElem?_eq_some_iff.mp hbit
  induction words with
  | zero => exact absurd hw (Nat.not_lt_zero w)
  | succ words ih =>
    rw [unrolled_succ]
    rcases Nat.lt_succ_iff_lt_or_eq.mp hw with hlt | rfl
    · have hle : (w + 1) * channel.length ≤ words * channel.length := Nat.mul_le_mul_right _ hlt
      rw [Nat.succ_mul] at hle
      rw [List.getElem?_append_left (by rw [length_unrolled]; omega)]
      exact ih hlt
    · rw [List.getElem?_append_right (by rw [length_unrolled]; omega), length_unrolled,
        Nat.add_sub_cancel_left, List.getElem?_map, hbit]
      rfl

/-- After a number of words. -/
def statesAfter (config : Config) (words : Nat) : List ChannelState :=
  config.channels.map fun channel => built (unrolled config.bitsperinputword channel words)

theorem addWord_statesAfter (config : Config) (words : Nat) :
    addWord config (.ofNat words * config.bitsperinputword) (statesAfter config words) =
      statesAfter config (words + 1) := by
  unfold addWord statesAfter
  rw [List.zipWith_map_right, List.zipWith_self]
  refine List.map_congr_left fun channel _ => ?_
  rw [unrolled_succ, built, built, List.foldl_append, List.foldl_map]

variable {config : Config}

/-- The bits of a turn are counted in 32 bits. -/
structure Config.Fits (config : Config) : Prop where
  input : config.words * config.bitsperinputword.toNat < 2 ^ 32
  output : config.words * config.bitsperchannel < 2 ^ 32

theorem head_statesAfter (h : config.WellFormed) (words : Nat) :
    ∃ state, (statesAfter config words).head? = some state ∧
      state.bits.length = words * config.bitsperchannel := by
  obtain ⟨channel, channels, hchannels⟩ := List.exists_cons_of_ne_nil h.channels_ne
  refine ⟨built (unrolled config.bitsperinputword channel words), ?_, ?_⟩
  · rw [statesAfter, hchannels]
    rfl
  · have hmem : channel ∈ config.channels := by
      rw [hchannels]
      exact List.mem_cons_self
    rw [built_bits, length_unrolled, h.length_eq channel hmem]

theorem complete_iff {state : ChannelState} {n : Nat} (h : state.bits.length = n) :
    state.complete = true ↔ 0 < n ∧ 8 ∣ n := by
  rw [ChannelState.complete, h, Bool.and_eq_true, decide_eq_true_iff, decide_eq_true_iff,
    Nat.dvd_iff_mod_eq_zero]

/-- Whole words are whole bytes. -/
theorem bitoffset_mod (h : config.WellFormed) (words : Nat) :
    (UInt32.ofNat words * config.bitsperinputword) % 8 = 0 := by
  have hdvd : 8 ∣ (UInt32.ofNat words).toNat * config.bitsperinputword.toNat :=
    Nat.dvd_mul_left_of_dvd (Nat.dvd_of_mod_eq_zero h.width_mod) _
  apply UInt32.toNat.inj
  rw [UInt32.toNat_mod, UInt32.toNat_mul]
  exact Nat.mod_eq_zero_of_dvd ((Nat.dvd_mod_iff (by decide)).mpr hdvd)

/-- Words are added until a turn is whole. -/
theorem addWords_eq (h : config.WellFormed) {fuel words : Nat} (hle : words ≤ config.words)
    (hfuel : config.words < words + fuel) :
    addWords config fuel (statesAfter config words) (.ofNat words * config.bitsperinputword) =
      some (statesAfter config config.words, .ofNat config.words * config.bitsperinputword) := by
  induction fuel generalizing words with
  | zero => omega
  | succ fuel ih =>
    obtain ⟨state, hhead, hlen⟩ := head_statesAfter h words
    have hcomplete : (statesAfter config words).head?.any ChannelState.complete = false ∨
        (0 < UInt32.ofNat words * config.bitsperinputword ∧
          UInt32.ofNat words * config.bitsperinputword % 8 ≠ 0) ↔ words ≠ config.words := by
      rw [bitoffset_mod h, hhead, Option.any_some, ← Bool.not_eq_true, complete_iff hlen,
        config.eight_dvd_iff]
      have hwords := config.words_pos
      have hbits := h.bits_pos
      constructor
      · rintro (hnot | ⟨-, hne⟩) rfl
        · exact hnot ⟨Nat.mul_pos hwords hbits, Nat.dvd_refl _⟩
        · exact hne rfl
      · intro hne
        refine .inl fun ⟨hpos, hdvd⟩ => hne ?_
        exact Nat.le_antisymm hle (Nat.le_of_dvd (Nat.pos_of_mul_pos_right hpos) hdvd)
    rw [addWords]
    by_cases hlast : words = config.words
    · rw [if_neg (fun hc => hcomplete.mp hc hlast), hlast]
    · rw [if_pos (hcomplete.mpr hlast), addWord_statesAfter]
      have hnext : UInt32.ofNat words * config.bitsperinputword + config.bitsperinputword =
          UInt32.ofNat (words + 1) * config.bitsperinputword := by
        rw [UInt32.ofNat_add, UInt32.add_mul]
        congr 1
        exact (UInt32.one_mul _).symm
      rw [hnext]
      exact ih (by omega) (by omega)

theorem mapM_getlines {states : List ChannelState} (h : ∀ state ∈ states, state.complete = true) :
    states.mapM ChannelState.getlines = .ok (states.map fun state => linesOf state.bitset) := by
  induction states with
  | nil => rfl
  | cons state states ih =>
    rw [List.forall_mem_cons] at h
    rw [List.mapM_cons, ChannelState.getlines, if_pos h.1, ih h.2]
    rfl

/-- The code of a configuration. -/
theorem exists_code (h : config.WellFormed) (hfits : config.Fits) :
    ∃ code, generate 9 config = some (.ok code) ∧
      8 * code.inputincrement = config.words * config.bitsperinputword.toNat ∧
      8 * code.outputincrement = config.words * config.bitsperchannel ∧
      Emits code (config.channels.map fun channel =>
        unrolled config.bitsperinputword channel config.words) := by
  obtain ⟨state, hhead, hlen⟩ := head_statesAfter h config.words
  have hstart : addWords config 9 (config.channels.map fun _ => ⟨[], []⟩) 0 =
      some (statesAfter config config.words, .ofNat config.words * config.bitsperinputword) := by
    have hfuel : config.words < 0 + 9 := by
      have := config.words_le
      omega
    have hwords := addWords_eq h (Nat.zero_le _) hfuel
    rw [show UInt32.ofNat 0 * config.bitsperinputword = 0 from UInt32.zero_mul] at hwords
    exact hwords
  have hwhole : 0 < config.words * config.bitsperchannel ∧
      8 ∣ config.words * config.bitsperchannel :=
    ⟨Nat.mul_pos config.words_pos h.bits_pos, (config.eight_dvd_iff _).mpr (Nat.dvd_refl _)⟩
  have hcomplete : ∀ state ∈ statesAfter config config.words, state.complete = true := by
    intro state hstate
    obtain ⟨channel, hchannel, rfl⟩ := List.mem_map.mp hstate
    refine (complete_iff ?_).mpr hwhole
    rw [built_bits, length_unrolled, h.length_eq channel hchannel]
  have hinput := hfits.input
  have houtput := hfits.output
  have hwords : (UInt32.ofNat config.words).toNat = config.words := by
    rw [UInt32.toNat_ofNat', Nat.mod_eq_of_lt]
    have := config.words_le
    omega
  have hdvd : 8 ∣ config.words * config.bitsperinputword.toNat :=
    Nat.dvd_mul_left_of_dvd (Nat.dvd_of_mod_eq_zero h.width_mod) _
  have hbitoffset : (UInt32.ofNat config.words * config.bitsperinputword / 8).toNat =
      config.words * config.bitsperinputword.toNat / 8 := by
    rw [UInt32.toNat_div, UInt32.toNat_mul, hwords, Nat.mod_eq_of_lt hinput]
    rfl
  refine ⟨⟨config.words * config.bitsperinputword.toNat / 8,
    config.words * config.bitsperchannel / 8,
    (statesAfter config config.words).map fun state => linesOf state.bitset⟩, ?_, ?_, ?_, ?_⟩
  · rw [generate, hstart, Option.map_some]
    dsimp only
    rw [mapM_getlines hcomplete, hbitoffset, hhead, Option.getD_some, hlen,
      Nat.mod_eq_of_lt (by omega)]
    rfl
  · exact Nat.mul_div_cancel' hdvd
  · exact Nat.mul_div_cancel' hwhole.2
  · refine ⟨?_, fun b hb => ?_, fun b hb => ?_⟩
    · rw [statesAfter, List.map_map, List.map_map]
      rfl
    · obtain ⟨channel, hchannel, rfl⟩ := List.mem_map.mp hb
      rw [length_unrolled, h.length_eq channel hchannel]
      exact (Nat.mul_div_cancel' hwhole.2).symm
    · obtain ⟨channel, hchannel, rfl⟩ := List.mem_map.mp hb
      rw [length_unrolled, h.length_eq channel hchannel]
      exact houtput.le

/-- The source of a bit of a turn is in the turn. -/
theorem toNat_source (h : config.WellFormed) (hfits : config.Fits) {channel : List UInt32}
    (hchannel : channel ∈ config.channels) {bit : UInt32} (hbit : bit ∈ channel) {w : Nat}
    (hw : w < config.words) :
    (bit + .ofNat w * config.bitsperinputword).toNat =
      w * config.bitsperinputword.toNat + bit.toNat := by
  have hlt : bit.toNat < config.bitsperinputword.toNat := h.bits_lt channel hchannel bit hbit
  have hle : (w + 1) * config.bitsperinputword.toNat ≤
      config.words * config.bitsperinputword.toNat := Nat.mul_le_mul_right _ hw
  have hinput := hfits.input
  have hwords := config.words_le
  rw [Nat.succ_mul] at hle
  rw [UInt32.toNat_add, UInt32.toNat_mul, UInt32.toNat_ofNat', Nat.mod_eq_of_lt (a := w) (by omega),
    Nat.mod_eq_of_lt (a := w * _) (by omega), Nat.mod_eq_of_lt (by omega), Nat.add_comm]

theorem Emits.extracts (h : config.WellFormed) (hfits : config.Fits)
    (hin : 8 * code.inputincrement = config.words * config.bitsperinputword.toNat)
    (hout : 8 * code.outputincrement = config.words * config.bitsperchannel)
    (hemits : Emits code (config.channels.map fun channel =>
      unrolled config.bitsperinputword channel config.words)) :
    code.Extracts config code.inputincrement := by
  intro src dsts len samples hstep hsamples
  obtain ⟨turns, rfl⟩ := hstep
  have hwidth := h.width_pos
  have hwords := config.words_pos
  have hcount : samples = turns * config.words := by
    refine Nat.eq_of_mul_eq_mul_right hwidth ?_
    calc samples * config.bitsperinputword.toNat
        = turns * (8 * code.inputincrement) := by rw [hsamples]; ring
      _ = turns * config.words * config.bitsperinputword.toNat := by rw [hin, Nat.mul_assoc]
  have hpos : 0 < code.inputincrement := by
    have := Nat.mul_pos hwords hwidth
    omega
  have hdone : 0 + turns * code.inputincrement ≤ code.inputincrement * turns := by
    rw [Nat.zero_add, Nat.mul_comm]
  have hend : code.inputincrement * turns < 0 + (turns + 1) * code.inputincrement := by
    rw [Nat.zero_add, Nat.succ_mul, Nat.mul_comm]
    omega
  obtain ⟨out, hloop, hbits, hrest⟩ := hemits.loop src hdone hend 0 dsts
  refine ⟨turns + 1, out, hloop, fun c channel hc sample hsample b bit hbit => ?_,
    fun c i hi => hrest c i ?_⟩
  · have hmem := List.mem_of_getElem? hc
    have hlen := h.length_eq channel hmem
    have hw : sample % config.words < config.words := Nat.mod_lt _ hwords
    have ht : sample / config.words < turns :=
      (Nat.div_lt_iff_lt_mul hwords).mpr (hcount ▸ hsample)
    have hsplit := Nat.div_add_mod' sample config.words
    generalize sample / config.words = t at ht hsplit
    generalize sample % config.words = w at hw hsplit
    have hbit' := hbits c (unrolled config.bitsperinputword channel config.words)
      (by rw [List.getElem?_map, hc]; rfl) t ht _ _ (getElem?_unrolled _ hw hbit)
    rw [toNat_source h hfits hmem (List.mem_of_getElem? hbit) hw, hlen] at hbit'
    have hto : sample * config.bitsperchannel + b =
        8 * (0 + t * code.outputincrement) + (w * config.bitsperchannel + b) := by
      calc sample * config.bitsperchannel + b
          = t * (config.words * config.bitsperchannel) + (w * config.bitsperchannel + b) := by
            rw [← hsplit]; ring
        _ = 8 * (0 + t * code.outputincrement) + (w * config.bitsperchannel + b) := by
            rw [← hout]; ring
    have hfrom : sample * config.bitsperinputword.toNat + bit.toNat =
        8 * (0 + t * code.inputincrement) +
          (w * config.bitsperinputword.toNat + bit.toNat) := by
      calc sample * config.bitsperinputword.toNat + bit.toNat
          = t * (config.words * config.bitsperinputword.toNat) +
              (w * config.bitsperinputword.toNat + bit.toNat) := by rw [← hsplit]; ring
        _ = 8 * (0 + t * code.inputincrement) +
              (w * config.bitsperinputword.toNat + bit.toNat) := by rw [← hin]; ring
    rw [hto, hfrom]
    exact hbit'
  · have hend : 8 * (0 + turns * code.outputincrement) = samples * config.bitsperchannel := by
      calc 8 * (0 + turns * code.outputincrement)
          = turns * (8 * code.outputincrement) := by ring
        _ = samples * config.bitsperchannel := by rw [hout, hcount, Nat.mul_assoc]
    rw [hend, List.length_map]
    exact hi.imp_right .inr

/-- Of an accepted configuration whose turn is counted in 32 bits, all samples are extracted of
every block of whole turns. -/
theorem extracts_of_parse (fuel : Nat) (configstr : List Char) (config : Config)
    (hparse : parseDynamicChannelExtractor fuel configstr = some (.ok config))
    (hfits : config.Fits) :
    ∃ code, generate 9 config = some (.ok code) ∧
      code.Extracts config (config.words * config.bitsperinputword.toNat / 8) := by
  have h := wellFormed_of_parse hparse
  obtain ⟨code, hcode, hin, hout, hemits⟩ := exists_code h hfits
  refine ⟨code, hcode, ?_⟩
  rw [← hin, Nat.mul_div_cancel_left _ (by decide)]
  exact hemits.extracts h hfits hin hout

/-! ## One bit of each word -/

/-- One channel of the first bit of each word. -/
def firstBit (width : UInt32) : Config := ⟨width, 1, [[0]]⟩

theorem findEnclosed_zero : findEnclosed '[' ']' ['[', '0', ']'] = some [['0']] := by
  have hnil : findEnclosed '[' ']' [] = some [] := by
    rw [findEnclosed]
    rfl
  have hcons : findEnclosed '[' ']' ['[', '0', ']'] =
      (findEnclosed '[' ']' []).map (['0'] :: ·) := by
    rw [findEnclosed]
    rfl
  rw [hcons, hnil]
  rfl

theorem parseChannelDefs_zero {width : UInt32} (hpos : 0 < width) :
    parseChannelDefs 2 width ['[', '0', ']'] = some (.ok (firstBit width)) := by
  have hrange : parseUIntRange 2 ['0'] ',' = some [0] := by
    rw [parseUIntRange, split_last false (by decide)]
    rfl
  have hfound : [(0 : UInt32)].findIdx? (fun bit => ¬bit < width) = none := by
    simpa using UInt32.pos_iff_ne_zero.mp hpos
  have hchannel : parseChannel 2 width [] ['0'] = some (.ok [0]) := by
    unfold parseChannel
    rw [hrange, Option.map_some, hfound]
    rfl
  unfold parseChannelDefs
  rw [findEnclosed_zero]
  dsimp only
  rw [parseChannels, hchannel]
  rfl

theorem parse_firstBit {word : List Char} {width : UInt32} {rest : List Char}
    (hne : word ≠ []) (hspace : ∀ c ∈ word, isSpace c = false) (hword : '>' ∉ word)
    (hscan : scanUnsigned word = some (width, rest)) (hpos : 0 < width) (hmod : width % 8 = 0) :
    parseDynamicChannelExtractor 2 (word ++ ['>', '[', '0', ']']) =
      some (.ok (firstBit width)) := by
  have hfilter : (word ++ ['>', '[', '0', ']']).filter (fun c => ¬isSpace c) =
      word ++ ['>', '[', '0', ']'] := by
    rw [List.filter_eq_self]
    intro c hc
    rcases List.mem_append.mp hc with hc | hc
    · rw [hspace c hc]
      rfl
    · exact List.all_eq_true.mp (show ['>', '[', '0', ']'].all (fun c => ¬isSpace c) = true by decide)
        c hc
  have hsplit : split '>' false (word ++ ['>', '[', '0', ']']) = [word, ['[', '0', ']']] := by
    rw [split_cons false _ hword, kept_of_ne_nil hne, split_last false (by decide)]
    rfl
  obtain ⟨c, word, rfl⟩ := List.exists_cons_of_ne_nil hne
  unfold parseDynamicChannelExtractor
  dsimp only
  rw [hfilter, hsplit]
  dsimp only [List.isEmpty_cons, List.cons_append]
  rw [if_neg Bool.false_ne_true, if_neg Bool.false_ne_true, hscan]
  dsimp only
  rw [if_neg (not_not.mpr ⟨hpos, hmod⟩), parseChannelDefs_zero hpos]

theorem parse_eight : parseDynamicChannelExtractor 2 "8>[0]".toList = some (.ok (firstBit 8)) := by
  have htext : "8>[0]".toList = ['8'] ++ ['>', '[', '0', ']'] := by decide
  rw [htext]
  have hspace : ∀ c ∈ ['8'], isSpace c = false := List.forall_mem_singleton.mpr (by decide)
  exact parse_firstBit (by decide) hspace (by decide)
    (show scanUnsigned ['8'] = some (8, []) by decide) (by decide) (by decide)

theorem parse_widest : parseDynamicChannelExtractor 2 "4294967288>[0]".toList =
    some (.ok (firstBit 4294967288)) := by
  have htext : "4294967288>[0]".toList = "4294967288".toList ++ ['>', '[', '0', ']'] := by
    decide
  rw [htext]
  have hall : "4294967288".toList.all (fun c => !isSpace c) = true := by decide
  have hspace : ∀ c ∈ "4294967288".toList, isSpace c = false := fun c hc =>
    Bool.not_eq_true' (isSpace c) ▸ List.all_eq_true.mp hall c hc
  exact parse_firstBit (by decide) hspace (by decide)
    (show scanUnsigned "4294967288".toList = some (4294967288, []) by decide) (by decide)
    (by decide)

theorem extracts_of_parse_eight :
    parseDynamicChannelExtractor 2 "8>[0]".toList = some (.ok (firstBit 8)) ∧
      (firstBit 8).Fits ∧ ∃ code, generate 9 (firstBit 8) = some (.ok code) ∧
        code.Extracts (firstBit 8) ((firstBit 8).words * (firstBit 8).bitsperinputword.toNat / 8) :=
  ⟨parse_eight, ⟨by decide, by decide⟩,
    extracts_of_parse 2 "8>[0]".toList (firstBit 8) parse_eight ⟨by decide, by decide⟩⟩

/-- What a loop returns does not depend on the fuel. -/
theorem loop_unique {src : Bytes} {len fuel fuel' input output : Nat} {dsts out out' : Nat → Bytes}
    (h : code.loop src len fuel input output dsts = some out)
    (h' : code.loop src len fuel' input output dsts = some out') : out = out' := by
  induction fuel generalizing fuel' input output dsts with
  | zero => cases h
  | succ fuel ih =>
    cases fuel' with
    | zero => cases h'
    | succ fuel' =>
      rw [Code.loop] at h h'
      split at h
      · rename_i hmore
        rw [if_pos hmore] at h'
        exact ih h h'
      · rename_i hdone
        rw [if_neg hdone] at h'
        exact Option.some.inj (h.symm.trans h')

/-- What is made of the first bit of words of 8 bits. -/
def eightCode : Code where
  inputincrement := 8
  outputincrement := 1
  lines := [[⟨0, (List.range 8).map fun w => ⟨w, 1, -w⟩⟩]]

/-- What is made of the first bit of the widest words. -/
def widestCode : Code where
  inputincrement := 536870904
  outputincrement := 1
  lines := [[⟨0, ⟨0, 1, 0⟩ :: (List.range 7).map fun w => ⟨536870905 + w, 1, w - 7⟩⟩]]

/-- Of a word of 8 bits, the first of each block of less than eight words is not extracted, and
where a turn is not counted in 32 bits more is written than there is. -/
theorem tail_not_extracted :
    (∃ config code, parseDynamicChannelExtractor 2 "8>[0]".toList = some (.ok config) ∧
      generate 9 config = some (.ok code) ∧
      ¬code.Extracts config (config.bitsperinputword.toNat / 8)) ∧
    ∃ config code, parseDynamicChannelExtractor 2 "4294967288>[0]".toList = some (.ok config) ∧
      generate 9 config = some (.ok code) ∧
      ¬code.Extracts config (config.words * config.bitsperinputword.toNat / 8) := by
  refine ⟨⟨firstBit 8, eightCode, parse_eight, by decide +kernel, fun h => ?_⟩,
    ⟨firstBit 4294967288, widestCode, parse_widest, by decide +kernel, fun h => ?_⟩⟩
  · obtain ⟨fuel, out, hrun, hbits, -⟩ :=
      h (fun _ => 1) (fun _ _ => 0) 1 1 (by decide) (by decide)
    have hbit := hbits 0 [0] rfl 0 Nat.one_pos 0 0 rfl
    have hout : out = fun _ _ => 0 := @loop_unique _ _ _ _ 1 _ _ _ _ _ hrun rfl
    rw [hout] at hbit
    exact absurd hbit (by decide)
  · obtain ⟨fuel, out, hrun, -, hrest⟩ :=
      h (fun _ => 1) (fun _ _ => 0) 4294967288 8 (by decide) (by decide)
    have hsecond : (widestCode.run 9 (fun _ => 1) 4294967288 fun _ _ => 0).map
        (fun out => bitAt (out 0) 8) = some true := by decide +kernel
    obtain ⟨out', hrun', hbit⟩ := Option.map_eq_some_iff.mp hsecond
    rw [← loop_unique hrun hrun', hrest 0 8 (.inr (by decide))] at hbit
    exact absurd hbit (by decide)

end Jive5ab.ChannelExtractor
