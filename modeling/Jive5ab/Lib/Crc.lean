import Mathlib

/-! # Cyclic redundancy checks

A table driven CRC of `width` bits over bytes, in a register of 32 bits of which
those above `width` are not cleared until the end. It is linear in the message, so
a message that carries its own CRC, where it was computed over zeroes, checks to 0. -/
namespace Jive5ab.Lib.Crc

abbrev Byte := BitVec 8

variable (width : Nat) (key : BitVec 32)

def shift (reg : BitVec 32) : BitVec 32 :=
  if (reg <<< 1).getLsbD width then (reg <<< 1) ^^^ key else reg <<< 1

def shifts : Nat → BitVec 32 → BitVec 32
  | 0, reg => reg
  | n + 1, reg => shifts n (shift width key reg)

def table (i : Byte) : BitVec 32 := shifts width key 8 (i.setWidth 32 <<< (width - 8))

def step (reg : BitVec 32) (byte : Byte) : BitVec 32 :=
  ((reg <<< 8) + byte.setWidth 32) ^^^ table width key ((reg >>> (width - 8)).setWidth 8)

def run (reg : BitVec 32) (data : List Byte) : BitVec 32 := data.foldl (step width key) reg

def crc (data : List Byte) : BitVec 32 := run width key 0 data &&& BitVec.ofNat 32 (2 ^ width - 1)

/-! ## Linearity -/

theorem pick_xor (p q : Bool) :
    (if (p ^^ q) = true then key else 0) = (if p then key else 0) ^^^ (if q then key else 0) := by
  cases p <;> cases q <;> simp

theorem shift_eq (reg : BitVec 32) :
    shift width key reg = (reg <<< 1) ^^^ (if (reg <<< 1).getLsbD width then key else 0) := by
  unfold shift
  split
  · rfl
  · exact BitVec.xor_zero.symm

theorem shift_xor (a b : BitVec 32) :
    shift width key (a ^^^ b) = shift width key a ^^^ shift width key b := by
  rw [shift_eq, shift_eq, shift_eq, BitVec.shiftLeft_xor_distrib, BitVec.getLsbD_xor, pick_xor]
  ac_rfl

theorem shifts_xor (n : Nat) (a b : BitVec 32) :
    shifts width key n (a ^^^ b) = shifts width key n a ^^^ shifts width key n b := by
  induction n generalizing a b with
  | zero => rfl
  | succ n ih =>
    unfold shifts
    rw [shift_xor, ih]

theorem table_xor (a b : Byte) :
    table width key (a ^^^ b) = table width key a ^^^ table width key b := by
  unfold table
  rw [BitVec.setWidth_xor, BitVec.shiftLeft_xor_distrib, shifts_xor]

/-- The byte goes where the register was shifted out. -/
theorem add_eq_xor (reg : BitVec 32) (byte : Byte) :
    (reg <<< 8) + byte.setWidth 32 = (reg <<< 8) ^^^ byte.setWidth 32 := by
  have happart : (reg <<< 8) &&& byte.setWidth 32 = 0#32 := by
    ext i hi
    simp only [BitVec.getElem_and, BitVec.getElem_shiftLeft, BitVec.getElem_setWidth,
      BitVec.getElem_zero]
    by_cases h8 : i < 8
    · simp [h8]
    · rw [BitVec.getLsbD_of_ge byte i (by omega), Bool.and_false]
  rw [BitVec.add_eq_or_of_and_eq_zero _ _ happart]
  ext i hi
  have hbit := congrArg (fun v : BitVec 32 => v[i]) happart
  simp only [BitVec.getElem_and, BitVec.getElem_zero] at hbit
  rw [BitVec.getElem_or, BitVec.getElem_xor]
  revert hbit
  cases (reg <<< 8)[i] <;> cases (BitVec.setWidth 32 byte)[i] <;> decide

theorem step_xor (r s : BitVec 32) (a b : Byte) :
    step width key (r ^^^ s) (a ^^^ b) = step width key r a ^^^ step width key s b := by
  unfold step
  rw [add_eq_xor, add_eq_xor, add_eq_xor, BitVec.shiftLeft_xor_distrib, BitVec.setWidth_xor,
    BitVec.ushiftRight_xor_distrib, BitVec.setWidth_xor, table_xor]
  ac_rfl

theorem run_xor {as bs : List Byte} (h : as.length = bs.length) (r s : BitVec 32) :
    run width key (r ^^^ s) (as.zipWith (· ^^^ ·) bs) = run width key r as ^^^ run width key s bs := by
  induction as generalizing bs r s with
  | nil =>
    rw [List.length_nil, eq_comm, List.length_eq_zero_iff] at h
    subst h
    rfl
  | cons a as ih =>
    cases bs with
    | nil => exact absurd h (Nat.succ_ne_zero _)
    | cons b bs =>
      rw [List.zipWith_cons_cons]
      show run width key (step width key (r ^^^ s) (a ^^^ b)) _ = _
      rw [step_xor, ih (Nat.succ.inj h)]
      rfl

theorem run_zero_xor {as bs : List Byte} (h : as.length = bs.length) :
    run width key 0 (as.zipWith (· ^^^ ·) bs) = run width key 0 as ^^^ run width key 0 bs := by
  rw [← run_xor width key h]
  rfl

/-- The CRC of a sum. -/
theorem crc_xor {as bs : List Byte} (h : as.length = bs.length) :
    crc width key (as.zipWith (· ^^^ ·) bs) = crc width key as ^^^ crc width key bs := by
  unfold crc
  rw [run_zero_xor width key h]
  ext i hi
  rw [BitVec.getElem_and, BitVec.getElem_xor, BitVec.getElem_xor, BitVec.getElem_and,
    BitVec.getElem_and, Bool.and_xor_distrib_right]

/-! ## A message with its own CRC -/

theorem run_append (r : BitVec 32) (as bs : List Byte) :
    run width key r (as ++ bs) = run width key (run width key r as) bs := List.foldl_append

theorem table_zero : table width key 0 = 0 := by
  have h := table_xor width key 0 0
  rw [BitVec.xor_self, BitVec.xor_self] at h
  exact h

/-- Nothing has reached the top of the register. -/
theorem step_of_small {r : BitVec 32} (h : r >>> (width - 8) = 0#32) (b : Byte) :
    step width key r b = (r <<< 8) ^^^ b.setWidth 32 := by
  unfold step
  rw [h, add_eq_xor]
  show _ ^^^ table width key 0 = _
  rw [table_zero]
  exact BitVec.xor_zero

theorem run_replicate_zero (n : Nat) : run width key 0 (List.replicate n 0) = 0 := by
  induction n with
  | zero => rfl
  | succ n ih =>
    have hstep : step width key 0 0 = 0 := step_of_small width key (BitVec.zero_ushiftRight ..) 0
    rw [List.replicate_succ]
    show run width key (step width key 0 0) (List.replicate n 0) = 0
    rw [hstep]
    exact ih

theorem toNat_crc_lt (hwidth : width ≤ 32) (data : List Byte) :
    (crc width key data).toNat < 2 ^ width := by
  have hpow : 2 ^ width ≤ 2 ^ 32 := Nat.pow_le_pow_right (by decide) hwidth
  have hpos : 0 < 2 ^ width := Nat.two_pow_pos width
  unfold crc
  rw [BitVec.toNat_and, BitVec.toNat_ofNat, Nat.mod_eq_of_lt (by omega)]
  exact Nat.lt_of_le_of_lt Nat.and_le_right (by omega)

theorem run_tail {c : BitVec 32} (h8 : 8 ≤ width) (hc : c.toNat < 2 ^ width) (h16 : c.toNat < 2 ^ 16)
    (n : Nat) :
    run width key 0 (List.replicate n (0 : Byte) ++ [(c >>> 8).setWidth 8, c.setWidth 8]) = c := by
  have hhi : ((c >>> 8).setWidth 8).setWidth 32 = c >>> 8 := by
    refine BitVec.eq_of_toNat_eq ?_
    simp only [BitVec.toNat_setWidth, BitVec.toNat_ushiftRight, Nat.shiftRight_eq_div_pow]
    omega
  have hsmall : (c >>> 8) >>> (width - 8) = 0#32 := by
    refine BitVec.eq_of_toNat_eq ?_
    rw [← BitVec.shiftRight_add, Nat.add_sub_cancel' h8, BitVec.toNat_ushiftRight,
      Nat.shiftRight_eq_div_pow]
    exact Nat.div_eq_of_lt hc
  rw [run_append, run_replicate_zero]
  show step width key (step width key 0 ((c >>> 8).setWidth 8)) (c.setWidth 8) = c
  have hfirst : step width key 0 ((c >>> 8).setWidth 8) = c >>> 8 := by
    have hstep := step_of_small width key (r := 0) (BitVec.zero_ushiftRight ..) ((c >>> 8).setWidth 8)
    rw [hstep, hhi]
    exact BitVec.zero_xor
  rw [hfirst, step_of_small width key hsmall]
  ext i hi
  rw [BitVec.getElem_xor, BitVec.getElem_shiftLeft, BitVec.getElem_setWidth]
  by_cases hlow : i < 8
  · have hmod : (c.toNat % 2 ^ 8).testBit i = c.toNat.testBit i := by
      rw [Nat.testBit_mod_two_pow, decide_eq_true hlow, Bool.true_and]
    simpa [hlow, BitVec.getElem_eq_testBit_toNat] using hmod
  · have hup : 8 + (i - 8) = i := by omega
    simp [hlow, hup, BitVec.getElem_eq_testBit_toNat]

theorem zipWith_xor_zero (as : List Byte) :
    as.zipWith (· ^^^ ·) (List.replicate as.length 0) = as := by
  induction as with
  | nil => rfl
  | cons a as ih =>
    rw [List.length_cons, List.replicate_succ, List.zipWith_cons_cons, ih]
    exact congrArg (· :: as) BitVec.xor_zero

/-- What is added to the last two bytes is added to the CRC. -/
theorem crc_tail {pre : List Byte} {b : Byte} {c : BitVec 32} (h8 : 8 ≤ width) (h16 : width ≤ 16)
    (hlt : c.toNat < 2 ^ width) :
    crc width key (pre ++ [b ^^^ (c >>> 8).setWidth 8, c.setWidth 8]) =
      crc width key (pre ++ [b, 0]) ^^^ c := by
  have hpow : 2 ^ width ≤ 2 ^ 16 := Nat.pow_le_pow_right Nat.two_pos h16
  have hsum : pre ++ [b ^^^ (c >>> 8).setWidth 8, c.setWidth 8] =
      (pre ++ [b, 0]).zipWith (· ^^^ ·)
        (List.replicate pre.length (0 : Byte) ++ [(c >>> 8).setWidth 8, c.setWidth 8]) := by
    rw [List.zipWith_append (by simp), zipWith_xor_zero]
    simp
  rw [hsum, crc_xor width key (by simp)]
  congr 1
  unfold crc
  rw [run_tail width key h8 hlt (by omega)]
  refine BitVec.eq_of_toNat_eq ?_
  rw [BitVec.toNat_and, BitVec.toNat_ofNat, Nat.mod_eq_of_lt (b := 2 ^ 32) (by omega),
    Nat.and_two_pow_sub_one_eq_mod, Nat.mod_eq_of_lt hlt]

/-- A message whose last two bytes are the CRC of the message without it. -/
theorem crc_own {pre : List Byte} {b : Byte} {c : BitVec 32} (h8 : 8 ≤ width) (h16 : width ≤ 16)
    (hc : crc width key (pre ++ [b, 0]) = c) :
    crc width key (pre ++ [b ^^^ (c >>> 8).setWidth 8, c.setWidth 8]) = 0 := by
  have hlt : c.toNat < 2 ^ width := by
    rw [← hc]
    exact toNat_crc_lt width key (by omega) _
  rw [crc_tail width key h8 h16 hlt, hc]
  exact BitVec.xor_self

end Jive5ab.Lib.Crc
