import Jive5ab.Bcd.Logarithm

/-! # Binary coded decimal -/
namespace Jive5ab.Bcd
open Lib.Single

inductive UnsignedType where
  | uint8 | uint16 | uint32 | uint64
  deriving Repr, DecidableEq

namespace UnsignedType

def bits : UnsignedType → Nat
  | uint8 => 8
  | uint16 => 16
  | uint32 => 32
  | uint64 => 64

/-- Two to a byte. -/
def n_bcd (type : UnsignedType) : Nat := type.bits / 8 * 2

end UnsignedType

inductive Exc where
  | argument_too_big (msg : String)
  | not_a_BCD_digit (msg : String)
  deriving Repr, DecidableEq

/-- From the least significant digit: `digit` is how many there are already. -/
def bcdLoop (digit : Nat) : Nat → Nat → Nat → Nat
  | 0, _, bcd => bcd
  | left + 1, copy_of_n, bcd =>
    if copy_of_n ≠ 0 then
      bcdLoop (digit + 1) left (copy_of_n / 10) (bcd ||| (copy_of_n % 10) <<< (digit * 4))
    else bcd

/-- Of an unsigned number no logarithm is a NaN; that of zero is infinite. -/
def bcd (log10f : ℚ → ℚ) (type : UnsignedType) (n : Nat) : Except Exc Nat :=
  let log10number := if toSingle (n : ℚ) = 0 then 0 else log10f (toSingle (n : ℚ))
  let n_digit := ⌈log10number⌉.toNat
  let n_digit := if n_digit = ⌊log10number⌋.toNat then n_digit + 1 else n_digit
  if n_digit > type.n_bcd then
    .error (.argument_too_big
      "The number is too big too fit in the available BCD representation")
  else .ok (bcdLoop 0 type.n_bcd n 0)

/-- `left` is `n_bcd - digit - 1`; the bytes are those of a little endian machine. -/
def unbcdLoop (Number : UnsignedType) (bcd : Nat) : Nat → Nat → Bool → Nat → Except Exc Nat
  | 0, _, _, n => .ok n
  | left + 1, mask, shift, old_n =>
    let byte := bcd >>> (left / 2 * 8) % 256
    let decoded_digit := (byte &&& mask) >>> (if shift then 4 else 0)
    if decoded_digit > 9 then
      .error (.not_a_BCD_digit "Only digits 0..9 are considered valid BCD digits")
    else
      let n := (old_n * 10 + decoded_digit) % 2 ^ Number.bits
      if n < old_n then
        .error (.argument_too_big "The BCD-encoded value was too big to fit into the destination")
      else unbcdLoop Number bcd left (mask ^^^ 0xff) (!shift) n

def unbcd (BCD Number : UnsignedType) (bcd : Nat) : Except Exc Nat :=
  unbcdLoop Number bcd BCD.n_bcd 0xf0 true 0

/-! ## What a word stands for -/

def nibble (word i : Nat) : Nat := word / 16 ^ i % 16

/-- Of so many nibbles of a word, the first one the least significant digit. -/
def decimal : Nat → Nat → Nat
  | 0, _ => 0
  | n + 1, word => word % 16 + 10 * decimal n (word / 16)

/-- The number in a word's most significant nibbles, those from `left` on. -/
def leading (BCD : UnsignedType) (word left : Nat) : Nat :=
  decimal (BCD.n_bcd - left) (word / 16 ^ left)

def value (BCD : UnsignedType) (word : Nat) : Nat := leading BCD word 0

def AllDigits (BCD : UnsignedType) (word : Nat) : Prop := ∀ i < BCD.n_bcd, nibble word i ≤ 9

instance (BCD : UnsignedType) (word : Nat) : Decidable (AllDigits BCD word) :=
  inferInstanceAs (Decidable (∀ i < BCD.n_bcd, nibble word i ≤ 9))

/-- Success exactly for the numbers that fit, with their digits. -/
def BcdExact (BCD : UnsignedType) (n : Nat) : Prop :=
  if n < 10 ^ BCD.n_bcd then
    ∃ word, bcd log10f BCD n = .ok word ∧ ∀ i < BCD.n_bcd, nibble word i = n / 10 ^ i % 10
  else ∃ e, bcd log10f BCD n = .error e

/-- An exception exactly for what is no number or does not fit. -/
def UnbcdExact (BCD Number : UnsignedType) (word : Nat) : Prop :=
  if AllDigits BCD word ∧ value BCD word < 2 ^ Number.bits then
    unbcd BCD Number word = .ok (value BCD word)
  else ∃ e, unbcd BCD Number word = .error e

/-- The numbers from here on have a logarithm that is rounded up to `n_bcd`. -/
def refusedFrom : UnsignedType → Nat
  | .uint8 => 100
  | .uint16 => 10000
  | .uint32 => 99999948
  | .uint64 => 9999988998275072

/-- With one more digit the remainder gets smaller. -/
def WrapShows (BCD Number : UnsignedType) (word : Nat) : Prop :=
  ∃ left < BCD.n_bcd,
    leading BCD word left % 2 ^ Number.bits < leading BCD word (left + 1) % 2 ^ Number.bits

/-! ## Digits in nibbles -/

/-- The nibbles that the loop fills. -/
def packed : Nat → Nat → Nat
  | 0, _ => 0
  | left + 1, n => n % 10 + 16 * packed left (n / 10)

@[simp] theorem packed_zero (left : Nat) : packed left 0 = 0 := by
  induction left with
  | zero => rfl
  | succ left ih => simp [packed, ih]

theorem nibble_packed {left i : Nat} (h : i < left) (n : Nat) :
    nibble (packed left n) i = n / 10 ^ i % 10 := by
  induction left generalizing i n with
  | zero => omega
  | succ left ih =>
    rw [packed]
    cases i with
    | zero =>
      rw [nibble, pow_zero, pow_zero, Nat.div_one, Nat.div_one]
      omega
    | succ i =>
      have hrest : (n % 10 + 16 * packed left (n / 10)) / 16 = packed left (n / 10) := by omega
      have hnext := ih (Nat.lt_of_succ_lt_succ h) (n / 10)
      rw [nibble] at hnext
      rw [nibble, pow_succ', ← Nat.div_div_eq_div_mul, hrest, hnext, pow_succ',
        Nat.div_div_eq_div_mul]

theorem packed_lt (left n : Nat) : packed left n < 16 ^ left := by
  induction left generalizing n with
  | zero => exact Nat.one_pos
  | succ left ih =>
    have h := ih (n / 10)
    rw [packed, pow_succ]
    omega

theorem decimal_packed (left n : Nat) : decimal left (packed left n) = n % 10 ^ left := by
  induction left generalizing n with
  | zero => simp [decimal, Nat.mod_one]
  | succ left ih =>
    have hhead : (n % 10 + 16 * packed left (n / 10)) % 16 = n % 10 := by omega
    have hrest : (n % 10 + 16 * packed left (n / 10)) / 16 = packed left (n / 10) := by omega
    rw [packed, decimal, hhead, hrest, ih, pow_succ', Nat.mod_mul]

/-- What is in the word already is below the digits to come. -/
theorem bcdLoop_eq {digit bcd : Nat} (hbcd : bcd < 16 ^ digit) (left n : Nat) :
    bcdLoop digit left n bcd = bcd + 16 ^ digit * packed left n := by
  induction left generalizing digit bcd n with
  | zero => simp [bcdLoop, packed]
  | succ left ih =>
    rw [bcdLoop]
    by_cases hn : n = 0
    · simp [hn]
    have hpow : (2 : Nat) ^ (digit * 4) = 16 ^ digit := by
      rw [mul_comm, pow_mul]
      norm_num
    have hor : bcd ||| (n % 10) <<< (digit * 4) = n % 10 * 16 ^ digit + bcd := by
      rw [Nat.or_comm, ← Nat.shiftLeft_add_eq_or_of_lt (by rwa [hpow]), Nat.shiftLeft_eq, hpow]
    have hlt : n % 10 * 16 ^ digit + bcd < 16 ^ (digit + 1) := by
      have hdigit : n % 10 * 16 ^ digit ≤ 9 * 16 ^ digit := Nat.mul_le_mul_right _ (by omega)
      rw [pow_succ]
      omega
    rw [if_pos hn, hor, ih hlt, packed, pow_succ]
    ring

theorem bcdLoop_packed (left n : Nat) : bcdLoop 0 left n 0 = packed left n := by
  rw [bcdLoop_eq (by decide)]
  simp

/-! ## The number of digits -/

/-- Exactly at a power of ten one digit is added. -/
theorem digits_exceed_iff {x : ℚ} (hx : 0 ≤ x) (n : Nat) :
    (if ⌈x⌉.toNat = ⌊x⌋.toNat then ⌈x⌉.toNat + 1 else ⌈x⌉.toNat) > n ↔ (n : ℚ) ≤ x := by
  have hfloor : 0 ≤ ⌊x⌋ := Int.floor_nonneg.mpr hx
  have hle : ⌊x⌋ ≤ ⌈x⌉ := Int.floor_le_ceil x
  have hnear : ⌈x⌉ ≤ ⌊x⌋ + 1 := Int.ceil_le_floor_add_one x
  have hn : (n : ℚ) ≤ x ↔ (n : Int) ≤ ⌊x⌋ := by
    rw [Int.le_floor, Int.cast_natCast]
  rw [hn]
  split <;> omega

theorem one_le_toSingle {n : Nat} (hn : n ≠ 0) : 1 ≤ toSingle (n : ℚ) := by
  have hpos : (0 : ℚ) < n := by exact_mod_cast Nat.pos_of_ne_zero hn
  refine le_trans ?_ (toSingle_bounds hpos).1
  rw [Int.log_natCast, zpow_natCast]
  exact one_le_pow₀ one_le_two

section
variable {n k m c p : ℕ} {a e : Int} {x : ℚ}

theorem log10f_toSingle_lt (hn : n ≠ 0) (hlow : 8388608 ≤ a) (hhigh : a < 16777216)
    (hbelow : (n : ℚ) < (a + 1 / 2) * 2 ^ e) (hm : 2 ^ k * m = 33554432) (hp : m = c * p)
    (hx : 0 ≤ x) (hfar : a * 2 ^ e * (1 + x) ≤ 10 ^ 2 ^ k) (hten : 10 < (1 + c * x) ^ p) :
    log10f (toSingle (n : ℚ)) < 2 ^ k := by
  have hsingle := toSingle_le hlow hhigh (Nat.cast_nonneg n) hbelow
  have hfar' : toSingle (n : ℚ) * (1 + x) ≤ 10 ^ 2 ^ k :=
    (mul_le_mul_of_nonneg_right hsingle (by linarith)).trans hfar
  exact log10f_lt (one_le_toSingle hn) hm hp hx hfar' hten

theorem le_log10f_toSingle (hn : n ≠ 0) (hlow : 8388608 ≤ a) (hhigh : a < 16777216)
    (hodd : a % 2 = 1) (habove : (a + 1 / 2) * 2 ^ e ≤ (n : ℚ)) (hm : 2 ^ k * m = 33554432)
    (hp : m = c * p) (hx : x ≤ 1) (hc : 0 ≤ 1 - c * x)
    (hnear : 10 ^ 2 ^ k * (1 - x) ≤ (a + 1) * (2 : ℚ) ^ e) (hten : 1 ≤ 10 * (1 - c * x) ^ p) :
    2 ^ k ≤ log10f (toSingle (n : ℚ)) := by
  have hsingle := le_toSingle hlow hhigh hodd habove
  exact le_log10f (one_le_toSingle hn) hm hp hx hc (hnear.trans hsingle) hten

end

/-- What is below is at most the number `a`, what is not at least its neighbour. -/
theorem refused_iff (BCD : UnsignedType) {n : Nat} (hn : n ≠ 0) :
    (BCD.n_bcd : ℚ) ≤ log10f (toSingle (n : ℚ)) ↔ refusedFrom BCD ≤ n := by
  have hiff {bound digits : ℕ} (haccept : n < bound → log10f (toSingle (n : ℚ)) < digits)
      (hrefuse : bound ≤ n → (digits : ℚ) ≤ log10f (toSingle (n : ℚ))) :
      (digits : ℚ) ≤ log10f (toSingle (n : ℚ)) ↔ bound ≤ n :=
    ⟨fun h => not_lt.mp fun hlt => absurd h (not_le.mpr (haccept hlt)), hrefuse⟩
  cases BCD with
  | uint8 =>
    refine hiff (fun h => ?_) (fun h => ?_)
    · have hn' : (n : ℚ) ≤ 99 := by exact_mod_cast Nat.le_of_lt_succ h
      have hlt := log10f_toSingle_lt (a := 12976128) (e := -17) (k := 1) (m := 16777216)
        (c := 16777216) (p := 1) (x := 1 / 99) hn
      norm_num at hlt
      exact hlt (by linarith)
    · have hn' : (100 : ℚ) ≤ n := by exact_mod_cast h
      have hle := le_log10f_toSingle (a := 13107199) (e := -17) (k := 1) (m := 16777216)
        (c := 16777216) (p := 1) (x := 0) hn
      norm_num at hle
      exact hle (by linarith)
  | uint16 =>
    refine hiff (fun h => ?_) (fun h => ?_)
    · have hn' : (n : ℚ) ≤ 9999 := by exact_mod_cast Nat.le_of_lt_succ h
      have hlt := log10f_toSingle_lt (a := 10238976) (e := -10) (k := 2) (m := 8388608)
        (c := 8388608) (p := 1) (x := 1 / 9999) hn
      norm_num at hlt
      exact hlt (by linarith)
    · have hn' : (10000 : ℚ) ≤ n := by exact_mod_cast h
      have hle := le_log10f_toSingle (a := 10239999) (e := -10) (k := 2) (m := 8388608)
        (c := 8388608) (p := 1) (x := 0) hn
      norm_num at hle
      exact hle (by linarith)
  | uint32 =>
    refine hiff (fun h => ?_) (fun h => ?_)
    · have hlt := log10f_toSingle_lt (a := 12499993) (e := 3) (k := 3) (m := 4194304)
        (c := 16384) (p := 256) (x := 56 / 99999944) hn
      norm_num at hlt
      exact hlt h
    · have hle := le_log10f_toSingle (a := 12499993) (e := 3) (k := 3) (m := 4194304)
        (c := 65536) (p := 64) (x := 48 / 100000000) hn
      norm_num at hle
      exact hle h
  | uint64 =>
    refine hiff (fun h => ?_) (fun h => ?_)
    · have hlt := log10f_toSingle_lt (a := 9313215) (e := 30) (k := 4) (m := 2097152)
        (c := 8192) (p := 256) (x := 11538 / 10000000000) hn
      norm_num at hlt
      exact hlt h
    · have hle := le_log10f_toSingle (a := 9313215) (e := 30) (k := 4) (m := 2097152)
        (c := 32768) (p := 64) (x := 10465 / 10000000000) hn
      norm_num at hle
      exact hle h

/-! ## The encoder -/

theorem refusedFrom_pos (BCD : UnsignedType) : 0 < refusedFrom BCD := by
  cases BCD <;> decide

theorem refusedFrom_le (BCD : UnsignedType) : refusedFrom BCD ≤ 10 ^ BCD.n_bcd := by
  cases BCD <;> decide

theorem log10number_spec (BCD : UnsignedType) (n : Nat) :
    let log10number := if toSingle (n : ℚ) = 0 then 0 else log10f (toSingle (n : ℚ))
    0 ≤ log10number ∧ ((BCD.n_bcd : ℚ) ≤ log10number ↔ refusedFrom BCD ≤ n) := by
  have hpos := refusedFrom_pos BCD
  by_cases hn : n = 0
  · subst hn
    have hdigits : ¬(BCD.n_bcd : ℚ) ≤ 0 := by cases BCD <;> decide
    rw [Nat.cast_zero, toSingle_zero, if_pos rfl]
    exact ⟨le_rfl, fun h => absurd h hdigits, fun h => by omega⟩
  · have hone := one_le_toSingle hn
    have hone' : (1 : ℝ) ≤ (toSingle (n : ℚ) : ℚ) := by exact_mod_cast hone
    rw [if_neg (zero_lt_one.trans_le hone).ne']
    exact ⟨toSingle_nonneg (Real.logb_nonneg (by norm_num) hone'), refused_iff BCD hn⟩

theorem bcd_eq (BCD : UnsignedType) (n : Nat) :
    bcd log10f BCD n = if refusedFrom BCD ≤ n then
      .error (.argument_too_big
        "The number is too big too fit in the available BCD representation")
    else .ok (packed BCD.n_bcd n) := by
  obtain ⟨hpos, hiff⟩ := log10number_spec BCD n
  unfold bcd
  simp only [digits_exceed_iff hpos, hiff, bcdLoop_packed]

/-- What is refused though there are enough nibbles is the only difference. -/
theorem bcdExact_iff (BCD : UnsignedType) (n : Nat) :
    BcdExact BCD n ↔ ¬(refusedFrom BCD ≤ n ∧ n < 10 ^ BCD.n_bcd) := by
  have hle := refusedFrom_le BCD
  rw [BcdExact, bcd_eq]
  by_cases hfits : n < 10 ^ BCD.n_bcd
  · rw [if_pos hfits]
    by_cases hrefuse : refusedFrom BCD ≤ n
    · rw [if_pos hrefuse]
      simp [hrefuse, hfits]
    · rw [if_neg hrefuse]
      exact ⟨fun _ h => hrefuse h.1, fun _ => ⟨_, rfl, fun i hi => nibble_packed hi n⟩⟩
  · rw [if_neg hfits, if_pos (by omega)]
    exact ⟨fun _ h => hfits h.2, fun _ => ⟨_, rfl⟩⟩

/-! ## The decoder -/

theorem even_digit {word k : Nat} (byte : Nat) (h : byte = word >>> (k * 8) % 256) :
    byte % 16 = nibble word (2 * k) ∧ byte / 16 = nibble word (2 * k + 1) := by
  have hpow : (2 : Nat) ^ (k * 8) = 16 ^ (2 * k) := by
    rw [mul_comm, pow_mul, pow_mul]
    norm_num
  rw [nibble, nibble, h, Nat.shiftRight_eq_div_pow, hpow, pow_succ, ← Nat.div_div_eq_div_mul]
  omega

theorem low_mask (byte : Nat) : (byte &&& 0x0f) >>> 0 = byte % 16 :=
  Nat.and_two_pow_sub_one_eq_mod byte 4

theorem high_mask : ∀ byte < 256, (byte &&& 0xf0) >>> 4 = byte / 16 := by
  decide +kernel

theorem decoded_digit_eq (word left : Nat) (mask : Nat) (shift : Bool)
    (hshift : shift = decide (left % 2 = 1)) (hmask : mask = if shift then 0xf0 else 0x0f) :
    (word >>> (left / 2 * 8) % 256 &&& mask) >>> (if shift then 4 else 0) = nibble word left := by
  obtain ⟨hlow, hhigh⟩ := @even_digit word (left / 2) _ rfl
  subst hmask
  rcases Nat.mod_two_eq_zero_or_one left with heven | hodd
  · obtain rfl : shift = false := by simp [hshift, heven]
    have hleft : 2 * (left / 2) = left := by omega
    rw [hleft] at hlow
    rw [if_neg (by decide), if_neg (by decide), low_mask, hlow]
  · obtain rfl : shift = true := by simp [hshift, hodd]
    have hleft : 2 * (left / 2) + 1 = left := by omega
    rw [hleft] at hhigh
    rw [if_pos rfl, if_pos rfl, high_mask _ (Nat.mod_lt _ (by decide)), hhigh]

theorem leading_step {BCD : UnsignedType} {left : Nat} (h : left < BCD.n_bcd) (word : Nat) :
    leading BCD word left = leading BCD word (left + 1) * 10 + nibble word left := by
  obtain ⟨rest, hrest⟩ : ∃ rest, BCD.n_bcd - left = rest + 1 :=
    ⟨BCD.n_bcd - left - 1, by omega⟩
  have hnext : BCD.n_bcd - (left + 1) = rest := by omega
  rw [leading, leading, hrest, hnext, decimal, nibble, pow_succ, Nat.div_div_eq_div_mul]
  ring

theorem leading_le {BCD : UnsignedType} {left : Nat} (h : left ≤ BCD.n_bcd) (word : Nat) :
    leading BCD word left ≤ value BCD word := by
  induction left with
  | zero => exact le_rfl
  | succ left ih =>
    have hstep := leading_step (show left < BCD.n_bcd by omega) word
    have hle := ih (by omega)
    omega

theorem leading_top (BCD : UnsignedType) (word : Nat) : leading BCD word BCD.n_bcd = 0 := by
  simp [leading, decimal]

/-- Neither of the exceptions at the digit. -/
def Passes (BCD Number : UnsignedType) (word left : Nat) : Prop :=
  nibble word left ≤ 9 ∧
    leading BCD word (left + 1) % 2 ^ Number.bits ≤ leading BCD word left % 2 ^ Number.bits

theorem unbcdLoop_spec {BCD Number : UnsignedType} {word left mask old_n : Nat} {shift : Bool}
    (hleft : left ≤ BCD.n_bcd) (hshift : shift = decide (left % 2 = 0))
    (hmask : mask = if shift then 0xf0 else 0x0f)
    (hold : old_n = leading BCD word left % 2 ^ Number.bits) :
    ((∀ i < left, Passes BCD Number word i) →
      unbcdLoop Number word left mask shift old_n =
        .ok (value BCD word % 2 ^ Number.bits)) ∧
    (¬(∀ i < left, Passes BCD Number word i) →
      ∃ e, unbcdLoop Number word left mask shift old_n = .error e) := by
  induction left generalizing mask shift old_n with
  | zero =>
    refine ⟨fun _ => ?_, fun h => absurd (fun i hi => absurd hi (Nat.not_lt_zero i)) h⟩
    rw [unbcdLoop, hold, value]
  | succ left ih =>
    have hshift' : shift = decide (left % 2 = 1) := by
      rw [hshift, decide_eq_decide]
      omega
    have hnew : (old_n * 10 + nibble word left) % 2 ^ Number.bits =
        leading BCD word left % 2 ^ Number.bits := by
      rw [leading_step (show left < BCD.n_bcd by omega), hold, Nat.add_mod, Nat.mul_mod,
        Nat.mod_mod, ← Nat.mul_mod, ← Nat.add_mod]
    have hshift_next : (!shift) = decide (left % 2 = 0) := by
      rcases Nat.mod_two_eq_zero_or_one left with heven | hodd
      · simp [hshift', heven]
      · simp [hshift', hodd]
    have hmask_next : mask ^^^ 0xff = if !shift then 0xf0 else 0x0f := by
      cases shift <;> simp [hmask]
    have hnext := ih (by omega) hshift_next hmask_next rfl
    rw [unbcdLoop]
    simp only [decoded_digit_eq word left mask shift hshift' hmask, hnew]
    by_cases hpass : Passes BCD Number word left
    · rw [if_neg (not_lt.mpr hpass.1), if_neg (by rw [hold]; exact not_lt.mpr hpass.2)]
      refine ⟨fun h => hnext.1 fun i hi => h i (by omega), fun h => hnext.2 fun hall => h ?_⟩
      intro i hi
      rcases Nat.lt_succ_iff_lt_or_eq.mp hi with hlt | rfl
      · exact hall i hlt
      · exact hpass
    · refine ⟨fun h => absurd (h left (by omega)) hpass, fun _ => ?_⟩
      by_cases hdigit : nibble word left > 9
      · exact ⟨_, if_pos hdigit⟩
      · rw [if_neg hdigit, if_pos]
        · exact ⟨_, rfl⟩
        · rw [hold]
          exact not_le.mp fun hle => hpass ⟨not_lt.mp hdigit, hle⟩

theorem unbcd_spec (BCD Number : UnsignedType) (word : Nat) :
    ((∀ i < BCD.n_bcd, Passes BCD Number word i) →
      unbcd BCD Number word = .ok (value BCD word % 2 ^ Number.bits)) ∧
    (¬(∀ i < BCD.n_bcd, Passes BCD Number word i) → ∃ e, unbcd BCD Number word = .error e) :=
  unbcdLoop_spec le_rfl (by cases BCD <;> rfl) rfl (by rw [leading_top, Nat.zero_mod])

/-- Of a number that fits no digits in front can get smaller. -/
theorem passes_of_fits {BCD Number : UnsignedType} {word : Nat} (hdigits : AllDigits BCD word)
    (hfits : value BCD word < 2 ^ Number.bits) : ∀ i < BCD.n_bcd, Passes BCD Number word i := by
  intro i hi
  refine ⟨hdigits i hi, ?_⟩
  have hstep := leading_step hi word
  have hlow := leading_le (show i ≤ BCD.n_bcd by omega) word
  have hhigh := leading_le (show i + 1 ≤ BCD.n_bcd by omega) word
  rw [Nat.mod_eq_of_lt (hhigh.trans_lt hfits), Nat.mod_eq_of_lt (hlow.trans_lt hfits)]
  omega

theorem unbcd_of_fits {BCD Number : UnsignedType} {word : Nat} (hdigits : AllDigits BCD word)
    (hfits : value BCD word < 2 ^ Number.bits) :
    unbcd BCD Number word = .ok (value BCD word) := by
  rw [(unbcd_spec BCD Number word).1 (passes_of_fits hdigits hfits), Nat.mod_eq_of_lt hfits]

theorem unbcdExact_iff (BCD Number : UnsignedType) (word : Nat) :
    UnbcdExact BCD Number word ↔
      (AllDigits BCD word → 2 ^ Number.bits ≤ value BCD word → WrapShows BCD Number word) := by
  rw [UnbcdExact]
  by_cases hfits : AllDigits BCD word ∧ value BCD word < 2 ^ Number.bits
  · rw [if_pos hfits]
    exact ⟨fun _ _ hbig => absurd hfits.2 (not_lt.mpr hbig),
      fun _ => unbcd_of_fits hfits.1 hfits.2⟩
  rw [if_neg hfits]
  obtain ⟨hok, herror⟩ := unbcd_spec BCD Number word
  constructor
  · rintro ⟨e, he⟩ hdigits hbig
    by_contra hhidden
    have hpass : ∀ i < BCD.n_bcd, Passes BCD Number word i := fun i hi =>
      ⟨hdigits i hi, not_lt.mp fun hless => hhidden ⟨i, hi, hless⟩⟩
    rw [hok hpass] at he
    cases he
  · intro hshows
    refine herror fun hpass => ?_
    have hdigits : AllDigits BCD word := fun i hi => (hpass i hi).1
    obtain ⟨i, hi, hless⟩ := hshows hdigits (not_lt.mp fun hlt => hfits ⟨hdigits, hlt⟩)
    exact absurd (hpass i hi).2 (not_le.mpr hless)

/-! ## There and back -/

theorem value_packed {BCD : UnsignedType} {n : Nat} (h : n < 10 ^ BCD.n_bcd) :
    value BCD (packed BCD.n_bcd n) = n := by
  rw [value, leading, pow_zero, Nat.div_one, Nat.sub_zero, decimal_packed, Nat.mod_eq_of_lt h]

theorem unbcd_bcd {BCD Number : UnsignedType} {n word : Nat} (hn : n < 2 ^ Number.bits)
    (h : bcd log10f BCD n = .ok word) : unbcd BCD Number word = .ok n := by
  rw [bcd_eq] at h
  split at h
  · cases h
  rename_i hless
  cases h
  have hsmall : n < 10 ^ BCD.n_bcd := by
    have hle := refusedFrom_le BCD
    omega
  have hdigits : AllDigits BCD (packed BCD.n_bcd n) := by
    intro i hi
    rw [nibble_packed hi]
    omega
  have hvalue := value_packed hsmall
  rw [unbcd_of_fits hdigits (by rwa [hvalue]), hvalue]

/-! ## Both -/

end Jive5ab.Bcd
