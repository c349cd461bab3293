import Mathlib.Tactic

/-! Words as little-endian byte lists, and the test that finds a zero byte in a
word without looking at the bytes one by one. -/

namespace Qemu.ZeroByte

open List BitVec

def littleEndian : List UInt8 → Nat
  | [] => 0
  | byte :: rest => byte.toNat + 256 * littleEndian rest

theorem littleEndian_lt (bytes : List UInt8) : littleEndian bytes < 256 ^ bytes.length := by
  induction bytes with
  | nil => simp [littleEndian]
  | cons byte rest ih =>
    have small := byte.toNat_lt
    rw [littleEndian, length_cons]
    omega

theorem littleEndian_inj (length : left.length = right.length)
    (same : littleEndian left = littleEndian right) : left = right := by
  induction left generalizing right with
  | nil => exact (length_eq_zero_iff.mp length.symm).symm
  | cons byte rest ih => ?_
  cases right with
  | nil => simp at length
  | cons other others => ?_
  have small := byte.toNat_lt
  have bound := other.toNat_lt
  simp only [littleEndian] at same
  have head : byte = other := UInt8.toNat_inj.mp (by omega)
  rw [head, ih (by simpa using length) (by omega)]

section

variable (small : low < 256)
include small

theorem digits_testBit (high k : Nat) :
    (low + 256 * high).testBit k = if k < 8 then low.testBit k else high.testBit (k - 8) := by
  rw [Nat.add_comm]
  exact Nat.testBit_two_pow_mul_add high (i := 8) small k

/-- Bitwise operations act on the low byte and on the rest separately. -/
theorem digits_and (narrow : mask < 256) (high above : Nat) :
    (low + 256 * high) &&& (mask + 256 * above) = (low &&& mask) + 256 * (high &&& above) := by
  apply Nat.eq_of_testBit_eq
  intro k
  rw [Nat.testBit_and, digits_testBit small, digits_testBit narrow,
    digits_testBit (Nat.and_lt_two_pow (n := 8) _ narrow)]
  split <;> simp [Nat.testBit_and]

theorem digits_xor (narrow : mask < 256) (high above : Nat) :
    (low + 256 * high) ^^^ (mask + 256 * above) = (low ^^^ mask) + 256 * (high ^^^ above) := by
  apply Nat.eq_of_testBit_eq
  intro k
  rw [Nat.testBit_xor, digits_testBit small, digits_testBit narrow,
    digits_testBit (Nat.xor_lt_two_pow (n := 8) small narrow)]
  split <;> simp [Nat.testBit_xor]

theorem digits_mod (high cap : Nat) :
    (low + 256 * high) % (256 * cap) = low + 256 * (high % cap) := by
  rw [Nat.mod_mul, Nat.add_mul_mod_self_left, Nat.mod_eq_of_lt small,
    Nat.add_mul_div_left _ _ (by decide), Nat.div_eq_of_lt small, Nat.zero_add]

end

/-- The bits of a word, counted from the low bit of the first byte. -/
theorem littleEndian_testBit (bytes : List UInt8) (k : Nat) :
    (littleEndian bytes).testBit k = (bytes.getD (k / 8) 0).toNat.testBit (k % 8) := by
  induction bytes generalizing k with
  | nil => simp [littleEndian]
  | cons byte rest ih =>
    rw [littleEndian, digits_testBit byte.toNat_lt, ih]
    split
    · next low => simp [Nat.div_eq_of_lt low, Nat.mod_eq_of_lt low]
    · next high => rw [show k / 8 = (k - 8) / 8 + 1 by omega, getD_cons_succ,
        show (k - 8) % 8 = k % 8 by omega]

/-- The low bytes of a number, lowest first. -/
def wordBytes : Nat → Nat → List UInt8
  | 0, _ => []
  | size + 1, value => UInt8.ofNat value :: wordBytes size (value / 256)

@[simp] theorem wordBytes_length (size value : Nat) : (wordBytes size value).length = size := by
  induction size generalizing value with
  | zero => rfl
  | succ size ih => simp [wordBytes, ih]

theorem littleEndian_wordBytes (size value : Nat) :
    littleEndian (wordBytes size value) = value % 256 ^ size := by
  induction size generalizing value with
  | zero => simp [wordBytes, littleEndian, Nat.mod_one]
  | succ size ih => simp [wordBytes, littleEndian, ih, pow_succ', Nat.mod_mul]

theorem wordBytes_littleEndian (bytes : List UInt8) :
    wordBytes bytes.length (littleEndian bytes) = bytes := by
  apply littleEndian_inj (wordBytes_length _ _)
  rw [littleEndian_wordBytes, Nat.mod_eq_of_lt (littleEndian_lt bytes)]

/-- The exclusive or of two words has a zero byte where the words agree. -/
theorem littleEndian_xor (length : left.length = right.length) :
    littleEndian left ^^^ littleEndian right = littleEndian (zipWith (· ^^^ ·) left right) := by
  induction left generalizing right with
  | nil => simp [littleEndian, length_eq_zero_iff.mp length.symm]
  | cons byte rest ih => ?_
  cases right with
  | nil => simp at length
  | cons other others =>
    simp only [zipWith_cons_cons, littleEndian, UInt8.toNat_xor]
    rw [digits_xor byte.toNat_lt other.toNat_lt, ih (by simpa using length)]

/-- A one in every byte. -/
def ones : Nat → Nat
  | 0 => 0
  | count + 1 => 1 + 256 * ones count

/-- Borrows of a subtraction of ones, where the word had its sign bits clear. -/
def borrows (count word : Nat) : Nat :=
  (256 ^ count - ones count + word) % 256 ^ count &&& (256 ^ count - 1 - word) &&& 128 * ones count

theorem ones_le (count : Nat) : ones count ≤ 256 ^ count - 1 := by
  induction count with
  | zero => simp [ones]
  | succ count ih =>
    have := Nat.pow_pos (n := count) (show 0 < 256 by decide)
    rw [ones]
    omega

theorem low_borrow (byte : Nat) (positive : 0 < byte) (small : byte < 256) :
    (byte - 1) &&& (255 - byte) &&& 128 = 0 := by
  have all : ∀ b : Fin 256, 0 < b.val → (b.val - 1) &&& (255 - b.val) &&& 128 = 0 := by
    decide +kernel
  exact all ⟨byte, small⟩ positive

/-- Some borrow survives exactly when some byte is zero. -/
theorem borrows_eq_zero_iff (bytes : List UInt8) : borrows bytes.length (littleEndian bytes) = 0 ↔
    0 ∉ bytes := by
  induction bytes with
  | nil => simp [borrows]
  | cons byte rest ih => ?_
  have small := byte.toNat_lt
  have bound := littleEndian_lt rest
  have cap := ones_le rest.length
  have complement : 256 ^ (rest.length + 1) - 1 - (byte.toNat + 256 * littleEndian rest) =
      255 - byte.toNat + 256 * (256 ^ rest.length - 1 - littleEndian rest) := by
    omega
  have mask : 128 * ones (rest.length + 1) = 128 + 256 * (128 * ones rest.length) := by
    rw [ones]; ring
  simp only [borrows, length_cons, littleEndian, complement, mask] at ih ⊢
  rcases Nat.eq_zero_or_pos byte.toNat with zero | positive
  · -- The lowest zero byte borrows, whatever stands above it.
    have isZero : byte = 0 := UInt8.toNat_inj.mp (by simpa using zero)
    have difference : 256 ^ (rest.length + 1) - ones (rest.length + 1) +
        (byte.toNat + 256 * littleEndian rest) =
        255 + 256 * (256 ^ rest.length - ones rest.length + littleEndian rest - 1) := by
      omega
    rw [difference, zero, pow_succ', digits_mod (by decide), digits_and (by decide) (by decide),
      digits_and (by decide) (by decide)]
    simp [isZero]
  · have nonzero : byte ≠ 0 := by rintro rfl; simp at positive
    have difference : 256 ^ (rest.length + 1) - ones (rest.length + 1) +
        (byte.toNat + 256 * littleEndian rest) =
        byte.toNat - 1 + 256 * (256 ^ rest.length - ones rest.length + littleEndian rest) := by
      omega
    rw [difference, pow_succ', digits_mod (by omega), digits_and (by omega) (by omega),
      digits_and (Nat.lt_of_le_of_lt Nat.and_le_left (by omega)) (by decide), low_borrow _ positive small]
    simp [nonzero.symm, ih]

/-- The 64-bit word of eight bytes. -/
def word (bytes : List UInt8) : BitVec 64 := BitVec.ofNat 64 (littleEndian bytes)

theorem word_toNat (length : bytes.length = 8) : (word bytes).toNat = littleEndian bytes := by
  have bound := littleEndian_lt bytes
  rw [length] at bound
  exact Nat.mod_eq_of_lt bound

theorem word_eq_iff (eight : left.length = 8) (also : right.length = 8) :
    word left = word right ↔ left = right := by
  constructor
  · intro same
    apply littleEndian_inj (eight.trans also.symm)
    rw [← word_toNat eight, ← word_toNat also, same]
  · exact congrArg word

/-- The test on a whole word. -/
theorem word_test_iff (length : bytes.length = 8) :
    (word bytes - (0x0101010101010101 : BitVec 64)) &&& ~~~(word bytes) &&&
        ((0x0101010101010101 : BitVec 64) <<< 7) = 0 ↔ 0 ∉ bytes := by
  rw [← borrows_eq_zero_iff, length, ← word_toNat length, ← toNat_inj, toNat_and, toNat_and, toNat_not]
  rfl

theorem word_xor (eight : left.length = 8) (also : right.length = 8) :
    word left ^^^ word right = word (zipWith (· ^^^ ·) left right) := by
  apply eq_of_toNat_eq
  rw [toNat_xor, word_toNat eight, word_toNat also, littleEndian_xor (eight.trans also.symm),
    word_toNat (by simp [eight, also])]

end Qemu.ZeroByte
