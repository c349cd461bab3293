import Qemu.Lib.ZeroByte

/-! The counters of a refcount block, from one bit to 64 bits wide. -/

namespace Qemu.Qcow2

open List ZeroByte

section Accessors

variable (bigHost : Bool) (block : List UInt8) (index value : Nat)

def getPacked (perByte width mask : Nat) : Nat :=
  (block.getD (index / perByte) 0).toNat >>> (width * (index % perByte)) &&& mask

/-- A value that is too wide fails the assertion. -/
def setPacked (perByte width : Nat) (mask : BitVec 8) : Option (List UInt8) :=
  if value >>> width = 0 then
    let shift := width * (index % perByte)
    let cleared := (block.getD (index / perByte) 0).toBitVec &&& ~~~(mask <<< shift)
    some (block.set (index / perByte) ⟨cleared ||| BitVec.ofNat 8 (value <<< shift)⟩)
  else none

def bswap (size : Nat) : Nat := littleEndian (wordBytes size value).reverse

/-- `be16_to_cpu` and its wider forms, and back. -/
def beToCpu (size : Nat) : Nat := if bigHost then value else bswap value size

def loadWord (size : Nat) : Nat :=
  let bytes := (block.drop (index * size)).take size
  littleEndian (if bigHost then bytes.reverse else bytes)

def storeWord (size : Nat) : List UInt8 :=
  let bytes := wordBytes size value
  block.take (index * size) ++ (if bigHost then bytes.reverse else bytes) ++
    block.drop (index * size + size)

def getWide (size : Nat) : Nat := beToCpu bigHost (loadWord bigHost block index size) size

def setWide (size : Nat) : List UInt8 := storeWord bigHost block index (beToCpu bigHost value size) size

def getRefcountRo0 : Nat := getPacked block index 8 1 0x1

def setRefcountRo0 : Option (List UInt8) := setPacked block index value 8 1 0x1

def getRefcountRo1 : Nat := getPacked block index 4 2 0x3

def setRefcountRo1 : Option (List UInt8) := setPacked block index value 4 2 0x3

def getRefcountRo2 : Nat := getPacked block index 2 4 0xf

def setRefcountRo2 : Option (List UInt8) := setPacked block index value 2 4 0xf

def getRefcountRo3 : Nat := (block.getD index 0).toNat

def setRefcountRo3 : Option (List UInt8) :=
  if value >>> 8 = 0 then some (block.set index (UInt8.ofNat value)) else none

def getRefcountRo4 : Nat := getWide bigHost block index 2

def setRefcountRo4 : Option (List UInt8) :=
  if value >>> 16 = 0 then some (setWide bigHost block index value 2) else none

def getRefcountRo5 : Nat := getWide bigHost block index 4

def setRefcountRo5 : Option (List UInt8) :=
  if value >>> 32 = 0 then some (setWide bigHost block index value 4) else none

def getRefcountRo6 : Nat := getWide bigHost block index 8

/-- Every 64-bit value fits: nothing is asserted. -/
def setRefcountRo6 : Option (List UInt8) := some (setWide bigHost block index value 8)

def getRefcount : Fin 7 → Nat
  | 0 => getRefcountRo0 block index
  | 1 => getRefcountRo1 block index
  | 2 => getRefcountRo2 block index
  | 3 => getRefcountRo3 block index
  | 4 => getRefcountRo4 bigHost block index
  | 5 => getRefcountRo5 bigHost block index
  | 6 => getRefcountRo6 bigHost block index

def setRefcount : Fin 7 → Option (List UInt8)
  | 0 => setRefcountRo0 block index value
  | 1 => setRefcountRo1 block index value
  | 2 => setRefcountRo2 block index value
  | 3 => setRefcountRo3 block index value
  | 4 => setRefcountRo4 bigHost block index value
  | 5 => setRefcountRo5 bigHost block index value
  | 6 => setRefcountRo6 bigHost block index value

end Accessors

/-- The format: packed counters take the bits of the block from the low end of
its first byte up, wider ones are big-endian words. -/
def refcountField (order : Nat) (block : List UInt8) (index : Nat) : Nat :=
  if order < 3 then littleEndian block >>> (index * 2 ^ order) % 2 ^ 2 ^ order
  else littleEndian ((block.drop (index * 2 ^ (order - 3))).take (2 ^ (order - 3))).reverse

/-- The field of the counter lies inside the block. -/
def InBlock (order : Nat) (block : List UInt8) (index : Nat) : Prop :=
  index * 2 ^ order + 2 ^ order ≤ 8 * block.length

instance : Decidable (InBlock order block index) := Nat.decLe _ _

section Packed

variable {block : List UInt8} {index value perByte width c d : Nat}

/-- Writing one counter of a byte: the counters beside it keep their bits. -/
theorem replaced_slot (byte mask : BitVec 8) (ones : mask.toNat = 2 ^ width - 1)
    (fits : value < 2 ^ width) (inside : width * d + width ≤ 8) :
    (byte &&& ~~~(mask <<< (width * c)) ||| BitVec.ofNat 8 (value <<< (width * c))).toNat >>>
    (width * d) &&&
        2 ^ width - 1 = if d = c then value else byte.toNat >>> (width * d) &&& 2 ^ width - 1 := by
  have masked (b : Nat) : mask.getLsbD b = decide (b < width) := by
    rw [← BitVec.testBit_toNat, ones, Nat.testBit_two_pow_sub_one]
  have clear {b : Nat} (above : width ≤ b) : value.testBit b = false :=
    Nat.testBit_lt_two_pow (fits.trans_le (Nat.pow_le_pow_right (by decide) above))
  apply Nat.eq_of_testBit_eq
  intro b
  rw [apply_ite (Nat.testBit · b)]
  simp only [Nat.testBit_and, Nat.testBit_shiftRight, Nat.testBit_two_pow_sub_one, BitVec.testBit_toNat,
    BitVec.getLsbD_or, BitVec.getLsbD_and, BitVec.getLsbD_not, BitVec.getLsbD_shiftLeft, masked,
    BitVec.getLsbD_ofNat, Nat.testBit_shiftLeft]
  by_cases low : b < width
  · have below : width * d + b < 8 := by omega
    rcases Nat.lt_trichotomy d c with before | rfl | after
    · have room := Nat.mul_le_mul_left width before
      rw [Nat.mul_succ] at room
      have outside : width * d + b < width * c := by omega
      simp [below, low, outside, Nat.not_le.mpr outside, before.ne]
    · simp [below, low]
    · have room := Nat.mul_le_mul_left width after
      rw [Nat.mul_succ] at room
      have outside : width ≤ width * d + b - width * c := by omega
      simp [below, low, clear outside, Nat.not_lt.mpr outside, after.ne']
  · simp [low, clear (Nat.not_lt.mp low)]

variable (kind : (perByte, width) ∈ [(8, 1), (4, 2), (2, 4)])
include kind

theorem getPacked_eq :
    getPacked block index perByte width (2 ^ width - 1) = littleEndian block >>>
    (index * width) % 2 ^ width := by
  simp only [mem_cons, Prod.mk.injEq, not_mem_nil, or_false] at kind
  apply Nat.eq_of_testBit_eq
  intro b
  rw [getPacked, Nat.testBit_and, Nat.testBit_shiftRight, Nat.testBit_two_pow_sub_one,
    Nat.testBit_mod_two_pow, Nat.testBit_shiftRight, littleEndian_testBit, Bool.and_comm]
  by_cases inside : b < width
  · have place : (index * width + b) / 8 = index / perByte ∧
        (index * width + b) % 8 = width * (index % perByte) + b := by
      rcases kind with ⟨rfl, rfl⟩ | ⟨rfl, rfl⟩ | ⟨rfl, rfl⟩ <;> omega
    rw [place.1, place.2]
  · simp [inside]

theorem setPacked_access (mask : BitVec 8) (ones : mask.toNat = 2 ^ width - 1)
    (inside : index * width + width ≤ 8 * block.length) (fits : value < 2 ^ width) :
    ∃ after, setPacked block index value perByte width mask = some after ∧ after.length = block.length ∧
      ∀ other, InBlock order block other → getPacked after other perByte width (2 ^ width - 1) =
        if other = index then value else getPacked block other perByte width (2 ^ width - 1) := by
  simp only [mem_cons, Prod.mk.injEq, not_mem_nil, or_false] at kind
  rw [setPacked, if_pos (Nat.shiftRight_eq_zero _ _ fits)]
  refine ⟨_, rfl, length_set, fun other _ => ?_⟩
  rw [getPacked, getPacked, getD_eq_getElem?_getD]
  by_cases here : other / perByte = index / perByte
  · have slots : index / perByte < block.length ∧ width * (other % perByte) + width ≤ 8 ∧
        (other = index ↔ other % perByte = index % perByte) := by
      rcases kind with ⟨rfl, rfl⟩ | ⟨rfl, rfl⟩ | ⟨rfl, rfl⟩ <;> omega
    simp only [here, getElem?_set_self slots.1, slots.2.2]
    exact replaced_slot _ mask ones fits slots.2.1
  · have apart : other ≠ index := fun same => here (congrArg (· / perByte) same)
    rw [getElem?_set_ne (Ne.symm here), if_neg apart]
    rfl

end Packed

section Wide

variable {block : List UInt8} {index value size : Nat}

theorem getWide_eq (bigHost : Bool) (inside : index * size + size ≤ block.length) :
    getWide bigHost block index size = littleEndian ((block.drop (index * size)).take size).reverse := by
  cases bigHost with
  | true => rfl
  | false =>
    have bytes := wordBytes_littleEndian ((block.drop (index * size)).take size)
    rw [length_take, length_drop, Nat.min_eq_left (by omega)] at bytes
    exact congrArg (fun bytes => littleEndian bytes.reverse) bytes

theorem setWide_eq (bigHost : Bool) :
    setWide bigHost block index value size =
      block.take (index * size) ++ (wordBytes size value).reverse ++
      block.drop (index * size + size) := by
  cases bigHost with
  | true => rfl
  | false =>
    have bytes := wordBytes_littleEndian (wordBytes size value).reverse
    rw [length_reverse, wordBytes_length] at bytes
    exact congrArg (fun bytes => block.take (index * size) ++ bytes ++
      block.drop (index * size + size)) bytes

theorem InBlock.bytes (k : Nat) (inside : InBlock (k + 3) block index) :
    index * 2 ^ k + 2 ^ k ≤ block.length := by
  rw [InBlock, Nat.pow_add, ← Nat.mul_assoc] at inside
  omega

theorem setWide_access (k : Nat) (bigHost : Bool) (inside : InBlock (k + 3) block index)
    (fits : value < 256 ^ 2 ^ k) :
    (setWide bigHost block index value (2 ^ k)).length = block.length ∧
      ∀ other, InBlock (k + 3) block other →
      getWide bigHost (setWide bigHost block index value (2 ^ k)) other (2 ^ k) =
        if other = index then value else getWide bigHost block other (2 ^ k) := by
  have bytes (other : Nat) : InBlock (k + 3) block other → other * 2 ^ k + 2 ^ k ≤ block.length :=
    InBlock.bytes k
  replace inside := bytes index inside
  generalize 2 ^ k = size at *
  have before : (block.take (index * size)).length = index * size := by
    rw [length_take]
    omega
  have length : (block.take (index * size) ++ (wordBytes size value).reverse).length =
    index * size + size := by
    simp [before]
  rw [setWide_eq]
  have whole : (block.take (index * size) ++ (wordBytes size value).reverse ++
      block.drop (index * size + size)).length = block.length := by
    rw [length_append, length, length_drop]
    omega
  refine ⟨whole, fun other within => ?_⟩
  replace within := bytes other within
  rw [getWide_eq bigHost (by omega), getWide_eq bigHost within]
  rcases Nat.lt_trichotomy other index with low | rfl | high
  · have room := Nat.mul_le_mul_right size low
    rw [Nat.succ_mul] at room
    rw [if_neg low.ne, append_assoc, take_drop, take_append_of_le_length (by omega), take_take,
      Nat.min_eq_left room, ← take_drop]
  · rw [if_pos rfl, append_assoc, drop_left' before, take_left' (by simp), reverse_reverse,
      littleEndian_wordBytes, Nat.mod_eq_of_lt fits]
  · have room := Nat.mul_le_mul_right size high
    rw [Nat.succ_mul] at room
    rw [if_neg high.ne', drop_append, drop_eq_nil_of_le (by omega), nil_append, length, drop_drop,
      Nat.add_sub_cancel' room]

end Wide

variable {block : List UInt8} {index value : Nat}

theorem getRefcount_field (bigHost : Bool) (order : Fin 7) (inside : InBlock order block index) :
    getRefcount bigHost block index order = refcountField order block index := by
  match order with
  | 0 => exact getPacked_eq (by decide)
  | 1 => exact getPacked_eq (by decide)
  | 2 => exact getPacked_eq (by decide)
  | 3 =>
    have stored : index < block.length := by simpa using inside.bytes 0
    change (block.getD index 0).toNat = littleEndian ((block.drop (index * 1)).take 1).reverse
    rw [Nat.mul_one, drop_eq_getElem_cons stored, take_succ_cons]
    simp [littleEndian, stored]
  | 4 => exact getWide_eq bigHost (inside.bytes 1)
  | 5 => exact getWide_eq bigHost (inside.bytes 2)
  | 6 => exact getWide_eq bigHost (inside.bytes 3)

theorem refcount_access (bigHost : Bool) (order : Fin 7) (block : List UInt8) (index value : Nat)
    (inside : InBlock order block index) (fits : value ≤ 2 ^ 2 ^ order.val - 1) :
    getRefcount bigHost block index order = refcountField order block index ∧
      ∃ after, setRefcount bigHost block index value order = some after ∧ after.length =
        block.length ∧ ∀ other, InBlock order block other → getRefcount bigHost after other order =
          if other = index then value else getRefcount bigHost block other order := by
  have room := Nat.two_pow_pos (2 ^ order.val)
  have small : value < 2 ^ 2 ^ order.val := by omega
  have asserted := Nat.shiftRight_eq_zero _ _ small
  refine ⟨getRefcount_field bigHost order inside, ?_⟩
  match order with
  | 0 => exact setPacked_access (by decide) 0x1 rfl inside small
  | 1 => exact setPacked_access (by decide) 0x3 rfl inside small
  | 2 => exact setPacked_access (by decide) 0xf rfl inside small
  | 3 =>
    have stored : index < block.length := by simpa using inside.bytes 0
    refine ⟨_, if_pos asserted, length_set, fun other _ => ?_⟩
    rw [getRefcount, getRefcountRo3, getD_eq_getElem?_getD, getElem?_set]
    by_cases here : other = index
    · simpa [here, stored] using small
    · simp [here, Ne.symm here, getRefcount, getRefcountRo3]
  | 4 => exact ⟨_, if_pos asserted, setWide_access 1 bigHost inside small⟩
  | 5 => exact ⟨_, if_pos asserted, setWide_access 2 bigHost inside small⟩
  | 6 => exact ⟨_, rfl, setWide_access 3 bigHost inside small⟩

theorem refcount_access_nibble : ∃ after, setRefcount false [0x21, 0x43] 1 7 2 = some after ∧
    getRefcount false after 1 2 = 7 ∧ getRefcount false after 0 2 = 1 := by
  obtain ⟨-, after, done, -, stored⟩ := refcount_access false 2 [0x21, 0x43] 1 7 (by decide) (by decide)
  exact ⟨after, done, stored 1 (by decide), stored 0 (by decide)⟩

end Qemu.Qcow2
