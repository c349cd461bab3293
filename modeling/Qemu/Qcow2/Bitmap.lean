import Qemu.Qcow2.Discard

namespace Qemu.Qcow2

open BitVec

theorem getLsbD_oflagSubAlloc (small : x < 64) (i : Nat) :
    (oflagSubAlloc x).getLsbD i = decide (i = x) := by
  rw [oflagSubAlloc]
  by_cases same : i = x
  · simp [same, small]
  · by_cases below : i < x
    · simp [same, below]
    · have positive : i - x ≠ 0 := by omega
      simp [same, positive]

theorem getLsbD_oflagSubZero (small : x < 32) (i : Nat) :
    (oflagSubZero x).getLsbD i = decide (i = 32 + x) := by
  rw [oflagSubZero, getLsbD_shiftLeft, getLsbD_oflagSubAlloc (by omega)]
  by_cases same : i = 32 + x
  · simp [same]
    omega
  · by_cases below : i < 32
    · simp [same, below]
    · have other : i - 32 ≠ x := by omega
      simp [same, other]

theorem toNat_oflagSubAlloc (small : x < 64) : (oflagSubAlloc x).toNat = 2 ^ x := by
  have bound : 2 ^ x < 2 ^ 64 := Nat.pow_lt_pow_right Nat.one_lt_two small
  rw [oflagSubAlloc, toNat_shiftLeft, Nat.shiftLeft_eq, show (1#64).toNat = 1 from rfl, Nat.one_mul,
    Nat.mod_eq_of_lt bound]

theorem getLsbD_oflagSubAllocRange (ordered : x ≤ y) (small : y < 64) (i : Nat) :
    (oflagSubAllocRange x y).getLsbD i = decide (x ≤ i ∧ i < y) := by
  have le : 2 ^ x ≤ 2 ^ y := Nat.pow_le_pow_right (by decide) ordered
  have bound : 2 ^ y < 2 ^ 64 := Nat.pow_lt_pow_right (by decide) small
  have value : (oflagSubAllocRange x y).toNat = (2 ^ (y - x) - 1) <<< x := by
    rw [oflagSubAllocRange, toNat_sub, toNat_oflagSubAlloc small, toNat_oflagSubAlloc (by omega),
      Nat.shiftLeft_eq, Nat.sub_mul, ← Nat.pow_add, Nat.sub_add_cancel ordered]
    generalize 2 ^ x = p at le ⊢
    generalize 2 ^ y = q at le bound ⊢
    omega
  rw [← testBit_toNat, value, Nat.testBit_shiftLeft, Nat.testBit_two_pow_sub_one]
  by_cases above : x ≤ i
  · simp only [above, decide_true, Bool.true_and, true_and]
    congr 1
    apply propext
    omega
  · simp [above]

theorem getLsbD_oflagSubZeroRange (ordered : x ≤ y) (small : y ≤ 32) (i : Nat) :
    (oflagSubZeroRange x y).getLsbD i = decide (32 + x ≤ i ∧ i < 32 + y) := by
  rw [oflagSubZeroRange, getLsbD_shiftLeft, getLsbD_oflagSubAllocRange ordered (by omega)]
  by_cases low : i < 32
  · have outside : ¬ (32 + x ≤ i ∧ i < 32 + y) := by omega
    simp [low, outside]
  by_cases small' : i < 64
  · simp only [small', low, decide_true, decide_false, Bool.not_false, Bool.true_and]
    congr 1
    apply propext
    omega
  · have outside : ¬ (32 + x ≤ i ∧ i < 32 + y) := by omega
    simp [small', outside]

theorem getLsbD_bitmapAllAlloc (i : Nat) : bitmapAllAlloc.getLsbD i = decide (i < 32) := by
  by_cases small : i < 64
  · have table : ∀ k : Fin 64, bitmapAllAlloc.getLsbD k = decide (k.val < 32) := by decide
    exact table ⟨i, small⟩
  · rw [getLsbD_of_ge _ _ (by omega)]
    simp
    omega

theorem getLsbD_bitmapAllZeroes (i : Nat) : bitmapAllZeroes.getLsbD i = decide (32 ≤ i ∧ i < 64) := by
  by_cases small : i < 64
  · have table : ∀ k : Fin 64, bitmapAllZeroes.getLsbD k = decide (32 ≤ k.val ∧ k.val < 64) := by decide
    exact table ⟨i, small⟩
  · rw [getLsbD_of_ge _ _ (by omega)]
    simp [small]

theorem and_oflagSubAlloc_ne_zero (small : x < 64) (word : BitVec 64) :
    word &&& oflagSubAlloc x ≠ 0 ↔ word.getLsbD x = true := by
  constructor
  · intro set
    by_contra clear
    rw [Bool.not_eq_true] at clear
    apply set
    apply eq_of_getLsbD_eq
    intro i _
    rw [getLsbD_and, getLsbD_oflagSubAlloc small]
    by_cases same : i = x
    · simp [same, clear]
    · simp [same]
  · intro set zero
    have bit := congrArg (getLsbD · x) zero
    simp [getLsbD_oflagSubAlloc small, set] at bit

theorem oflagSubZero_eq (small : x < 32) : oflagSubZero x = oflagSubAlloc (32 + x) := by
  apply eq_of_getLsbD_eq
  intro i _
  rw [getLsbD_oflagSubZero small, getLsbD_oflagSubAlloc (by omega)]

theorem and_oflagSubZero_ne_zero (small : x < 32) (word : BitVec 64) :
    word &&& oflagSubZero x ≠ 0 ↔ word.getLsbD (32 + x) = true := by
  rw [oflagSubZero_eq small, and_oflagSubAlloc_ne_zero (by omega)]

theorem and_bitmapAllAlloc_eq_zero (word : BitVec 64) :
    word &&& bitmapAllAlloc = 0 ↔ ∀ i < 32, word.getLsbD i = false := by
  constructor
  · intro zero i small
    have bit := congrArg (getLsbD · i) zero
    simpa [getLsbD_bitmapAllAlloc, small] using bit
  · intro clear
    apply eq_of_getLsbD_eq
    intro i _
    rw [getLsbD_and, getLsbD_bitmapAllAlloc]
    by_cases small : i < 32
    · simp [clear i small]
    · simp [small]

namespace Metadata

theorem getLsbD_zeroedBitmap (fits : sc + n ≤ 32) (bitmap : BitVec 64) (i : Nat) :
    (zeroedBitmap sc n bitmap).getLsbD i = if sc ≤ i ∧ i < sc + n then false
      else if 32 + sc ≤ i ∧ i < 32 + (sc + n) then true else bitmap.getLsbD i := by
  rw [zeroedBitmap, getLsbD_and, getLsbD_or, getLsbD_not,
    getLsbD_oflagSubZeroRange (by omega) fits, getLsbD_oflagSubAllocRange (by omega) (by omega)]
  by_cases alloc : sc ≤ i ∧ i < sc + n
  · simp [alloc]
  by_cases zero : 32 + sc ≤ i ∧ i < 32 + (sc + n)
  · have small : i < 64 := by omega
    simp [zero, small, alloc]
  · rw [if_neg zero]
    by_cases small : i < 64
    · simp [alloc, zero, small]
    · simp [small, getLsbD_of_ge bitmap i (by omega)]

theorem zeroedBitmap_and_allAlloc (sc n : Nat) (none : bitmap &&& bitmapAllAlloc = 0) :
    zeroedBitmap sc n bitmap &&& bitmapAllAlloc = 0 := by
  rw [and_bitmapAllAlloc_eq_zero] at none ⊢
  intro i small
  rw [zeroedBitmap, getLsbD_and, getLsbD_or, none i small, oflagSubZeroRange]
  simp [small]

end Metadata

end Qemu.Qcow2
