import Mathlib.Tactic

namespace Qemu.Words

open BitVec

variable {w : Nat}

theorem append_toNat (high : BitVec v) (low : BitVec w) :
    (high ++ low).toNat = high.toNat * 2 ^ w + low.toNat := by
  rw [toNat_append, ← Nat.shiftLeft_add_eq_or_of_lt low.isLt, Nat.shiftLeft_eq]

theorem slt_zero (x : BitVec w) : x.slt 0 = decide (2 ^ (w - 1) ≤ x.toNat) := by
  rw [← msb_eq_decide]
  exact slt_zero_eq_msb

/-- The two ways a word is read agree up to the sign bit. -/
theorem toInt_eq (x : BitVec w) :
    x.toInt = if 2 ^ (w - 1) ≤ x.toNat then (x.toNat : Int) - (2 ^ w : Nat) else x.toNat := by
  rw [toInt_eq_msb_cond, msb_eq_decide]
  simp

section

variable {w shift : Nat}

/-- Two adjacent words shifted left together: the upper one takes in the top
bits of the lower one. -/
theorem shift_pair_toNat (high low : BitVec w) (small : shift ≤ w) :
    ((high <<< shift) ||| (low >>> (w - shift))).toNat =
      high.toNat * 2 ^ shift % 2 ^ w + low.toNat / 2 ^ (w - shift) := by
  have power : 2 ^ w = 2 ^ (w - shift) * 2 ^ shift := (pow_sub_mul_pow 2 small).symm
  have fill : low.toNat / 2 ^ (w - shift) < 2 ^ shift :=
    Nat.div_lt_of_lt_mul (by rw [← power]; exact low.isLt)
  rw [toNat_or, toNat_shiftLeft, toNat_ushiftRight,
    Nat.shiftLeft_eq, Nat.shiftRight_eq_div_pow, power, Nat.mul_mod_mul_right,
    ← Nat.shiftLeft_eq, Nat.shiftLeft_add_eq_or_of_lt fill]

/-- No bit is lost when the bits leaving the upper word are kept as well. -/
theorem shift_pair_value (high low : BitVec w) (small : shift ≤ w) :
    ((high >>> (w - shift)).toNat * 2 ^ w + ((high <<< shift) ||| (low >>> (w - shift))).toNat) *
      2 ^ w + (low <<< shift).toNat = (high.toNat * 2 ^ w + low.toNat) * 2 ^ shift := by
  have power : 2 ^ w = 2 ^ (w - shift) * 2 ^ shift := (pow_sub_mul_pow 2 small).symm
  have parts (value : Nat) : value * 2 ^ shift =
    value / 2 ^ (w - shift) * 2 ^ w + value * 2 ^ shift % 2 ^ w := by
    have quotient : value * 2 ^ shift / 2 ^ w = value / 2 ^ (w - shift) := by
      rw [power, Nat.mul_div_mul_right _ _ (Nat.two_pow_pos shift)]
    rw [← quotient, Nat.mul_comm _ (2 ^ w)]
    exact (Nat.div_add_mod _ _).symm
  have upper := parts high.toNat
  have lower := parts low.toNat
  rw [shift_pair_toNat high low small, toNat_ushiftRight, toNat_shiftLeft,
    Nat.shiftRight_eq_div_pow, Nat.shiftLeft_eq,
    Nat.add_mul (high.toNat * _), Nat.mul_right_comm high.toNat]
  linear_combination 2 ^ w * -upper - lower

variable {x : BitVec w}

theorem clz_lt (nonzero : x ≠ 0) : x.clz.toNat < w := by
  have below := BitVec.clz_lt_iff_ne_zero.mpr nonzero
  exact Nat.lt_of_lt_of_le below (Nat.mod_le _ _)

/-- The leading one determines the count of zeros before it. -/
theorem clz_unique (below : count < w)
    (lower : 2 ^ (w - 1 - count) ≤ x.toNat) (upper : x.toNat < 2 ^ (w - count)) :
    x.clz.toNat = count := by
  have nonzero : x ≠ 0 := by
    rintro rfl
    simp at lower
  have least := two_pow_sub_clz_le_toNat_of_ne_zero (by omega) nonzero
  have most := toNat_lt_two_pow_sub_clz (x := x)
  have first := (Nat.pow_lt_pow_iff_right (by decide : 1 < 2)).mp (lower.trans_lt most)
  have second := (Nat.pow_lt_pow_iff_right (by decide : 1 < 2)).mp (least.trans_lt upper)
  omega

/-- Shifting out the leading zeros sets the top bit and loses nothing. -/
theorem normalized (nonzero : x ≠ 0) :
    2 ^ (w - 1) ≤ x.toNat * 2 ^ x.clz.toNat ∧ x.toNat * 2 ^ x.clz.toNat < 2 ^ w := by
  have below := clz_lt nonzero
  have lower := two_pow_sub_clz_le_toNat_of_ne_zero (by omega) nonzero
  have upper := toNat_lt_two_pow_sub_clz (x := x)
  constructor
  · calc 2 ^ (w - 1) = 2 ^ (w - 1 - x.clz.toNat) * 2 ^ x.clz.toNat :=
          (pow_sub_mul_pow 2 (by omega)).symm
      _ ≤ _ := Nat.mul_le_mul_right _ lower
  · calc x.toNat * 2 ^ x.clz.toNat < 2 ^ (w - x.clz.toNat) * 2 ^ x.clz.toNat :=
          Nat.mul_lt_mul_of_pos_right upper (Nat.two_pow_pos _)
      _ = 2 ^ w := pow_sub_mul_pow 2 below.le

end

section

theorem magnitude_toNat (x : BitVec w) : (if x.slt 0 then -x else x).toNat = x.toInt.natAbs := by
  have half := Nat.two_pow_pos (w - 1)
  rw [slt_zero, toInt_eq]
  by_cases negative : 2 ^ (w - 1) ≤ x.toNat
  · simp only [negative, decide_true, if_true, toNat_neg]
    rw [Nat.mod_eq_of_lt (by omega)]
    omega
  · simp [negative]

theorem toInt_eq_iff (positive : 0 < w) (x : BitVec w)
    (lower : -2 ^ (w - 1) ≤ value) (upper : value < 2 ^ (w - 1)) :
    x.toInt = value ↔ x = BitVec.ofInt w value := by
  constructor
  · intro same; rw [← same, ofInt_toInt]
  · intro same; rw [same, toInt_ofInt_eq_self positive lower upper]

theorem toNat_eq_iff (x : BitVec w) (upper : value < 2 ^ w) : x.toNat = value ↔
    x = BitVec.ofInt w value := by
  rw [ofInt_natCast]
  constructor
  · intro same; rw [← same, ofNat_toNat, setWidth_eq]
  · intro same; rw [same, toNat_ofNat, Nat.mod_eq_of_lt upper]

theorem slt_zero_toInt (x : BitVec w) : x.slt 0 = decide (x.toInt < 0) := by
  simp [BitVec.slt]

theorem append_slt_zero (positive : 0 < w) (high low : BitVec w) : (high ++ low).slt 0 = high.slt 0 := by
  have sign := slt_zero_eq_msb (x := high ++ low)
  rw [msb_append] at sign
  simp only [show w ≠ 0 by omega] at sign
  exact sign.trans BitVec.slt_zero_eq_msb.symm

end

theorem tdiv_eq_magnitudes (a b : Int) :
    a.tdiv b = if decide (a < 0) ^^ decide (b < 0) then -((a.natAbs / b.natAbs : Nat) : Int)
      else (a.natAbs / b.natAbs : Nat) := by
  have natural (k : Nat) : ¬ (k : Int) < 0 := by omega
  obtain ⟨m, rfl | rfl⟩ := a.eq_nat_or_neg <;> obtain ⟨n, rfl | rfl⟩ := b.eq_nat_or_neg <;>
    rcases Nat.eq_zero_or_pos m with rfl | left <;> rcases Nat.eq_zero_or_pos n with rfl | right <;>
    simp [*]

theorem tmod_eq_magnitudes (a b : Int) :
    a.tmod b = if a < 0 then -((a.natAbs % b.natAbs : Nat) : Int) else (a.natAbs % b.natAbs : Nat) := by
  have natural (k : Nat) : ¬ (k : Int) < 0 := by omega
  obtain ⟨m, rfl | rfl⟩ := a.eq_nat_or_neg <;> obtain ⟨n, rfl | rfl⟩ := b.eq_nat_or_neg <;>
    rcases Nat.eq_zero_or_pos m with rfl | left <;>
    simp [*, Int.tmod_eq_emod_of_nonneg]

end Qemu.Words
