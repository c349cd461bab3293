import Qemu.Lib.LongDivision
import Qemu.Lib.Words

/-! Division of a double word by a word, from a step that divides by a
normalized word: shift out the leading zeros of the divisor, divide, and shift
the remainder back. -/

namespace Qemu.WordDivision

open Nat Words

variable {w : Nat}

/-- What a dividing step promises for a normalized divisor above the high word. -/
def ExactStep (step : BitVec w → BitVec w → BitVec w → BitVec w × BitVec w) : Prop :=
  ∀ high low divisor : BitVec w, 2 ^ (w - 1) ≤ divisor.toNat → high < divisor →
    (step high low divisor).1.toNat = (high.toNat * 2 ^ w + low.toNat) / divisor.toNat ∧
      (step high low divisor).2.toNat = (high.toNat * 2 ^ w + low.toNat) % divisor.toNat

/-- The double-word division, as `(low, high, remainder)`; `top` extracts the
bits of the high word that normalization shifts out. -/
def divide (step : BitVec w → BitVec w → BitVec w → BitVec w × BitVec w)
    (top : BitVec w → Nat → BitVec w) (low high divisor : BitVec w) :
    BitVec w × BitVec w × BitVec w :=
  if divisor = 0 ∨ high = 0 then
    (low / divisor, 0, low % divisor)
  else
    let shift := divisor.clz.toNat
    if high < divisor then
      let (divisor, high, low) :=
        if shift ≠ 0 then
          (divisor <<< shift, (high <<< shift) ||| (low >>> (w - shift)), low <<< shift)
        else (divisor, high, low)
      let (quotient, remainder) := step high low divisor
      (quotient, 0, remainder >>> shift)
    else
      let (upper, divisor, high, low) :=
        if shift ≠ 0 then
          let divisor := divisor <<< shift
          let highest := top high (w - shift)
          let high := (high <<< shift) ||| (low >>> (w - shift))
          let low := low <<< shift
          let (upper, high) := step highest high divisor
          (upper, divisor, high, low)
        else (1, divisor, high - divisor, low)
      let (quotient, remainder) := step high low divisor
      (quotient, upper, remainder >>> shift)

section

variable {step : BitVec w → BitVec w → BitVec w → BitVec w × BitVec w}
variable {top : BitVec w → Nat → BitVec w} {low high divisor : BitVec w}

/-- A shift that moves the leading one of the divisor to the top. -/
structure Normalizes (divisor : BitVec w) (shift : Nat) : Prop where
  small : shift < w
  value : (divisor <<< shift).toNat = divisor.toNat * 2 ^ shift
  large : 2 ^ (w - 1) ≤ (divisor <<< shift).toNat

theorem clz_normalizes (nonzero : divisor ≠ 0) : Normalizes divisor divisor.clz.toNat := by
  obtain ⟨large, fits⟩ := normalized nonzero
  have value : (divisor <<< divisor.clz.toNat).toNat = divisor.toNat * 2 ^ divisor.clz.toNat := by
    rw [BitVec.toNat_shiftLeft, shiftLeft_eq, mod_eq_of_lt fits]
  exact ⟨clz_lt nonzero, value, value ▸ large⟩

section

variable {shift : Nat} (normal : Normalizes divisor shift) (exact : ExactStep step)
include normal

theorem remainder_shift {remainder : BitVec w}
    (value : remainder.toNat = total * 2 ^ shift % (divisor <<< shift).toNat) :
    (remainder >>> shift).toNat = total % divisor.toNat := by
  rw [BitVec.toNat_ushiftRight, shiftRight_eq_div_pow, value, normal.value, mul_mod_mul_right,
    mul_div_left _ (Nat.two_pow_pos shift)]

include exact

/-- A high word below the divisor leaves a single quotient word. -/
theorem divide_exact_of_lt (below : high < divisor) {result : BitVec w × BitVec w}
    (ran : result = step ((high <<< shift) ||| (low >>> (w - shift))) (low <<< shift)
    (divisor <<< shift)) :
    result.1.toNat = (high.toNat * 2 ^ w + low.toNat) / divisor.toNat ∧
      (result.2 >>> shift).toNat = (high.toNat * 2 ^ w + low.toNat) % divisor.toNat := by
  have pair := shift_pair_value high low normal.small.le
  have total : high.toNat * 2 ^ w + low.toNat < divisor.toNat * 2 ^ w := by
    calc high.toNat * 2 ^ w + low.toNat < high.toNat * 2 ^ w + 2 ^ w := by omega
      _ = (high.toNat + 1) * 2 ^ w := by ring
      _ ≤ _ := Nat.mul_le_mul_right _ (BitVec.lt_def.mp below)
  have scaled := Nat.mul_lt_mul_of_pos_right total (Nat.two_pow_pos shift)
  rw [← pair, Nat.mul_right_comm, ← normal.value] at scaled
  have fits := Nat.lt_of_mul_lt_mul_right (Nat.lt_of_le_of_lt (Nat.le_add_right _ _) scaled)
  have noTop : (high >>> (w - shift)).toNat = 0 := by
    have bound := (divisor <<< shift).isLt
    by_contra some
    have := Nat.mul_le_mul_right (2 ^ w) (Nat.pos_of_ne_zero some)
    omega
  rw [noTop, Nat.zero_mul, Nat.zero_add] at pair fits
  obtain ⟨quotient, remainder⟩ := exact _ (low <<< shift) _ normal.large fits
  rw [← ran, pair] at quotient remainder
  rw [quotient, normal.value, Nat.mul_div_mul_right _ _ (Nat.two_pow_pos _)]
  exact ⟨rfl, remainder_shift normal remainder⟩

/-- A larger high word is divided first, together with the bits shifted out of it. -/
theorem divide_exact_of_shift
    (firstStep : first = step (high >>> (w - shift)) ((high <<< shift) ||| (low >>> (w - shift)))
    (divisor <<< shift))
    (secondStep : second = step first.2 (low <<< shift) (divisor <<< shift)) :
    first.1.toNat * 2 ^ w + second.1.toNat = (high.toNat * 2 ^ w + low.toNat) / divisor.toNat ∧
      (second.2 >>> shift).toNat = (high.toNat * 2 ^ w + low.toNat) % divisor.toNat := by
  have small := normal.small
  have positive : 0 < (divisor <<< shift).toNat := Nat.lt_of_lt_of_le (Nat.two_pow_pos _) normal.large
  have topFits : high >>> (w - shift) < divisor <<< shift := by
    rw [BitVec.lt_def, BitVec.toNat_ushiftRight, shiftRight_eq_div_pow]
    calc high.toNat / 2 ^ (w - shift) < 2 ^ shift :=
          Nat.div_lt_of_lt_mul (by rw [pow_sub_mul_pow 2 small.le]; exact high.isLt)
      _ ≤ 2 ^ (w - 1) := Nat.pow_le_pow_right (by decide) (by omega)
      _ ≤ _ := normal.large
  obtain ⟨upper, middle⟩ := exact _ ((high <<< shift) ||| (low >>> (w - shift))) _ normal.large topFits
  rw [← firstStep] at upper middle
  have middleFits : first.2 < divisor <<< shift := by
    rw [BitVec.lt_def, middle]; exact mod_lt _ positive
  obtain ⟨lower, final⟩ := exact _ (low <<< shift) _ normal.large middleFits
  rw [← secondStep, middle] at lower final
  have digits := LongDivision.div_by_digits positive ((high >>> (w - shift)).toNat * 2 ^ w +
    ((high <<< shift) ||| (low >>> (w - shift))).toNat) (2 ^ w) (low <<< shift).toNat
  rw [shift_pair_value high low small.le] at digits
  rw [upper, lower, ← digits.1, normal.value, Nat.mul_div_mul_right _ _ (Nat.two_pow_pos _)]
  exact ⟨rfl, remainder_shift normal (final.trans digits.2.symm)⟩

end

/-- With the top bit of the divisor set, the high quotient word is one. -/
theorem divide_exact_of_sub (low : BitVec w) (exact : ExactStep step)
    (normal : 2 ^ (w - 1) ≤ divisor.toNat) (above : divisor ≤ high) :
    2 ^ w + (step (high - divisor) low divisor).1.toNat =
    (high.toNat * 2 ^ w + low.toNat) / divisor.toNat ∧
      (step (high - divisor) low divisor).2.toNat = (high.toNat * 2 ^ w + low.toNat) % divisor.toNat := by
  have positive : 0 < divisor.toNat := Nat.lt_of_lt_of_le (Nat.two_pow_pos _) normal
  have double : 2 ^ w ≤ 2 * divisor.toNat := by
    calc 2 ^ w ≤ 2 ^ (w - 1 + 1) := Nat.pow_le_pow_right (by decide) (by omega)
      _ = 2 * 2 ^ (w - 1) := by rw [pow_succ, mul_comm]
      _ ≤ _ := mul_le_mul_left _ normal
  have difference : (high - divisor).toNat = high.toNat - divisor.toNat := BitVec.toNat_sub_of_le above
  have fits : high - divisor < divisor := by
    rw [BitVec.lt_def]; omega
  obtain ⟨quotient, remainder⟩ := exact _ low _ normal fits
  have total : high.toNat * 2 ^ w + low.toNat =
      (high.toNat - divisor.toNat) * 2 ^ w + low.toNat + divisor.toNat * 2 ^ w := by
    rw [Nat.sub_mul]
    have := mul_le_mul_right (2 ^ w) (BitVec.le_def.mp above)
    omega
  rw [quotient, remainder, difference, total, add_mul_div_left _ _ positive, add_mul_mod_self_left,
    add_comm]
  exact ⟨rfl, rfl⟩

/-- The division is exact when the first step cannot tell the extracted top bits
from the true ones. -/
theorem divide_exact (exact : ExactStep step) (nonzero : divisor ≠ 0)
    (kept : divisor.clz.toNat ≠ 0 → ¬ high < divisor → step (top high (w - divisor.clz.toNat))
          ((high <<< divisor.clz.toNat) ||| (low >>> (w - divisor.clz.toNat)))
          (divisor <<< divisor.clz.toNat) =
        step (high >>> (w - divisor.clz.toNat))
        ((high <<< divisor.clz.toNat) ||| (low >>> (w - divisor.clz.toNat)))
          (divisor <<< divisor.clz.toNat)) :
    (divide step top low high divisor).2.1.toNat * 2 ^ w + (divide step top low high divisor).1.toNat =
        (high.toNat * 2 ^ w + low.toNat) / divisor.toNat ∧ (divide step top low high divisor).2.2.toNat =
        (high.toNat * 2 ^ w + low.toNat) % divisor.toNat := by
  by_cases zero : high = 0
  · simp [divide, zero]
  by_cases below : high < divisor
  · have single := @divide_exact_of_lt _ _ low _ _ _ (clz_normalizes nonzero) exact below _ rfl
    have shifted : (if divisor.clz.toNat ≠ 0 then
          (divisor <<< divisor.clz.toNat,
            (high <<< divisor.clz.toNat) ||| (low >>> (w - divisor.clz.toNat)),
            low <<< divisor.clz.toNat)
        else (divisor, high, low)) =
        (divisor <<< divisor.clz.toNat,
          (high <<< divisor.clz.toNat) ||| (low >>> (w - divisor.clz.toNat)),
          low <<< divisor.clz.toNat) := by
      split
      · rfl
      next none =>
        simp only [not_not] at none
        have gone : low >>> w = 0 := BitVec.ushiftRight_eq_zero (le_refl w)
        simp [none, gone]
    simp only [divide, nonzero, zero, below, shifted]
    simpa using single
  · by_cases shift : divisor.clz.toNat = 0
    · have normal := (normalized nonzero).1
      rw [shift, pow_zero, mul_one] at normal
      have single := divide_exact_of_sub low exact normal (BitVec.not_lt.mp below)
      have width : 0 < w := zero_lt_of_lt (clz_lt nonzero)
      have one : 1 % 2 ^ w = 1 := mod_eq_of_lt (Nat.one_lt_two_pow (by omega))
      simp only [divide, nonzero, zero, below, shift]
      simpa [one] using single
    · simp only [divide, nonzero, zero, below, shift, or_self, if_false, ne_eq, kept shift below]
      exact divide_exact_of_shift (clz_normalizes nonzero) exact rfl rfl

/-- The first of the two steps alone decides the high quotient word. -/
theorem divide_high (nonzero : divisor ≠ 0) (above : ¬ high < divisor) (shift : divisor.clz.toNat ≠ 0) :
    (divide step top low high divisor).2.1 = (step (top high (w - divisor.clz.toNat))
        ((high <<< divisor.clz.toNat) ||| (low >>> (w - divisor.clz.toNat)))
        (divisor <<< divisor.clz.toNat)).1 := by
  have occupied : high ≠ 0 := by
    rintro rfl
    exact nonzero (BitVec.le_zero_iff.mp (BitVec.not_lt.mp above))
  simp only [divide, nonzero, occupied, above, shift, or_self, if_false, ne_eq, not_false_eq_true, if_true]

end

section Signed

/-- Two's complement negation of a double word, one word at a time. -/
def negatePair (low high : BitVec w) : BitVec w × BitVec w :=
  if low = 0 then (0, -high) else (-low, ~~~high)

theorem negatePair_append (low high : BitVec w) :
    (negatePair low high).2 ++ (negatePair low high).1 = -(high ++ low) := by
  have highBound := high.isLt
  apply BitVec.eq_of_toNat_eq
  rw [BitVec.toNat_neg, append_toNat, append_toNat, pow_add]
  by_cases empty : low = 0
  · simp only [negatePair, empty, if_true, BitVec.toNat_neg, BitVec.ofNat_eq_ofNat,
      BitVec.toNat_ofNat, zero_mod, Nat.add_zero]
    rw [← Nat.sub_mul, mul_mod_mul_right]
  have positive : 0 < low.toNat := by
    rcases Nat.eq_zero_or_pos low.toNat with zero | positive
    · exact absurd (BitVec.eq_of_toNat_eq (by simpa using zero)) empty
    · exact positive
  simp only [negatePair, empty, if_false, BitVec.toNat_neg, BitVec.toNat_not]
  rw [mod_eq_of_lt (by omega : 2 ^ w - low.toNat < 2 ^ w)]
  have product : high.toNat * 2 ^ w + 2 ^ w ≤ 2 ^ w * 2 ^ w := by
    calc high.toNat * 2 ^ w + 2 ^ w = (high.toNat + 1) * 2 ^ w := by ring
      _ ≤ _ := Nat.mul_le_mul_right _ highBound
  rw [mod_eq_of_lt (by omega), Nat.sub_mul, Nat.sub_mul]
  omega

/-- Signed division through an unsigned one on the magnitudes. -/
def divideSigned (unsigned : BitVec w → BitVec w → BitVec w → BitVec w × BitVec w × BitVec w)
    (low high divisor : BitVec w) : BitVec w × BitVec w × BitVec w :=
  let dividend := if high.slt 0 then negatePair low high else (low, high)
  let result := unsigned dividend.1 dividend.2 (if divisor.slt 0 then -divisor else divisor)
  let quotient :=
    if high.slt 0 ^^ divisor.slt 0 then negatePair result.1 result.2.1
    else (result.1, result.2.1)
  (quotient.1, quotient.2, if high.slt 0 then -result.2.2 else result.2.2)

variable {unsigned : BitVec w → BitVec w → BitVec w → BitVec w × BitVec w × BitVec w}
variable {low high divisor : BitVec w}

section

variable (width : 0 < w) {dividend : BitVec w × BitVec w}
    (magnitude : dividend = if high.slt 0 then negatePair low high else (low, high))
include width magnitude

/-- The pair that is divided holds the magnitude of the dividend. -/
theorem magnitudePair_toNat : (dividend.2 ++ dividend.1).toNat = (high ++ low).toInt.natAbs := by
  rw [magnitude, ← magnitude_toNat, append_slt_zero width]
  split
  · rw [negatePair_append]
  · rfl

/-- The signed result is exact, when it can be, just if the unsigned one is. -/
theorem divideSigned_exact_iff (nonzero : divisor ≠ 0)
    (lower : -2 ^ (w + w - 1) ≤ (high ++ low).toInt.tdiv divisor.toInt)
    (upper : (high ++ low).toInt.tdiv divisor.toInt < 2 ^ (w + w - 1))
    (divided : result = unsigned dividend.1 dividend.2 (if divisor.slt 0 then -divisor else divisor)) :
    (((divideSigned unsigned low high divisor).2.1 ++ (divideSigned unsigned low high divisor).1).toInt =
        (high ++ low).toInt.tdiv divisor.toInt ∧ (divideSigned unsigned low high divisor).2.2.toInt =
        (high ++ low).toInt.tmod divisor.toInt) ↔ ((result.2.1 ++ result.1).toNat =
        (dividend.2 ++ dividend.1).toNat / (if divisor.slt 0 then -divisor else divisor).toNat ∧
        result.2.2.toNat =
        (dividend.2 ++ dividend.1).toNat % (if divisor.slt 0 then -divisor else divisor).toNat) := by
  have dividendValue := magnitudePair_toNat width magnitude
  have divisorValue := magnitude_toNat divisor
  have dividendBound := (dividend.2 ++ dividend.1).isLt
  have divisorPositive : 0 < divisor.toInt.natAbs :=
    Int.natAbs_pos.mpr (fun zero => nonzero (BitVec.eq_of_toInt_eq (by simpa using zero)))
  have remainderBound := mod_lt (high ++ low).toInt.natAbs divisorPositive
  have divisorBound : divisor.toInt.natAbs ≤ 2 ^ (w - 1) := by
    have low := divisor.le_toInt
    have high := divisor.toInt_lt
    have half : ((2 ^ (w - 1) : Nat) : Int) = 2 ^ (w - 1) := by rfl
    omega
  have sign : (high.slt 0 ^^ divisor.slt 0) =
    (decide ((high ++ low).toInt < 0) ^^ decide (divisor.toInt < 0)) := by
    rw [← append_slt_zero width high low, slt_zero_toInt, slt_zero_toInt]
  have dividendSign : high.slt 0 = decide ((high ++ low).toInt < 0) := by
    rw [← append_slt_zero width high low, slt_zero_toInt]
  rw [dividendValue] at dividendBound
  rw [dividendValue, divisorValue]
  apply and_congr
  · have negated : (divideSigned unsigned low high divisor).2.1 ++
        (divideSigned unsigned low high divisor).1 =
        if high.slt 0 ^^ divisor.slt 0 then -(result.2.1 ++ result.1) else result.2.1 ++ result.1 := by
      simp only [divideSigned, ← magnitude, ← divided]
      split
      · rw [negatePair_append]
      · rfl
    rw [toInt_eq_iff (by omega) _ lower upper, negated, tdiv_eq_magnitudes, sign,
      toNat_eq_iff _ (lt_of_le_of_lt (div_le_self _ _) dividendBound)]
    split
    · rw [BitVec.ofInt_neg, BitVec.neg_inj]
    · rfl
  · have negated : (divideSigned unsigned low high divisor).2.2 =
        if high.slt 0 then -result.2.2 else result.2.2 := by
      simp only [divideSigned, ← magnitude, ← divided]
    rw [negated, dividendSign, tmod_eq_magnitudes]
    have cap : (((high ++ low).toInt.natAbs % divisor.toInt.natAbs : Nat) : Int) < 2 ^ (w - 1) := by
      exact_mod_cast lt_of_lt_of_le remainderBound divisorBound
    rw [toInt_eq_iff width _ (by split <;> omega) (by split <;> omega), toNat_eq_iff _ (by omega)]
    simp only [decide_eq_true_eq]
    split
    · rw [BitVec.ofInt_neg, BitVec.neg_inj]
    · rfl

end

end Signed

end Qemu.WordDivision
