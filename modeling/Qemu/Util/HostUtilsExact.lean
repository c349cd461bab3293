import Qemu.Util.HostUtils
import Qemu.Lib.WordDivision

namespace Qemu.HostUtils

open BitVec Nat LongDivision WordDivision Words

@[simp] theorem LL.of_low_toNat (x : BitVec 64) : (LL.of x).low.toNat = x.toNat % 2 ^ 32 := by
  simp [LL.of]

@[simp] theorem LL.of_high_toNat (x : BitVec 64) : (LL.of x).high.toNat = x.toNat / 2 ^ 32 := by
  simp only [LL.of, toNat_setWidth, toNat_ushiftRight]
  omega

@[simp] theorem LL.ll_toNat (words : LL) :
    words.ll.toNat = words.high.toNat * 2 ^ 32 + words.low.toNat := by
  rw [LL.ll, append_toNat]

theorem mul_lt_square (left : a < 2 ^ 32) (right : b < 2 ^ 32) : a * b ≤ (2 ^ 32 - 1) * (2 ^ 32 - 1) :=
  Nat.mul_le_mul (by omega) (by omega)

/-- The two result words hold the whole product. -/
theorem mul64_exact (a b : BitVec 64) :
    (mul64 a b).2.toNat * 2 ^ 64 + (mul64 a b).1.toNat = a.toNat * b.toNat := by
  have aBound := a.isLt
  have bBound := b.isLt
  have aLow : a.toNat % 2 ^ 32 < 2 ^ 32 := mod_lt _ (by decide)
  have bLow : b.toNat % 2 ^ 32 < 2 ^ 32 := mod_lt _ (by decide)
  have aHigh : a.toNat / 2 ^ 32 < 2 ^ 32 := by omega
  have bHigh : b.toNat / 2 ^ 32 < 2 ^ 32 := by omega
  have ll := mul_lt_square aLow bLow
  have lh := mul_lt_square aLow bHigh
  have hl := mul_lt_square aHigh bLow
  have hh := mul_lt_square aHigh bHigh
  have whole : a.toNat * b.toNat =
      a.toNat / 2 ^ 32 * (b.toNat / 2 ^ 32) * 2 ^ 64 +
        (a.toNat % 2 ^ 32 * (b.toNat / 2 ^ 32) + a.toNat / 2 ^ 32 * (b.toNat % 2 ^ 32)) * 2 ^ 32 +
        a.toNat % 2 ^ 32 * (b.toNat % 2 ^ 32) := by
    conv_lhs => rw [← div_add_mod a.toNat (2 ^ 32), ← div_add_mod b.toNat (2 ^ 32)]
    ring
  rw [whole]
  simp only [mul64, LL.ll_toNat, LL.of_low_toNat, LL.of_high_toNat, toNat_setWidth,
    toNat_add, toNat_mul, toNat_ushiftRight, shiftRight_eq_div_pow]
  simp only [mod_eq_of_lt (show a.toNat % 2 ^ 32 < 2 ^ 64 by omega),
    mod_eq_of_lt (show b.toNat % 2 ^ 32 < 2 ^ 64 by omega),
    mod_eq_of_lt (show a.toNat / 2 ^ 32 < 2 ^ 64 by omega),
    mod_eq_of_lt (show b.toNat / 2 ^ 32 < 2 ^ 64 by omega)]
  generalize a.toNat % 2 ^ 32 * (b.toNat % 2 ^ 32) = rl at *
  generalize a.toNat % 2 ^ 32 * (b.toNat / 2 ^ 32) = rm at *
  generalize a.toNat / 2 ^ 32 * (b.toNat % 2 ^ 32) = rn at *
  generalize a.toNat / 2 ^ 32 * (b.toNat / 2 ^ 32) = rh at *
  omega

/-- Reading both factors as signed takes each negative factor's partner off
the high word. -/
theorem toInt_mul_eq (a b : BitVec 64) :
    a.toInt * b.toInt = a.toNat * b.toNat - (if 2 ^ 63 ≤ b.toNat then 2 ^ 64 * (a.toNat : Int) else 0) -
        (if 2 ^ 63 ≤ a.toNat then 2 ^ 64 * (b.toNat : Int) else 0) +
        (if 2 ^ 63 ≤ a.toNat ∧ 2 ^ 63 ≤ b.toNat then 2 ^ 128 else 0) := by
  rw [toInt_eq a, toInt_eq b]
  by_cases aSign : 2 ^ 63 ≤ a.toNat <;> by_cases bSign : 2 ^ 63 ≤ b.toNat <;>
    simp only [Nat.reduceSub, aSign, bSign, if_true, if_false, and_true, and_false] <;>
    push_cast <;> ring

theorem toInt_mul_bound (a b : BitVec 64) : -2 ^ 126 ≤ a.toInt * b.toInt ∧
    a.toInt * b.toInt ≤ 2 ^ 126 := by
  have aLow := a.le_toInt
  have aHigh := a.toInt_lt
  have bLow := b.le_toInt
  have bHigh := b.toInt_lt
  have cap : |a.toInt * b.toInt| ≤ 2 ^ 63 * 2 ^ 63 := by
    rw [abs_mul]
    exact mul_le_mul (abs_le.mpr ⟨by omega, by omega⟩) (abs_le.mpr ⟨by omega, by omega⟩)
      (abs_nonneg _) (by norm_num)
  have := abs_le.mp cap
  constructor <;> omega

/-- The signed product is exact in the two's complement reading. -/
theorem muls64_exact (a b : BitVec 64) : ((muls64 a b).2 ++ (muls64 a b).1).toInt = a.toInt * b.toInt := by
  have unsigned : (a.toNat : Int) * b.toNat = (mul64 a b).2.toNat * 2 ^ 64 + (mul64 a b).1.toNat := by
    exact_mod_cast (mul64_exact a b).symm
  have aBound := a.isLt
  have bBound := b.isLt
  have bound := toInt_mul_bound a b
  have expand := toInt_mul_eq a b
  rw [unsigned] at expand
  rw [toInt_eq, append_toNat]
  simp only [muls64, slt_zero, decide_eq_true_eq]
  by_cases aSign : 2 ^ 63 ≤ a.toNat <;> by_cases bSign : 2 ^ 63 ≤ b.toNat <;>
    simp only [Nat.reduceSub, aSign, bSign, if_true, if_false, and_true, and_false,
    toNat_sub] at expand ⊢ <;>
    split <;> omega

/-- Shifting a small word up and filling in below it is addition. -/
theorem shift_or_toNat {high low : BitVec 64} (small : high.toNat < 2 ^ 32) (fill : low.toNat < 2 ^ 32) :
    ((high <<< 32) ||| low).toNat = high.toNat * 2 ^ 32 + low.toNat := by
  rw [toNat_or, toNat_shiftLeft, Nat.shiftLeft_eq, mod_eq_of_lt (by omega),
    ← Nat.shiftLeft_eq, shiftLeft_add_eq_or_of_lt fill]

/-- Each half of the generic division is one digit step in base 2^32. -/
theorem qrnndHalf_eq {d n x : BitVec 64} (normal : 2 ^ 63 ≤ d.toNat) (small : x.toNat < 2 ^ 32) :
    ((qrnndHalf d n x).1.toNat, (qrnndHalf d n x).2.toNat) = digitStep (2 ^ 32) d.toNat n.toNat
    x.toNat := by
  have leading : 0 < d.toNat / 2 ^ 32 := by omega
  have topDigit : (d >>> 32).toNat = d.toNat / 2 ^ 32 := by
    rw [toNat_ushiftRight, shiftRight_eq_div_pow]
  have lowDigit : ((d.setWidth 32).setWidth 64).toNat = d.toNat % 2 ^ 32 := by
    simp only [toNat_setWidth]; omega
  have guess : (n / (d >>> 32)).toNat = estimate (2 ^ 32) d.toNat n.toNat := by
    rw [toNat_udiv, topDigit, estimate]
  have taken : (n / (d >>> 32) * (d.setWidth 32).setWidth 64).toNat =
      product (2 ^ 32) d.toNat n.toNat % (2 ^ 32) ^ 2 := by
    rw [toNat_mul, guess, lowDigit]
    rfl
  have left : (((n % (d >>> 32)) <<< 32) ||| x).toNat = rest (2 ^ 32) d.toNat n.toNat x.toNat := by
    have remainder : (n % (d >>> 32)).toNat = n.toNat % (d.toNat / 2 ^ 32) := by
      rw [toNat_umod, topDigit]
    have bound := mod_lt n.toNat leading
    rw [shift_or_toNat (by omega) small, remainder, rest]
  rw [← correctWord_toNat (by norm_num) leading small guess taken left]
  simp only [qrnndHalf, correctWord]
  split_ifs <;> simp_all

/-- The generic branch computes the two-digit division step on words. -/
theorem udivQrnnd_eq (normal : 2 ^ 63 ≤ d.toNat) :
    ((udivQrnnd n1 n0 d).1.toNat, (udivQrnnd n1 n0 d).2.toNat) = divideStep
    (2 ^ 32) d.toNat n1.toNat n0.toNat := by
  have bound := n0.isLt
  have upperDigit : (n0 >>> 32).toNat = n0.toNat / 2 ^ 32 := by
    rw [toNat_ushiftRight, shiftRight_eq_div_pow]
  have lowerDigit : ((n0.setWidth 32).setWidth 64).toNat = n0.toNat % 2 ^ 32 := by
    simp only [toNat_setWidth]; omega
  have upper := qrnndHalf_eq (n := n1) (x := n0 >>> 32) normal (by omega)
  have lower := qrnndHalf_eq (n := (qrnndHalf d n1 (n0 >>> 32)).2)
    (x := (n0.setWidth 32).setWidth 64) normal (by omega)
  rw [upperDigit] at upper
  rw [lowerDigit] at lower
  simp only [udivQrnnd, divideStep, ← upper, ← lower, toNat_or, toNat_shiftLeft, Nat.shiftLeft_eq]
  norm_num

theorem udivQrnnd_exact : WordDivision.ExactStep udivQrnnd := by
  intro n1 n0 d normal below
  have exact := divideStep_exact (rfl : 2 ^ 32 = _) d.isLt (by omega) n0.isLt (BitVec.lt_def.mp below)
  rw [← udivQrnnd_eq normal] at exact
  exact ⟨congrArg Prod.fst exact, congrArg Prod.snd exact⟩

variable {divisor : BitVec 64}

/-- Quotient and remainder of the unsigned 128-by-64 division are exact. -/
theorem divu128_exact (plow phigh : BitVec 64) (nonzero : divisor ≠ 0) :
    ((divu128 plow phigh divisor).2.1 ++ (divu128 plow phigh divisor).1).toNat =
        (phigh ++ plow).toNat / divisor.toNat ∧
      (divu128 plow phigh divisor).2.2.toNat = (phigh ++ plow).toNat % divisor.toNat := by
  rw [append_toNat, append_toNat]
  exact divide_exact udivQrnnd_exact nonzero (fun _ _ => rfl)

/-- Joining the truncated high quotient with the low one truncates the whole. -/
theorem join_truncated (positive : 0 < c) (small : low < 2 ^ 32) :
    high / c % 2 ^ 32 * 2 ^ 32 + (high % c * 2 ^ 32 + low) / c % 2 ^ 32 =
    (high * 2 ^ 32 + low) / c % 2 ^ 64 := by
  have digit := digit_quotient_lt (mod_lt high positive) small
  rw [(div_by_digits positive high (2 ^ 32) low).1]
  generalize (high % c * 2 ^ 32 + low) / c = lower at *
  omega

variable {c : BitVec 32}

theorem muldiv64Rounding_toNat (a : BitVec 64) (b : BitVec 32) (nonzero : c ≠ 0) (roundUp : Bool) :
    (muldiv64Rounding a b c roundUp).toNat =
      (a.toNat * b.toNat + if roundUp then c.toNat - 1 else 0) / c.toNat % 2 ^ 64 := by
  have aBound := a.isLt
  have bBound := b.isLt
  have cBound := c.isLt
  have positive : 0 < c.toNat := pos_of_ne_zero (fun zero => nonzero (eq_of_toNat_eq zero))
  have lowProduct := mul_lt_square (show a.toNat % 2 ^ 32 < 2 ^ 32 by omega) bBound
  have highProduct := mul_lt_square (show a.toNat / 2 ^ 32 < 2 ^ 32 by omega) bBound
  have predecessor : (c - 1).toNat = c.toNat - 1 := by
    rw [toNat_sub, show (1 : BitVec 32).toNat = 1 from rfl]
    omega
  obtain ⟨rounding, rounded, capped⟩ : ∃ rounding,
      (if roundUp then c.toNat - 1 else 0) = rounding ∧ rounding < 2 ^ 32 - 1 :=
    ⟨_, rfl, by split <;> omega⟩
  have low : (if roundUp then (LL.of a).low.setWidth 64 * b.setWidth 64 + (c - 1).setWidth 64
      else (LL.of a).low.setWidth 64 * b.setWidth 64).toNat =
      a.toNat % 2 ^ 32 * b.toNat + rounding := by
    subst rounded
    split <;> simp only [toNat_add, toNat_mul, toNat_setWidth, LL.of_low_toNat, predecessor]
    · simp only [mod_eq_of_lt (show a.toNat % 2 ^ 32 < 2 ^ 64 by omega),
        mod_eq_of_lt (show b.toNat < 2 ^ 64 by omega),
        mod_eq_of_lt (show c.toNat - 1 < 2 ^ 64 by omega)]
      omega
    · simp only [mod_eq_of_lt (show a.toNat % 2 ^ 32 < 2 ^ 64 by omega),
        mod_eq_of_lt (show b.toNat < 2 ^ 64 by omega)]
      omega
  rw [rounded]
  simp only [muldiv64Rounding]
  generalize (if roundUp then (LL.of a).low.setWidth 64 * b.setWidth 64 + (c - 1).setWidth 64
      else (LL.of a).low.setWidth 64 * b.setWidth 64) = rl at *
  set upper := a.toNat / 2 ^ 32 * b.toNat + rl.toNat / 2 ^ 32
  have whole : a.toNat * b.toNat + rounding = upper * 2 ^ 32 + rl.toNat % 2 ^ 32 := by
    have split : a.toNat * b.toNat = a.toNat / 2 ^ 32 * b.toNat * 2 ^ 32 + a.toNat % 2 ^ 32 * b.toNat := by
      conv_lhs => rw [← div_add_mod a.toNat (2 ^ 32)]
      ring
    omega
  have high : ((LL.of a).high.setWidth 64 * b.setWidth 64 + (rl >>> 32)).toNat = upper := by
    simp only [toNat_add, toNat_mul, toNat_setWidth, LL.of_high_toNat, toNat_ushiftRight,
      shiftRight_eq_div_pow]
    simp only [mod_eq_of_lt (show a.toNat / 2 ^ 32 < 2 ^ 64 by omega),
      mod_eq_of_lt (show b.toNat < 2 ^ 64 by omega)]
    omega
  have mask : (rl &&& 0xffffffff).toNat = rl.toNat % 2 ^ 32 := by
    rw [toNat_and]
    exact and_two_pow_sub_one_eq_mod _ 32
  have divisor : (c.setWidth 64).toNat = c.toNat := by
    rw [toNat_setWidth]; omega
  have remainder := mod_lt upper positive
  rw [whole, ← join_truncated positive (mod_lt _ (by decide)), LL.ll_toNat]
  simp only [toNat_setWidth, toNat_udiv, toNat_add, toNat_shiftLeft,
    toNat_umod, high, mask, divisor, Nat.shiftLeft_eq]
  rw [mod_eq_of_lt (show upper % c.toNat * 2 ^ 32 <
    2 ^ 64 by omega), mod_eq_of_lt (show upper %
    c.toNat * 2 ^ 32 + rl.toNat % 2 ^ 32 < 2 ^ 64 by omega)]

theorem Native.divide_toNat {x : BitVec 128} (c : BitVec 32) (nonneg : x.toNat < 2 ^ 127) :
    ((x.sdiv (c.setWidth 128)).setWidth 64).toNat = x.toNat / c.toNat % 2 ^ 64 := by
  have cBound := c.isLt
  have divisor : (c.setWidth 128).toNat = c.toNat := by
    rw [toNat_setWidth]; omega
  have dividendSign : x.msb = false := by
    rw [msb_eq_decide, decide_eq_false_iff_not]; omega
  have divisorSign : (c.setWidth 128).msb = false := by
    rw [msb_eq_decide, decide_eq_false_iff_not]; omega
  rw [sdiv_eq, dividendSign, divisorSign, toNat_setWidth]
  simp [divisor]

section

variable (a : BitVec 64) (b : BitVec 32)

theorem Native.product_toNat :
    (a.setWidth 128 * b.setWidth 128).toNat = a.toNat * b.toNat ∧
      a.toNat * b.toNat ≤ (2 ^ 64 - 1) * (2 ^ 32 - 1) := by
  have aBound := a.isLt
  have bBound := b.isLt
  have product : a.toNat * b.toNat ≤ (2 ^ 64 - 1) * (2 ^ 32 - 1) := Nat.mul_le_mul (by omega) (by omega)
  refine ⟨?_, product⟩
  rw [toNat_mul, toNat_setWidth, toNat_setWidth,
    mod_eq_of_lt (show a.toNat < 2 ^ 128 by omega),
    mod_eq_of_lt (show b.toNat < 2 ^ 128 by omega)]
  omega

theorem muldiv64_eq_native (nonzero : c ≠ 0) :
    muldiv64 a b c = Native.muldiv64 a b c := by
  obtain ⟨product, bound⟩ := Native.product_toNat a b
  apply eq_of_toNat_eq
  rw [muldiv64, muldiv64Rounding_toNat a b nonzero, Native.muldiv64,
    Native.divide_toNat c (by omega), product]
  rfl

theorem muldiv64RoundUp_eq_native (nonzero : c ≠ 0) :
    muldiv64RoundUp a b c = Native.muldiv64RoundUp a b c := by
  obtain ⟨product, bound⟩ := Native.product_toNat a b
  have cBound := c.isLt
  have positive : 0 < c.toNat := pos_of_ne_zero (fun zero => nonzero (eq_of_toNat_eq zero))
  have dividend : (a.setWidth 128 * b.setWidth 128 + c.setWidth 128 - 1).toNat =
      a.toNat * b.toNat + (c.toNat - 1) := by
    rw [toNat_sub, toNat_add, product, toNat_setWidth, show (1 : BitVec 128).toNat = 1 from rfl]
    omega
  apply eq_of_toNat_eq
  rw [muldiv64RoundUp, muldiv64Rounding_toNat a b nonzero, Native.muldiv64RoundUp,
    Native.divide_toNat c (by omega), dividend]
  rfl

end

/-- The portable helpers refine exact arithmetic. -/
theorem portable_refines_exact :
    (∀ a b : BitVec 64, ((mulu64 a b).2 ++ (mulu64 a b).1).toNat = a.toNat * b.toNat ∧
        ((muls64 a b).2 ++ (muls64 a b).1).toInt = a.toInt * b.toInt) ∧
    (∀ n1 n0 d : BitVec 64, 2 ^ 63 ≤ d.toNat → n1 < d →
    (udivQrnnd n1 n0 d).1.toNat = (n1 ++ n0).toNat / d.toNat ∧
        (udivQrnnd n1 n0 d).2.toNat = (n1 ++ n0).toNat % d.toNat) ∧
        (∀ plow phigh divisor : BitVec 64, divisor ≠ 0 →
      ((divu128 plow phigh divisor).2.1 ++ (divu128 plow phigh divisor).1).toNat =
          (phigh ++ plow).toNat / divisor.toNat ∧
        (divu128 plow phigh divisor).2.2.toNat = (phigh ++ plow).toNat % divisor.toNat) ∧
    (∀ plow phigh divisor : BitVec 64, divisor ≠ 0 → -2 ^ 127 ≤ (phigh ++ plow).toInt.tdiv divisor.toInt →
      (phigh ++ plow).toInt.tdiv divisor.toInt < 2 ^ 127 →
      ((divs128 plow phigh divisor).2.1 ++ (divs128 plow phigh divisor).1).toInt =
          (phigh ++ plow).toInt.tdiv divisor.toInt ∧
        (divs128 plow phigh divisor).2.2.toInt = (phigh ++ plow).toInt.tmod divisor.toInt) ∧
    (∀ (a : BitVec 64) (b c : BitVec 32), c ≠ 0 → muldiv64 a b c = Native.muldiv64 a b c ∧
        muldiv64RoundUp a b c = Native.muldiv64RoundUp a b c) := by
  refine ⟨fun a b => ⟨?_, muls64_exact a b⟩, fun n1 n0 d normal below => ?_,
    fun plow phigh _ nonzero => divu128_exact plow phigh nonzero,
    fun plow phigh divisor nonzero lower upper => ?_,
    fun a b c nonzero => ⟨muldiv64_eq_native a b nonzero, muldiv64RoundUp_eq_native a b nonzero⟩⟩
  · rw [append_toNat, mulu64, mul64_exact]
  · rw [append_toNat]
    exact udivQrnnd_exact n1 n0 d normal below
  have signed : divs128 plow phigh divisor = divideSigned divu128 plow phigh divisor := by
    simp only [divs128, divideSigned, negatePair]
    split_ifs <;> simp_all
  rw [signed]
  refine (divideSigned_exact_iff (by decide) rfl nonzero lower upper rfl).mpr ?_
  apply divu128_exact
  split
  · exact fun zero => nonzero (BitVec.neg_eq_zero_iff.mp zero)
  · exact nonzero

/-- A dividend that takes both division steps and their corrections. -/
theorem portable_refines_exact_at_corrected_quotient :
    (udivQrnnd 0x8000000000000000 0 0x80000000ffffffff).1 = 0xfffffffe00000005 ∧
    (divu128 1 0x8000000000000000 3).2.2.toNat = (0x80000000000000000000000000000001 : Nat) % 3 ∧
    (divs128 0 0xfffffffffffffff9 2).2.2.toInt = 0 ∧
    muldiv64 0xffffffffffffffff 1000000000 3 = Native.muldiv64 0xffffffffffffffff 1000000000 3 := by
  obtain ⟨_, step, unsigned, signed, scaled⟩ := portable_refines_exact
  refine ⟨?_, ?_, ?_, (scaled _ _ 3 (by decide)).1⟩
  · exact eq_of_toNat_eq (step 0x8000000000000000 0 0x80000000ffffffff (by decide) (by decide)).1
  · exact (unsigned 1 0x8000000000000000 3 (by decide)).2
  · exact (signed 0 0xfffffffffffffff9 2 (by decide) (by decide) (by decide)).2

end Qemu.HostUtils
