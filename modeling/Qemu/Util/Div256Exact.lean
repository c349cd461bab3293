import Qemu.Util.Div256
import Qemu.Lib.WordDivision

/-! Where the 256-bit division is exact: everywhere except when the arithmetic
shift of the high dividend word reaches the first division step. -/

namespace Qemu

open Int128 Nat WordDivision LongDivision Words
open BitVec hiding not_or not_and

namespace Int128

theorem getlo_toNat (a : Int128) : (getlo a).toNat = a.toNat % 2 ^ 64 := by
  rw [getlo, toNat_setWidth]

theorem gethi_eq (a : Int128) : gethi a = (a >>> 64).setWidth 64 := by
  apply eq_of_getLsbD_eq
  intro i inside
  have low : ¬ 128 ≤ i := by omega
  have high : 64 + i < 128 := by omega
  simp [gethi, getLsbD_sshiftRight, low, high]

theorem gethi_toNat (a : Int128) : (gethi a).toNat = a.toNat / 2 ^ 64 := by
  rw [gethi_eq, toNat_setWidth, toNat_ushiftRight]
  omega

theorem make64_toNat (a : BitVec 64) : (make64 a).toNat = a.toNat := by
  rw [make64, toNat_setWidth]
  omega

theorem make128_eq (lo hi : BitVec 64) : make128 lo hi = hi ++ lo := by
  apply eq_of_toNat_eq
  have low := lo.isLt
  rw [append_toNat, make128, toNat_or, toNat_shiftLeft, toNat_setWidth,
    toNat_setWidth, Nat.shiftLeft_eq, mod_eq_of_lt (show hi.toNat < 2 ^ 128 by omega),
    mod_eq_of_lt (show lo.toNat < 2 ^ 128 by omega),
    mod_eq_of_lt (show hi.toNat * 2 ^ 64 < 2 ^ 128 by omega), ← Nat.shiftLeft_eq,
    shiftLeft_add_eq_or_of_lt low]

theorem make128_toNat (lo hi : BitVec 64) : (make128 lo hi).toNat = hi.toNat * 2 ^ 64 + lo.toNat := by
  rw [make128_eq, append_toNat]

theorem zero_iff (word : BitVec w) : word = 0 ↔ word.toNat = 0 := toNat_inj.symm

/-- The leading zeroes of a word are those of its topmost nonzero part, which starts at bit `k`. -/
theorem clz_of_top {a : Int128} {part : BitVec 64} (some : part ≠ 0) (k : Nat)
    (low : part.toNat * 2 ^ k ≤ a.toNat)
    (high : a.toNat < (part.toNat + 1) * 2 ^ k) (inside : k ≤ 64) :
    part.clz.toNat + (64 - k) = a.clz.toNat := by
  have below := clz_lt some
  have least := two_pow_sub_clz_le_toNat_of_ne_zero (by decide) some
  have most := toNat_lt_two_pow_sub_clz (x := part)
  refine (clz_unique (by omega) ?_ ?_).symm
  · rw [show 128 - 1 - (part.clz.toNat + (64 - k)) = 64 - 1 - part.clz.toNat + k by omega, pow_add]
    exact (Nat.mul_le_mul_right _ least).trans low
  · rw [show 128 - (part.clz.toNat + (64 - k)) = 64 - part.clz.toNat + k by omega, pow_add]
    exact high.trans_le (Nat.mul_le_mul_right _ most)

theorem clz128_eq (nonzero : a ≠ 0) : clz128 a = a.clz.toNat := by
  have high := gethi_toNat a
  have low := getlo_toNat a
  have split : a.sshiftRight 64 = 0 ↔ gethi a = 0 := by
    rw [zero_iff (gethi a), high]
    have bound := a.isLt
    rw [← toInt_inj, toInt_sshiftRight, Int.shiftRight_eq_div_pow, toInt_eq a,
      show BitVec.toInt (0 : Int128) = 0 from rfl]
    split <;> omega
  simp only [clz128, ne_eq, split]
  split
  next some => exact clz_of_top some 64 (by omega) (by omega) le_rfl
  next none =>
    rw [Classical.not_not, zero_iff] at none
    refine clz_of_top (fun zero => nonzero ?_) 0 (by omega) (by omega) (by decide)
    rw [zero_iff] at zero ⊢
    omega

end Int128

/-- Putting the halves back around the product gives the truncated product. -/
theorem mulu128_product (q : Int128) (factor : BitVec 64) :
    (make128 (mulu128 (getlo q) (gethi q) factor).1 (mulu128 (getlo q) (gethi q) factor).2.1).toNat =
      q.toNat * factor.toNat % 2 ^ 128 := by
  have joined : ((gethi q).setWidth 128 <<< 64) ||| (getlo q).setWidth 128 = q := by
    apply eq_of_toNat_eq
    rw [← make128, make128_toNat, gethi_toNat, getlo_toNat]
    omega
  have widened : (factor.setWidth 128).toNat = factor.toNat := by
    rw [toNat_setWidth]; omega
  rw [mulu128, joined, make128_toNat]
  simp only [toNat_setWidth, toNat_ushiftRight, toNat_mul, widened]
  omega

/-- Each half of the 256-bit step is one digit step in base 2^64. -/
theorem qrnnd256Half_eq {d n : Int128} {x : BitVec 64} (normal : 2 ^ 127 ≤ d.toNat) :
    ((qrnnd256Half d n x).1.toNat, (qrnnd256Half d n x).2.toNat) = digitStep
    (2 ^ 64) d.toNat n.toNat x.toNat := by
  have leading : 0 < d.toNat / 2 ^ 64 := by omega
  have topDigit : (make64 (gethi d)).toNat = d.toNat / 2 ^ 64 := by rw [make64_toNat, gethi_toNat]
  have lowDigit : (getlo (make64 (getlo d))).toNat = d.toNat % 2 ^ 64 := by
    rw [getlo_toNat, make64_toNat, getlo_toNat, mod_mod]
  have guess : (divu n (make64 (gethi d))).toNat = estimate (2 ^ 64) d.toNat n.toNat := by
    rw [divu, toNat_udiv, topDigit, estimate]
  have taken := mulu128_product (divu n (make64 (gethi d))) (getlo (make64 (getlo d)))
  rw [guess, lowDigit] at taken
  have left : (make128 x (getlo (remu n (make64 (gethi d))))).toNat = rest (2 ^ 64) d.toNat n.toNat
    x.toNat := by
    have remainder := mod_lt n.toNat leading
    rw [make128_toNat, getlo_toNat, remu, toNat_umod, topDigit, rest,
      mod_eq_of_lt (show n.toNat % (d.toNat / 2 ^ 64) < 2 ^ 64 by omega)]
  rw [← correctWord_toNat (by norm_num) leading x.isLt guess taken left]
  simp only [qrnnd256Half, correctWord]
  split_ifs <;> simp_all

theorem udiv256Qrnnd_eq (n1 n0 : Int128) (normal : 2 ^ 127 ≤ d.toNat) :
    ((udiv256Qrnnd n1 n0 d).1.toNat, (udiv256Qrnnd n1 n0 d).2.toNat) =
      divideStep (2 ^ 64) d.toNat n1.toNat n0.toNat := by
  have upper := qrnnd256Half_eq (n := n1) (x := gethi n0) normal
  have lower := qrnnd256Half_eq (n := (qrnnd256Half d n1 (gethi n0)).2) (x := getlo n0) normal
  rw [gethi_toNat] at upper
  rw [getlo_toNat] at lower
  simp only [udiv256Qrnnd, divideStep, ← upper, ← lower, lshift, toNat_or,
    toNat_shiftLeft, Nat.shiftLeft_eq]
  norm_num

theorem udiv256Qrnnd_exact : WordDivision.ExactStep udiv256Qrnnd := by
  intro n1 n0 d normal below
  have exact := divideStep_exact (rfl : 2 ^ 64 = _) d.isLt (by omega) n0.isLt (lt_def.mp below)
  rw [← udiv256Qrnnd_eq n1 n0 normal] at exact
  exact ⟨congrArg Prod.fst exact, congrArg Prod.snd exact⟩

variable {divisor : Int128}

theorem divu256_eq (plow phigh : Int128) (nonzero : divisor ≠ 0) :
    divu256 plow phigh divisor = divide udiv256Qrnnd rshift plow phigh divisor := by
  simp only [divu256, divide, clz128_eq nonzero, nz, lshift, urshift, divu, remu]
  by_cases zero : phigh = 0 <;> simp [zero]

variable {a : Int128}

/-- The arithmetic shift of a word with its sign set adds leading ones. -/
theorem rshift_toNat (negative : 2 ^ 127 ≤ a.toNat) (small : sh ≤ 128) :
    (rshift a (128 - sh)).toNat = 2 ^ 128 - 2 ^ sh + a.toNat / 2 ^ (128 - sh) := by
  have bound := a.isLt
  have sign : a.msb = true := by rw [msb_eq_decide, decide_eq_true_eq]; exact negative
  have whole : 2 ^ sh ≤ 2 ^ 128 := Nat.pow_le_pow_right (by decide) small
  rw [← pow_sub_mul_pow 2 small] at bound
  have digits := Nat.div_lt_of_lt_mul bound
  have complement := Nat.mul_sub_div a.toNat (2 ^ (128 - sh)) (2 ^ sh) bound
  rw [pow_sub_mul_pow 2 small] at complement
  rw [rshift, toNat_sshiftRight_of_msb_true sign, Nat.shiftRight_eq_div_pow, Nat.sub_sub _ 1 a.toNat,
    Nat.add_comm 1 a.toNat, complement]
  generalize a.toNat / 2 ^ (128 - sh) = kept at *
  generalize 2 ^ sh = ones at *
  omega

/-- A divisor is all ones exactly when normalizing leaves no zero above the
shifted-in ones. -/
theorem ones_iff_normalized (nonzero : divisor ≠ 0) :
    (∃ k, divisor.toNat + 1 = 2 ^ k) ↔ divisor.toNat * 2 ^ divisor.clz.toNat =
    2 ^ 128 - 2 ^ divisor.clz.toNat := by
  obtain ⟨lower, upper⟩ := normalized nonzero
  have small := clz_lt nonzero
  generalize divisor.clz.toNat = sh at *
  have unit : 0 < 2 ^ sh := Nat.two_pow_pos sh
  have cap : 2 ^ sh ≤ 2 ^ 127 := Nat.pow_le_pow_right (by decide) (by omega)
  have value := add_mul divisor.toNat 1 (2 ^ sh)
  constructor
  · rintro ⟨k, same⟩
    rw [same, ← pow_add] at value
    have more : 2 ^ 127 < 2 ^ (k + sh) := by omega
    have less : 2 ^ (k + sh) < 2 ^ 129 := by omega
    have above := (Nat.pow_lt_pow_iff_right (by decide : 1 < 2)).mp more
    have below := (Nat.pow_lt_pow_iff_right (by decide : 1 < 2)).mp less
    rw [show k + sh = 128 by omega] at value
    omega
  · intro same
    refine ⟨128 - sh, ?_⟩
    have power := pow_sub_mul_pow 2 small.le
    exact eq_of_mul_eq_mul_right unit (by omega)

section

variable {d high top low : Int128} (normal : 2 ^ 127 ≤ d.toNat)
include normal

/-- One divisor too many drops out of a step by an all-ones divisor. -/
theorem udiv256Qrnnd_of_ones (some : 1 ≤ zeros) (ones : d.toNat = 2 ^ 128 - 2 ^ zeros)
    (surplus : high.toNat = d.toNat + top.toNat) : udiv256Qrnnd high low d = udiv256Qrnnd top low d := by
  have word := high.isLt
  have spoiled := udiv256Qrnnd_eq high low normal
  have right := udiv256Qrnnd_eq top low normal
  rw [surplus] at word spoiled
  have fits := @product_fits_of_ones 64 _ _ _ some ones word
  rw [divideStep_surplus_eq rfl d.isLt (by omega) low.isLt (by omega) fits] at spoiled
  rw [divideStep_exact rfl d.isLt (by omega) low.isLt (by omega), ← spoiled] at right
  exact Prod.ext (eq_of_toNat_eq (congrArg Prod.fst right.symm))
    (eq_of_toNat_eq (congrArg Prod.snd right.symm))

/-- More than that changes its quotient. -/
theorem udiv256Qrnnd_of_gap (spoils : excess ≠ 0)
    (surplus : high.toNat = d.toNat + excess + top.toNat) :
    (udiv256Qrnnd high low d).1 ≠ (udiv256Qrnnd top low d).1 := by
  have word := high.isLt
  have spoiled := congrArg Prod.fst (udiv256Qrnnd_eq high low normal)
  have right := congrArg Prod.fst (udiv256Qrnnd_eq top low normal)
  rw [surplus] at word spoiled
  rw [divideStep_exact rfl d.isLt (by omega) low.isLt (by omega)] at right
  intro same
  rw [same, right] at spoiled
  exact divideStep_surplus_ne rfl d.isLt (by omega) low.isLt (by omega) (by omega) spoiled.symm

end

/-- The copied sign bits are one divisor, and more unless the divisor is all ones. -/
theorem rshift_surplus (nonzero : divisor ≠ 0) (negative : 2 ^ 127 ≤ phigh.toNat) :
    ∃ excess, ((∃ k, divisor.toNat + 1 = 2 ^ k) ↔ excess = 0) ∧
      2 ^ 128 - 2 ^ divisor.clz.toNat = (divisor <<< divisor.clz.toNat).toNat + excess ∧
      (rshift phigh (128 - divisor.clz.toNat)).toNat =
        (divisor <<< divisor.clz.toNat).toNat + excess + (phigh >>> (128 - divisor.clz.toNat)).toNat := by
  have normal := clz_normalizes nonzero
  have power := pow_sub_mul_pow 2 normal.small.le
  have fits : divisor.toNat + 1 ≤ 2 ^ (128 - divisor.clz.toNat) :=
    Nat.lt_of_mul_lt_mul_right (by rw [power]; exact (normalized nonzero).2)
  have scaled := Nat.mul_le_mul_right (2 ^ divisor.clz.toNat) fits
  rw [Nat.add_mul, power, ← normal.value] at scaled
  have ones := ones_iff_normalized nonzero
  rw [← normal.value] at ones
  refine ⟨2 ^ 128 - 2 ^ divisor.clz.toNat - (divisor <<< divisor.clz.toNat).toNat,
    ones.trans (by omega), by omega, ?_⟩
  rw [rshift_toNat negative normal.small.le, toNat_ushiftRight, Nat.shiftRight_eq_div_pow]
  omega

/-- The unsigned division is exact unless the dividend has its top bit set and
the divisor is short and not all ones. -/
theorem divu256_exact_iff (plow phigh : Int128) (nonzero : divisor ≠ 0) :
    (((divu256 plow phigh divisor).2.1 ++ (divu256 plow phigh divisor).1).toNat =
        (phigh ++ plow).toNat / divisor.toNat ∧
      (divu256 plow phigh divisor).2.2.toNat = (phigh ++ plow).toNat % divisor.toNat) ↔
    (phigh.toNat < 2 ^ 127 ∨ 2 ^ 127 ≤ divisor.toNat ∨ ∃ k, divisor.toNat + 1 = 2 ^ k) := by
  have clear : divisor.clz.toNat ≠ 0 → divisor.toNat < 2 ^ 127 := by
    intro shift
    have upper := (normalized nonzero).2
    have two : 2 ^ 1 ≤ 2 ^ divisor.clz.toNat := Nat.pow_le_pow_right (by decide) (by omega)
    have := mul_le_mul_left divisor.toNat two
    omega
  rw [append_toNat, append_toNat, divu256_eq plow phigh nonzero]
  constructor
  · intro exact
    by_contra defect
    simp only [not_or, not_lt] at defect
    obtain ⟨negative, short, gap⟩ := defect
    have above : ¬ phigh < divisor := by rw [lt_def]; omega
    have shift : divisor.clz.toNat ≠ 0 := by
      intro zero
      have normal := (normalized nonzero).1
      rw [zero] at normal
      omega
    have reference := @divide_exact _ _ (fun word count => word >>> count) plow phigh _
      udiv256Qrnnd_exact nonzero (fun _ _ => rfl)
    have high : (divide udiv256Qrnnd rshift plow phigh divisor).2.1 =
        (divide udiv256Qrnnd (fun word count => word >>> count)
          plow phigh divisor).2.1 := by
      exact eq_of_toNat_eq (by omega)
    rw [divide_high nonzero above shift, divide_high nonzero above shift] at high
    obtain ⟨excess, ones, -, surplus⟩ := rshift_surplus nonzero negative
    exact udiv256Qrnnd_of_gap (clz_normalizes nonzero).large (fun none => gap (ones.mpr none)) surplus high
  · intro safe
    refine divide_exact udiv256Qrnnd_exact nonzero (fun shift _ => ?_)
    rcases lt_or_ge phigh.toNat (2 ^ 127) with positive | negative
    · have sign : phigh.msb = false := by
        rw [msb_eq_decide, decide_eq_false_iff_not]; omega
      rw [rshift, sshiftRight_eq_of_msb_false sign]
    have short := clear shift
    obtain ⟨excess, ones, whole, surplus⟩ := rshift_surplus nonzero negative
    obtain rfl : excess = 0 := ones.mp (by
      rcases safe with impossible | impossible | ones
      · omega
      · omega
      · exact ones)
    exact udiv256Qrnnd_of_ones (clz_normalizes nonzero).large (pos_of_ne_zero shift) whole.symm surplus

theorem divs256_eq (plow phigh divisor : Int128) :
    divs256 plow phigh divisor = divideSigned divu256 plow phigh divisor := by
  simp only [divs256, divideSigned, negatePair, nonneg, nz]
  split_ifs <;> simp_all

/-- The signed division inherits the defect for the most negative dividend only. -/
theorem divs256_exact_iff (plow phigh : Int128) (nonzero : divisor ≠ 0)
    (lower : -2 ^ 255 ≤ (phigh ++ plow).toInt.tdiv divisor.toInt)
    (upper : (phigh ++ plow).toInt.tdiv divisor.toInt < 2 ^ 255) :
    (((divs256 plow phigh divisor).2.1 ++ (divs256 plow phigh divisor).1).toInt =
        (phigh ++ plow).toInt.tdiv divisor.toInt ∧
      (divs256 plow phigh divisor).2.2.toInt = (phigh ++ plow).toInt.tmod divisor.toInt) ↔
    ((phigh ++ plow).toInt ≠ -2 ^ 255 ∨ 2 ^ 127 ≤ divisor.toInt.natAbs ∨
    ∃ k, divisor.toInt.natAbs + 1 = 2 ^ k) := by
  have positive : (if divisor.slt 0 then -divisor else divisor) ≠ 0 := by
    split
    · exact fun zero => nonzero (neg_eq_zero_iff.mp zero)
    · exact nonzero
  rw [divs256_eq, divideSigned_exact_iff (by decide) rfl nonzero lower upper rfl,
    divu256_exact_iff _ _ positive, magnitude_toNat]
  refine or_congr ?_ Iff.rfl
  have value := @magnitudePair_toNat 128 plow phigh (by decide) _ rfl
  rw [append_toNat] at value
  have least := (phigh ++ plow).le_toInt
  have most := (phigh ++ plow).toInt_lt
  generalize (if phigh.slt 0 then negatePair plow phigh else (plow, phigh)) = pair at *
  omega

theorem extended_toNat (a : Int128) : (a ++ (0 : Int128)).toNat = a.toNat * 2 ^ 128 := by
  rw [append_toNat, show (0 : Int128).toNat = 0 from rfl, add_zero]

theorem extended_toInt (a : Int128) : (a ++ (0 : Int128)).toInt = a.toInt * 2 ^ 128 := by
  rw [toInt_eq, toInt_eq, extended_toNat]
  split <;> split <;> omega

variable {b : Int128}

theorem vdiveuq_exact (nonzero : b ≠ 0) (fits : a.toNat * 2 ^ 128 / b.toNat < 2 ^ 128) :
    (Ppc.helperVDIVEUQ a b).toNat = a.toNat * 2 ^ 128 / b.toNat := by
  have positive : 0 < b.toNat := pos_of_ne_zero (fun zero => nonzero (eq_of_toNat_eq zero))
  have below : a.toNat < b.toNat := by
    rw [div_lt_iff_lt_mul positive, mul_comm] at fits
    exact Nat.lt_of_mul_lt_mul_left fits
  have exact := ((divu256_exact_iff 0 a nonzero).mpr (by omega)).1
  have dividend := extended_toNat a
  rw [dividend, append_toNat] at exact
  rw [Ppc.helperVDIVEUQ, if_neg (by simpa [nz] using nonzero)]
  omega

section

variable (nonzero : b ≠ 0) (lower : -2 ^ 127 ≤ (a.toInt * 2 ^ 128).tdiv b.toInt)
  (upper : (a.toInt * 2 ^ 128).tdiv b.toInt < 2 ^ 127)
include nonzero lower upper

/-- A quotient that fits one word rules out the most negative dividend. -/
theorem ne_min_of_fits : a.toInt ≠ -2 ^ 127 := by
  intro most
  have bLow := b.le_toInt
  have bHigh := b.toInt_lt
  have positive : 0 < b.toInt.natAbs :=
    Int.natAbs_pos.mpr (fun zero => nonzero (eq_of_toInt_eq (by simpa using zero)))
  have large : 2 ^ 255 / 2 ^ 127 ≤ 2 ^ 255 / b.toInt.natAbs := div_le_div_left (by omega) positive
  rw [tdiv_eq_magnitudes, most, show (-2 ^ 127 * 2 ^ 128 : Int).natAbs = 2 ^ 255 from rfl]
    at lower upper
  generalize 2 ^ 255 / b.toInt.natAbs = quotient at *
  generalize (decide ((-2 ^ 127 * 2 ^ 128 : Int) < 0) ^^ decide (b.toInt < 0)) = sign at *
  cases sign <;> simp only [if_false, Bool.false_eq_true] at lower upper <;> omega

theorem vdivesq_exact : (Ppc.helperVDIVESQ a b).toInt = (a.toInt * 2 ^ 128).tdiv b.toInt := by
  have fits := ne_min_of_fits nonzero lower upper
  have dividend := extended_toInt a
  have exact := ((divs256_exact_iff 0 a nonzero (by rw [dividend]; omega)
    (by rw [dividend]; omega)).mpr (by left; omega)).1
  have defined : ¬ (!nz b || (b == makes64 (-1) && a == make128 0 (intMin 64))) = true := by
    simp only [nz, bne, Bool.not_not, Bool.or_eq_true, beq_iff_eq, Bool.and_eq_true, not_or, not_and]
    refine ⟨nonzero, fun _ least => fits ?_⟩
    rw [least]
    decide
  rw [Ppc.helperVDIVESQ, if_neg defined, ← dividend, ← exact]
  rw [dividend] at exact
  rw [← exact] at lower upper
  generalize divs256 0 a b = result at *
  rw [toInt_eq (result.2.1 ++ result.1), append_toNat] at lower upper ⊢
  rw [toInt_eq result.1]
  split at lower <;> split at upper <;> split <;> omega

end

/-- Where the 256-bit division and the vector helpers built on it are exact. -/
theorem division256_exact_iff (plow phigh divisor : Int128) (nonzero : divisor ≠ 0) :
    ((((divu256 plow phigh divisor).2.1 ++ (divu256 plow phigh divisor).1).toNat =
          (phigh ++ plow).toNat / divisor.toNat ∧
        (divu256 plow phigh divisor).2.2.toNat = (phigh ++ plow).toNat % divisor.toNat) ↔
      (phigh.toNat < 2 ^ 127 ∨ 2 ^ 127 ≤ divisor.toNat ∨ ∃ k, divisor.toNat + 1 = 2 ^ k)) ∧
    (-2 ^ 255 ≤ (phigh ++ plow).toInt.tdiv divisor.toInt →
    (phigh ++ plow).toInt.tdiv divisor.toInt < 2 ^ 255 →
      ((((divs256 plow phigh divisor).2.1 ++ (divs256 plow phigh divisor).1).toInt =
          (phigh ++ plow).toInt.tdiv divisor.toInt ∧
        (divs256 plow phigh divisor).2.2.toInt = (phigh ++ plow).toInt.tmod divisor.toInt) ↔
      ((phigh ++ plow).toInt ≠ -2 ^ 255 ∨ 2 ^ 127 ≤ divisor.toInt.natAbs ∨
      ∃ k, divisor.toInt.natAbs + 1 = 2 ^ k))) ∧
    (phigh.toNat * 2 ^ 128 / divisor.toNat < 2 ^ 128 →
      (Ppc.helperVDIVEUQ phigh divisor).toNat = phigh.toNat * 2 ^ 128 / divisor.toNat) ∧
    (-2 ^ 127 ≤ (phigh.toInt * 2 ^ 128).tdiv divisor.toInt →
    (phigh.toInt * 2 ^ 128).tdiv divisor.toInt < 2 ^ 127 →
      (Ppc.helperVDIVESQ phigh divisor).toInt = (phigh.toInt * 2 ^ 128).tdiv divisor.toInt) :=
  ⟨divu256_exact_iff plow phigh nonzero, divs256_exact_iff plow phigh nonzero,
    vdiveuq_exact nonzero, vdivesq_exact nonzero⟩

/-- The high quotient word goes wrong for a divisor of five. -/
theorem divu256_sign_copied_by_five :
    (divu256 0 (intMin 128) 5).2.1.toNat ≠ 2 ^ 127 / 5 ∧
      ((divu256 0 (intMin 128) 5).2.1 ++ (divu256 0 (intMin 128) 5).1).toNat ≠
        (intMin 128 ++ (0 : Int128)).toNat / 5 := by
  decide +kernel

theorem division256_exact_at_three :
    ((divu256 7 (intMin 128) 3).2.1 ++ (divu256 7 (intMin 128) 3).1).toNat =
        (intMin 128 ++ (7 : Int128)).toNat / 3 ∧
      (Ppc.helperVDIVESQ (-5) 12).toInt = ((-5 : Int128).toInt * 2 ^ 128).tdiv 12 := by
  obtain ⟨unsigned, _⟩ := division256_exact_iff 7 (intMin 128) 3 (by decide)
  obtain ⟨_, _, _, extended⟩ := division256_exact_iff 0 (-5) 12 (by decide)
  exact ⟨(unsigned.mpr (.inr (.inr ⟨2, rfl⟩))).1, extended (by decide) (by decide)⟩

end Qemu
