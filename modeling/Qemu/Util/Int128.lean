import Qemu.Util.Div256
import Qemu.Util.HostUtilsExact

/-! The 128-bit integers of hosts without such a type: pairs of words, and their division. -/

namespace Qemu.HostUtils

open BitVec Nat Words

/-- `struct Int128`, in the place of the native `Qemu.Int128` -/
structure Int128 where
  lo : BitVec 64
  hi : BitVec 64
  deriving DecidableEq, Repr

namespace Int128

/-- The native number of both words -/
def bits (a : Int128) : Qemu.Int128 := a.hi ++ a.lo

def lshift (a : Int128) (n : Nat) : Int128 :=
  let l := a.lo <<< (n % 64)
  if n ≥ 64 then ⟨0, l⟩
  else if n > 0 then ⟨l, (a.hi <<< n) ||| (a.lo >>> (64 - n))⟩
  else a

def neg (a : Int128) : Int128 :=
  let lo := -a.lo
  ⟨lo, ~~~a.hi + if lo = 0 then 1 else 0⟩

def nonneg (a : Int128) : Bool := !a.hi.slt 0

/-- The quotient from the leading word of the shifted divisor -/
def estimate (u v : Int128) : BitVec 64 :=
  let s := clz64 v.hi
  let hi := (v.lshift s).hi
  if hi > u.hi then
    let (lo, _, _) := divu128 u.lo u.hi hi
    (lshift ⟨lo, 0⟩ s).hi
  else -- prevent overflow
    let (lo, _, _) := divu128 u.lo (u.hi - hi) hi
    (lshift ⟨lo, 1⟩ s).hi

/-- The estimate corrected once, and the remainder -/
def repair (u v : Int128) (qq : BitVec 64) : Int128 × Int128 :=
  let tmp := qq * v.hi
  let (lo, hi) := mulu64 qq v.lo
  let hi := hi + tmp
  let (qq, lo, hi) :=
    if hi < tmp ∨ hi > u.hi ∨ (hi = u.hi ∧ lo > u.lo) then
      let qq := qq - 1
      let (lo, hi) := mulu64 qq v.lo
      (qq, lo, hi + qq * v.hi)
    else (qq, lo, hi)
  (⟨qq, 0⟩, ⟨u.lo - lo, u.hi - (hi + if u.lo < lo then 1 else 0)⟩)

/-- As `(*q, remainder)` -/
def divrem128 (u v : Int128) : Int128 × Int128 :=
  if clz64 v.hi = 64 then
    let (lo, hi, tmp) := divu128 u.lo u.hi v.lo
    (⟨lo, hi⟩, ⟨tmp, 0⟩)
  else repair u v (estimate u v)

def divu (a b : Int128) : Int128 := (divrem128 a b).1

def remu (a b : Int128) : Int128 := (divrem128 a b).2

def divs (a b : Int128) : Int128 :=
  let sgna := !a.nonneg
  let sgnb := !b.nonneg
  let q := (divrem128 (if sgna then a.neg else a) (if sgnb then b.neg else b)).1
  if sgna != sgnb then q.neg else q

def rems (a b : Int128) : Int128 :=
  let sgna := !a.nonneg
  let sgnb := !b.nonneg
  let r := (divrem128 (if sgna then a.neg else a) (if sgnb then b.neg else b)).2
  if sgna then r.neg else r

section

variable (a : Int128)

theorem bits_toNat : a.bits.toNat = a.hi.toNat * 2 ^ 64 + a.lo.toNat := append_toNat a.hi a.lo

theorem single_toNat (x : BitVec 64) : (⟨x, 0⟩ : Int128).bits.toNat = x.toNat := by simp [bits_toNat]

theorem neg_bits : a.neg.bits = -a.bits := by
  rw [bits, bits, ← WordDivision.negatePair_append, neg, WordDivision.negatePair]
  by_cases zero : a.lo = 0#64
  · simp [zero, neg_eq_not_add]
  · simp [zero]

theorem nonneg_bits : a.nonneg = a.bits.nonneg := by
  rw [nonneg, Qemu.Int128.nonneg, bits, append_slt_zero (by decide)]

/-- The words that are divided hold the magnitude. -/
theorem magnitude_toNat : (if !a.nonneg then a.neg else a).bits.toNat = a.bits.toInt.natAbs := by
  rw [← Words.magnitude_toNat, nonneg_bits, Qemu.Int128.nonneg, Bool.not_not]
  split
  · rw [neg_bits]
  · rfl

theorem not_nonneg : (!a.nonneg) = decide (a.bits.toInt < 0) := by
  rw [nonneg_bits, Qemu.Int128.nonneg, Bool.not_not]
  rfl

end

section Estimate

variable {u v p : Nat} (dividend : u < 2 ^ 128)
include dividend

/-- The quotient by the leading digits of a divisor is at most one too large. -/
theorem estimate_le (normal : 2 ^ 63 ≤ v / p) (large : p = 2 ∨ 4 ≤ p) :
    u / v ≤ u / (v / p) / p ∧ u / (v / p) / p ≤ u / v + 1 := by
  have positive : 0 < v / p * p := Nat.mul_pos (by omega) (by omega)
  have below := div_mul_le_self v p
  rw [Nat.div_div_eq_div_mul]
  refine ⟨div_le_div_left below positive, ?_⟩
  have product := div_mul_le_self u (v / p * p)
  have split := div_add_mod' v p
  have rest := mod_lt v (show 0 < p by omega)
  rw [← add_div_right u (by omega), Nat.le_div_iff_mul_le (by omega)]
  generalize u / (v / p * p) = e at *
  -- the digits that the estimate leaves out are too few
  have short : e * (v % p) ≤ v := by
    have leading := Nat.mul_le_mul_right (e * p) normal
    rw [Nat.mul_left_comm] at product
    rcases large with rfl | four
    · have := Nat.mul_le_mul_left e (show v % 2 ≤ 1 by omega)
      omega
    · have := Nat.mul_le_mul_left e rest.le
      have := Nat.mul_le_mul normal four
      omega
  calc e * v = e * (v / p * p) + e * (v % p) := by rw [← Nat.mul_add, split]
    _ ≤ u + v := Nat.add_le_add product short

/-- The product of the estimate with the high word does not wrap. -/
theorem estimate_mul_lt (divides : p ∣ 2 ^ 64) : u / (v / p) / p * (v / 2 ^ 64) < 2 ^ 64 := by
  obtain ⟨m, power⟩ := divides
  have high : v / 2 ^ 64 * 2 ^ 64 ≤ v / p * p := by
    rw [power, ← Nat.div_div_eq_div_mul, Nat.mul_comm p, ← Nat.mul_assoc]
    exact Nat.mul_le_mul_right p (div_mul_le_self _ m)
  have product := div_mul_le_self u (v / p * p)
  rw [← Nat.div_div_eq_div_mul] at product
  have := Nat.mul_le_mul_left (u / (v / p) / p) high
  rw [← Nat.mul_assoc] at this
  omega

end Estimate

theorem lshift_hi {a : Int128} (small : s < 64) (fits : a.hi.toNat * 2 ^ s < 2 ^ 64) :
    (a.lshift s).hi.toNat = a.bits.toNat / 2 ^ (64 - s) := by
  have power : 2 ^ 64 = 2 ^ (64 - s) * 2 ^ s := (pow_sub_mul_pow 2 small.le).symm
  have value : a.bits.toNat / 2 ^ (64 - s) = a.hi.toNat * 2 ^ s + a.lo.toNat / 2 ^ (64 - s) := by
    rw [bits_toNat, power, Nat.mul_left_comm, mul_add_div (Nat.two_pow_pos _)]
  rw [value, lshift, if_neg (by omega)]
  split
  · rw [shift_pair_toNat _ _ small.le, mod_eq_of_lt fits]
  · obtain rfl : s = 0 := by omega
    rw [pow_zero, mul_one, div_eq_of_lt a.lo.isLt, add_zero]

section Division

variable {u v : Int128}

theorem divu128_low {lo hi divisor : BitVec 64} (nonzero : divisor ≠ 0) (below : hi < divisor) :
    (divu128 lo hi divisor).1.toNat = (hi ++ lo).toNat / divisor.toNat := by
  obtain ⟨quotient, -⟩ := divu128_exact lo hi nonzero
  have small := LongDivision.digit_quotient_lt (BitVec.lt_def.mp below) lo.isLt
  rw [append_toNat hi lo, append_toNat] at quotient
  rw [append_toNat]
  omega

theorem leading (nonzero : v.hi ≠ 0) : (v.lshift (clz64 v.hi)).hi.toNat = v.bits.toNat / 2 ^
    (64 - clz64 v.hi) ∧ 2 ^ 63 ≤ v.bits.toNat / 2 ^ (64 - clz64 v.hi) := by
  have small : v.hi.clz.toNat < 64 := clz_lt nonzero
  obtain ⟨normal, fits⟩ := normalized nonzero
  have value := lshift_hi small fits
  refine ⟨value, normal.trans ?_⟩
  rw [Nat.le_div_iff_mul_le (Nat.two_pow_pos _), Nat.mul_assoc, clz64, ← pow_add,
    Nat.add_sub_cancel' small.le, bits_toNat]
  omega

theorem estimate_toNat (nonzero : v.hi ≠ 0) : (estimate u v).toNat =
    u.bits.toNat / (v.bits.toNat / 2 ^ (64 - clz64 v.hi)) / 2 ^ (64 - clz64 v.hi) := by
  obtain ⟨value, normal⟩ := leading nonzero
  have small : clz64 v.hi < 64 := clz_lt nonzero
  have power : 2 ^ clz64 v.hi < 2 ^ 64 := Nat.pow_lt_pow_right (by decide) small
  rw [← value] at normal ⊢
  have some : (v.lshift (clz64 v.hi)).hi ≠ 0 := fun zero => by simp [zero] at normal
  rw [estimate]
  generalize (v.lshift (clz64 v.hi)).hi = hi at *
  split
  next above =>
    rw [lshift_hi small (by simp), bits_toNat]
    rw [divu128_low some above]
    simp [bits]
  next above =>
    have order := BitVec.le_def.mp (BitVec.not_lt.mp above)
    have difference : (u.hi - hi).toNat = u.hi.toNat - hi.toNat := toNat_sub_of_le order
    rw [lshift_hi small (by simpa using power), bits_toNat]
    dsimp only
    rw [divu128_low some (by rw [lt_def]; omega), append_toNat, difference, bits_toNat]
    rw [show u.hi.toNat * 2 ^ 64 + u.lo.toNat = (u.hi.toNat - hi.toNat) * 2 ^ 64 + u.lo.toNat +
      hi.toNat * 2 ^ 64 by omega, add_mul_div_left _ _ (by omega), add_comm]
    rfl

section Repair

variable {x : BitVec 64} (noWrap : x.toNat * v.hi.toNat < 2 ^ 64)
include noWrap

theorem product_toNat :
    ((mulu64 x v.lo).2.toNat + (x * v.hi).toNat) * 2 ^ 64 + (mulu64 x v.lo).1.toNat =
    x.toNat * v.bits.toNat := by
  have low := mul64_exact x v.lo
  rw [toNat_mul, mod_eq_of_lt noWrap, bits_toNat, Nat.mul_add, ← low, mulu64]
  ring

/-- The repair notices that the product exceeds the dividend, also when its words wrap. -/
theorem exceeds_iff : ((mulu64 x v.lo).2 + x * v.hi < x * v.hi ∨ (mulu64 x v.lo).2 + x * v.hi > u.hi ∨
    ((mulu64 x v.lo).2 + x * v.hi = u.hi ∧ (mulu64 x v.lo).1 > u.lo)) ↔
    u.bits.toNat < x.toNat * v.bits.toNat := by
  rw [← product_toNat noWrap, bits_toNat, gt_iff_lt, gt_iff_lt, lt_def, lt_def, lt_def, ← toNat_inj,
    toNat_add]
  omega

/-- Subtracting the product with a borrow leaves the remainder. -/
theorem remainder_toNat (quotient : x.toNat = u.bits.toNat / v.bits.toNat) :
    (⟨u.lo - (mulu64 x v.lo).1,
    u.hi - ((mulu64 x v.lo).2 + x * v.hi + if u.lo < (mulu64 x v.lo).1 then 1 else 0)⟩ :
      Int128).bits.toNat = u.bits.toNat % v.bits.toNat := by
  have product := product_toNat noWrap
  have division := div_add_mod' u.bits.toNat v.bits.toNat
  rw [← quotient, ← product] at division
  generalize u.bits.toNat % v.bits.toNat = rest at *
  rw [bits_toNat] at division
  have := (mulu64 x v.lo).1.isLt
  have := u.lo.isLt
  have := u.hi.isLt
  rw [bits_toNat, toNat_sub, toNat_sub, toNat_add, toNat_add]
  split
  next borrow =>
    rw [lt_def] at borrow
    grind
  next none =>
    rw [lt_def] at none
    grind

end Repair

/-- An estimate that is the quotient or one more is repaired. -/
theorem repair_exact (positive : 0 < v.bits.toNat) (noWrap : qq.toNat * v.hi.toNat < 2 ^ 64)
    (low : u.bits.toNat / v.bits.toNat ≤ qq.toNat) (high : qq.toNat ≤ u.bits.toNat / v.bits.toNat + 1) :
    (repair u v qq).1.bits.toNat = u.bits.toNat / v.bits.toNat ∧
      (repair u v qq).2.bits.toNat = u.bits.toNat % v.bits.toNat := by
  have exceeds := @exceeds_iff u v qq noWrap
  rw [← div_lt_iff_lt_mul positive] at exceeds
  rw [repair]
  by_cases above : u.bits.toNat / v.bits.toNat < qq.toNat
  · have less : (qq - 1).toNat = u.bits.toNat / v.bits.toNat := by
      rw [toNat_sub_of_le (show 1 ≤ qq from BitVec.le_def.mpr (one_le_of_lt above))]
      exact (Nat.eq_sub_of_add_eq (Nat.le_antisymm above high)).symm
    have noWrap' : (qq - 1).toNat * v.hi.toNat < 2 ^ 64 :=
      (mul_le_mul_right _ (less ▸ low)).trans_lt noWrap
    simp only [if_pos (exceeds.mpr above)]
    exact ⟨(single_toNat _).trans less, remainder_toNat noWrap' less⟩
  · have same : qq.toNat = u.bits.toNat / v.bits.toNat := by omega
    simp only [if_neg (mt exceeds.mp above)]
    exact ⟨(single_toNat _).trans same, remainder_toNat noWrap same⟩

/-- The estimate is the quotient or one more, and its product with the high word does not wrap. -/
theorem estimate_spec (zero : v.hi ≠ 0) : u.bits.toNat / v.bits.toNat ≤ (estimate u v).toNat ∧
    (estimate u v).toNat ≤ u.bits.toNat / v.bits.toNat + 1 ∧
    (estimate u v).toNat * v.hi.toNat < 2 ^ 64 := by
  have small : clz64 v.hi < 64 := clz_lt zero
  obtain ⟨-, normal⟩ := leading zero
  have high : v.bits.toNat / 2 ^ 64 = v.hi.toNat := by
    rw [bits_toNat]
    omega
  have large : 2 ^ (64 - clz64 v.hi) = 2 ∨ 4 ≤ 2 ^ (64 - clz64 v.hi) := by
    obtain one | more : 64 - clz64 v.hi = 1 ∨ 2 ≤ 64 - clz64 v.hi := by omega
    · exact .inl (by rw [one, pow_one])
    · exact .inr (Nat.pow_le_pow_right Nat.two_pos more)
  obtain ⟨lower, upper⟩ := estimate_le u.bits.isLt normal large
  have noWrap := @estimate_mul_lt u.bits.toNat v.bits.toNat _ u.bits.isLt
    (pow_dvd_pow 2 (sub_le 64 (clz64 v.hi)))
  rw [← estimate_toNat zero] at lower upper noWrap
  exact ⟨lower, upper, high ▸ noWrap⟩

theorem divrem128_exact (nonzero : v.bits ≠ 0) :
    (divrem128 u v).1.bits.toNat = u.bits.toNat / v.bits.toNat ∧
      (divrem128 u v).2.bits.toNat = u.bits.toNat % v.bits.toNat := by
  by_cases zero : v.hi = 0
  · have some : v.lo ≠ 0 := fun low => nonzero (by rw [bits, zero, low]; rfl)
    obtain ⟨quotient, remainder⟩ := divu128_exact u.lo u.hi some
    have value : v.bits.toNat = v.lo.toNat := by simp [bits_toNat, zero]
    rw [divrem128, zero, value]
    refine ⟨quotient, ?_⟩
    exact (single_toNat _).trans remainder
  · have positive : 0 < v.bits.toNat := pos_of_ne_zero (fun none => nonzero (eq_of_toNat_eq none))
    obtain ⟨lower, upper, noWrap⟩ := @estimate_spec u v zero
    rw [divrem128, if_neg (show clz64 v.hi ≠ 64 from (clz_lt zero).ne)]
    exact repair_exact positive noWrap lower upper

end Division

/-- The division of the struct-based integers is exact; the signed one truncates, modulo 2^128. With
two divisor words the estimate is at most one too large, and its product with the high word does not
wrap. -/
theorem division_exact {a b : Int128} (nonzero : b.bits ≠ 0) :
    ((divu a b).bits.toNat = a.bits.toNat / b.bits.toNat ∧
    (remu a b).bits.toNat = a.bits.toNat % b.bits.toNat) ∧
      ((divs a b).bits = BitVec.ofInt 128 (a.bits.toInt.tdiv b.bits.toInt) ∧
        (rems a b).bits.toInt = a.bits.toInt.tmod b.bits.toInt) ∧
      (b.hi ≠ 0 → a.bits.toNat / b.bits.toNat ≤ (estimate a b).toNat ∧
        (estimate a b).toNat ≤ a.bits.toNat / b.bits.toNat + 1 ∧
        (estimate a b).toNat * b.hi.toNat < 2 ^ 64) := by
  refine ⟨divrem128_exact nonzero, ?_, estimate_spec⟩
  have positive : 0 < b.bits.toInt.natAbs :=
    Int.natAbs_pos.mpr (fun zero => nonzero (eq_of_toInt_eq (by simpa using zero)))
  have nonzero' : (if !b.nonneg then b.neg else b).bits ≠ 0 := by
    intro zero
    have := magnitude_toNat b
    rw [zero] at this
    exact positive.ne this
  obtain ⟨quotient, remainder⟩ := @divrem128_exact (if !a.nonneg then a.neg else a) _ nonzero'
  rw [magnitude_toNat, magnitude_toNat] at quotient remainder
  constructor
  · rw [toNat_eq_iff _ (quotient ▸ isLt _)] at quotient
    rw [divs, tdiv_eq_magnitudes, ← not_nonneg, ← not_nonneg]
    split
    · rw [neg_bits, ofInt_neg, quotient]
    · exact quotient
  · have below := mod_lt a.bits.toInt.natAbs positive
    have least := b.bits.le_toInt
    have most := b.bits.toInt_lt
    rw [toNat_eq_iff _ (by omega)] at remainder
    rw [rems, tmod_eq_magnitudes, toInt_eq_iff (by decide) _ (by split <;> omega) (by split <;> omega)]
    generalize divrem128 _ _ = result at remainder ⊢
    simp only [not_nonneg, decide_eq_true_eq]
    split
    · rw [neg_bits, ofInt_neg, remainder]
    · exact remainder

/-- One less than a multiple of the divisor, where the estimate is one too large -/
theorem division_exact_repaired : let a : Int128 := ⟨0x7fffffffffffffff, 0xffffffffffffffff⟩
    let b : Int128 := ⟨0xffffffffffffffff, 1⟩
    (divu a b).bits.toNat = 2 ^ 63 - 1 ∧ (remu a b).bits.toNat = 2 ^ 65 - 2 := by
  intro a b
  obtain ⟨⟨quotient, remainder⟩, -⟩ := @division_exact a b (by decide)
  exact ⟨quotient.trans (by decide), remainder.trans (by decide)⟩

end Int128

end Qemu.HostUtils
