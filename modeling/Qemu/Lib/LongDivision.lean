import Mathlib.Data.Nat.ModEq
import Mathlib.Tactic.Ring
import Mathlib.Tactic.Linarith

/-! Schoolbook division by a two-digit divisor, one quotient digit at a time.
All intermediate values wrap at the square of the base, as they do on a machine
whose word holds two digits. -/

namespace Qemu.LongDivision

open BitVec Nat

/-- The quotient digit guessed from the leading divisor digit alone. -/
def estimate (base divisor high : Nat) : Nat := high / (divisor / base)

/-- What the guess takes from the low divisor digit, before wrapping. -/
def product (base divisor high : Nat) : Nat := estimate base divisor high * (divisor % base)

def rest (base divisor high digit : Nat) : Nat := high % (divisor / base) * base + digit

/-- Correct a guess that takes `taken` and leaves `left` at most twice, and return it with the
wrapped remainder. -/
def correct (modulus divisor quotient taken left : Nat) : Nat × Nat :=
  let taken := taken % modulus
  if left < taken then
    let once := (left + divisor) % modulus
    if divisor ≤ once ∧ once < taken then
      (quotient - 2, (modulus - taken + (once + divisor) % modulus) % modulus)
    else
      (quotient - 1, (modulus - taken + once) % modulus)
  else
    (quotient, (modulus - taken + left) % modulus)

def digitStep (base divisor high digit : Nat) : Nat × Nat :=
  correct (base ^ 2) divisor (estimate base divisor high) (product base divisor high)
    (rest base divisor high digit)

section

variable {modulus divisor total quotient taken left : Nat}

/-- The guess and what it takes before wrapping account for the whole dividend. -/
structure Guess (divisor total quotient taken left : Nat) : Prop where
  account : total + taken = quotient * divisor + left
  left_lt : left < divisor
  nothing : quotient = 0 → taken = 0

section

variable (guess : Guess divisor total quotient taken left)
include guess

/-- A first correction is made only to a positive guess. -/
theorem Guess.pos (under : left < taken % modulus) : 1 ≤ quotient := by
  have wrapped := mod_le taken modulus
  rcases Nat.eq_zero_or_pos quotient with zero | positive
  · have := guess.nothing zero
    omega
  · exact positive

/-- The test before a second correction also rules out a wrapped sum. -/
theorem Guess.once_eq (bounded : divisor < modulus)
    (again : divisor ≤ (left + divisor) % modulus) : (left + divisor) % modulus = left + divisor := by
  have leftBound := guess.left_lt
  by_cases wraps : modulus ≤ left + divisor
  · rw [mod_eq_sub_mod wraps, mod_eq_of_lt (by omega)] at again
    omega
  · exact mod_eq_of_lt (by omega)

theorem Guess.ge_two (under : left + divisor < taken) : 2 ≤ quotient := by
  have account := guess.account
  rcases lt_or_ge 1 quotient with large | tiny
  · exact large
  · have step := mul_le_mul_right divisor tiny
    omega

end

/-- Even if it wraps, the digit is never too small. -/
theorem Guess.quotient_le (guess : Guess divisor total quotient taken left) (bounded : divisor < modulus) :
    total / divisor ≤ (correct modulus divisor quotient taken left).1 := by
  have account := guess.account
  have leftBound := guess.left_lt
  have wrapped := mod_le taken modulus
  simp only [correct]
  split
  · split
    next second =>
      rw [guess.once_eq bounded second.1] at second
      have : total / divisor < quotient - 1 := by
        rw [Nat.div_lt_iff_lt_mul (by omega), Nat.sub_mul]
        omega
      omega
    · have : total / divisor < quotient := by
        rw [div_lt_iff_lt_mul (by omega)]
        omega
      omega
  · have : total / divisor < quotient + 1 := by
      rw [Nat.div_lt_iff_lt_mul (by omega), Nat.add_mul]
      omega
    omega

private theorem wrap_modEq (positive : 0 < modulus) :
    (modulus - taken % modulus + value) % modulus + taken ≡ value [MOD modulus] := by
  have bound := mod_lt taken positive
  calc (modulus - taken % modulus + value) % modulus + taken
      ≡ (modulus - taken % modulus + value) + taken % modulus [MOD modulus] :=
        (mod_modEq _ _).add (mod_modEq _ _).symm
    _ = value + modulus := by omega
    _ ≡ value [MOD modulus] := by simp [Nat.ModEq]

/-- The returned remainder matches the returned digit up to the word size. -/
theorem Guess.modEq (guess : Guess divisor total quotient taken left) (bounded : divisor < modulus) :
    total ≡ (correct modulus divisor quotient taken left).1 * divisor +
      (correct modulus divisor quotient taken left).2 [MOD modulus] := by
  have positive : 0 < modulus := by omega
  have wrapped := mod_le taken modulus
  simp only [correct]
  -- In every branch both sides gain what the guess takes.
  apply Nat.ModEq.add_right_cancel' taken
  rw [guess.account, add_assoc (_ * _)]
  split
  next under =>
    have one := guess.pos under
    obtain ⟨less, rfl⟩ : ∃ less, quotient = less + 1 := ⟨quotient - 1, by omega⟩
    have value := add_mul less 1 divisor
    split
    next second =>
      have once := guess.once_eq bounded second.1
      have two := guess.ge_two (by omega)
      obtain ⟨least, rfl⟩ : ∃ least, less = least + 1 := ⟨less - 1, by omega⟩
      have next := add_mul least 1 divisor
      calc (least + 1 + 1) * divisor + left = least * divisor + (left + divisor + divisor) := by
            omega
        _ ≡ least * divisor + (left + divisor + divisor) % modulus [MOD modulus] :=
            (Nat.ModEq.refl _).add (mod_modEq _ _).symm
        _ ≡ _ [MOD modulus] := (Nat.ModEq.refl _).add (by
            rw [once]; exact (wrap_modEq positive).symm)
    · calc (less + 1) * divisor + left = less * divisor + (left + divisor) := by omega
        _ ≡ less * divisor + (left + divisor) % modulus [MOD modulus] :=
          (Nat.ModEq.refl _).add (mod_modEq _ _).symm
        _ ≡ _ [MOD modulus] := (Nat.ModEq.refl _).add (wrap_modEq positive).symm
  · exact (Nat.ModEq.refl _).add (wrap_modEq positive).symm

theorem correct_snd_lt (positive : 0 < modulus) :
    (correct modulus divisor quotient taken left).2 < modulus := by
  simp only [correct]
  split
  · split <;> exact mod_lt _ positive
  · exact mod_lt _ positive

theorem correct_fst_le : (correct modulus divisor quotient taken left).1 ≤ quotient := by
  simp only [correct]
  split
  · split <;> simp
  · simp

section

variable (guess : Guess divisor total quotient taken left) (bounded : divisor < modulus)
include guess bounded

/-- A digit that equals the true quotient comes with the true remainder. -/
theorem Guess.remainder
    (exact : (correct modulus divisor quotient taken left).1 = total / divisor) :
    (correct modulus divisor quotient taken left).2 = total % divisor := by
  have remainder := mod_lt total (zero_lt_of_lt guess.left_lt)
  have congruent := guess.modEq bounded
  rw [exact] at congruent
  have same : total % divisor ≡ (correct modulus divisor quotient taken left).2 [MOD modulus] := by
    apply Nat.ModEq.add_left_cancel' (total / divisor * divisor)
    rw [mul_comm _ divisor, div_add_mod, mul_comm divisor]
    exact congruent
  exact (same.eq_of_lt_of_lt (by omega) (correct_snd_lt (by omega))).symm

/-- The corrected digit and remainder are exact if what the guess takes does not wrap. -/
theorem Guess.exact
    (square : modulus ≤ 2 * divisor) (fits : taken < modulus) :
    correct modulus divisor quotient taken left = (total / divisor, total % divisor) := by
  have account := guess.account
  have enough : (correct modulus divisor quotient taken left).1 * divisor ≤ total := by
    simp only [correct, mod_eq_of_lt fits]
    split
    · split
      · rw [Nat.sub_mul]
        omega
      next second =>
        have covered : taken ≤ left + divisor := by
          by_contra short
          rw [mod_eq_of_lt (by omega)] at second
          omega
        rw [Nat.sub_mul]
        omega
    · dsimp only
      omega
  have digit := le_antisymm ((le_div_iff_mul_le (by omega)).mpr enough) (guess.quotient_le bounded)
  exact Prod.ext digit (guess.remainder bounded digit)

end

/-- The corrections on machine words: `q` is the guess, `r` the rest, `m` the
wrapped product. -/
def correctWord {w : Nat} (d m q r : BitVec w) : BitVec w × BitVec w :=
  if r < m then
    if d ≤ r + d ∧ r + d < m then (q - 1 - 1, r + d + d - m) else (q - 1, r + d - m)
  else (q, r - m)

theorem Guess.correctWord_toNat {d m q r : BitVec w}
    (guess : Guess d.toNat total q.toNat taken r.toNat) (wrapped : m.toNat = taken % 2 ^ w) :
    ((correctWord d m q r).1.toNat, (correctWord d m q r).2.toNat) = correct (2 ^ w) d.toNat q.toNat
    taken r.toNat := by
  have le := mod_le taken (2 ^ w)
  have pred {y : BitVec w} (positive : 1 ≤ y.toNat) : (y - 1).toNat = y.toNat - 1 := by
    rw [toNat_sub, ofNat_eq_ofNat, toNat_ofNat, mod_eq_of_lt (by omega : 1 < 2 ^ w)]
    have shift : 2 ^ w - 1 + y.toNat = y.toNat - 1 + 2 ^ w := by omega
    rw [shift, add_mod_right, mod_eq_of_lt (by omega)]
  simp only [correct, correctWord, lt_def, le_def, toNat_add, ← wrapped]
  split
  · have first : 1 ≤ q.toNat := guess.pos (by rwa [← wrapped] : r.toNat < taken % 2 ^ w)
    split
    next second =>
      have once := guess.once_eq d.isLt second.1
      have two : 2 ≤ q.toNat := guess.ge_two (by omega)
      have less := pred first
      rw [pred (by omega), less]
      rfl
    · rw [pred first, toNat_sub, toNat_add]
  · rw [toNat_sub]

end

section

/-- The digit guessed from the leading divisor digit. -/
theorem digitGuess (high : Nat) (leading : 0 < divisor / base) (small : digit < base) :
    Guess divisor (high * base + digit) (estimate base divisor high) (product base divisor high)
      (rest base divisor high digit) where
  account := by
    have split := div_add_mod divisor base
    have leading := div_add_mod high (divisor / base)
    simp only [estimate, rest]
    calc high * base + digit + high / (divisor / base) * (divisor % base)
        = (divisor / base * (high / (divisor / base)) + high % (divisor / base)) * base + digit +
            high / (divisor / base) * (divisor % base) := by rw [leading]
      _ = high / (divisor / base) * (base * (divisor / base) + divisor % base) +
            (high % (divisor / base) * base + digit) := by ring
      _ = _ := by rw [split]
  left_lt := by
    have bound : high % (divisor / base) + 1 ≤ divisor / base := mod_lt _ leading
    calc high % (divisor / base) * base + digit
        < high % (divisor / base) * base + base := by omega
      _ = (high % (divisor / base) + 1) * base := by ring
      _ ≤ divisor / base * base := mul_le_mul_right _ bound
      _ ≤ divisor := div_mul_le_self divisor base
  nothing zero := by rw [product, zero, Nat.zero_mul]

/-- Words hold exactly what the digit step computes. -/
theorem correctWord_toNat {d m q r : BitVec w} (word : 2 ^ w = base ^ 2)
    (leading : 0 < d.toNat / base) (small : digit < base) (guess : q.toNat = estimate base d.toNat high)
    (taken : m.toNat = product base d.toNat high % base ^ 2)
    (left : r.toNat = rest base d.toNat high digit) :
    ((correctWord d m q r).1.toNat, (correctWord d m q r).2.toNat) = digitStep base d.toNat high
    digit := by
  have guessed := digitGuess high leading small
  rw [← guess, ← left] at guessed
  rw [digitStep, ← guess, ← left, ← word]
  exact guessed.correctWord_toNat (word ▸ taken)

theorem square_le (normal : base ≤ 2 * (divisor / base)) : base ^ 2 ≤ 2 * divisor := by
  calc base ^ 2 = base * base := by ring
    _ ≤ 2 * (divisor / base) * base := mul_le_mul_right _ normal
    _ = 2 * (divisor / base * base) := by ring
    _ ≤ 2 * divisor := mul_le_mul_left _ (div_mul_le_self divisor base)

/-- The digit step is exact once the product of the guess and the low divisor digit does not
wrap. -/
theorem digitStep_exact (bounded : divisor < base ^ 2) (normal : base ≤ 2 * (divisor / base))
    (small : digit < base) (fits : product base divisor high < base ^ 2) :
    digitStep base divisor high digit = ((high * base + digit) / divisor,
    (high * base + digit) % divisor) :=
  (digitGuess high (by omega) small).exact bounded (square_le normal) fits

/-- A dividend below the divisor never makes the product wrap. -/
theorem product_fits (positive : 0 < base) (normal : base ≤ 2 * (divisor / base))
    (below : high < divisor) : product base divisor high < base ^ 2 := by
  have lowBound := mod_lt divisor positive
  have split := div_add_mod divisor base
  have guess : estimate base divisor high ≤ base + 1 := by
    have cap : high < divisor / base * (base + 2) := by
      calc high < base * (divisor / base) + divisor % base := by omega
        _ ≤ base * (divisor / base) + 2 * (divisor / base) := by omega
        _ = divisor / base * (base + 2) := by ring
    have := Nat.div_lt_of_lt_mul cap
    simp only [estimate]
    omega
  calc product base divisor high
      ≤ (base + 1) * (base - 1) := Nat.mul_le_mul guess (by omega)
    _ < base ^ 2 := by
      obtain ⟨less, rfl⟩ : ∃ less, base = less + 1 := ⟨base - 1, by omega⟩
      simp only [Nat.add_sub_cancel]
      nlinarith

end

/-- Two digit steps divide a four-digit number, most significant digit first. -/
def divideStep (base divisor high low : Nat) : Nat × Nat :=
  let upper := digitStep base divisor high (low / base)
  let lower := digitStep base divisor upper.2 (low % base)
  (upper.1 * base % base ^ 2 ||| lower.1, lower.2)

section

variable {size base divisor high low : Nat}

/-- Dividing digit by digit agrees with dividing at once. -/
theorem div_by_digits (positive : 0 < divisor) (leading base digit : Nat) :
    (leading * base + digit) / divisor = leading / divisor * base +
    (leading % divisor * base + digit) / divisor ∧
      (leading * base + digit) % divisor = (leading % divisor * base + digit) % divisor := by
  have shift : leading * base + digit =
      leading % divisor * base + digit + divisor * (leading / divisor * base) := by
    calc leading * base + digit
        = (divisor * (leading / divisor) + leading % divisor) * base + digit := by
          rw [div_add_mod]
      _ = _ := by ring
  constructor
  · rw [shift, add_mul_div_left _ _ positive, add_comm]
  · rw [shift, add_mul_mod_self_left]

theorem digit_quotient_lt (below : high < divisor) (small : digit < base) :
    (high * base + digit) / divisor < base := by
  rw [div_lt_iff_lt_mul (by omega)]
  calc high * base + digit < high * base + base := by omega
    _ = (high + 1) * base := by ring
    _ ≤ divisor * base := mul_le_mul_right _ below
    _ = base * divisor := by ring

/-- The dividend without its last digit. -/
def upperPart (base high low : Nat) : Nat := high * base + low / base

private theorem split_low (base : Nat) : high * base ^ 2 + low =
    upperPart base high low * base + low % base := by
  have split := div_add_mod low base
  calc high * base ^ 2 + low = high * base ^ 2 + (base * (low / base) + low % base) := by rw [split]
    _ = _ := by rw [upperPart]; ring

private theorem shift_or (power : base = 2 ^ size) (fits : upper < base) (small : lower < base) :
    upper * base % base ^ 2 ||| lower = upper * base + lower := by
  have bound : upper * base < base ^ 2 := by
    rw [pow_two]; exact Nat.mul_lt_mul_of_pos_right fits (zero_lt_of_lt fits)
  rw [mod_eq_of_lt bound, power, ← Nat.shiftLeft_eq, shiftLeft_add_eq_or_of_lt (power ▸ small)]

/-- The first digit of the quotient. -/
theorem upper_quotient_lt (below : high < divisor) (small : low < base ^ 2) :
    upperPart base high low / divisor < base :=
  digit_quotient_lt below (Nat.div_lt_of_lt_mul (by rwa [← pow_two]))

variable (power : base = 2 ^ size) (bounded : divisor < base ^ 2)
  (normal : base ≤ 2 * (divisor / base)) (small : low < base ^ 2)

include power bounded normal small

/-- What the second digit step makes of a first one that is right up to the top of its quotient. -/
theorem divideStep_of_upper (surplus : Nat) (below : high < divisor)
    (upper : digitStep base divisor start (low / base) =
      (upperPart base high low / divisor + surplus * base, upperPart base high low % divisor)) :
    divideStep base divisor start low = ((high * base ^ 2 + low) / divisor,
    (high * base ^ 2 + low) % divisor) := by
  have positive : 0 < base := power ▸ Nat.two_pow_pos size
  have lowerDigit : low % base < base := mod_lt _ positive
  have remainder : upperPart base high low % divisor < divisor := mod_lt _ (by omega)
  have nested := div_by_digits (by omega : 0 < divisor) (upperPart base high low) base (low % base)
  have wrap : (upperPart base high low / divisor + surplus * base) * base % base ^ 2 =
      upperPart base high low / divisor * base % base ^ 2 := by
    rw [Nat.add_mul, Nat.mul_assoc, ← pow_two, add_mul_mod_self_right]
  simp only [divideStep]
  rw [upper, digitStep_exact bounded normal lowerDigit (product_fits positive normal remainder), wrap,
    shift_or power (upper_quotient_lt below small) (digit_quotient_lt remainder lowerDigit),
    split_low, nested.1, nested.2]

/-- A dividend whose high half is below the normalized divisor divides exactly. -/
theorem divideStep_exact (below : high < divisor) :
    divideStep base divisor high low = ((high * base ^ 2 + low) / divisor,
    (high * base ^ 2 + low) % divisor) := by
  have positive : 0 < base := power ▸ Nat.two_pow_pos size
  have upperDigit : low / base < base := Nat.div_lt_of_lt_mul (by rwa [← pow_two])
  refine divideStep_of_upper power bounded normal small 0 below ?_
  rw [digitStep_exact bounded normal upperDigit (product_fits positive normal below), Nat.zero_mul,
    Nat.add_zero, upperPart]

/-- One divisor too many in the high half costs nothing: the surplus leaves
through the top of the quotient. -/
theorem divideStep_surplus_eq (below : high < divisor)
    (fits : product base divisor (divisor + high) < base ^ 2) :
    divideStep base divisor (divisor + high) low =
      ((high * base ^ 2 + low) / divisor, (high * base ^ 2 + low) % divisor) := by
  have upperDigit : low / base < base := Nat.div_lt_of_lt_mul (by rwa [← pow_two])
  have surplus : (divisor + high) * base + low / base = upperPart base high low + divisor * base := by
    rw [upperPart]; ring
  refine divideStep_of_upper power bounded normal small 1 below ?_
  rw [digitStep_exact bounded normal upperDigit fits, surplus, add_mul_div_left _ _ (by omega),
    add_mul_mod_self_left, one_mul]

/-- Any larger surplus in the high half spoils the quotient. -/
theorem divideStep_surplus_ne (spoiled : 0 < excess) (word : divisor + excess + high < base ^ 2) :
    (divideStep base divisor (divisor + excess + high) low).1 ≠ (high * base ^ 2 + low) / divisor := by
  have positive : 0 < base := power ▸ Nat.two_pow_pos size
  have square := square_le normal
  have divides : 0 < divisor := by omega
  have below : high < divisor := by omega
  have upperDigit : low / base < base := Nat.div_lt_of_lt_mul (by rwa [← pow_two])
  have lowerDigit : low % base < base := mod_lt _ positive
  have nested := div_by_digits divides (upperPart base high low) base (low % base)
  have trueLower := digit_quotient_lt (mod_lt (upperPart base high low) divides) lowerDigit
  have trueUpper := upper_quotient_lt below small
  have surplus : (divisor + excess + high) * base + low / base =
      upperPart base high low + excess * base + divisor * base := by
    rw [upperPart]; ring
  have guess : estimate base divisor (divisor + excess + high) < 2 * base := by
    apply Nat.div_lt_of_lt_mul
    calc divisor + excess + high < base ^ 2 := word
      _ = base * base := pow_two _
      _ ≤ 2 * (divisor / base) * base := Nat.mul_le_mul_right _ normal
      _ = divisor / base * (2 * base) := by ring
  have guessed := digitGuess (divisor + excess + high) (by omega : 0 < divisor / base) upperDigit
  rw [surplus] at guessed
  have atLeast := guessed.quotient_le bounded
  have atMost := @correct_fst_le (base ^ 2) divisor (estimate base divisor (divisor + excess + high))
    (product base divisor (divisor + excess + high))
    (rest base divisor (divisor + excess + high) (low / base))
  have isRemainder := guessed.remainder bounded
  rw [← digitStep] at atLeast atMost isRemainder
  rw [add_mul_div_left _ _ divides] at atLeast isRemainder
  have carried : upperPart base high low / divisor ≤ (upperPart base high low + excess * base) / divisor :=
    Nat.div_le_div_right (Nat.le_add_right _ _)
  intro same
  rw [split_low, nested.1] at same
  simp only [divideStep] at same
  generalize digitStep base divisor (divisor + excess + high) (low / base) = upper at *
  -- The upper half of the claimed quotient leaves no room above the true upper digit.
  have upperExact : upper.1 = upperPart base high low / divisor + base := by
    have halves := congrArg (· >>> size) same
    simp only [shiftRight_or_distrib, pow_two, mul_mod_mul_right] at halves
    simp only [shiftRight_eq_div_pow, ← power, mul_div_left _ positive] at halves
    rw [Nat.add_comm (_ * _), add_mul_div_right _ _ positive, div_eq_of_lt trueLower,
      Nat.zero_add] at halves
    have kept := Nat.left_le_or.trans halves.le
    have folded : upper.1 % base = upper.1 - base := by
      rw [mod_eq_sub_mod (by omega), mod_eq_of_lt (by omega)]
    omega
  have quotient : (upperPart base high low + excess * base) / divisor =
    upperPart base high low / divisor := by omega
  have remainder : upper.2 = excess * base + upperPart base high low % divisor := by
    have whole := div_add_mod (upperPart base high low + excess * base) divisor
    have part := div_add_mod (upperPart base high low) divisor
    rw [isRemainder (by omega), add_mul_mod_self_left]
    rw [quotient] at whole
    omega
  have lowerBelow : upper.2 < divisor := by
    rw [isRemainder (by omega)]
    exact mod_lt _ divides
  rw [upperExact, digitStep_exact bounded normal lowerDigit (product_fits positive normal lowerBelow),
    Nat.add_mul, ← pow_two, add_mod_right,
    shift_or power trueUpper (digit_quotient_lt lowerBelow lowerDigit), remainder] at same
  -- The lower digits then differ by at least one divisor.
  have grow : upperPart base high low % divisor * base + low % base + divisor ≤
      (excess * base + upperPart base high low % divisor) * base + low % base := by
    have : divisor ≤ excess * base ^ 2 := by nlinarith
    calc _ ≤ upperPart base high low % divisor * base + low % base + excess * base ^ 2 := by omega
      _ = _ := by ring
  have later := Nat.div_le_div_right (c := divisor) grow
  rw [add_div_right _ divides] at later
  omega

end

/-- A divisor of leading ones takes a product that never wraps, whatever the
high half. -/
theorem product_fits_of_ones {size divisor high zeros : Nat} (some : 1 ≤ zeros)
    (ones : divisor = (2 ^ size) ^ 2 - 2 ^ zeros) (word : high < (2 ^ size) ^ 2) :
    product (2 ^ size) divisor high < (2 ^ size) ^ 2 := by
  have positive : 0 < 2 ^ size := Nat.two_pow_pos size
  rcases Nat.lt_or_ge zeros size with short | long
  · have below : 2 ^ zeros < 2 ^ size := Nat.pow_lt_pow_right (by decide) short
    have two : 2 ^ 1 ≤ 2 ^ zeros := Nat.pow_le_pow_right (by decide) some
    generalize 2 ^ size = base at *
    obtain ⟨gap, rfl⟩ : ∃ gap, base = gap + 2 ^ zeros := ⟨base - 2 ^ zeros, by omega⟩
    generalize 2 ^ zeros = unit at *
    have digits : divisor = gap + (gap + unit) * (gap + unit - 1) := by
      obtain ⟨rest, rfl⟩ : ∃ rest, unit = rest + 1 := ⟨unit - 1, by omega⟩
      rw [ones, show gap + (rest + 1) - 1 = gap + rest by omega]
      apply Nat.sub_eq_of_eq_add
      ring
    have top : divisor / (gap + unit) = gap + unit - 1 := by
      rw [digits, add_mul_div_left _ _ positive, div_eq_of_lt (by omega), Nat.zero_add]
    have bottom : divisor % (gap + unit) = gap := by
      rw [digits, add_mul_mod_self_left, mod_eq_of_lt (by omega)]
    have guess : high / (gap + unit - 1) ≤ gap + unit + 1 := by
      rw [← Nat.lt_succ_iff]
      apply Nat.div_lt_of_lt_mul
      obtain ⟨rest, rfl⟩ : ∃ rest, unit = rest + 2 := ⟨unit - 2, by omega⟩
      rw [show gap + (rest + 2) - 1 = gap + rest + 1 by omega]
      nlinarith
    rw [product, estimate, top, bottom]
    calc high / (gap + unit - 1) * gap ≤ (gap + unit + 1) * gap := Nat.mul_le_mul_right _ guess
      _ < (gap + unit) ^ 2 := by nlinarith
  · have aligned : divisor % 2 ^ size = 0 := by
      rw [ones]
      apply mod_eq_zero_of_dvd
      exact Nat.dvd_sub (Dvd.intro _ (pow_two _).symm) (pow_dvd_pow 2 long)
    rw [product, aligned, Nat.mul_zero]
    exact Nat.pow_pos positive

end Qemu.LongDivision
