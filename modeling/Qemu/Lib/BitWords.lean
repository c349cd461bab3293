import Mathlib.Tactic
import Mathlib.Data.Nat.Count
import Mathlib.Data.List.GetD

/-! Arrays of 64-bit words read as sets of bit positions: masks, scans and
population counts of one word, and which words of an array are in use. -/

namespace Qemu.BitWords

open BitVec Nat

abbrev Word := BitVec 64

/-- The position of the lowest set bit, 64 for the zero word. -/
def ctz (word : Word) : Nat := word.ctz.toNat

/-- The number of trailing ones. -/
def cto (word : Word) : Nat := ctz (~~~word)

def popcount (word : Word) : Nat := count (fun k => word.getLsbD k = true) 64

/-- The mask of the positions `first` to `last`. -/
def rangeMask (first last : Nat) : Word := ((2 : Word) <<< last) - ((1 : Word) <<< first)

/-- The mask of the positions below `bound`. -/
def lowMask (bound : Nat) : Word := ((1 : Word) <<< bound) - 1

section Words

variable {word : Word}

theorem ctz_lt (nonzero : word ≠ 0) : ctz word < 64 := by
  have below := BitVec.ctz_lt_iff_ne_zero.mpr nonzero
  exact below

theorem getLsbD_ctz (nonzero : word ≠ 0) : word.getLsbD (ctz word) = true :=
  getLsbD_true_ctz_of_ne_zero nonzero

theorem ctz_le (set : word.getLsbD k = true) : ctz word ≤ k := by
  by_contra below
  rw [getLsbD_false_of_lt_ctz (Nat.lt_of_not_le below)] at set
  exact absurd set Bool.false_ne_true

theorem eq_zero_iff : word = 0 ↔ ∀ k, word.getLsbD k = false := by
  constructor
  · rintro rfl k
    exact getLsbD_zero
  · intro clear
    refine eq_of_getLsbD_eq fun k _ => ?_
    rw [clear k]
    exact BitVec.getLsbD_zero.symm

theorem ne_zero_iff : word ≠ 0 ↔ ∃ k, k < 64 ∧ word.getLsbD k = true := by
  constructor
  · intro nonzero
    exact ⟨ctz word, ctz_lt nonzero, getLsbD_ctz nonzero⟩
  · rintro ⟨k, _, set⟩ zero
    rw [eq_zero_iff.mp zero k] at set
    exact absurd set Bool.false_ne_true

theorem one_shiftLeft_toNat (small : bound < 64) : ((1 : Word) <<< bound).toNat = 2 ^ bound := by
  have power : 2 ^ bound < 2 ^ 64 := Nat.pow_lt_pow_right (by decide) small
  rw [toNat_shiftLeft, Nat.shiftLeft_eq, mod_eq_of_lt]
  · exact Nat.one_mul _
  · rw [show (1 : Word).toNat = 1 from rfl, Nat.one_mul]
    exact power

theorem getLsbD_one_shiftLeft (small : bound < 64) :
    ((1 : Word) <<< bound).getLsbD k = decide (bound = k) := by
  rw [← testBit_toNat, one_shiftLeft_toNat small, testBit_two_pow]

theorem getLsbD_lowMask (small : bound < 64) : (lowMask bound).getLsbD k = decide (k < bound) := by
  have power := one_shiftLeft_toNat small
  have value : (lowMask bound).toNat = 2 ^ bound - 1 := by
    rw [lowMask, toNat_sub_of_le, power]
    · rfl
    · rw [le_def, power]
      exact Nat.one_le_two_pow
  rw [← testBit_toNat, value, testBit_two_pow_sub_one]

theorem getLsbD_rangeMask (ordered : first ≤ last) (small : last < 64) :
    (rangeMask first last).getLsbD k = decide (first ≤ k ∧ k ≤ last) := by
  -- the shift of 2 wraps to zero when `last` is 63, and the difference is the same word
  have split : 2 ^ (last + 1) = 2 ^ first + 2 ^ first * (2 ^ (last + 1 - first) - 1) := by
    rw [Nat.mul_sub, ← pow_add, show first + (last + 1 - first) = last + 1 by omega]
    have := Nat.pow_le_pow_right (show 0 < 2 by decide) (show first ≤ last + 1 by omega)
    omega
  have bounded : 2 ^ (last + 1) ≤ 2 ^ 64 := Nat.pow_le_pow_right (by decide) (by omega)
  have value : (rangeMask first last).toNat = 2 ^ first * (2 ^ (last + 1 - first) - 1) := by
    have start := one_shiftLeft_toNat (show first < 64 by omega)
    have stop : ((2 : Word) <<< last).toNat = 2 ^ (last + 1) % 2 ^ 64 := by
      rw [toNat_shiftLeft, Nat.shiftLeft_eq, Nat.mul_comm]
      rfl
    rw [rangeMask, toNat_sub]
    have positive := Nat.two_pow_pos first
    generalize 2 ^ first * (2 ^ (last + 1 - first) - 1) = width at *
    generalize 2 ^ first = base at *
    generalize 2 ^ (last + 1) = top at *
    omega
  rw [← testBit_toNat, value, testBit_two_pow_mul, testBit_two_pow_sub_one]
  by_cases above : first ≤ k
  · simp only [above, true_and]
    exact decide_eq_decide.mpr (by omega)
  · simp [above]

theorem exists_toNat_eq_above_ctz (nonzero : word ≠ 0) :
    ∃ upper, word.toNat = 2 ^ (ctz word + 1) * upper + 2 ^ ctz word := by
  have low : word.toNat % 2 ^ (ctz word + 1) = 2 ^ ctz word := by
    refine eq_of_testBit_eq fun k => ?_
    rw [testBit_mod_two_pow, testBit_toNat]
    rcases Nat.lt_trichotomy k (ctz word) with below | rfl | above
    · rw [getLsbD_false_of_lt_ctz below]
      simp [Nat.ne_of_gt below]
    · simp [getLsbD_ctz nonzero]
    · simp [Nat.ne_of_lt above, Nat.not_lt.mpr above]
  refine ⟨word.toNat / 2 ^ (ctz word + 1), ?_⟩
  rw [← low]
  exact (div_add_mod _ _).symm

/-- Clearing the lowest set bit leaves the bits above it. -/
theorem getLsbD_and_pred (nonzero : word ≠ 0) :
    (word &&& (word - 1)).getLsbD k = (word.getLsbD k && decide (ctz word < k)) := by
  obtain ⟨upper, value⟩ := exists_toNat_eq_above_ctz nonzero
  have positive := Nat.two_pow_pos (ctz word)
  have pred : (word - 1).toNat = 2 ^ (ctz word + 1) * upper + (2 ^ ctz word - 1) := by
    rw [toNat_sub_of_le, ← Nat.add_sub_assoc positive, ← value]
    · rfl
    · rw [le_def, show (1 : Word).toNat = 1 from rfl]
      omega
  rw [getLsbD_and, ← testBit_toNat (word - 1), pred, testBit_two_pow_mul_add _ (by omega)]
  rcases Nat.lt_trichotomy k (ctz word) with below | rfl | above
  · rw [getLsbD_false_of_lt_ctz below]
    simp
  · simp [testBit_two_pow_sub_one]
  · rw [← testBit_toNat, value, testBit_two_pow_mul_add _ (by omega)]
    simp [Nat.not_lt.mpr above, above]

end Words

/-- The word at an index; past the end there are only zero words. -/
def word (words : List Word) (index : Nat) : Word := words.getD index 0

def bit (words : List Word) (n : Nat) : Bool := (word words (n / 64)).getLsbD (n % 64)

/-- The positions of the set bits of an array. -/
def bits (words : List Word) : Set Nat := {n | bit words n = true}

/-- The words that a set of positions touches. -/
def blocks (positions : Set Nat) : Set Nat := (· / 64) '' positions

section Arrays

theorem mem_bits : n ∈ bits words ↔ bit words n = true := Iff.rfl

theorem mem_blocks : index ∈ blocks positions ↔ ∃ n ∈ positions, n / 64 = index := Iff.rfl

theorem bit_in_word (inside : k < 64) : bit words (64 * index + k) = (word words index).getLsbD k := by
  rw [bit, show (64 * index + k) / 64 = index by omega, show (64 * index + k) % 64 = k by omega]

theorem word_ne_zero_iff : word words index ≠ 0 ↔ index ∈ blocks (bits words) := by
  rw [ne_zero_iff]
  constructor
  · rintro ⟨k, inside, set⟩
    exact ⟨64 * index + k, (bit_in_word inside).trans set, by dsimp only; omega⟩
  · rintro ⟨n, set, rfl⟩
    exact ⟨n % 64, by omega, set⟩

theorem word_set (value : Word) (inside : target < words.length) :
    word (words.set target value) index = if target = index then value else word words index := by
  unfold word
  rw [List.getD_eq_getElem?_getD, List.getElem?_set]
  split
  · rfl
  · rw [List.getD_eq_getElem?_getD]

theorem word_of_length_le (past : words.length ≤ index) : word words index = 0 :=
  List.getD_eq_default _ _ past

theorem lt_of_mem_bits (set : n ∈ bits words) : n < 64 * words.length := by
  by_contra past
  rw [mem_bits, bit, word_of_length_le (by omega)] at set
  exact absurd set (by simp)

theorem blocks_union (left right : Set Nat) : blocks (left ∪ right) = blocks left ∪ blocks right :=
  Set.image_union _ _ _

theorem blocks_Icc (ordered : first ≤ last) :
    blocks (Set.Icc first last) = Set.Icc (first / 64) (last / 64) := by
  ext index
  rw [mem_blocks]
  constructor
  · rintro ⟨n, ⟨low, high⟩, rfl⟩
    exact ⟨Nat.div_le_div_right low, Nat.div_le_div_right high⟩
  · rintro ⟨low, high⟩
    rcases Nat.lt_or_ge (64 * index) first with early | late
    · exact ⟨first, ⟨Nat.le_refl _, ordered⟩, by omega⟩
    · exact ⟨64 * index, ⟨late, by omega⟩, by omega⟩

end Arrays

section Counts

variable {p q : Nat → Prop} [DecidablePred p] [DecidablePred q]

variable {bound : Nat}

theorem count_congr (same : ∀ n < bound, p n ↔ q n) : count p bound = count q bound :=
  le_antisymm (count_mono_left fun n below => (same n below).mp)
    (count_mono_left fun n below => (same n below).mpr)

/-- The number of members from `first` up to `stop`. -/
def countFrom (p : Nat → Prop) [DecidablePred p] (first stop : Nat) : Nat :=
  count (fun k => p (first + k)) (stop - first)

variable {first stop : Nat}

theorem count_eq_add_countFrom (ordered : first ≤ stop) :
    count p stop = count p first + countFrom p first stop := by
  rw [countFrom, ← count_add, Nat.add_sub_cancel' ordered]

theorem countFrom_congr (same : ∀ n, first ≤ n → n < stop → (p n ↔ q n)) :
    countFrom p first stop = countFrom q first stop :=
  count_congr fun k below => same (first + k) (by omega) (by omega)

theorem countFrom_eq_zero (none : ∀ n, first ≤ n → n < stop → ¬ p n) : countFrom p first stop = 0 := by
  rw [countFrom, count_congr (q := fun _ => False) fun k below =>
    ⟨fun holds => none _ (by omega) (by omega) holds, False.elim⟩]
  exact count_false _

theorem countFrom_eq_length (all : ∀ n, first ≤ n → n < stop → p n) :
    countFrom p first stop = stop - first := by
  rw [countFrom, count_congr (q := fun _ => True) fun k below =>
    ⟨fun _ => trivial, fun _ => all _ (by omega) (by omega)⟩]
  exact count_true _

theorem countFrom_trans {middle : Nat} (low : first ≤ middle) (high : middle ≤ stop) :
    countFrom p first stop = countFrom p first middle + countFrom p middle stop := by
  have whole := count_eq_add_countFrom (p := p) (low.trans high)
  have left := count_eq_add_countFrom (p := p) low
  have right := count_eq_add_countFrom (p := p) high
  omega

theorem countFrom_zero (stop : Nat) : countFrom p 0 stop = count p stop := by
  simp [countFrom]

/-- Counting past every member adds nothing. -/
theorem count_eq_of_bounded (below : ∀ n, p n → n < bound)
    (belowOther : ∀ n, p n → n < other) : count p bound = count p other := by
  rcases le_total bound other with shorter | longer
  · have none : countFrom p bound other = 0 :=
      countFrom_eq_zero fun n late _ holds => absurd (below n holds) (not_lt.mpr late)
    rw [count_eq_add_countFrom shorter, none, add_zero]
  · have none : countFrom p other bound = 0 :=
      countFrom_eq_zero fun n late _ holds => absurd (belowOther n holds) (not_lt.mpr late)
    rw [count_eq_add_countFrom longer, none, add_zero]

variable {last : Nat}

section

variable (ordered : first ≤ last) (inside : last < bound)
include ordered inside

theorem count_eq_three :
    count p bound = count p first + countFrom p first (last + 1) + countFrom p (last + 1) bound := by
  rw [count_eq_add_countFrom (show last + 1 ≤ bound by omega),
    count_eq_add_countFrom (show first ≤ last + 1 by omega)]

theorem count_of_same_outside (same : ∀ n, n ∉ Set.Icc first last → (q n ↔ p n)) :
    count q bound + countFrom p first (last + 1) = count p bound + countFrom q first (last + 1) := by
  have before : count q first = count p first :=
    count_congr fun n below => same n (by rw [Set.mem_Icc]; omega)
  have after : countFrom q (last + 1) bound = countFrom p (last + 1) bound :=
    countFrom_congr fun n low high => same n (by rw [Set.mem_Icc]; omega)
  rw [count_eq_three (p := p) ordered inside, count_eq_three (p := q) ordered inside]
  omega

theorem count_union_Icc (joined : ∀ n, q n ↔ p n ∨ n ∈ Set.Icc first last) :
    count q bound + countFrom p first (last + 1) = count p bound + (last + 1 - first) := by
  rw [count_of_same_outside ordered inside fun n outside => (joined n).trans (or_iff_left outside),
    countFrom_eq_length fun n low high => (joined n).mpr (.inr ⟨low, by omega⟩)]

theorem count_diff_Icc (removed : ∀ n, q n ↔ p n ∧ n ∉ Set.Icc first last) :
    count q bound + countFrom p first (last + 1) = count p bound := by
  rw [count_of_same_outside ordered inside fun n outside => (removed n).trans (and_iff_left outside),
    countFrom_eq_zero fun n low high holds => ((removed n).mp holds).2 ⟨low, by omega⟩, Nat.add_zero]

end

/-- A word that shows the members of its block from `first` up to `stop`. -/
theorem popcount_eq_countFrom {word : Word}
    (low : 64 * index ≤ first) (ordered : first ≤ stop) (high : stop ≤ 64 * (index + 1))
    (shows : ∀ k < 64, word.getLsbD k = true ↔ p (64 * index + k) ∧ first ≤ 64 * index + k ∧
    64 * index + k < stop) :
    popcount word = countFrom p first stop := by
  have whole : popcount word = countFrom (fun n => p n ∧ first ≤ n ∧ n < stop) (64 * index)
    (64 * (index + 1)) := by
    rw [countFrom, show 64 * (index + 1) - 64 * index = 64 by omega]
    exact count_congr fun k below => shows k below
  have before : countFrom (fun n => p n ∧ first ≤ n ∧ n < stop) (64 * index) first = 0 :=
    countFrom_eq_zero fun n _ early holds => by omega
  have after : countFrom (fun n => p n ∧ first ≤ n ∧ n < stop) stop (64 * (index + 1)) = 0 :=
    countFrom_eq_zero fun n late _ holds => by omega
  have within : countFrom (fun n => p n ∧ first ≤ n ∧ n < stop) first stop = countFrom p first stop :=
    countFrom_congr fun n late early => and_iff_left ⟨late, early⟩
  rw [whole, countFrom_trans low (ordered.trans high), countFrom_trans ordered high]
  omega

end Counts

end Qemu.BitWords
