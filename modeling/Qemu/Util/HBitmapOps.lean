import Qemu.Util.HBitmapInvariant

namespace Qemu.HBitmap

open BitWords Function BitVec List Nat

theorem firstGroup_ofNat {hb : HBitmap} {first : Nat} (small : first < 2 ^ 64) :
    hb.firstGroup (BitVec.ofNat 64 first) = first / 2 ^ hb.granularity := by
  rw [firstGroup, toNat_ushiftRight, toNat_ofNat, mod_eq_of_lt small, shiftRight_eq_div_pow]

theorem lastGroup_ofNat {hb : HBitmap} {first length : Nat} (nonempty : 0 < length)
    (small : first + length < 2 ^ 64) :
    hb.lastGroup (BitVec.ofNat 64 first) (BitVec.ofNat 64 length) =
    (first + length - 1) / 2 ^ hb.granularity := by
  have items : (BitVec.ofNat 64 first + BitVec.ofNat 64 length - 1).toNat = first + length - 1 := by
    rw [← ofNat_add, toNat_sub_of_le]
    · rw [toNat_ofNat, mod_eq_of_lt small]
      rfl
    · rw [le_def, toNat_ofNat, mod_eq_of_lt small]
      exact le_add_left_of_le nonempty
  rw [lastGroup, toNat_ushiftRight, shiftRight_eq_div_pow, items]

theorem ofNat_ne_zero {length : Nat} (nonempty : 0 < length) (small : length < 2 ^ 64) :
    BitVec.ofNat 64 length ≠ 0 := by
  intro zero
  have value := congrArg BitVec.toNat zero
  rw [toNat_ofNat, mod_eq_of_lt small] at value
  exact absurd value (ne_of_gt nonempty)

section Ranges

variable {hb : HBitmap} (wellFormed : WellFormed hb) {start count : BitVec 64}
include wellFormed

theorem WellFormed.count_le {levels : Levels} : Nat.count (IsSet levels) hb.size ≤ 2 ^ 41 :=
  Nat.le_trans (Nat.count_le _) wellFormed.size_le

/-- The groups of a range that the bitmap holds. -/
structure Covers (hb : HBitmap) (start count : BitVec 64) : Prop where
  nonempty : count ≠ 0
  ordered : hb.firstGroup start ≤ hb.lastGroup start count
  inside : hb.lastGroup start count < hb.size

/-- The groups of a range. -/
def range (hb : HBitmap) (start count : BitVec 64) : Set Nat :=
  Set.Icc (hb.firstGroup start) (hb.lastGroup start count)

section

variable (covers : Covers hb start count)
include covers

theorem set_spec :
    ∃ new, hb.set start count = some new ∧ Leaves hb (bits (hb.levels 6) ∪ hb.range start count) new := by
  obtain ⟨nonempty, ordered, inside⟩ := covers
  have fits := wellFormed.fits
  obtain ⟨levels, ran, updated⟩ := setBetween_spec wellFormed.stacked wellFormed.summarised
    (le_refl 6) ordered (by omega)
  have counted := wellFormed.countBetween ordered inside
  have total := count_union_Icc (p := IsSet hb.levels) (q := IsSet levels) ordered inside
    fun n => Set.ext_iff.mp updated.bits_eq n
  have result : hb.set start count = some { hb with
      count := hb.count + (BitVec.ofNat 64 (hb.lastGroup start count) -
        BitVec.ofNat 64 (hb.firstGroup start) + 1 - BitVec.ofNat 64
          (countFrom (IsSet hb.levels) (hb.firstGroup start) (hb.lastGroup start count + 1)))
      levels } := by
    simp only [set, nonempty, inside, if_false, if_true, counted, ran, Option.bind_eq_bind,
      Option.bind_some]
  refine ⟨_, result, wellFormed.sized.leaves updated.length_eq updated.summarised updated.bits_eq ?_ ?_⟩
  · rintro n (set | range)
    · exact wellFormed.lt_size set
    · exact lt_of_le_of_lt range.2 inside
  · have old := wellFormed.count_size
    have bound := @WellFormed.count_le _ wellFormed levels
    simp only [toNat_add, toNat_sub, toNat_ofNat, show (1 : BitVec 64).toNat = 1 from rfl]
    omega

/-- The count and the levels that a reset computes. -/
theorem reset_result :
    ∃ dirty levels, hb.countBetween (hb.firstGroup start) (hb.lastGroup start count) = some dirty ∧
      resetBetween hb.levels 6 (hb.firstGroup start) (hb.lastGroup start count) = some levels ∧
      Leaves hb (bits (hb.levels 6) \ hb.range start count)
        { hb with count := hb.count - BitVec.ofNat 64 dirty, levels } := by
  obtain ⟨-, ordered, inside⟩ := covers
  have fits := wellFormed.fits
  obtain ⟨levels, ran, updated⟩ := resetBetween_spec wellFormed.stacked wellFormed.summarised
    (le_refl 6) ordered (by omega)
  have total := count_diff_Icc (p := IsSet hb.levels) (q := IsSet levels) ordered inside
    fun n => Set.ext_iff.mp updated.bits_eq n
  refine ⟨_, levels, wellFormed.countBetween ordered inside, ran,
    wellFormed.sized.leaves updated.length_eq updated.summarised updated.bits_eq ?_ ?_⟩
  · rintro n ⟨set, -⟩
    exact wellFormed.lt_size set
  · have old := wellFormed.count_size
    simp only [toNat_sub, toNat_ofNat]
    omega

theorem reset_spec (aligned : Aligned hb start count) :
    ∃ new, hb.reset start count = some new ∧
    Leaves hb (bits (hb.levels 6) \ hb.range start count) new := by
  obtain ⟨dirty, levels, counted, ran, leaves⟩ := reset_result wellFormed covers
  refine ⟨_, ?_, leaves⟩
  rw [reset, if_neg covers.nonempty, if_pos aligned]
  simp [covers.inside, counted, ran]

end

/-- Setting aborts exactly on a range that the bitmap does not hold. -/
theorem set_isSome_iff : (hb.set start count).isSome = true ↔ count = 0 ∨ Covers hb start count := by
  constructor
  · intro ran
    refine or_iff_not_imp_left.mpr fun nonempty => ?_
    rw [set, if_neg nonempty] at ran
    refine ⟨nonempty, ?_, ?_⟩
    · by_contra unordered
      simp [setBetween_unordered (Nat.lt_of_not_le unordered)] at ran
    · by_contra past
      simp [past] at ran
  · rintro (rfl | covers)
    · rfl
    · obtain ⟨new, ran, -⟩ := set_spec wellFormed covers
      rw [ran]
      rfl

/-- Resetting aborts exactly on a range that the bitmap does not hold or that
cuts a group. -/
theorem reset_isSome_iff : (hb.reset start count).isSome = true ↔
    count = 0 ∨ Covers hb start count ∧ Aligned hb start count := by
  constructor
  · intro ran
    refine or_iff_not_imp_left.mpr fun nonempty => ?_
    have aligned : Aligned hb start count := by
      by_contra unaligned
      rw [reset, if_neg nonempty, if_neg unaligned] at ran
      simp at ran
    rw [reset, if_neg nonempty] at ran
    refine ⟨⟨nonempty, ?_, ?_⟩, aligned⟩
    · by_contra unordered
      simp [resetBetween_unordered (Nat.lt_of_not_le unordered)] at ran
    · by_contra past
      simp [past] at ran
  · rintro (rfl | ⟨covers, aligned⟩)
    · rfl
    · obtain ⟨new, ran, -⟩ := reset_spec wellFormed covers aligned
      rw [ran]
      rfl

end Ranges

section Whole

variable {size granularity : Nat}

theorem word_replicate (n index : Nat) : word (replicate n 0) index = 0 := by
  rw [word, getD_eq_getElem?_getD, getElem?_replicate]
  split <;> rfl

theorem bits_replicate (n : Nat) : bits (replicate n 0) = ∅ := by
  refine bits_eq_of_words fun index k small => ?_
  rw [word_replicate]
  exact iff_of_false (by simp) (Set.notMem_empty _)

theorem bits_sentinel {words : List Word} (single : words.length = 1) :
    bits (words.set 0 sentinel) = {63} := by
  refine bits_eq_of_words fun index k small => ?_
  rw [word_set _ (by omega), Set.mem_singleton_iff]
  split
  · rw [getLsbD_sentinel, decide_eq_true_eq]
    omega
  · rw [word_of_length_le (by omega)]
    exact iff_of_false (by simp) (by omega)

variable {levels : Levels}

theorem Shaped.single (shaped : Shaped levels size) (small : size ≤ 2 ^ 41) : (levels 0).length = 1 := by
  have top : (levels (0 + 1)).length ≤ 32 := shaped.top_le small
  rw [shaped.upperLength 0 (by omega), wordsFor]
  omega

theorem summarised_empty (top : bits (levels 0) = {63})
    (empty : ∀ i, 0 < i → i < 7 → bits (levels i) = ∅) : Summarised levels 6 := by
  intro i below
  have none : blocks (∅ : Set Nat) = ∅ := Set.image_empty _
  rw [empty (i + 1) (by omega) (by omega), none, Set.empty_union, guard]
  split
  next zero => rw [zero, top]
  · exact empty i (by omega) (by omega)

theorem count_empty (empty : bits (levels 6) = ∅) (bound : Nat) : Nat.count (IsSet levels) bound = 0 := by
  rw [← countFrom_zero]
  exact countFrom_eq_zero fun n _ _ set => Set.notMem_empty n (empty ▸ set)

theorem resetAll_spec (wellFormed : WellFormed hb) : Leaves hb ∅ hb.resetAll := by
  have single := wellFormed.shaped.single wellFormed.size_le
  have empty (i : Nat) (low : 0 < i) (_ : i < 7) : bits (hb.resetAll.levels i) = ∅ := by
    simp only [resetAll, if_neg (ne_of_gt low)]
    exact bits_replicate _
  refine wellFormed.sized.leaves (fun i => ?_) (summarised_empty (bits_sentinel single) empty)
    (empty 6 (by decide) (by decide)) (by simp) ?_
  · split
    next top => rw [length_set, top]
    · exact length_replicate
  · exact (count_empty (empty 6 (by decide) (by decide)) hb.size).symm

/-- The arrays that `allocLevels` makes, from level `i - 1` up. -/
theorem allocLevels_spec {i : Nat} {levels : Levels} :
    (∀ j, i ≤ j → (allocLevels i size levels).2 j = levels j) ∧
    (∀ j < i, ∃ n, (allocLevels i size levels).2 j = List.replicate n 0) ∧
    (∀ j, j + 1 = i → ((allocLevels i size levels).2 j).length = wordsFor size) ∧
    (∀ j, j + 1 < i → ((allocLevels i size levels).2 j).length =
      wordsFor ((allocLevels i size levels).2 (j + 1)).length) ∧
    (0 < i → (allocLevels i size levels).1 = ((allocLevels i size levels).2 0).length) := by
  induction i generalizing size levels with
  | zero =>
    exact ⟨fun j _ => rfl, fun j low => by omega, fun j low => by omega, fun j low => by omega,
      fun low => by omega⟩
  | succ i ih => ?_
  obtain ⟨kept, zeros, bottom, upper, top⟩ :=
    @ih (wordsFor size) (update levels i (replicate (wordsFor size) 0))
  have here := kept i (Nat.le_refl i)
  rw [update_self] at here
  refine ⟨fun j high => ?_, fun j low => ?_, fun j last => ?_, fun j low => ?_, fun _ => ?_⟩
  · rw [allocLevels, kept j (by omega), update_of_ne (by omega)]
  · rcases Nat.lt_succ_iff_lt_or_eq.mp low with under | rfl
    · exact zeros j under
    · exact ⟨_, here⟩
  · obtain rfl : j = i := by omega
    rw [allocLevels, here, length_replicate]
  · rcases Nat.lt_succ_iff_lt_or_eq.mp low with under | last
    · exact upper j under
    · rw [allocLevels, bottom j last, last, here, length_replicate]
  · cases i with
    | zero => rw [allocLevels, here, length_replicate]; rfl
    | succ i => exact top (succ_pos i)

theorem alloc_spec (small : size < 2 ^ 63) (scaled : granularity < 64)
    (bounded : groups size granularity ≤ 2 ^ 41) :
    ∃ hb, alloc size granularity = some hb ∧ WellFormed hb ∧ hb.origSize = size ∧
      hb.granularity = granularity ∧ bits (hb.levels 6) = ∅ := by
  set n := groups size granularity
  obtain ⟨-, zeros, bottom, upper, top⟩ := @allocLevels_spec n 7 fun _ => []
  have made : (allocLevels 7 n fun _ => []) =
    ((allocLevels 7 n fun _ => []).1, (allocLevels 7 n fun _ => []).2) := rfl
  generalize (allocLevels 7 n fun _ => []).2 = levels at *
  generalize (allocLevels 7 n fun _ => []).1 = topLength at *
  have shaped : Shaped levels n := ⟨bottom 6 rfl, fun i below => upper i (by omega)⟩
  have single := shaped.single bounded
  have zeroWord : word (levels 0) 0 = 0 := by
    obtain ⟨n, zero⟩ := zeros 0 (by omega)
    rw [zero, word_replicate]
  have lengths := @length_update levels ((levels 0).set 0 sentinel) 0 length_set
  have emptyAt (i : Nat) (low : 0 < i) (high : i < 7) :
      bits (update levels 0 ((levels 0).set 0 sentinel) i) = ∅ := by
    obtain ⟨n, zero⟩ := zeros i high
    rw [update_of_ne (by omega), zero, bits_replicate]
  have shapedTop := shaped.of_lengths lengths
  refine ⟨⟨size, n, 0, granularity,
    update levels 0 ((levels 0).set 0 sentinel)⟩, ?_,
    { origSize_lt := small, granularity_lt := scaled, size_eq := rfl, size_le := bounded,
      lastLength := shapedTop.lastLength, upperLength := shapedTop.upperLength,
      summary := summarised_iff.mp (summarised_empty ?_ emptyAt),
      count_eq := (count_empty (emptyAt 6 (by omega) (by omega)) _).symm, tail := ?_ },
    rfl, rfl, emptyAt 6 (by omega) (by omega)⟩
  · rw [alloc, if_pos ⟨small, scaled, bounded⟩, made]
    simp only [top (by omega), single, zeroWord]
    simp [n]
  · exact bits_sentinel single
  · intro n _
    rw [Bool.eq_false_iff]
    intro set
    exact Set.notMem_empty n (emptyAt 6 (by omega) (by omega) ▸ set)

theorem alloc_isSome_iff : (alloc size granularity).isSome = true ↔
    size < 2 ^ 63 ∧ granularity < 64 ∧ groups size granularity ≤ 2 ^ 41 := by
  constructor
  · intro made
    by_contra refused
    rw [alloc, if_neg refused] at made
    exact absurd made Bool.false_ne_true
  · rintro ⟨small, scaled, bounded⟩
    obtain ⟨hb, made, -⟩ := alloc_spec small scaled bounded
    rw [made]
    rfl

end Whole

end Qemu.HBitmap
