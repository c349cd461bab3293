import Qemu.Util.HBitmapOps

namespace Qemu.HBitmap

open BitWords Function List Nat

section Resize

variable {levels : Levels} {size oldSize : Nat}

theorem word_renew (words : List Word) (size index : Nat) :
    word (renew size words) index = if index < size then word words index else 0 := by
  unfold renew word
  simp only [getD_eq_getElem?_getD, getElem?_append, length_take, getElem?_take, getElem?_replicate]
  split
  · rw [if_pos (by omega), if_pos (by omega)]
  split
  · rw [List.getElem?_eq_none (by omega)]
    split <;> rfl
  · rw [if_neg (by omega)]
    rfl

theorem length_renew (words : List Word) (size : Nat) : (renew size words).length = size := by
  simp only [renew, length_append, length_take, length_replicate]
  omega

/-- The arrays after a resize from level `i - 1` up: each keeps its words up to
its new length. The walk may stop early, as equal lengths stay equal further up. -/
theorem word_eq_ite (words : List Word) (index : Nat) :
    word words index = if index < words.length then word words index else 0 := by
  split
  · rfl
  · exact word_of_length_le (by omega)

theorem truncateLevels_spec {i : Nat}
    (upper : ∀ j, j + 1 < i → (levels j).length = wordsFor (levels (j + 1)).length) :
    (∀ j, i ≤ j → truncateLevels i size levels j = levels j) ∧
    (∀ j, j + 1 = i → (truncateLevels i size levels j).length = wordsFor size) ∧
    (∀ j, j + 1 < i → (truncateLevels i size levels j).length =
      wordsFor (truncateLevels i size levels (j + 1)).length) ∧
    (∀ j index, word (truncateLevels i size levels j) index =
      if index < (truncateLevels i size levels j).length then word (levels j) index else 0) := by
  induction i generalizing size levels with
  | zero =>
    exact ⟨fun j _ => rfl, fun j low => by omega, fun j low => by omega, fun j => word_eq_ite (levels j)⟩
  | succ i ih => ?_
  by_cases stop : (levels i).length = wordsFor size
  · rw [truncateLevels, if_pos stop]
    refine ⟨fun j _ => rfl, fun j last => ?_, upper, fun j => word_eq_ite (levels j)⟩
    obtain rfl : j = i := by omega
    exact stop
  rw [truncateLevels, if_neg stop]
  have chain (j : Nat) (low : j + 1 < i) :
      (update levels i (renew (wordsFor size) (levels i)) j).length =
        wordsFor (update levels i (renew (wordsFor size) (levels i)) (j + 1)).length := by
    rw [update_of_ne (by omega), update_of_ne (by omega)]
    exact upper j (by omega)
  obtain ⟨kept, bottom, rest, contents⟩ := @ih
    (update levels i (renew (wordsFor size) (levels i))) (wordsFor size) chain
  have here := kept i (Nat.le_refl i)
  rw [update_self] at here
  refine ⟨fun j high => ?_, fun j last => ?_, fun j low => ?_, fun j index => ?_⟩
  · rw [kept j (by omega), update_of_ne (by omega)]
  · obtain rfl : j = i := by omega
    rw [here, length_renew]
  · rcases Nat.lt_succ_iff_lt_or_eq.mp low with under | last
    · exact rest j under
    · rw [bottom j last, last, here, length_renew]
  rw [contents]
  by_cases level : j = i
  · subst level
    rw [update_self, word_renew, here, length_renew]
    split <;> rfl
  · rw [update_of_ne level]

/-- Arrays that keep their words up to lengths for a size above every set bit hold
the same bits. -/
theorem bits_truncated (summarised : Summarised levels 6) (shaped : Shaped new size)
    (bounded : ∀ n ∈ bits (levels 6), n < size) (contents : ∀ j index, word (new j) index =
      if index < (new j).length then word (levels j) index else 0) (level : j ≤ 6) :
    bits (new j) = bits (levels j) ∧ ∀ n ∈ bits (levels j), n < 64 * (new j).length := by
  have enough (i : Nat) (fits : ∀ n ∈ bits (levels i), n < 64 * (new i).length) :
      bits (new i) = bits (levels i) ∧ ∀ n ∈ bits (levels i), n < 64 * (new i).length := by
    refine ⟨bits_eq_of_words fun index k small => ?_, fits⟩
    rw [contents, mem_bits, bit_in_word small]
    split
    · rfl
    · refine iff_of_false (by simp) fun set => ?_
      have := fits (64 * index + k) ((bit_in_word small).trans set)
      omega
  -- from the last level up: the words in use below are the bits here
  induction level using decreasingInduction with
  | self =>
    refine enough 6 fun n set => ?_
    have := bounded n set
    have := le_wordsFor size
    rw [shaped.lastLength]
    omega
  | of_succ i below ih =>
    refine enough i fun n set => ?_
    have room := le_wordsFor (new (i + 1)).length
    rw [← shaped.upperLength i below] at room
    rw [summarised i below] at set
    rcases set with ⟨m, lower, block⟩ | guarded
    · have := ih.2 m lower
      dsimp only at block
      omega
    unfold guard at guarded
    split at guarded
    · rw [Set.mem_singleton_iff] at guarded
      have : 1 ≤ (new i).length := by
        rw [shaped.upperLength i below]
        exact le_max_right _ _
      omega
    · exact absurd guarded (Set.notMem_empty n)

end Resize

section Truncate

variable {hb : HBitmap} {size : Nat}

/-- New arrays for a new size above every set bit. -/
theorem WellFormed.resized (wellFormed : WellFormed hb) {origSize : Nat} (small : origSize < 2 ^ 63)
    (size_eq : size = groups origSize hb.granularity) (size_le : size ≤ 2 ^ 41)
    (bounded : ∀ n ∈ bits (hb.levels 6), n < size) :
    WellFormed { hb with origSize, size, levels := truncateLevels 7 size hb.levels } ∧
      bits (truncateLevels 7 size hb.levels 6) = bits (hb.levels 6) := by
  obtain ⟨-, bottom, upper, contents⟩ :=
    @truncateLevels_spec hb.levels size 7 fun j low => wellFormed.upperLength j (by omega)
  have shaped : Shaped (truncateLevels 7 size hb.levels) size :=
    ⟨bottom 6 rfl, fun i below => upper i (by omega)⟩
  have same {j : Nat} (level : j ≤ 6) := bits_truncated wellFormed.summarised shaped bounded contents level
  refine ⟨{ origSize_lt := small, granularity_lt := wellFormed.granularity_lt, size_eq, size_le,
            lastLength := shaped.lastLength, upperLength := shaped.upperLength,
            summary := summarised_iff.mp fun i below => ?_, count_eq := ?_, tail := ?_ },
    (same (Nat.le_refl 6)).1⟩
  · rw [(same (by omega)).1, (same (by omega)).1]
    exact wellFormed.summarised i below
  · have last := same (Nat.le_refl 6)
    have iff (n : Nat) : IsSet (truncateLevels 7 size hb.levels) n ↔ IsSet hb.levels n :=
      Set.ext_iff.mp last.1 n
    have bound : Nat.count (IsSet hb.levels) (64 * (hb.levels 6).length) =
        Nat.count (IsSet hb.levels) (64 * (truncateLevels 7 size hb.levels 6).length) :=
      count_eq_of_bounded (fun n => lt_of_mem_bits) last.2
    exact (wellFormed.count_eq.trans bound).trans (count_congr fun n _ => (iff n).symm)
  · intro n past
    rw [Bool.eq_false_iff]
    intro set
    exact absurd (bounded n ((same (Nat.le_refl 6)).1 ▸ set)) (Nat.not_lt.mpr past)

/-- The groups of a bitmap end below the last word of item numbers. -/
theorem WellFormed.items_lt (wellFormed : WellFormed hb) : hb.size * 2 ^ hb.granularity < 2 ^ 64 := by
  have small := wellFormed.origSize_lt
  have scale : 2 ^ hb.granularity ≤ 2 ^ 63 :=
    Nat.pow_le_pow_right (by decide) (le_of_lt_succ wellFormed.granularity_lt)
  have rounded := div_mul_le_self (hb.origSize + 2 ^ hb.granularity - 1) (2 ^ hb.granularity)
  rw [wellFormed.size_eq, groups]
  omega

variable {start count : Nat}

section

variable (wellFormed : WellFormed hb) (shrink : size < hb.size)
  (start_eq : start = size * 2 ^ hb.granularity)
  (count_eq : count = hb.size * 2 ^ hb.granularity - start)
include wellFormed shrink start_eq count_eq

theorem truncated_range :
    hb.firstGroup (BitVec.ofNat 64 start) = size ∧
    hb.lastGroup (BitVec.ofNat 64 start) (BitVec.ofNat 64 count) = hb.size - 1 ∧ 0 < count ∧
    count < 2 ^ 64 := by
  have items := wellFormed.items_lt
  have positive := Nat.two_pow_pos hb.granularity
  have less : size * 2 ^ hb.granularity < hb.size * 2 ^ hb.granularity :=
    Nat.mul_lt_mul_of_pos_right shrink positive
  have last : (hb.size * 2 ^ hb.granularity - 1) / 2 ^ hb.granularity = hb.size - 1 := by
    have split : hb.size * 2 ^ hb.granularity - 1 =
        2 ^ hb.granularity - 1 + (hb.size - 1) * 2 ^ hb.granularity := by
      have whole := Nat.mul_le_mul_right (2 ^ hb.granularity) (show 1 ≤ hb.size by omega)
      rw [Nat.sub_mul]
      omega
    rw [split, add_mul_div_right _ _ positive, div_eq_of_lt (by omega), Nat.zero_add]
  refine ⟨?_, ?_, by omega, by omega⟩
  · rw [firstGroup_ofNat (by omega), start_eq, Nat.mul_div_cancel _ positive]
  · rw [lastGroup_ofNat (by omega) (by omega), ← last]
    congr 1
    omega

theorem truncated_aligned (origSize : Nat) :
    Aligned { hb with origSize } (BitVec.ofNat 64 start) (BitVec.ofNat 64 count) := by
  have items := wellFormed.items_lt
  have less : size * 2 ^ hb.granularity < hb.size * 2 ^ hb.granularity :=
    Nat.mul_lt_mul_of_pos_right shrink (Nat.two_pow_pos hb.granularity)
  refine ⟨?_, .inl ?_⟩
  · rw [BitVec.toNat_ofNat, mod_eq_of_lt (show start < 2 ^ 64 by omega), start_eq]
    exact mul_mod_left _ _
  · rw [BitVec.toNat_ofNat, mod_eq_of_lt (show count < 2 ^ 64 by omega), count_eq, start_eq, ← Nat.sub_mul]
    exact mul_mod_left _ _

end

variable {numElements : Nat}

section

variable (wellFormed : WellFormed hb) (small : numElements < 2 ^ 63)
    (bounded : groups numElements hb.granularity ≤ 2 ^ 41)
include wellFormed small bounded

/-- The groups past the new size are reset before the arrays are cut. -/
theorem truncate_shrink (shrink : groups numElements hb.granularity < hb.size) :
    ∃ new, hb.truncate numElements = some new ∧ WellFormed new ∧ new.origSize = numElements ∧
      new.granularity = hb.granularity ∧
      bits (new.levels 6) = {n ∈ bits (hb.levels 6) | n < groups numElements hb.granularity} := by
  obtain ⟨first, last, positive, fits⟩ := truncated_range wellFormed shrink rfl rfl
  have aligned := truncated_aligned wellFormed shrink rfl rfl numElements
  generalize startEq : groups numElements hb.granularity * 2 ^ hb.granularity = start at *
  generalize countEq : hb.size * 2 ^ hb.granularity - start = count at *
  have nonempty := ofNat_ne_zero positive fits
  obtain ⟨dirty, levels, counted, ran, leaves⟩ := reset_result wellFormed
    ⟨nonempty, by rw [first]; omega, by omega⟩
  have reset : { hb with origSize := numElements }.reset (BitVec.ofNat 64 start)
      (BitVec.ofNat 64 count) = some { hb with
        origSize := numElements, count := hb.count - BitVec.ofNat 64 dirty, levels } := by
    have inside : hb.lastGroup (BitVec.ofNat 64 start) (BitVec.ofNat 64 count) < hb.size := by omega
    have sameCount : { hb with origSize := numElements }.countBetween = hb.countBetween := rfl
    have sameFirst : { hb with origSize := numElements }.firstGroup = hb.firstGroup := rfl
    have sameLast : { hb with origSize := numElements }.lastGroup = hb.lastGroup := rfl
    rw [HBitmap.reset, if_neg nonempty, if_pos aligned]
    simp [sameCount, sameFirst, sameLast, inside, counted, ran]
  have survivors : bits (hb.levels 6) \ hb.range (BitVec.ofNat 64 start) (BitVec.ofNat 64 count) =
      {n ∈ bits (hb.levels 6) | n < groups numElements hb.granularity} := by
    ext n
    rw [Set.mem_sdiff, range, Set.mem_Icc]
    refine and_congr_right fun set => ?_
    have := wellFormed.lt_size set
    omega
  have leftBits := leaves.bits_eq.trans survivors
  obtain ⟨resized, bits_eq⟩ := leaves.wellFormed.resized small rfl bounded
    fun n set => ((Set.ext_iff.mp leftBits n).mp set).2
  refine ⟨_, ?_, resized, rfl, rfl, bits_eq.trans leftBits⟩
  simp only [truncate, small, bounded, and_self, if_true, Nat.ne_of_lt shrink, if_false, shrink,
    startEq, countEq, Nat.ne_of_gt positive, reset, Option.bind_eq_bind, Option.bind_some]

theorem truncate_spec : ∃ new, hb.truncate numElements = some new ∧ WellFormed new ∧
      new.origSize = numElements ∧ new.granularity = hb.granularity ∧
      bits (new.levels 6) = {n ∈ bits (hb.levels 6) | n < groups numElements hb.granularity} := by
  have below (dirty : Set Nat) (bound : ∀ n ∈ dirty, n < groups numElements hb.granularity) :
      dirty = {n ∈ dirty | n < groups numElements hb.granularity} :=
    (Set.sep_eq_self_iff_mem_true.mpr bound).symm
  rcases lt_trichotomy (groups numElements hb.granularity) hb.size with shrink | same | grow
  · exact truncate_shrink wellFormed small bounded shrink
  · refine ⟨{ hb with origSize := numElements }, ?_, ?_, rfl, rfl, ?_⟩
    · simp only [truncate, small, same, wellFormed.size_le, and_self, if_true]
    · exact { wellFormed with origSize_lt := small, size_eq := same.symm }
    · exact below _ fun n set => same ▸ wellFormed.lt_size set
  · obtain ⟨resized, bits_eq⟩ := wellFormed.resized small rfl bounded
      fun n set => (wellFormed.lt_size set).trans grow
    refine ⟨_, ?_, resized, rfl, rfl, ?_⟩
    · simp only [truncate, small, bounded, ne_of_gt grow, not_lt.mpr grow.le]
      rfl
    · rw [bits_eq]
      exact below _ fun n set => (wellFormed.lt_size set).trans grow

end

/-- Resizing aborts exactly on a size that allocation does not accept. -/
theorem truncate_isSome_iff (wellFormed : WellFormed hb) :
    (hb.truncate numElements).isSome = true ↔ numElements < 2 ^ 63 ∧
    groups numElements hb.granularity ≤ 2 ^ 41 := by
  constructor
  · intro ran
    by_contra refused
    rw [truncate, if_neg refused] at ran
    exact absurd ran Bool.false_ne_true
  · rintro ⟨small, bounded⟩
    obtain ⟨new, ran, -⟩ := truncate_spec wellFormed small bounded
    rw [ran]
    rfl

end Truncate

end Qemu.HBitmap
