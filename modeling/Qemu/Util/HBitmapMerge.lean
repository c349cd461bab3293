import Qemu.Util.HBitmapNext
import Qemu.Util.HBitmapTruncate

/-! Merging two bitmaps: word by word when they are of one granularity, area by
area when they are not. -/

namespace Qemu.HBitmap

open BitWords Option List Nat Set

/-- The groups of a unit that the dirty items of a bitmap fall in. -/
def groupsOf (src : HBitmap) (unit bound : Nat) : Set Nat :=
  {group | ∃ item < bound, src.DirtyItem item ∧ item / unit = group}

section Sparse

variable {dst src : HBitmap} (wellFormed : WellFormed dst) (srcFormed : WellFormed src)
  (sameSize : src.origSize = dst.origSize)

variable {first length : Nat}

theorem mem_Icc_div_iff {unit : Nat} (positive : 0 < unit) (nonempty : 0 < length) :
    group ∈ Set.Icc (first / unit) ((first + length - 1) / unit) ↔
      ∃ item, first ≤ item ∧ item < first + length ∧ item / unit = group := by
  constructor
  · rintro ⟨low, high⟩
    rcases Nat.le_total first (group * unit) with before | inside
    · refine ⟨group * unit, before, ?_, Nat.mul_div_cancel _ positive⟩
      have := (Nat.le_div_iff_mul_le positive).mp high
      omega
    · exact ⟨first, Nat.le_refl _, by omega,
        Nat.le_antisymm low ((Nat.le_div_iff_mul_le positive).mpr inside)⟩
  · rintro ⟨item, low, high, rfl⟩
    exact ⟨Nat.div_le_div_right low, Nat.div_le_div_right (by omega)⟩

include wellFormed in
/-- Setting items that lie in the bitmap. -/
theorem set_items (nonempty : 0 < length) (inside : first + length ≤ dst.origSize) :
    ∃ new, dst.set (BitVec.ofNat 64 first) (BitVec.ofNat 64 length) = some new ∧
      Leaves dst (bits (dst.levels 6) ∪ {group | ∃ item, first ≤ item ∧ item < first + length ∧
        item / 2 ^ dst.granularity = group}) new := by
  have small := wellFormed.origSize_lt
  have positive := Nat.two_pow_pos dst.granularity
  have firstEq := @firstGroup_ofNat dst first (by omega)
  have lastEq := @lastGroup_ofNat dst first length nonempty (by omega)
  have nonzero := ofNat_ne_zero nonempty (show length < 2 ^ 64 by omega)
  have covers : Covers dst (BitVec.ofNat 64 first) (BitVec.ofNat 64 length) := by
    refine ⟨nonzero, ?_, ?_⟩
    · rw [firstEq, lastEq]
      exact Nat.div_le_div_right (by omega)
    · rw [lastEq]
      exact wellFormed.group_lt (by omega)
  obtain ⟨new, ran, leaves⟩ := set_spec wellFormed covers
  refine ⟨new, ran, leaves.wellFormed, leaves.origSize_eq, leaves.granularity_eq, ?_⟩
  rw [leaves.bits_eq, range, firstEq, lastEq]
  congr 1
  ext group
  exact mem_Icc_div_iff positive nonempty

/-- An area after clear items extends the items seen so far. -/
theorem groupsOf_area {unit : Nat} (later : offset ≤ first)
    (clear : ∀ item, offset ≤ item → item < first → ¬ src.DirtyItem item)
    (dirty : ∀ item, first ≤ item → item < first + length → src.DirtyItem item) :
    src.groupsOf unit offset ∪ {group | ∃ item, first ≤ item ∧ item < first + length ∧
      item / unit = group} = src.groupsOf unit (first + length) := by
  ext group
  constructor
  · rintro (⟨item, before, isDirty, rfl⟩ | ⟨item, low, high, rfl⟩)
    · exact ⟨item, by omega, isDirty, rfl⟩
    · exact ⟨item, high, dirty item low high, rfl⟩
  · rintro ⟨item, before, isDirty, rfl⟩
    rcases lt_or_ge item offset with seen | unseen
    · exact .inl ⟨item, seen, isDirty, rfl⟩
    · rcases lt_or_ge item first with skipped | inside
      · exact absurd isDirty (clear item unseen skipped)
      · exact .inr ⟨item, inside, before, rfl⟩

/-- The loop state once the dirty items before the offset are merged in. -/
structure Merged (dst src : HBitmap) (state : HBitmap × Nat) : Prop where
  leaves : Leaves dst (bits (dst.levels 6) ∪ src.groupsOf (2 ^ dst.granularity) state.2) state.1
  inside : state.2 ≤ dst.origSize

include srcFormed sameSize in
theorem mergeArea_spec (merged : Merged dst src state) :
    Loop.Decides (fun later => Merged dst src later ∧ dst.origSize - later.2 < dst.origSize - state.2)
      (Leaves dst (bits (dst.levels 6) ∪ src.groupsOf (2 ^ dst.granularity) dst.origSize))
      (mergeArea src state) := by
  obtain ⟨leaves, inside⟩ := merged
  obtain ⟨_ | ⟨first, length⟩, found, isFirst, isRun⟩ :=
    @nextDirtyArea_spec _ srcFormed state.2 src.origSize (2 ^ 63 - 1) (by decide)
  · rw [min_self] at isFirst
    have all : src.groupsOf (2 ^ dst.granularity) state.2 = src.groupsOf (2 ^ dst.granularity)
      dst.origSize := by
      ext group
      constructor
      · rintro ⟨item, before, dirty⟩
        exact ⟨item, by omega, dirty⟩
      · rintro ⟨item, before, dirty, same⟩
        refine ⟨item, ?_, dirty, same⟩
        by_contra late
        exact isFirst item (by omega) (by omega) dirty
    simp only [mergeArea, found, bind_eq_bind, bind_some]
    rwa [all] at leaves
  · obtain ⟨nonempty, within, dirty, -⟩ := isRun first length rfl
    obtain ⟨later, high, -, clear⟩ := isFirst
    dsimp only at high
    have fits : first + length ≤ state.1.origSize := by
      rw [leaves.origSize_eq]
      omega
    obtain ⟨new, ran, after⟩ := set_items leaves.wellFormed nonempty fits
    simp only [mergeArea, found, bind_eq_bind, bind_some, ran]
    refine ⟨⟨⟨after.wellFormed, ?_, ?_, ?_⟩, ?_⟩, ?_⟩
    · exact after.origSize_eq.trans leaves.origSize_eq
    · exact after.granularity_eq.trans leaves.granularity_eq
    · rw [after.bits_eq, leaves.bits_eq, leaves.granularity_eq, union_assoc,
        groupsOf_area later clear dirty]
    · rw [← leaves.origSize_eq]
      exact fits
    · rw [leaves.origSize_eq] at fits
      omega

include wellFormed srcFormed sameSize in
theorem sparseMerge_spec : ∃ new, dst.sparseMerge src = some new ∧
    Leaves dst (bits (dst.levels 6) ∪ src.groupsOf (2 ^ dst.granularity) dst.origSize) new := by
  have initial : Merged dst src (dst, 0) := by
    refine ⟨⟨wellFormed, rfl, rfl, ?_⟩, zero_le _⟩
    refine (union_eq_left.mpr ?_).symm
    rintro group ⟨item, before, -⟩
    exact absurd before (not_lt_zero item)
  exact Loop.run_spec (Merged dst src) (fun state => dst.origSize - state.2)
    (fun state merged => mergeArea_spec srcFormed sameSize merged) initial
    (by omega)

end Sparse

section Merge

variable {a b result : HBitmap}

/-- At its own granularity a bitmap's dirty items fall in its dirty groups. -/
theorem groupsOf_self (wellFormed : WellFormed a) :
    a.groupsOf (2 ^ a.granularity) a.origSize = bits (a.levels 6) := by
  have positive := Nat.two_pow_pos a.granularity
  ext group
  constructor
  · rintro ⟨item, -, dirty, rfl⟩
    exact dirty
  · intro set
    have cancel := Nat.mul_div_cancel group positive
    refine ⟨group * 2 ^ a.granularity, wellFormed.item_lt (wellFormed.lt_size set), ?_, cancel⟩
    rw [DirtyItem, cancel]
    exact set

theorem countItems_eq_zero_iff (wellFormed : WellFormed a) : a.countItems = 0 ↔ bits (a.levels 6) = ∅ := by
  have items := wellFormed.items_lt
  have counted := wellFormed.count_size
  have positive := Nat.two_pow_pos a.granularity
  have bound : Nat.count (IsSet a.levels) a.size ≤ a.size := count_le _
  have scaled : a.count.toNat * 2 ^ a.granularity < 2 ^ 64 := by
    refine Nat.lt_of_le_of_lt (Nat.mul_le_mul_right _ ?_) items
    omega
  have value : a.countItems.toNat = a.count.toNat * 2 ^ a.granularity := by
    rw [countItems, BitVec.toNat_shiftLeft, shiftLeft_eq, mod_eq_of_lt scaled]
  have zero : a.countItems = 0 ↔ Nat.count (IsSet a.levels) a.size = 0 := by
    rw [← BitVec.toNat_inj, value, counted]
    exact ⟨fun product => (Nat.mul_eq_zero.mp product).resolve_right positive.ne',
      fun none => by rw [none, Nat.zero_mul]; rfl⟩
  rw [zero]
  constructor
  · intro none
    rw [eq_empty_iff_forall_notMem]
    intro n set
    have some : Nat.count (IsSet a.levels) n < Nat.count (IsSet a.levels) a.size :=
      count_strict_mono set (wellFormed.lt_size set)
    omega
  · intro empty
    exact count_empty empty _

/-- What the bitmaps of a merge have in common; the flags say which of them the
result is. -/
structure Mergeable (a b result : HBitmap) (resultIsA resultIsB : Bool) : Prop where
  aFormed : WellFormed a
  bFormed : WellFormed b
  resultFormed : WellFormed result
  aSize : a.origSize = result.origSize
  bSize : b.origSize = result.origSize
  granularity : result.granularity = a.granularity
  isA : resultIsA = true → a = result
  isB : resultIsB = true → b = result

/-- Equal sizes give arrays of equal lengths. -/
theorem length_eq_of_size (aFormed : WellFormed a) (bFormed : WellFormed b) (same : a.size = b.size)
    (level : i ≤ 6) : (a.levels i).length = (b.levels i).length := by
  induction level using decreasingInduction with
  | self => rw [aFormed.lastLength, bFormed.lastLength, same]
  | of_succ i below ih => rw [aFormed.upperLength i below, bFormed.upperLength i below, ih]

theorem bits_orWords (sameFirst : first.length = old.length)
    (sameSecond : second.length = old.length) :
    bits (orWords first second old) = bits first ∪ bits second := by
  have here (index : Nat) : word (orWords first second old) index = word first index ||| word second
    index := by
    rcases lt_or_ge index old.length with inside | past
    · have entry : (orWords first second old)[index]? = some (word first index ||| word second index) := by
        rw [orWords, getElem?_mapIdx, getElem?_eq_getElem inside, map_some, if_pos (by omega)]
      rw [word, getD_eq_getElem?_getD, entry]
      rfl
    · have pastNew : (orWords first second old).length ≤ index := by
        rw [orWords, length_mapIdx]
        exact past
      rw [word_of_length_le pastNew, word_of_length_le (sameFirst.trans_le past),
        word_of_length_le (sameSecond.trans_le past)]
      rfl
  refine bits_eq_of_words fun index k small => ?_
  rw [here, BitVec.getLsbD_or, Bool.or_eq_true, mem_union, mem_bits, mem_bits, bit_in_word small,
    bit_in_word small]

/-- Bitmaps of one granularity are merged word by word at every level. -/
theorem merge_words (aFormed : WellFormed a) (bFormed : WellFormed b) (formed : WellFormed result)
    (aSize : a.size = result.size) (bSize : b.size = result.size) (nonempty : 0 < result.size) :
    ∃ count, { result with
        levels := fun i => orWords (a.levels i) (b.levels i) (result.levels i) }.countBetween 0
          (result.size - 1) = some count ∧
      Leaves result (bits (a.levels 6) ∪ bits (b.levels 6))
        { result with
          count := BitVec.ofNat 64 count
          levels := fun i => orWords (a.levels i) (b.levels i) (result.levels i) } := by
  set merged : Levels := fun i => orWords (a.levels i) (b.levels i) (result.levels i)
  have bits_eq {i : Nat} (level : i ≤ 6) : bits (merged i) = bits (a.levels i) ∪ bits (b.levels i) :=
    bits_orWords (length_eq_of_size aFormed formed aSize level)
      (length_eq_of_size bFormed formed bSize level)
  have lengths (i : Nat) : (merged i).length = (result.levels i).length := length_mapIdx
  have summarised : Summarised merged 6 := by
    intro i below
    rw [bits_eq (by omega), bits_eq (by omega), blocks_union, aFormed.summarised i below,
      bFormed.summarised i below, ← union_union_distrib_right]
  have fits := formed.fits
  have counted := @countBetween_spec { result with levels := merged }
    (formed.stacked.of_lengths lengths) summarised 0 (result.size - 1) (zero_le _)
    (sub_lt nonempty one_pos) (by rw [lengths]; exact fits)
  refine ⟨_, counted, formed.sized.leaves lengths summarised (bits_eq (le_refl 6)) ?_ ?_⟩
  · rintro n (set | set)
    · exact aSize ▸ aFormed.lt_size set
    · exact bSize ▸ bFormed.lt_size set
  · have bound := @WellFormed.count_le _ formed merged
    rw [countFrom_zero, show result.size - 1 + 1 = result.size by omega]
    exact mod_eq_of_lt (lt_of_le_of_lt bound (by decide))

/-- Bitmaps of different granularities are merged area by area. -/
theorem merge_areas (mergeable : Mergeable a b result resultIsA resultIsB)
    (differ : a.granularity ≠ b.granularity) : ∃ new, (do
        let result := if resultIsA || resultIsB then result else result.resetAll
        let result ← if resultIsA then some result else result.sparseMerge a
        if resultIsB then some result else result.sparseMerge b) = some new ∧
      Leaves result (bits (a.levels 6) ∪ b.groupsOf (2 ^ result.granularity) result.origSize) new := by
  obtain ⟨aFormed, bFormed, formed, aSize, bSize, granularity, isA, isB⟩ := mergeable
  have notB : resultIsB = false := by
    rw [Bool.eq_false_iff]
    intro same
    exact differ (granularity.symm.trans (congrArg HBitmap.granularity (isB same)).symm)
  subst notB
  cases resultIsA with
  | true =>
    obtain rfl := isA rfl
    exact sparseMerge_spec formed bFormed bSize
  | false => ?_
  have cleared := resetAll_spec formed
  obtain ⟨first, ran, leaves⟩ :=
    sparseMerge_spec cleared.wellFormed aFormed (aSize.trans cleared.origSize_eq.symm)
  have same : a.groupsOf (2 ^ result.granularity) result.origSize = bits (a.levels 6) := by
    rw [granularity, ← aSize]
    exact groupsOf_self aFormed
  have firstSize := leaves.origSize_eq.trans cleared.origSize_eq
  have firstGranularity := leaves.granularity_eq.trans cleared.granularity_eq
  obtain ⟨second, ranSecond, after⟩ :=
    sparseMerge_spec leaves.wellFormed bFormed (bSize.trans firstSize.symm)
  refine ⟨second, ?_, after.wellFormed, after.origSize_eq.trans firstSize,
    after.granularity_eq.trans firstGranularity, ?_⟩
  · simp [ran, ranSecond]
  · rw [after.bits_eq, leaves.bits_eq, cleared.bits_eq, firstSize, firstGranularity,
      cleared.origSize_eq, cleared.granularity_eq, same, empty_union]

theorem merge_spec (mergeable : Mergeable a b result resultIsA resultIsB) :
    ∃ new, merge a b result resultIsA resultIsB = some new ∧
      Leaves result (bits (a.levels 6) ∪ b.groupsOf (2 ^ result.granularity) result.origSize) new := by
  have areas := merge_areas mergeable
  obtain ⟨aFormed, bFormed, formed, aSize, bSize, granularity, isA, isB⟩ := mergeable
  have nothing (empty : bits (b.levels 6) = ∅) (unit bound : Nat) : b.groupsOf unit bound = ∅ := by
    rw [eq_empty_iff_forall_notMem]
    rintro group ⟨item, -, dirty, -⟩
    rw [DirtyItem, empty] at dirty
    exact notMem_empty _ dirty
  have sameAsB (same : result.granularity = b.granularity) :
      b.groupsOf (2 ^ result.granularity) result.origSize = bits (b.levels 6) := by
    rw [same, ← bSize, groupsOf_self bFormed]
  simp only [merge, aSize, bSize, and_self, if_true]
  split
  next early =>
    refine ⟨result, rfl, formed, rfl, rfl, ?_⟩
    rcases early with ⟨emptyA, resultB⟩ | ⟨emptyB, resultA⟩
    · obtain rfl := isB resultB
      rw [(countItems_eq_zero_iff aFormed).mp emptyA, sameAsB rfl, empty_union]
    · obtain rfl := isA resultA
      rw [nothing ((countItems_eq_zero_iff bFormed).mp emptyB), union_empty]
  split
  next empty =>
    refine ⟨_, rfl, ?_⟩
    rw [(countItems_eq_zero_iff aFormed).mp empty.1,
      nothing ((countItems_eq_zero_iff bFormed).mp empty.2), union_empty]
    exact resetAll_spec formed
  rename_i some
  split
  next differ => exact areas differ
  next equal =>
    have equal := not_not.mp equal
    have sizeA : a.size = result.size := by
      rw [aFormed.size_eq, formed.size_eq, aSize, granularity]
    have sizeB : b.size = result.size := by
      rw [bFormed.size_eq, formed.size_eq, bSize, granularity, equal]
    have nonempty : 0 < result.size := by
      rw [pos_iff_ne_zero]
      intro zero
      refine some ⟨(countItems_eq_zero_iff aFormed).mpr ?_, (countItems_eq_zero_iff bFormed).mpr ?_⟩
      · exact eq_empty_iff_forall_notMem.mpr fun n set => by
          have := aFormed.lt_size set
          omega
      · exact eq_empty_iff_forall_notMem.mpr fun n set => by
          have := bFormed.lt_size set
          omega
    obtain ⟨count, counted, leaves⟩ := merge_words aFormed bFormed formed sizeA sizeB nonempty
    have lengths : ((List.range 7).all fun i => (a.levels i).length ≤ (b.levels i).length ∧
        (a.levels i).length ≤ (result.levels i).length) = true := by
      rw [List.all_eq_true]
      intro i below
      have level : i ≤ 6 := le_of_lt_succ (mem_range.mp below)
      exact decide_eq_true
        ⟨(length_eq_of_size aFormed bFormed (sizeA.trans sizeB.symm) level).le,
          (length_eq_of_size aFormed formed sizeA level).le⟩
    rw [if_pos ⟨sizeA.trans sizeB.symm, lengths⟩, sameAsB (granularity.trans equal)]
    refine ⟨_, ?_, leaves⟩
    simp [counted]

theorem merge_isSome (ran : (merge a b result resultIsA resultIsB).isSome = true) :
    a.origSize = result.origSize ∧ b.origSize = result.origSize := by
  by_contra refused
  rw [merge, if_neg refused] at ran
  exact absurd ran Bool.false_ne_true

end Merge

end Qemu.HBitmap
