import Qemu.Util.HBitmapIter

namespace Qemu.HBitmap

open BitWords

/-- The representation invariant. -/
structure WellFormed (hb : HBitmap) : Prop where
  origSize_lt : hb.origSize < 2 ^ 63
  granularity_lt : hb.granularity < 64
  size_eq : hb.size = groups hb.origSize hb.granularity
  size_le : hb.size ≤ 2 ^ 41
  lastLength : (hb.levels 6).length = wordsFor hb.size
  upperLength : ∀ i < 6, (hb.levels i).length = wordsFor (hb.levels (i + 1)).length
  /-- A bit is set for each word in use one level down; level 0 has the sentinel. -/
  summary : ∀ i < 6, ∀ n, bit (hb.levels i) n = true ↔ word (hb.levels (i + 1)) n ≠ 0 ∨ (i = 0 ∧ n = 63)
  count_eq : hb.count.toNat = Nat.count (fun n => bit (hb.levels 6) n = true) (64 * (hb.levels 6).length)
  /-- No bit is set past the size. -/
  tail : ∀ n, hb.size ≤ n → bit (hb.levels 6) n = false

theorem le_wordsFor (size : Nat) : size ≤ 64 * wordsFor size := by
  unfold wordsFor
  omega

theorem wordsFor_le {size bound : Nat} (small : size ≤ 64 * bound) (positive : 1 ≤ bound) :
    wordsFor size ≤ bound := by
  unfold wordsFor
  omega

section Shape

variable {levels : Levels} {size : Nat}

/-- Level arrays of the lengths that go with a size. -/
structure Shaped (levels : Levels) (size : Nat) : Prop where
  lastLength : (levels 6).length = wordsFor size
  upperLength : ∀ i < 6, (levels i).length = wordsFor (levels (i + 1)).length

section

variable (shaped : Shaped levels size)
include shaped

theorem Shaped.top_le (small : size ≤ 2 ^ 41) : (levels 1).length ≤ 32 := by
  have last : (levels 6).length ≤ 2 ^ 35 := shaped.lastLength ▸ wordsFor_le (by omega) (by omega)
  have fifth : (levels 5).length ≤ 2 ^ 29 := shaped.upperLength 5 (by omega) ▸
    wordsFor_le (by omega) (by omega)
  have fourth : (levels 4).length ≤ 2 ^ 23 := shaped.upperLength 4 (by omega) ▸
    wordsFor_le (by omega) (by omega)
  have third : (levels 3).length ≤ 2 ^ 17 := shaped.upperLength 3 (by omega) ▸
    wordsFor_le (by omega) (by omega)
  have second : (levels 2).length ≤ 2 ^ 11 := shaped.upperLength 2 (by omega) ▸
    wordsFor_le (by omega) (by omega)
  exact shaped.upperLength 1 (by omega) ▸ wordsFor_le (by omega) (by omega)

theorem Shaped.stacked (small : size ≤ 2 ^ 41) : Stacked levels where
  room i below := by
    rw [shaped.upperLength i below]
    exact le_wordsFor _
  short := (shaped.top_le small).trans (by omega)

theorem Shaped.of_lengths
    (same : ∀ i, (new i).length = (levels i).length) : Shaped new size where
  lastLength := by rw [same, shaped.lastLength]
  upperLength i below := by rw [same, same, shaped.upperLength i below]

end

theorem summarised_iff : Summarised levels 6 ↔ ∀ i < 6, ∀ n, bit (levels i) n = true ↔
    word (levels (i + 1)) n ≠ 0 ∨ (i = 0 ∧ n = 63) := by
  refine forall_congr' fun i => forall_congr' fun below => ?_
  rw [Set.ext_iff]
  refine forall_congr' fun n => ?_
  rw [Set.mem_union, ← word_ne_zero_iff]
  refine iff_congr Iff.rfl (or_congr Iff.rfl ?_)
  unfold guard
  split
  next top => simp [top]
  next lower => simp [lower]

end Shape

/-- A bitmap whose arrays go with its size, whatever they hold. -/
structure Sized (hb : HBitmap) : Prop where
  origSize_lt : hb.origSize < 2 ^ 63
  granularity_lt : hb.granularity < 64
  size_eq : hb.size = groups hb.origSize hb.granularity
  size_le : hb.size ≤ 2 ^ 41
  shaped : Shaped hb.levels hb.size

section Access

variable {hb : HBitmap} (wellFormed : WellFormed hb)
include wellFormed

theorem WellFormed.shaped : Shaped hb.levels hb.size := ⟨wellFormed.lastLength, wellFormed.upperLength⟩

theorem WellFormed.sized : Sized hb where
  origSize_lt := wellFormed.origSize_lt
  granularity_lt := wellFormed.granularity_lt
  size_eq := wellFormed.size_eq
  size_le := wellFormed.size_le
  shaped := wellFormed.shaped

theorem WellFormed.stacked : Stacked hb.levels := wellFormed.shaped.stacked wellFormed.size_le

theorem WellFormed.summarised : Summarised hb.levels 6 := summarised_iff.mpr wellFormed.summary

theorem WellFormed.fits : hb.size ≤ 64 * (hb.levels 6).length := by
  rw [wellFormed.lastLength]
  exact le_wordsFor _

theorem WellFormed.lt_size (set : n ∈ bits (hb.levels 6)) : n < hb.size := by
  by_contra past
  rw [mem_bits, wellFormed.tail n (Nat.not_lt.mp past)] at set
  exact absurd set Bool.false_ne_true

/-- The set bits can be counted up to the size alone. -/
theorem WellFormed.count_size : hb.count.toNat = Nat.count (IsSet hb.levels) hb.size := by
  have past : countFrom (IsSet hb.levels) hb.size (64 * (hb.levels 6).length) = 0 :=
    countFrom_eq_zero fun n late _ set => absurd (wellFormed.lt_size set) (Nat.not_lt.mpr late)
  rw [wellFormed.count_eq, count_eq_add_countFrom wellFormed.fits, past, Nat.add_zero]

theorem WellFormed.countBetween (ordered : first ≤ last) (inside : last < hb.size) :
    hb.countBetween first last = some (countFrom (IsSet hb.levels) first (last + 1)) :=
  countBetween_spec wellFormed.stacked wellFormed.summarised ordered inside wellFormed.fits

end Access

/-- What an operation leaves: a well-formed bitmap of the same size, with a given
set of dirty groups. -/
structure Leaves (hb : HBitmap) (dirty : Set Nat) (new : HBitmap) : Prop where
  wellFormed : WellFormed new
  origSize_eq : new.origSize = hb.origSize
  granularity_eq : new.granularity = hb.granularity
  bits_eq : bits (new.levels 6) = dirty

/-- New levels and a new count for the same size. -/
theorem Sized.leaves (sized : Sized hb) {levels : Levels} {count : BitVec 64}
    (lengths : ∀ i, (levels i).length = (hb.levels i).length) (summarised : Summarised levels 6)
    (bits_eq : bits (levels 6) = dirty) (bounded : ∀ n ∈ dirty, n < hb.size)
    (counted : count.toNat = Nat.count (IsSet levels) hb.size) :
    Leaves hb dirty { hb with count, levels } := by
  have shaped := sized.shaped.of_lengths lengths
  have tail (n : Nat) (past : hb.size ≤ n) : bit (levels 6) n = false := by
    rw [Bool.eq_false_iff]
    intro set
    exact absurd (bounded n (bits_eq ▸ set)) (Nat.not_lt.mpr past)
  refine ⟨{ origSize_lt := sized.origSize_lt, granularity_lt := sized.granularity_lt,
            size_eq := sized.size_eq, size_le := sized.size_le,
            lastLength := shaped.lastLength, upperLength := shaped.upperLength,
            summary := summarised_iff.mp summarised, count_eq := ?_, tail }, rfl, rfl, bits_eq⟩
  have fits : hb.size ≤ 64 * (levels 6).length := shaped.lastLength ▸ le_wordsFor _
  have past : countFrom (IsSet levels) hb.size (64 * (levels 6).length) = 0 :=
    countFrom_eq_zero fun n late _ => Bool.eq_false_iff.mp (tail n late)
  rw [counted, count_eq_add_countFrom fits, past, Nat.add_zero]

end Qemu.HBitmap
