import Qemu.Util.HBitmapRun

namespace Qemu.HBitmap

open Option List

/-- One round of asking for areas: those found so far and the end of the last one. -/
def areasStep (hb : HBitmap) (stop maxDirtyCount : Nat) (state : List (Nat × Nat) × Nat) :
    Option (Loop.Step (List (Nat × Nat) × Nat) (List (Nat × Nat))) := do
  match ← hb.nextDirtyArea state.2 stop maxDirtyCount with
  | none => some (.done state.1)
  | some (first, length) => some (.next (state.1 ++ [(first, length)], first + length))

/-- The areas found by asking from the end of the previous one, starting at zero -/
def areas (hb : HBitmap) (stop maxDirtyCount : Nat) : Option (List (Nat × Nat)) :=
  Loop.run (hb.areasStep stop maxDirtyCount) (hb.origSize + 1) ([], 0)

/-- The items of areas -/
def items (areas : List (Nat × Nat)) : List Nat := areas.flatMap fun area => range' area.1 area.2

variable {hb : HBitmap} (wellFormed : WellFormed hb) {start count : Nat}
include wellFormed

theorem status_spec (positive : 0 < count) (inside : start + count ≤ hb.origSize) :
    ∃ dirty pnum, hb.status start count = some (dirty, pnum) ∧
      IsRun (fun item => hb.DirtyItem item ↔ dirty = true) start count pnum := by
  obtain ⟨found, searched, isDirty⟩ := @nextDirty_spec _ wellFormed start count
  obtain ⟨zero, scanned, isZero⟩ := @nextZero_spec _ wellFormed start count (by omega)
  rw [min_eq_right inside] at isDirty isZero
  by_cases dirty : hb.DirtyItem start
  · have here : found = some start := by
      cases found with
      | none => exact absurd dirty (isDirty start (Nat.le_refl start) (by omega))
      | some nextDirty =>
        obtain ⟨low, -, -, clear⟩ := isDirty
        rcases Nat.eq_or_lt_of_le low with same | after
        · rw [same]
        · exact absurd dirty (clear start (Nat.le_refl start) after)
    refine ⟨true, zero.getD (start + count) - start, ?_,
      by simpa only [iff_true] using isZero.run dirty positive⟩
    simp only [status, positive, inside, searched, here, scanned]
    cases zero with
    | none => simp
    | some nextZero => ?_
    have after : start < nextZero := by
      refine Nat.lt_of_le_of_ne isZero.1 ?_
      rintro rfl
      exact isZero.2.2.1 dirty
    simp [after]
  · refine ⟨false, found.getD (start + count) - start, ?_, ?_⟩
    · simp only [status, positive, inside, searched]
      cases found with
      | none => simp
      | some nextDirty => ?_
      have after : start < nextDirty := by
        refine Nat.lt_of_le_of_ne isDirty.1 ?_
        rintro rfl
        exact dirty isDirty.2.2.1
      simp [after]
    · simp only [Bool.false_eq_true, iff_false]
      refine IsFirst.run ?_ dirty positive
      simpa only [not_not] using isDirty

/-- The areas so far hold the dirty items before an offset, in order. -/
structure Enumerated (hb : HBitmap) (offset : Nat) (areas : List (Nat × Nat)) : Prop where
  ordered : (items areas).Pairwise (· < ·)
  mem_iff : ∀ item, item ∈ items areas ↔ item < offset ∧ hb.DirtyItem item

section

variable {stop maxDirtyCount : Nat} (whole : hb.origSize ≤ stop) (positive : 0 < maxDirtyCount)
include whole positive

theorem areasStep_spec (listed : hb.Enumerated state.2 state.1)
    (inside : state.2 ≤ hb.origSize) : Loop.Decides (fun later => (hb.Enumerated later.2 later.1 ∧
      later.2 ≤ hb.origSize) ∧ hb.origSize - later.2 < hb.origSize - state.2)
      (hb.Enumerated hb.origSize) (hb.areasStep stop maxDirtyCount state) := by
  rw [areasStep]
  obtain ⟨_ | ⟨first, length⟩, found, isFirst, isRun⟩ :=
    @nextDirtyArea_spec _ wellFormed state.2 stop _ positive
  · rw [min_eq_right whole] at isFirst
    rw [found]
    refine ⟨listed.ordered, fun item => ?_⟩
    rw [listed.mem_iff]
    refine ⟨fun ⟨before, dirty⟩ => ⟨by omega, dirty⟩, fun ⟨before, dirty⟩ => ⟨?_, dirty⟩⟩
    by_contra late
    exact isFirst item (by omega) before dirty
  obtain ⟨nonempty, within, dirty, -⟩ := isRun first length rfl
  obtain ⟨later, high, -, clear⟩ := isFirst
  have split : items (state.1 ++ [(first, length)]) = items state.1 ++ range' first length := by
    rw [items, flatMap_append, flatMap_singleton]
    rfl
  rw [found]
  refine ⟨⟨⟨?_, fun item => ?_⟩, ?_⟩, ?_⟩
  · rw [split]
    refine pairwise_append.mpr ⟨listed.ordered, pairwise_lt_range', fun a seen b new => ?_⟩
    have := ((listed.mem_iff a).mp seen).1
    have := (mem_range'_1.mp new).1
    omega
  · rw [split, mem_append, listed.mem_iff, mem_range'_1]
    constructor
    · rintro (⟨before, isDirty⟩ | ⟨low, upTo⟩)
      · exact ⟨by omega, isDirty⟩
      · exact ⟨upTo, dirty item low upTo⟩
    · rintro ⟨before, isDirty⟩
      rcases Nat.lt_or_ge item state.2 with seen | unseen
      · exact .inl ⟨seen, isDirty⟩
      · refine .inr ⟨?_, before⟩
        by_contra skipped
        exact clear item unseen (by omega) isDirty
  · omega
  · omega

theorem areas_spec : ∃ areas, hb.areas stop maxDirtyCount = some areas ∧ hb.Enumerated hb.origSize areas :=
  Loop.run_spec (fun state => hb.Enumerated state.2 state.1 ∧ state.2 ≤ hb.origSize)
    (fun state => hb.origSize - state.2)
    (fun _ ⟨listed, inside⟩ => areasStep_spec wellFormed whole positive listed inside)
    ⟨⟨.nil, fun item => by simp [items]⟩, Nat.zero_le _⟩ (by omega)

end

/-- The queries of a well-formed bitmap find the first item, the whole run and every dirty item
once. -/
theorem queries_exact :
    (∀ start count, ∃ found, hb.nextDirty start count = some found ∧
      IsFirst hb.DirtyItem start (min hb.origSize (start + count)) found) ∧
    (∀ start count, start < hb.origSize → ∃ found, hb.nextZero start count = some found ∧
      IsFirst (fun item => ¬ hb.DirtyItem item) start (min hb.origSize (start + count)) found) ∧
    (∀ start stop maxDirtyCount, 0 < maxDirtyCount →
    ∃ area, hb.nextDirtyArea start stop maxDirtyCount = some area ∧
      IsFirst hb.DirtyItem start (min stop hb.origSize) (area.map Prod.fst) ∧
      ∀ first length, area = some (first, length) →
        IsRun hb.DirtyItem first (min (min stop hb.origSize - first) maxDirtyCount) length) ∧
    (∀ start count, 0 < count → start + count ≤ hb.origSize →
    ∃ dirty pnum, hb.status start count = some (dirty, pnum) ∧
      IsRun (fun item => hb.DirtyItem item ↔ dirty = true) start count pnum) ∧
    ∀ stop maxDirtyCount, hb.origSize ≤ stop → 0 < maxDirtyCount →
    ∃ areas, hb.areas stop maxDirtyCount = some areas ∧
      (items areas).Pairwise (· < ·) ∧ ∀ item, item ∈ items areas ↔ item < hb.origSize ∧
      hb.DirtyItem item := by
  refine ⟨fun _ _ => nextDirty_spec wellFormed, fun _ _ => nextZero_spec wellFormed,
    fun _ stop _ => nextDirtyArea_spec wellFormed stop, fun _ _ => status_spec wellFormed,
    fun _ _ whole positive => ?_⟩
  obtain ⟨areas, ran, listed⟩ := areas_spec wellFormed whole positive
  exact ⟨areas, ran, listed.ordered, listed.mem_iff⟩

omit wellFormed in
theorem queries_exact_stripes : ∃ hb, run [] stripes = some [hb] ∧
    (hb.nextDirty 145 1000 = some (some 496) ∧ IsFirst hb.DirtyItem 145 1145 (some 496)) ∧
    (hb.nextZero 500 600 = some (some 560) ∧
      IsFirst (fun item => ¬ hb.DirtyItem item) 500 1100 (some 560)) ∧
    (hb.nextDirtyArea 50 2000 90 = some (some (50, 90)) ∧ IsRun hb.DirtyItem 50 90 90) ∧
    (hb.status 560 1440 = some (false, 1424) ∧
      IsRun (fun item => hb.DirtyItem item ↔ false = true) 560 1440 1424) ∧
    hb.areas 2000 50 = some [(40, 50), (90, 50), (140, 4), (496, 50), (546, 14), (1984, 16)] ∧
    ∀ item, item < 2000 ∧ hb.DirtyItem item ↔
      40 ≤ item ∧ item < 144 ∨ 496 ≤ item ∧ item < 560 ∨ 1984 ≤ item ∧ item < 2000 := by
  obtain ⟨hb, wellFormed, ran, evaluate⟩ := stripes_run
  have size : hb.origSize = 2000 :=
    some.inj ((evaluate fun hb => some hb.origSize).symm.trans (by decide +kernel))
  obtain ⟨nextDirty, nextZero, nextArea, status, areas⟩ := queries_exact wellFormed
  rw [size] at nextDirty nextZero nextArea status areas
  have dirty : hb.nextDirty 145 1000 = some (some 496) :=
    (evaluate (·.nextDirty 145 1000)).symm.trans (by decide +kernel)
  have zero : hb.nextZero 500 600 = some (some 560) :=
    (evaluate (·.nextZero 500 600)).symm.trans (by decide +kernel)
  have area : hb.nextDirtyArea 50 2000 90 = some (some (50, 90)) :=
    (evaluate (·.nextDirtyArea 50 2000 90)).symm.trans (by decide +kernel)
  have clean : hb.status 560 1440 = some (false, 1424) :=
    (evaluate (·.status 560 1440)).symm.trans (by decide +kernel)
  have all : hb.areas 2000 50 = some [(40, 50), (90, 50), (140, 4), (496, 50), (546, 14), (1984, 16)] :=
    (evaluate (·.areas 2000 50)).symm.trans (by decide +kernel)
  refine ⟨hb, ran, ⟨dirty, ?_⟩, ⟨zero, ?_⟩, ⟨area, ?_⟩, ⟨clean, ?_⟩, all, fun item => ?_⟩
  · obtain ⟨found, same, first⟩ := nextDirty 145 1000
    cases dirty.symm.trans same
    exact first
  · obtain ⟨found, same, first⟩ := nextZero 500 600 (by decide)
    cases zero.symm.trans same
    exact first
  · obtain ⟨found, same, -, longest⟩ := nextArea 50 2000 90 (by decide)
    cases area.symm.trans same
    exact longest 50 90 rfl
  · obtain ⟨isDirty, pnum, same, longest⟩ := status 560 1440 (by decide) (by decide)
    cases clean.symm.trans same
    exact longest
  obtain ⟨found, same, -, exact⟩ := areas 2000 50 (by decide) (by decide)
  cases all.symm.trans same
  rw [← exact]
  simp only [items, flatMap_cons, flatMap_nil, append_nil, mem_append, mem_range'_1]
  omega

end Qemu.HBitmap
