import Qemu.Memory.Dispatch
import Qemu.Memory.RenderTotal

namespace Qemu.Memory

open Spans

/-- What `can_merge` reads of its first argument. -/
structure SameEnd (r r' : FlatRange) : Prop where
  last : r.addr.start + r.addr.size = r'.addr.start + r'.addr.size
  mr : r.mr = r'.mr
  offset : (r.offsetInRegion : Int) + r.addr.size = r'.offsetInRegion + r'.addr.size
  dirtyLogMask : r.dirtyLogMask = r'.dirtyLogMask
  romdMode : r.romdMode = r'.romdMode
  readonly : r.readonly = r'.readonly
  nonvolatile : r.nonvolatile = r'.nonvolatile
  unmergeable : r.unmergeable = r'.unmergeable

theorem SameEnd.refl (r : FlatRange) : SameEnd r r := ⟨rfl, rfl, rfl, rfl, rfl, rfl, rfl, rfl⟩

theorem canMerge_of_sameEnd (same : SameEnd r r') : canMerge r range = canMerge r' range := by
  rw [canMerge, canMerge, AddrRange.addrrangeEnd, AddrRange.addrrangeEnd, int128Add, int128Add,
    int128Add, int128Add,
    same.last, same.mr, same.offset, same.dirtyLogMask, same.romdMode, same.readonly, same.nonvolatile,
    same.unmergeable]

def FlatRange.resize (range : FlatRange) (size : Int) : FlatRange := { range with addr.size := size }

/-- Two ranges as one. -/
def extend (head range : FlatRange) : FlatRange := head.resize (int128Add head.addr.size range.addr.size)

section Merge

variable {head range : FlatRange} {rest : List FlatRange}
  (valid : ValidView (head :: range :: rest)) (merge : canMerge head range = true)
include valid

theorem extend_size : (extend head range).addr.size = head.addr.size + range.addr.size := by
  obtain ⟨headNonempty, before, ordered⟩ := ordered_cons.mp valid.ordered
  obtain ⟨rangeNonempty, -, -⟩ := ordered_cons.mp ordered
  have apart := before range (by simp)
  obtain ⟨low, -⟩ := valid.within head (by simp)
  obtain ⟨-, high⟩ := valid.within range (by simp)
  simp only [flatLayout] at headNonempty rangeNonempty apart low high
  exact int128Add_eq (by omega) (by omega)

include merge

/-- What ranges that can be merged have in common. -/
structure Adjacent (head range : FlatRange) : Prop where
  last : head.addr.start + head.addr.size = range.addr.start
  mr : head.mr = range.mr
  offset : (head.offsetInRegion : Int) + head.addr.size = range.offsetInRegion
  dirtyLogMask : head.dirtyLogMask = range.dirtyLogMask
  romdMode : head.romdMode = range.romdMode
  readonly : head.readonly = range.readonly
  nonvolatile : head.nonvolatile = range.nonvolatile
  headMergeable : head.unmergeable = false
  rangeMergeable : range.unmergeable = false

theorem adjacent_of_canMerge : Adjacent head range := by
  obtain ⟨low, high⟩ := valid.within head (by simp)
  obtain ⟨nonempty, -, -⟩ := ordered_cons.mp valid.ordered
  have offset := valid.offsets head (by simp)
  simp only [flatLayout] at low high nonempty
  simp only [canMerge, Bool.and_eq_true, decide_eq_true_eq, Bool.not_eq_true'] at merge
  obtain ⟨⟨⟨⟨⟨⟨⟨⟨last, mr⟩, next⟩, mask⟩, romd⟩, readonly⟩, nonvolatile⟩, first⟩, second⟩ := merge
  rw [AddrRange.addrrangeEnd_eq (by omega) (by omega) (by omega) (by omega)] at last
  rw [int128Add_eq (by omega) (by omega)] at next
  exact ⟨last, mr, next, mask, romd, readonly, nonvolatile, first, second⟩

theorem sameEnd_extend : SameEnd (extend head range) range := by
  have adjacent := adjacent_of_canMerge valid merge
  have size := extend_size valid
  have last := adjacent.last
  have offset := adjacent.offset
  refine ⟨?_, adjacent.mr, ?_, adjacent.dirtyLogMask, adjacent.romdMode, adjacent.readonly,
    adjacent.nonvolatile, adjacent.headMergeable.trans adjacent.rangeMergeable.symm⟩
  · rw [show (extend head range).addr.start = head.addr.start from rfl]
    omega
  · rw [show (extend head range).offsetInRegion = head.offsetInRegion from rfl]
    omega

theorem validView_extend : ValidView (extend head range :: rest) := by
  obtain ⟨headNonempty, before, ordered⟩ := ordered_cons.mp valid.ordered
  obtain ⟨rangeNonempty, after, restOrdered⟩ := ordered_cons.mp ordered
  have last := (adjacent_of_canMerge valid merge).last
  have size := extend_size valid
  have high := (valid.within range (by simp)).2
  have start : (extend head range).addr.start = head.addr.start := rfl
  have hi : flatLayout.hi (extend head range) = flatLayout.hi range := by
    simp only [flatLayout]
    omega
  refine ⟨ordered_cons.mpr ⟨?_, ?_, restOrdered⟩, ?_, ?_⟩
  · simp only [flatLayout] at headNonempty rangeNonempty ⊢
    omega
  · rw [hi]
    exact after
  · refine List.forall_mem_cons.mpr ⟨⟨(valid.within head (by simp)).1, hi ▸ high⟩, valid.tail.tail.within⟩
  · exact List.forall_mem_cons.mpr ⟨valid.offsets head (by simp), valid.tail.tail.offsets⟩

theorem lookup_extend (x : Int) :
    flatLayout.lookup (extend head range :: rest) x = flatLayout.lookup (head :: range :: rest) x := by
  have adjacent := adjacent_of_canMerge valid merge
  have last := adjacent.last
  have offset := adjacent.offset
  have size := extend_size valid
  have start : (extend head range).addr.start = head.addr.start := rfl
  have headNonempty := (ordered_cons.mp valid.ordered).1
  have rangeNonempty := (ordered_cons.mp valid.tail.ordered).1
  have covers : flatLayout.Covers (extend head range) x ↔ flatLayout.Covers head x ∨
    flatLayout.Covers range x := by
    simp only [Layout.Covers, flatLayout] at headNonempty rangeNonempty ⊢
    omega
  rw [lookup_cons, lookup_cons, lookup_cons]
  by_cases first : flatLayout.Covers head x
  · rw [if_pos (covers.mpr (.inl first)), if_pos first]
    rfl
  by_cases second : flatLayout.Covers range x
  · rw [if_pos (covers.mpr (.inr second)), if_neg first, if_pos second]
    have above := second.1
    simp only [flatLayout] at above headNonempty
    simp only [flatLayout, Option.some.injEq, Resolved.mk.injEq]
    refine ⟨adjacent.mr, ?_, adjacent.readonly, adjacent.nonvolatile⟩
    rw [show (extend head range).offsetInRegion = head.offsetInRegion from rfl]
    omega
  · rw [if_neg (covers.not.mpr (by simp [first, second])), if_neg first, if_neg second]

end Merge

/-- A view in which nothing more can be merged and that has the same address map. -/
structure Simplified (view view' : List FlatRange) : Prop where
  valid : ValidView view'
  lookup : ∀ x, flatLayout.lookup view' x = flatLayout.lookup view x
  settled : view'.IsChain fun r r' => canMerge r r' = false

/-- The first range of a simplified view is the old one with another size. -/
theorem simplifyFrom_cons (head previous : FlatRange) (view : List FlatRange) :
    ∃ size rest, simplifyFrom head previous view = head.resize size :: rest := by
  induction view generalizing head previous with
  | nil => exact ⟨head.addr.size, [], rfl⟩
  | cons range rest ih =>
    rw [simplifyFrom]
    split
    · exact ih (extend head range) range
    · exact ⟨head.addr.size, simplifyFrom range range rest, rfl⟩

variable {view : List FlatRange}

theorem simplifyFrom_simplified (valid : ValidView (head :: view))
    (same : SameEnd head previous) : Simplified (head :: view) (simplifyFrom head previous view) := by
  induction view generalizing head previous with
  | nil => exact ⟨valid, fun _ => rfl, .singleton _⟩
  | cons range rest ih => ?_
  rw [simplifyFrom]
  split
  next merge =>
    rw [← canMerge_of_sameEnd same] at merge
    obtain ⟨validRest, lookup, settled⟩ := ih (validView_extend valid merge) (sameEnd_extend valid merge)
    exact ⟨validRest, fun x => (lookup x).trans (lookup_extend valid merge x), settled⟩
  next apart =>
    rw [← canMerge_of_sameEnd same] at apart
    obtain ⟨validRest, lookup, settled⟩ := ih valid.tail (SameEnd.refl range)
    obtain ⟨size, later, first⟩ := simplifyFrom_cons range range rest
    have before := (ordered_cons.mp valid.ordered).2.1 range (by simp)
    rw [first] at validRest lookup settled ⊢
    obtain ⟨nonempty, after, -⟩ := ordered_cons.mp validRest.ordered
    have start : flatLayout.hi head ≤ flatLayout.lo (range.resize size) := before
    refine ⟨⟨?_, ?_, ?_⟩, ?_, ?_⟩
    · refine ordered_cons.mpr ⟨(ordered_cons.mp valid.ordered).1, ?_, validRest.ordered⟩
      refine List.forall_mem_cons.mpr ⟨start, fun r member => ?_⟩
      have := after r member
      omega
    · exact List.forall_mem_cons.mpr ⟨valid.within head (by simp), validRest.within⟩
    · exact List.forall_mem_cons.mpr ⟨valid.offsets head (by simp), validRest.offsets⟩
    · intro x
      refine lookup_cons.trans ?_
      rw [lookup x]
      exact lookup_cons.symm
    · refine List.IsChain.cons_cons ?_ settled
      -- `can_merge` does not read the size of its second argument
      exact Bool.eq_false_iff.mpr apart

theorem flatviewSimplify_simplified (valid : ValidView view) :
    Simplified view (flatviewSimplify view) := by
  cases view with
  | nil => exact ⟨valid, fun _ => rfl, .nil⟩
  | cons range rest => exact simplifyFrom_simplified valid (SameEnd.refl range)

variable {ranges : List FlatRange}

theorem renderTopology_view (done : renderTopology (some mr) = .ok ranges) :
    ∃ view, ranges = flatviewSimplify view ∧
    Renders (fun x => mr.resolve (x - 0 - mr.fields.addr)) ⟨0, 2 ^ 64⟩
    ⟨false, false, false⟩ [] view ∧ Cuts (mr.leaves 0 0 (2 ^ 64)) [] view := by
  obtain ⟨view, rendered, ⟨⟩⟩ := Checked.bind_ok.mp done
  have addr := mr.fields.addr_lt
  have rendersTo := @renderMemoryRegion_renders mr 0 ⟨0, 2 ^ 64⟩ ⟨false, false, false⟩ [] (by omega)
    (by omega) ⟨le_rfl, by decide, by decide⟩ validView_nil
  rw [show renderMemoryRegion mr _ _ _ _ = _ from rendered] at rendersTo
  exact ⟨view, rfl, rendersTo.ok⟩

theorem renderTopology_ok (done : renderTopology (some mr) = .ok ranges) :
    ValidView ranges ∧ (∀ x, flatLayout.lookup ranges x = mr.resolveAddress x) ∧
      ranges.IsChain fun r r' => canMerge r r' = false := by
  obtain ⟨view, rfl, renders, -⟩ := renderTopology_view done
  obtain ⟨valid, lookup, settled⟩ := flatviewSimplify_simplified renders.valid
  refine ⟨valid, fun x => ?_, settled⟩
  rw [lookup x, renders.lookup x, lookup_nil, Option.none_or, MemoryRegion.resolveAddress, sub_zero,
    Resolved.join_nothing, Option.map_id]
  simp [AddrRange.Has]

theorem generateMemoryTopology_ranges
    (done : (generateMemoryTopology t allocHint mr).map FlatView.ranges = .ok ranges) :
    renderTopology mr = .ok ranges := by
  obtain ⟨view, generated, rfl⟩ := Checked.map_ok.mp done
  obtain ⟨ranges, rendered, done⟩ := Checked.bind_ok.mp generated
  obtain ⟨empty, -, done⟩ := Checked.bind_ok.mp done
  obtain ⟨d, -, ⟨⟩⟩ := Checked.bind_ok.mp done
  exact rendered

/-- The address map of a view: the ranges are nonempty, sorted and disjoint, each of them says what
the topology puts at its addresses, and they cover all that the topology puts anywhere; nothing
more can be merged, and merging keeps the map of every view. -/
theorem flatview_exact (t : Target) (allocHint : Nat) (mr : MemoryRegion) (ranges : List FlatRange)
    (done : (generateMemoryTopology t allocHint (some mr)).map FlatView.ranges = .ok ranges) :
    (∀ r ∈ ranges, 0 < r.addr.size) ∧
    ranges.Pairwise (fun r r' => r.addr.start + r.addr.size ≤ r'.addr.start) ∧
    (∀ r ∈ ranges, ∀ x, r.addr.start ≤ x → x < r.addr.start + r.addr.size → mr.resolveAddress x =
      some ⟨r.mr, r.offsetInRegion + (x - r.addr.start).toNat, r.readonly, r.nonvolatile⟩) ∧
    (∀ x, mr.resolveAddress x ≠ none → ∃ r ∈ ranges, r.addr.start ≤ x ∧ x < r.addr.start + r.addr.size) ∧
    (ranges.IsChain fun r r' => canMerge r r' = false) ∧
    ∀ view, ValidView view → (∀ x, flatLayout.lookup (flatviewSimplify view) x =
    flatLayout.lookup view x) ∧
      (flatviewSimplify view).IsChain fun r r' => canMerge r r' = false := by
  obtain ⟨valid, lookup, settled⟩ := renderTopology_ok (generateMemoryTopology_ranges done)
  refine ⟨fun r member => ?_, valid.ordered.sorted, ?_, ?_, settled, ?_⟩
  · have nonempty := valid.ordered.nonempty r member
    simp only [flatLayout] at nonempty
    omega
  · intro r member x first last
    rw [← lookup x]
    exact lookup_of_mem valid.ordered member ⟨first, last⟩
  · intro x found
    rw [← lookup x] at found
    by_contra uncovered
    push Not at uncovered
    exact found (lookup_eq_none.mpr fun r member covered =>
      absurd covered.2 (not_lt.mpr (uncovered r member covered.1)))
  · intro view viewValid
    obtain ⟨-, same, chain⟩ := flatviewSimplify_simplified viewValid
    exact ⟨same, chain⟩

/-- A small board: RAM seen through two aliases, the upper one read-only, a device on top of the
lower one and a disabled region. -/
def board : MemoryRegion :=
  let ram : MemoryRegion := .region { id := 1, addr := 0, size := 0x200000 } []
  .region { id := 0, addr := 0, size := 2 ^ 64, terminates := false }
    [.region { id := 2, addr := 0, size := 2 ^ 64, enabled := false } [],
      .region { id := 3, addr := 0xa0000, size := 0x20000 } [],
      .aliasOf { id := 4, addr := 0, size := 0x100000 } ram,
      .aliasOf
        { id := 5, addr := 0x100000000, size := 0x100000, aliasOffset := 0x100000, readonly := true } ram]

/-- Two terminating regions of 2^64 bytes, the second one behind the first. -/
def fullTwice : MemoryRegion :=
  .region { id := 0, addr := 0, size := 2 ^ 64, terminates := false }
    [.region { id := 1, addr := 0, size := 2 ^ 64 } [], .region { id := 2, addr := 0, size := 2 ^ 64 } []]

def rom : MemoryRegion := .region { id := 1, addr := 0, size := 0x10000, readonly := true } []

/-- A container, and in it a read-only alias of read-only memory that must not be merged. -/
def romAlias : MemoryRegion := .region { id := 3, addr := 0, size := 0x20000, terminates := false }
  [.region { id := 4, addr := 0, size := 0x100, enabled := false } [],
    .aliasOf { id := 2, addr := 0, size := 0x18000, readonly := true, unmergeable := true } rom]

def boardRanges : List FlatRange :=
  [⟨1, 0, ⟨0, 0xa0000⟩, 0, true, false, false, false⟩,
    ⟨3, 0, ⟨0xa0000, 0x20000⟩, 0, true, false, false, false⟩,
    ⟨1, 0xc0000, ⟨0xc0000, 0x40000⟩, 0, true, false, false, false⟩,
    ⟨1, 0x100000, ⟨0x100000000, 0x100000⟩, 0, true, true, false, false⟩]

theorem flatview_exact_board :
    (generateMemoryTopology ⟨12, by decide, by decide⟩ 16 (some board)).map FlatView.ranges =
    .ok boardRanges ∧
    (∀ x, board.resolveAddress x ≠ none → ∃ r ∈ boardRanges, r.addr.start ≤ x ∧
    x < r.addr.start + r.addr.size) := by
  have generated : (generateMemoryTopology ⟨12, by decide, by decide⟩ 16 (some board)).map
      FlatView.ranges = .ok boardRanges := by decide +kernel
  obtain ⟨-, -, -, covered, -⟩ := flatview_exact _ _ board boardRanges generated
  exact ⟨generated, covered⟩

end Qemu.Memory
