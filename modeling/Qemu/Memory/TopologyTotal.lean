import Qemu.Memory.DispatchBuild
import Qemu.Memory.FlatViewExact

namespace Qemu.Memory

open AddressSpaceDispatch MemoryRegionSection Spans Checked List

variable {t : Target}

/-- The section of a range, as `section_from_flat_range` makes it. -/
def rangeSection (fr : FlatRange) : MemoryRegionSection :=
  ⟨.region fr.mr, fr.offsetInRegion, fr.addr.start.toNat, fr.addr.size, fr.readonly, fr.nonvolatile,
    fr.unmergeable⟩

/-- The pieces of all ranges. -/
def viewPieces (t : Target) (ranges : List FlatRange) : List Piece :=
  ranges.flatMap fun fr => pieces t (rangeSection fr)

variable {ranges : List FlatRange} {fr : FlatRange}

section

variable (valid : ValidView ranges) (member : fr ∈ ranges)
include valid member

theorem ValidView.bounds : 0 ≤ fr.addr.start ∧ 0 < fr.addr.size ∧
    fr.addr.start + fr.addr.size ≤ 2 ^ 64 := by
  obtain ⟨low, high⟩ := valid.within fr member
  have nonempty := valid.ordered.nonempty fr member
  simp only [flatLayout] at low high nonempty
  omega

theorem rangeSection_fits : (rangeSection fr).Fits := by
  obtain ⟨low, nonempty, high⟩ := valid.bounds member
  refine ⟨nonempty, ?_⟩
  simp only [rangeSection]
  omega

theorem sectionFromFlatRange_eq : sectionFromFlatRange fr = .ok (rangeSection fr) := by
  obtain ⟨low, nonempty, high⟩ := valid.bounds member
  rw [sectionFromFlatRange, int128Get64_eq low (by omega)]
  rfl

end

/-- The ranges are registered piece by piece. -/
theorem foldlM_addRange_eq (valid : ValidView ranges) (d : AddressSpaceDispatch) :
    ranges.foldlM (addRange t) d = (viewPieces t ranges).foldlM (registerPiece t) d := by
  induction ranges generalizing d with
  | nil => rfl
  | cons fr rest ih =>
    have here := List.mem_cons_self (a := fr) (l := rest)
    rw [foldlM_cons, viewPieces, flatMap_cons, List.foldlM_append, addRange,
      sectionFromFlatRange_eq valid here,
      ok_bind, flatviewAddToDispatch_eq (rangeSection_fits valid here)]
    exact congrArg (_ >>= ·) (funext fun d' => ih valid.tail d')

theorem AddressSpaceDispatch.InOrder.mono (ordered : InOrder t a list b) (lower : a' ≤ a) :
    InOrder t a' list b := by
  cases ordered with
  | nil below => exact .nil (lower.trans below)
  | cons fits shape after more => exact .cons fits shape (lower.trans after) more

theorem Tiles.inOrder (tiles : Tiles t s a list b)
    (next : InOrder t b more c) : InOrder t a (list ++ more) c := by
  induction tiles with
  | nil => exact next
  | cons piece_of _ ih => exact .cons piece_of.fits piece_of.shape le_rfl (ih next)

theorem viewPieces_inOrder (valid : ValidView ranges) {a : Nat} (small : a ≤ 2 ^ 64)
    (after : ∀ fr ∈ ranges, (a : Int) ≤ fr.addr.start) : InOrder t a (viewPieces t ranges) (2 ^ 64) := by
  induction ranges generalizing a with
  | nil => exact .nil small
  | cons fr rest ih => ?_
  have here := List.mem_cons_self (a := fr) (l := rest)
  obtain ⟨low, nonempty, high⟩ := valid.bounds here
  have start := after fr here
  have before := (ordered_cons.mp valid.ordered).2.1
  have stop : (rangeSection fr).stop = (fr.addr.start + fr.addr.size).toNat := by
    simp only [MemoryRegionSection.stop, rangeSection]
    omega
  have others : InOrder t (rangeSection fr).stop (viewPieces t rest) (2 ^ 64) := by
    refine ih valid.tail (by omega) fun other member => ?_
    have apart := before other member
    simp only [flatLayout] at apart
    omega
  have tiled := (pieces_tiles (t := t) (rangeSection_fits valid here)).inOrder others
  refine tiled.mono ?_
  simp only [rangeSection]
  omega

theorem addressSpaceDispatchNew_building (t : Target) (allocHint : Nat) :
    ∃ d, addressSpaceDispatchNew t allocHint = .ok d ∧ Building t d [] (partPages t []) 0 := by
  have pos := t.pageSize_pos
  refine ⟨⟨⟨1, physMapNodeNil⟩, fun _ _ => ⟨0, 0⟩, 0, 0, allocHint, [unassignedSection], []⟩, ?_, ?_⟩
  · rw [addressSpaceDispatchNew, physSectionAdd]
    simp [pos]
  have missing : ∀ page, pageSection t ⟨⟨1, physMapNodeNil⟩, fun _ _ => ⟨0, 0⟩, 0, 0, allocHint,
      [unassignedSection], []⟩ page = physSectionUnassigned := by
    intro page
    obtain ⟨level, height⟩ := Nat.exists_eq_succ_of_ne_zero (levels_pos t).ne'
    rw [pageSection, height, pageValue, if_neg Nat.one_ne_zero, if_pos rfl]
  refine ⟨⟨fun _ => ⟨0, 0⟩, ?_, by simp, by simp, by simp⟩, rfl, rfl, pos, by simp, by simp,
    by simp [partPages],
    fun page _ => .free (by simp [partPages]) (missing page) (by simp), fun page _ _ => missing page⟩
  intro slot height base here
  cases slot with
  | root =>
    obtain ⟨rfl, rfl⟩ := here
    obtain ⟨level, height⟩ := Nat.exists_eq_succ_of_ne_zero (levels_pos t).ne'
    exact .missing
  | entry node index => exact absurd here.1 (Nat.not_lt_zero _)

theorem registerView_yields (t : Target) (allocHint : Nat) (valid : ValidView ranges) :
    Yields t (addressSpaceDispatchNew t allocHint >>= fun d => ranges.foldlM (addRange t) d)
      (sectionsFor t (viewPieces t ranges)) fun d =>
      Building t d (viewPieces t ranges) (partPages t (viewPieces t ranges)) (2 ^ 64) := by
  obtain ⟨d, new, building⟩ := addressSpaceDispatchNew_building t allocHint
  rw [new, ok_bind, foldlM_addRange_eq valid]
  exact registerAll_yields (viewPieces_inOrder valid (Nat.zero_le _) fun fr member =>
    (valid.bounds member).1) building

theorem length_simplifyFrom_le (head previous : FlatRange) (view : List FlatRange) :
    (simplifyFrom head previous view).length ≤ view.length + 1 := by
  induction view generalizing head previous with
  | nil => rfl
  | cons range rest ih =>
    rw [simplifyFrom]
    split
    · exact (ih _ _).trans (Nat.le_succ _)
    · exact Nat.succ_le_succ (ih _ _)

/-- A range starts where a visible part of a region starts or ends. -/
theorem renderTopology_length_le {mr : MemoryRegion} (done : renderTopology (some mr) = .ok ranges) :
    ranges.length ≤ 2 * (mr.leaves 0 0 (2 ^ 64)).length := by
  obtain ⟨view, rfl, renders, cuts⟩ := renderTopology_view done
  let ends := (mr.leaves 0 0 (2 ^ 64)).flatMap fun part => [part.1, part.2]
  have fewer : (flatviewSimplify view).length ≤ view.length := by
    cases view with
    | nil => exact le_rfl
    | cons range rest => exact length_simplifyFrom_le ..
  have cut : EndsAt ends view := cuts ends (by simp [EndsAt]) fun part member =>
    ⟨List.mem_flatMap.mpr ⟨part, member, by simp⟩, List.mem_flatMap.mpr ⟨part, member, by simp⟩⟩
  have starts : view.map flatLayout.lo ⊆ ends := fun x member => by
    obtain ⟨r, inside, rfl⟩ := List.mem_map.mp member
    exact (cut r inside).1
  have ordered := renders.valid.ordered
  have distinct : (view.map flatLayout.lo).Nodup := pairwise_map.mpr
    (ordered.sorted.imp_of_mem fun member _ before => ((ordered.nonempty _ member).trans_le before).ne)
  have most := (subperm_of_subset distinct starts).length_le
  have total : ends.length = (mr.leaves 0 0 (2 ^ 64)).length * 2 := by simp [ends, length_flatMap]
  rw [length_map] at most
  omega

/-- The pieces of a range and those that are parts of a page. -/
theorem length_pieces_le (t : Target) (s : MemoryRegionSection) :
    (pieces t s).length + ((pieces t s).filterMap (partPage? t)).length ≤ 5 := by
  have aligned (s : MemoryRegionSection) :
      (pagePieces t s).length + ((pagePieces t s).filterMap (partPage? t)).length ≤ 3 := by
    rw [pagePieces]
    split_ifs <;> simp [List.filterMap_cons, partPage?]
  rw [pieces]
  split
  · dsimp only
    split
    · simp [partPage?]
    · have := aligned (rest s (t.pageSize - s.offsetWithinAddressSpace % t.pageSize))
      simp only [List.filterMap_cons, partPage?, length_cons]
      omega
  · exact (aligned s).trans (by decide)

theorem sectionsFor_le (t : Target) (ranges : List FlatRange) :
    sectionsFor t (viewPieces t ranges) ≤ 1 + 5 * ranges.length := by
  have pages := List.toFinset_card_le ((viewPieces t ranges).filterMap (partPage? t))
  have all : (viewPieces t ranges).length + ((viewPieces t ranges).filterMap (partPage? t)).length ≤
    5 * ranges.length := by
    clear pages
    induction ranges with
    | nil => rfl
    | cons fr rest ih =>
      have first := length_pieces_le t (rangeSection fr)
      rw [viewPieces, flatMap_cons, List.filterMap_append, length_append, length_append, length_cons]
      rw [viewPieces] at ih
      omega
  rw [sectionsFor, partPages]
  omega

end Qemu.Memory
