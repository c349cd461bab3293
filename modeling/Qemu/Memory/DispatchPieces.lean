import Qemu.Memory.PhysMapSet
import Qemu.Memory.RenderExact

namespace Qemu.Memory

open AddressSpaceDispatch Nat

variable {t : Target} {s : MemoryRegionSection}

theorem Target.pageSize_pos (t : Target) : 0 < t.pageSize := Nat.two_pow_pos _

theorem Target.pageSize_mul (t : Target) : t.pageSize * 2 ^ (64 - t.pageBits) = 2 ^ 64 := by
  have small := t.pageBits_le
  rw [pageSize, ← Nat.pow_add, Nat.add_sub_cancel' (by omega)]

theorem Target.pageSize_le (t : Target) : t.pageSize ≤ 2 ^ 16 :=
  Nat.pow_le_pow_right (by decide) t.pageBits_le

namespace MemoryRegionSection

/-- The address after the last one. -/
def stop (s : MemoryRegionSection) : Nat := s.offsetWithinAddressSpace + s.size.toNat

/-- A nonempty section in the address space. -/
structure Fits (s : MemoryRegionSection) : Prop where
  nonempty : 0 < s.size
  stop : s.offsetWithinAddressSpace + s.size ≤ 2 ^ 64

/-- A section is a part of another one, at the matching place of its region. -/
structure PartOf (part whole : MemoryRegionSection) : Prop where
  mr : part.mr = whole.mr
  readonly : part.readonly = whole.readonly
  nonvolatile : part.nonvolatile = whole.nonvolatile
  unmergeable : part.unmergeable = whole.unmergeable
  after : whole.offsetWithinAddressSpace ≤ part.offsetWithinAddressSpace
  before : part.offsetWithinAddressSpace + part.size ≤ whole.offsetWithinAddressSpace + whole.size
  offset : part.offsetWithinRegion % 2 ^ 64 =
    (whole.offsetWithinRegion + (part.offsetWithinAddressSpace - whole.offsetWithinAddressSpace)) % 2 ^ 64

theorem PartOf.refl (s : MemoryRegionSection) : PartOf s s :=
  ⟨rfl, rfl, rfl, rfl, le_rfl, le_rfl, by simp⟩

theorem PartOf.trans (first : PartOf a b) (second : PartOf b c) : PartOf a c where
  mr := first.mr.trans second.mr
  readonly := first.readonly.trans second.readonly
  nonvolatile := first.nonvolatile.trans second.nonvolatile
  unmergeable := first.unmergeable.trans second.unmergeable
  after := second.after.trans first.after
  before := first.before.trans second.before
  offset := by
    have below := first.after
    have above := second.after
    rw [first.offset, add_mod, second.offset, mod_add_mod, add_mod_mod]
    congr 1
    omega

/-- The first bytes of a section. -/
def take (s : MemoryRegionSection) (size : Int) : MemoryRegionSection := { s with size := size }

theorem take_partOf {size : Int} (fits : size ≤ s.size) : PartOf (s.take size) s :=
  ⟨rfl, rfl, rfl, rfl, le_rfl, by simp only [take]; omega, by simp [take]⟩

section

variable (fits : s.Fits) {n : Nat} (less : (n : Int) < s.size)
include fits less

theorem rest_eq : rest s n = { s with
      size := s.size - n
      offsetWithinAddressSpace := s.offsetWithinAddressSpace + n
      offsetWithinRegion := (s.offsetWithinRegion + n) % 2 ^ 64 } := by
  obtain ⟨nonempty, stop⟩ := fits
  have place : (s.offsetWithinAddressSpace + n) % 2 ^ 64 = s.offsetWithinAddressSpace + n :=
    mod_eq_of_lt (by omega)
  rw [rest, int128Sub_eq (by omega) (by omega), place]

theorem rest_partOf : PartOf (rest s n) s := by
  rw [rest_eq fits less]
  refine ⟨rfl, rfl, rfl, rfl, Nat.le_add_right .., ?_, ?_⟩
  · dsimp only
    omega
  · simp

theorem rest_fits : (rest s n).Fits := by
  rw [rest_eq fits less]
  obtain ⟨nonempty, stop⟩ := fits
  exact ⟨by dsimp only; omega, by dsimp only; omega⟩

theorem rest_stop : (rest s n).stop = s.stop := by
  rw [rest_eq fits less]
  simp only [MemoryRegionSection.stop]
  omega

end

end MemoryRegionSection

open MemoryRegionSection

/-- A part of one page, or a run of whole pages. -/
inductive Piece where
  | part (s : MemoryRegionSection)
  | whole (s : MemoryRegionSection)
  deriving DecidableEq, Repr

def Piece.section : Piece → MemoryRegionSection
  | .part s => s
  | .whole s => s

/-- The pieces of a section that starts on a page. -/
def pagePieces (t : Target) (s : MemoryRegionSection) : List Piece :=
  if s.size ≥ t.pageSize then
    .whole (s.take (s.size - s.size % t.pageSize)) ::
      (if s.size % t.pageSize = 0 then [] else [.part (rest s (s.size - s.size % t.pageSize).toNat)])
  else [.part s]

def pieces (t : Target) (s : MemoryRegionSection) : List Piece :=
  if s.offsetWithinAddressSpace % t.pageSize ≠ 0 then
    let left := t.pageSize - s.offsetWithinAddressSpace % t.pageSize
    .part (s.take (min (left : Int) s.size)) :: (if s.size ≤ left then [] else pagePieces t (rest s left))
  else pagePieces t s

def registerPiece (t : Target) (d : AddressSpaceDispatch) : Piece → Except Assertion AddressSpaceDispatch
  | .part s => d.registerSubpage t s
  | .whole s => d.registerMultipage t s

theorem addPages_eq (fits : s.Fits) (d : AddressSpaceDispatch) :
    d.addPages t s = (pagePieces t s).foldlM (registerPiece t) d := by
  have pos := t.pageSize_pos
  have nonneg := Int.emod_nonneg s.size (show (t.pageSize : Int) ≠ 0 by omega)
  have below := Int.emod_lt_of_pos s.size (show (0 : Int) < t.pageSize by omega)
  rw [addPages, pagePieces]
  split
  next long =>
    by_cases even : s.size % t.pageSize = 0
    · rw [if_pos even]
      refine congrArg (_ >>= ·) (funext fun d' => ?_)
      rw [if_pos (by dsimp only; omega)]
      rfl
    · obtain ⟨nonempty, stop⟩ := fits
      rw [if_neg even, List.foldlM_cons]
      refine congrArg (_ >>= ·) (funext fun d' => ?_)
      rw [if_neg (by dsimp only; omega), int128Get64_eq (by dsimp only; omega) (by dsimp only; omega)]
      simp only [List.foldlM_cons, List.foldlM_nil, bind_pure, Checked.ok_bind]
      rfl
  · simp only [List.foldlM_cons, List.foldlM_nil, bind_pure]
    rfl

/-- A section is registered piece by piece. -/
theorem flatviewAddToDispatch_eq (fits : s.Fits) (d : AddressSpaceDispatch) :
    d.flatviewAddToDispatch t s = (pieces t s).foldlM (registerPiece t) d := by
  rw [flatviewAddToDispatch, pieces]
  split
  · obtain ⟨nonempty, stop⟩ := fits
    generalize t.pageSize - s.offsetWithinAddressSpace % t.pageSize = left
    by_cases short : s.size ≤ left
    · simp only [short]
      refine congrArg (_ >>= ·) (funext fun d' => ?_)
      rw [if_pos (by omega)]
      rfl
    · simp only [short]
      refine congrArg (_ >>= ·) (funext fun d' => ?_)
      rw [if_neg (by omega), int128Get64_eq (by omega) (by omega),
        show (min (left : Int) s.size).toNat = left by omega]
      exact addPages_eq (rest_fits ⟨nonempty, stop⟩ (by omega)) d'
  · exact addPages_eq fits d

/-- A part stays in its page; whole pages begin and end with one. -/
def Piece.Shape (t : Target) : Piece → Prop
  | .part s => ((s.offsetWithinAddressSpace % t.pageSize : Nat) : Int) + s.size ≤ t.pageSize
  | .whole s => t.pageSize ∣ s.offsetWithinAddressSpace ∧ (t.pageSize : Int) ∣ s.size

structure Piece.PieceOf (t : Target) (s : MemoryRegionSection) (piece : Piece) : Prop where
  part : PartOf piece.section s
  fits : piece.section.Fits
  shape : piece.Shape t

/-- The pieces follow each other without a gap. -/
inductive Tiles (t : Target) (s : MemoryRegionSection) : Nat → List Piece → Nat → Prop
  | nil {a : Nat} : Tiles t s a [] a
  | cons {piece : Piece} {rest : List Piece} {b : Nat} (piece_of : piece.PieceOf t s)
      (more : Tiles t s piece.section.stop rest b) :
      Tiles t s piece.section.offsetWithinAddressSpace (piece :: rest) b

theorem Tiles.part {whole : MemoryRegionSection} (part : PartOf s whole) {a b : Nat}
    {list : List Piece} (tiles : Tiles t s a list b) : Tiles t whole a list b := by
  induction tiles with
  | nil => exact .nil
  | cons piece_of _ ih => exact .cons ⟨piece_of.part.trans part, piece_of.fits, piece_of.shape⟩ ih

theorem Tiles.single {piece : Piece} (same : piece.section = s) (fits : s.Fits)
    (shape : piece.Shape t) : Tiles t s s.offsetWithinAddressSpace [piece] s.stop := by
  subst same
  exact .cons ⟨.refl _, fits, shape⟩ .nil

/-- A section cut after its first `n` bytes. -/
theorem Tiles.cut (fits : s.Fits) {n : Nat} (some : n ≠ 0) (less : (n : Int) < s.size)
    {piece : Piece} (first : piece.section = s.take n) (shape : piece.Shape t) {list : List Piece}
    (others : Tiles t (rest s n) (rest s n).offsetWithinAddressSpace list (rest s n).stop) :
    Tiles t s s.offsetWithinAddressSpace (piece :: list) s.stop := by
  have ⟨nonempty, stop⟩ := fits
  have piece_of : piece.PieceOf t s := by
    refine ⟨first ▸ take_partOf less.le, first ▸ ⟨?_, ?_⟩, shape⟩
    · simp only [take]
      omega
    · simp only [take]
      omega
  have start : piece.section.offsetWithinAddressSpace = s.offsetWithinAddressSpace := first ▸ rfl
  have next : piece.section.stop = (rest s n).offsetWithinAddressSpace := by
    rw [first, rest_eq fits less]
    rfl
  rw [← next, rest_stop fits less] at others
  exact start ▸ .cons piece_of (others.part (rest_partOf fits less))

theorem pagePieces_tiles (fits : s.Fits) (aligned : t.pageSize ∣ s.offsetWithinAddressSpace) :
    Tiles t s s.offsetWithinAddressSpace (pagePieces t s) s.stop := by
  have pos := t.pageSize_pos
  have nonneg := Int.emod_nonneg s.size (show (t.pageSize : Int) ≠ 0 by omega)
  have below := Int.emod_lt_of_pos s.size (show (0 : Int) < t.pageSize by omega)
  have whole : (t.pageSize : Int) ∣ s.size - s.size % t.pageSize := Int.dvd_self_sub_emod
  have nonempty := fits.nonempty
  rw [pagePieces]
  split
  · by_cases even : s.size % t.pageSize = 0
    · rw [if_pos even, even, sub_zero]
      exact @Tiles.single t s (.whole s) rfl fits ⟨aligned, Int.dvd_of_emod_eq_zero even⟩
    rw [if_neg even]
    obtain ⟨n, count⟩ := Int.eq_ofNat_of_zero_le (show 0 ≤ s.size - s.size % t.pageSize by omega)
    rw [count] at whole
    rw [count, Int.toNat_natCast]
    have less : (n : Int) < s.size := by omega
    have last : (Piece.part (rest s n)).Shape t := by
      have place := mod_eq_zero_of_dvd (dvd_add aligned (Int.natCast_dvd_natCast.mp whole))
      rw [Piece.Shape, rest_eq fits less, place]
      dsimp only
      omega
    exact @Tiles.cut t s fits n (by omega) less (.whole _) rfl ⟨aligned, whole⟩ _
      (.single rfl (rest_fits fits less) last)
  · have inside := mod_eq_zero_of_dvd aligned
    refine .single rfl fits ?_
    rw [Piece.Shape]
    omega

theorem pieces_tiles (fits : s.Fits) : Tiles t s s.offsetWithinAddressSpace (pieces t s) s.stop := by
  have inPage := mod_lt s.offsetWithinAddressSpace t.pageSize_pos
  rw [pieces]
  split
  · dsimp only
    generalize left_eq : t.pageSize - s.offsetWithinAddressSpace % t.pageSize = left
    by_cases short : s.size ≤ left
    · rw [if_pos short, min_eq_right short]
      refine @Tiles.single t s (.part s) rfl fits ?_
      rw [Piece.Shape]
      omega
    have less := not_le.mp short
    rw [if_neg short, min_eq_left less.le]
    refine .cut fits (by omega) less rfl ?_ (pagePieces_tiles (rest_fits fits less) ?_)
    · simp only [Piece.Shape, take]
      omega
    have division := div_add_mod s.offsetWithinAddressSpace t.pageSize
    refine ⟨s.offsetWithinAddressSpace / t.pageSize + 1, ?_⟩
    rw [rest_eq fits less, mul_add]
    dsimp only
    omega
  next aligned => exact pagePieces_tiles fits (dvd_of_mod_eq_zero (not_not.mp aligned))

end Qemu.Memory
