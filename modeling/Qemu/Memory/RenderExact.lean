import Qemu.Lib.Spans
import Qemu.Memory.Render

namespace Qemu.Memory

open Spans Option AddrRange

structure Resolved where
  mr : Nat
  offset : Nat
  readonly : Bool
  nonvolatile : Bool
  deriving DecidableEq, Repr

def Resolved.join (flags : Flags) (r : Resolved) : Resolved :=
  { r with readonly := flags.readonly || r.readonly, nonvolatile := flags.nonvolatile || r.nonvolatile }

def Fields.Inside (f : Fields) (x : Int) : Prop := f.enabled = true ∧ 0 ≤ x ∧ x < f.size

instance (f : Fields) (x : Int) : Decidable (f.Inside x) := inferInstanceAs (Decidable (_ ∧ _))

mutual

/-- What is at distance `x` from the start of a region: the first subregion that has something
there, then the region itself. -/
def MemoryRegion.resolve : MemoryRegion → Int → Option Resolved
  | .aliasOf f target, x =>
    if f.Inside x then (target.resolve (x + f.aliasOffset)).map (Resolved.join f.flags) else none
  | .region f subregions, x =>
    if f.Inside x then
      ((resolveFirst subregions x).or (if f.terminates then some ⟨f.id, x.toNat, false, false⟩
        else none)).map (Resolved.join f.flags)
    else none

def resolveFirst : List MemoryRegion → Int → Option Resolved
  | [], _ => none
  | subregion :: rest, x => (subregion.resolve (x - subregion.fields.addr)).or (resolveFirst rest x)

end

/-- What a root region puts at a guest address. -/
def MemoryRegion.resolveAddress (mr : MemoryRegion) (addr : Int) : Option Resolved :=
  if 0 ≤ addr ∧ addr < 2 ^ 64 then mr.resolve (addr - mr.fields.addr) else none

theorem Resolved.join_join (a b : Flags) (r : Resolved) : (r.join b).join a = r.join (a.join b) := by
  simp [Resolved.join, Flags.join, Bool.or_assoc]

theorem Resolved.join_nothing : join ⟨false, false, false⟩ = id := by
  funext r
  simp [join]

def flatLayout : Layout FlatRange Resolved where
  lo r := r.addr.start
  hi r := r.addr.start + r.addr.size
  value r x := ⟨r.mr, r.offsetInRegion + (x - r.addr.start).toNat, r.readonly, r.nonvolatile⟩

/-- Nonempty, sorted and disjoint ranges between 0 and 2^64; offsets are 64 bits wide. -/
structure ValidView (view : List FlatRange) : Prop where
  ordered : flatLayout.Ordered view
  within : flatLayout.Within 0 (2 ^ 64) view
  offsets : ∀ r ∈ view, r.offsetInRegion < 2 ^ 64

theorem validView_nil : ValidView [] := ⟨ordered_nil, by simp [Layout.Within], by simp⟩

theorem ValidView.tail (valid : ValidView (range :: view)) : ValidView view :=
  ⟨(ordered_cons.mp valid.ordered).2.2, fun r member => valid.within r (List.mem_cons_of_mem _ member),
    fun r member => valid.offsets r (List.mem_cons_of_mem _ member)⟩

theorem int128Wrap_eq (low : -2 ^ 127 ≤ x) (high : x < 2 ^ 127) : int128Wrap x = x := by
  have lower : -((2 ^ 128 : Nat) : Int) ≤ x * 2 := by
    omega
  have upper : x * 2 < ((2 ^ 128 : Nat) : Int) := by
    omega
  exact Int.bmod_eq_of_le_mul_two lower upper

variable {a : Int}

theorem int128Add_eq (low : -2 ^ 127 ≤ a + b) (high : a + b < 2 ^ 127) : int128Add a b = a + b :=
  int128Wrap_eq low high

theorem int128Sub_eq (low : -2 ^ 127 ≤ a - b) (high : a - b < 2 ^ 127) : int128Sub a b = a - b :=
  int128Wrap_eq low high

theorem int128Get64_eq (low : 0 ≤ a) (high : a < 2 ^ 64) : int128Get64 a = .ok a.toNat :=
  if_pos ⟨low, high⟩

/-- A range inside the 64-bit address space. -/
structure AddrRange.Clip (r : AddrRange) : Prop where
  start : 0 ≤ r.start
  size : 0 ≤ r.size
  last : r.start + r.size ≤ 2 ^ 64

def AddrRange.Has (r : AddrRange) (x : Int) : Prop := r.start ≤ x ∧ x < r.start + r.size

instance (r : AddrRange) (x : Int) : Decidable (r.Has x) := inferInstanceAs (Decidable (_ ∧ _))

namespace AddrRange

variable {r clip : AddrRange}

theorem addrrangeEnd_eq (low : -2 ^ 66 ≤ r.start) (high : r.start ≤ 2 ^ 66) (size : 0 ≤ r.size)
    (sizeLe : r.size ≤ 2 ^ 64) : r.addrrangeEnd = r.start + r.size :=
  int128Add_eq (by omega) (by omega)

theorem Clip.addrrangeEnd_eq (valid : clip.Clip) : clip.addrrangeEnd = clip.start + clip.size := by
  obtain ⟨start, size, last⟩ := valid
  exact AddrRange.addrrangeEnd_eq (by omega) (by omega) size (by omega)

section Intersect

variable (low : -2 ^ 66 ≤ r.start) (high : r.start ≤ 2 ^ 66) (size : 0 ≤ r.size)
  (sizeLe : r.size ≤ 2 ^ 64) (valid : clip.Clip)
include low high size sizeLe valid

theorem addrrangeIntersects_iff : r.addrrangeIntersects clip = true ↔ r.Has clip.start ∨
    clip.Has r.start := by
  simp [addrrangeIntersects, addrrangeContains, addrrangeEnd_eq low high size sizeLe,
    valid.addrrangeEnd_eq, Has]

theorem not_has_of_not_intersects (apart : ¬ r.addrrangeIntersects clip = true) :
    ¬ (r.Has x ∧ clip.Has x) := by
  rw [addrrangeIntersects_iff low high size sizeLe valid] at apart
  simp only [Has] at apart ⊢
  omega

theorem addrrangeIntersection_eq :
    r.addrrangeIntersection clip = ⟨max r.start clip.start,
      min (r.start + r.size) (clip.start + clip.size) - max r.start clip.start⟩ := by
  obtain ⟨start, clipSize, last⟩ := valid
  rw [addrrangeIntersection, addrrangeEnd_eq low high size sizeLe,
    Clip.addrrangeEnd_eq ⟨start, clipSize, last⟩]
  rw [int128Sub_eq (by omega) (by omega)]

/-- The range of a region that meets the clip, clipped. -/
structure Clipped (r clip now : AddrRange) : Prop where
  valid : now.Clip
  has : ∀ x, now.Has x ↔ r.Has x ∧ clip.Has x
  after : r.start ≤ now.start
  before : now.start + now.size ≤ r.start + r.size
  room : now.start < r.start + r.size ∨ now.start = r.start
  low : -2 ^ 64 < r.start
  high : r.start ≤ 2 ^ 64

theorem clipped (meet : r.addrrangeIntersects clip = true) :
    Clipped r clip (r.addrrangeIntersection clip) := by
  rw [addrrangeIntersection_eq low high size sizeLe valid]
  rw [addrrangeIntersects_iff low high size sizeLe valid] at meet
  obtain ⟨start, clipSize, last⟩ := valid
  simp only [Has] at meet
  refine ⟨⟨?_, ?_, ?_⟩, fun x => ?_, ?_, ?_, ?_, by omega, by omega⟩
  case refine_4 =>
    simp only [Has]
    omega
  all_goals
    dsimp only
    omega

end Intersect

end AddrRange

section Gaps

variable {f : Fields} {flags : Flags} {origin : Int}

/-- The range from `low` to `high` for a region that starts at `origin`. -/
def gapPiece (f : Fields) (flags : Flags) (origin low high : Int) : FlatRange :=
  f.flatRange flags ⟨low, high - low⟩ ((low - origin).toNat % 2 ^ 64)

def ownTarget (f : Fields) (flags : Flags) (origin x : Int) : Resolved :=
  ⟨f.id, (x - origin).toNat, flags.readonly, flags.nonvolatile⟩

theorem gapPiece_pieces (f : Fields) (flags : Flags) (origin : Int) :
    Pieces flatLayout (gapPiece f flags origin) (ownTarget f flags origin) origin (origin + 2 ^ 64) where
  lo low high _ _ _ := rfl
  hi low high _ _ _ := by
    simp only [flatLayout, gapPiece, Fields.flatRange]
    omega
  value low high x above first last below := by
    have small : (low - origin).toNat % 2 ^ 64 = (low - origin).toNat := Nat.mod_eq_of_lt (by omega)
    simp only [flatLayout, gapPiece, Fields.flatRange, ownTarget, Resolved.mk.injEq, true_and, and_true]
    omega

theorem offset_add (above : origin ≤ base) (nonneg : 0 ≤ now) :
    ((base - origin).toNat % 2 ^ 64 + now.toNat) % 2 ^ 64 = (base + now - origin).toNat % 2 ^ 64 := by
  rw [Nat.mod_add_mod]
  congr 1
  omega

theorem gapBefore_eq (above : origin ≤ base) (nonneg : 0 ≤ base)
    (remainNonneg : 0 ≤ remain) (below : base + remain ≤ 2 ^ 64) (start : range.addr.start < 2 ^ 64) :
    gapBefore (f.flatRange flags) range base remain ((base - origin).toNat % 2 ^ 64) =
      .ok (if base < range.addr.start then
      [gapPiece f flags origin base (min (base + remain) range.addr.start)] else [],
        max base (min (base + remain) range.addr.start),
        base + remain - max base (min (base + remain) range.addr.start),
        (max base (min (base + remain) range.addr.start) - origin).toNat % 2 ^ 64) := by
  set stop := min (base + remain) range.addr.start
  rw [gapBefore]
  by_cases gap : base < range.addr.start
  · have now : min remain (int128Sub range.addr.start base) = stop - base := by
      rw [int128Sub_eq (by omega) (by omega)]
      omega
    have next : max base stop = stop := by
      omega
    rw [if_pos gap, if_pos gap, now, next]
    dsimp only
    rw [int128Get64_eq (by omega) (by omega), int128Add_eq (by omega) (by omega),
      int128Sub_eq (by omega) (by omega)]
    show Except.ok _ = _
    rw [offset_add above (by omega), gapPiece, add_sub_cancel, show remain - (stop - base) =
      base + remain - stop by omega]
  · have next : max base stop = base := by omega
    rw [if_neg gap, if_neg gap, next, add_sub_cancel_left]

/-- As long as no step is 2^64 bytes long, the loop fills the gaps. -/
theorem renderGaps_eq_fill (valid : ValidView view) (above : origin ≤ base)
    (nonneg : 0 ≤ base) (remainNonneg : 0 ≤ remain) (below : base + remain ≤ 2 ^ 64)
    (fits : remain < 2 ^ 64 ∨ ∀ r ∈ view, r.addr.size < 2 ^ 64) :
    renderGaps (f.flatRange flags) view base remain ((base - origin).toNat % 2 ^ 64) =
      .ok (flatLayout.fill (gapPiece f flags origin) view base (base + remain)) := by
  induction view generalizing base remain with
  | nil =>
    rw [renderGaps, Layout.fill]
    by_cases none : remain = 0
    · rw [if_neg (by simpa using none), if_neg (by omega)]
    · rw [if_pos none, if_pos (by omega), gapPiece, add_sub_cancel_left]
  | cons range rest ih => ?_
  obtain ⟨nonempty, before, -⟩ := ordered_cons.mp valid.ordered
  obtain ⟨low, high⟩ := valid.within range (by simp)
  have restValid := valid.tail
  have restFits : ∀ left ≤ remain, left < 2 ^ 64 ∨ ∀ r ∈ rest, r.addr.size < 2 ^ 64 := by
    intro left less
    rcases fits with small | small
    · exact .inl (by omega)
    · exact .inr fun r member => small r (by simp [member])
  have rangeFits : remain < 2 ^ 64 ∨ range.addr.size < 2 ^ 64 :=
    fits.imp id fun small => small range (by simp)
  change range.addr.start < range.addr.start + range.addr.size at nonempty
  change 0 ≤ range.addr.start at low
  change range.addr.start + range.addr.size ≤ 2 ^ 64 at high
  set stop := range.addr.start + range.addr.size
  have last : range.addr.addrrangeEnd = stop :=
    addrrangeEnd_eq (by omega) (by omega) (by omega) (by omega)
  rw [renderGaps, last]
  change _ = Except.ok (if base + remain ≤ base then _ else if stop ≤ base then _ else
    if base < range.addr.start then _ else _)
  by_cases none : remain = 0
  · have done : base + remain ≤ base := by omega
    rw [if_pos none, if_pos done]
  have room : ¬ base + remain ≤ base := by omega
  rw [if_neg none, if_neg room]
  by_cases past : stop ≤ base
  · rw [if_pos past, if_pos past, ih restValid above nonneg remainNonneg below (restFits _ le_rfl)]
    rfl
  rw [if_neg past, gapBefore_eq above nonneg remainNonneg below (by omega)]
  have atRange : range.addr.start ≤ max base (min (base + remain) range.addr.start) ∨
      base + remain ≤ range.addr.start := by omega
  generalize toRange : max base (min (base + remain) range.addr.start) = here at atRange
  have more := @ih (min (base + remain) stop)
    (base + remain - min (base + remain) stop) restValid (by omega) (by omega)
    (by omega) (by omega) (restFits _ (by omega))
  rw [add_sub_cancel] at more
  have now : int128Sub (min (int128Add here (base + remain - here)) stop) here =
      min (base + remain) stop - here := by
    rw [int128Add_eq (by omega) (by omega), add_sub_cancel, int128Sub_eq (by omega) (by omega)]
  rw [Checked.ok_bind]
  dsimp only
  rw [now, int128Get64_eq (by omega) (by omega), Checked.ok_bind, int128Add_eq (by omega) (by omega),
    int128Sub_eq (by omega) (by omega), offset_add (by omega) (by omega), add_sub_cancel,
    sub_sub_sub_cancel_right,
    more]
  split <;> rfl

/-- A range of 2^64 bytes is the only one. -/
theorem ValidView.full_only (valid : ValidView view) (member : r ∈ view)
    (full : r.addr.size = 2 ^ 64) (otherMember : other ∈ view) : other = r := by
  by_contra different
  have bounds := valid.within r member
  have otherBounds := valid.within other otherMember
  have otherNonempty := valid.ordered.nonempty other otherMember
  have apart := valid.ordered.apart member otherMember (Ne.symm different)
  simp only [flatLayout] at bounds otherBounds otherNonempty apart
  omega

/-- The loop stops at `int128_get64` if the region and a range of the view both are 2^64 bytes
long. -/
theorem renderGaps_full (valid : ValidView view) (member : r ∈ view)
    (full : r.addr.size = 2 ^ 64) (fr : AddrRange → Nat → FlatRange) (offset : Nat) :
    renderGaps fr view 0 (2 ^ 64) offset = .error .int128Get64 := by
  obtain ⟨low, high⟩ := valid.within r member
  change 0 ≤ r.addr.start at low
  change r.addr.start + r.addr.size ≤ 2 ^ 64 at high
  cases view with
  | nil => cases member
  | cons head rest => ?_
  obtain rfl := (valid.full_only member full List.mem_cons_self).symm
  have start : r.addr.start = 0 := by omega
  have last : r.addr.addrrangeEnd = 2 ^ 64 := by
    rw [addrrangeEnd_eq (by omega) (by omega) (by omega) (by omega)]
    omega
  rw [renderGaps, last, gapBefore, start]
  rfl

end Gaps

section Render

variable {base : Int} {clip : AddrRange} {flags : Flags} {view view' : List FlatRange}

/-- What rendering adds to a view: the map of the region where the view has nothing yet. -/
structure Renders (map : Int → Option Resolved) (clip : AddrRange) (flags : Flags)
    (view view' : List FlatRange) : Prop where
  valid : ValidView view'
  lookup : ∀ x, flatLayout.lookup view' x =
    (flatLayout.lookup view x).or (if clip.Has x then (map x).map (Resolved.join flags) else none)

theorem Renders.nothing (valid : ValidView view)
    (nothing : ∀ x, clip.Has x → map x = none) : Renders map clip flags view view := by
  refine ⟨valid, fun x => ?_⟩
  split
  next inside => rw [nothing x inside, map_none, or_none]
  · rw [or_none]

variable {f : Fields}

/-- A terminating region in the gaps of the view. -/
theorem Renders.fill {origin : Int} (valid : ValidView view) (clipValid : clip.Clip)
    (above : origin ≤ clip.start) (inside : clip.start + clip.size ≤ origin + 2 ^ 64) :
    Renders (fun x => some ⟨f.id, (x - origin).toNat, false, false⟩) clip flags view
      (flatLayout.fill (gapPiece f flags origin) view clip.start (clip.start + clip.size)) := by
  have pieces := gapPiece_pieces f flags origin
  refine ⟨⟨ordered_fill pieces above inside valid.ordered,
    within_fill pieces above inside valid.ordered valid.within clipValid.start clipValid.last,
    forall_mem_fill valid.ordered.nonempty valid.offsets fun _ _ _ _ _ => Nat.mod_lt _ (by decide)⟩,
      fun x => ?_⟩
  rw [lookup_fill pieces above inside valid.ordered]
  simp [AddrRange.Has, ownTarget, Resolved.join]

/-- The part of a region inside a clip, seen from the clip outside of it. -/
theorem Renders.of_clipped {inner : Int → Option Resolved}
    (enabled : f.enabled = true) (clipped : AddrRange.Clipped ⟨base + f.addr, f.size⟩ clip clip')
    (renders : Renders inner clip' (flags.join f.flags) view view')
    (inside : ∀ x, f.Inside (x - base - f.addr) → map x = (inner x).map (Resolved.join f.flags))
    (outside : ∀ x, ¬ f.Inside (x - base - f.addr) → map x = none) :
    Renders map clip flags view view' := by
  refine ⟨renders.valid, fun x => ?_⟩
  have own : f.Inside (x - base - f.addr) ↔ AddrRange.Has ⟨base + f.addr, f.size⟩ x := by
    simp only [Fields.Inside, AddrRange.Has, enabled, true_and]
    omega
  have has := clipped.has x
  rw [renders.lookup x]
  congr 1
  by_cases visible : clip.Has x
  · rw [if_pos visible]
    by_cases here : f.Inside (x - base - f.addr)
    · rw [if_pos (has.mpr ⟨own.mp here, visible⟩), inside x here, map_map]
      congr 1
      funext r
      exact (Resolved.join_join flags f.flags r).symm
    · rw [if_neg (fun both => here (own.mpr (has.mp both).1)), outside x here, map_none]
  · rw [if_neg visible, if_neg (fun both => visible (has.mp both).2)]

section

variable (low : -2 ^ 66 ≤ base + f.addr) (high : base + f.addr ≤ 2 ^ 66) (clipValid : clip.Clip)
include low high clipValid

theorem Fields.not_inside_of_apart
    (apart : ¬ (⟨base + f.addr, f.size⟩ : AddrRange).addrrangeIntersects clip = true)
    (visible : clip.Has x) : ¬ f.Inside (x - base - f.addr) := by
  intro inside
  have size : (f.size : Int) ≤ 2 ^ 64 := by exact_mod_cast f.size_le
  refine not_has_of_not_intersects low high (Int.natCast_nonneg _) size clipValid apart
    ⟨?_, visible⟩
  obtain ⟨-, first, last⟩ := inside
  simp only [AddrRange.Has]
  omega

theorem Fields.clipped_of_meet
    (meet : (⟨base + f.addr, f.size⟩ : AddrRange).addrrangeIntersects clip = true) :
    AddrRange.Clipped ⟨base + f.addr, f.size⟩ clip
    (addrrangeIntersection ⟨base + f.addr, f.size⟩ clip) := by
  have size : (f.size : Int) ≤ 2 ^ 64 := by exact_mod_cast f.size_le
  exact clipped low high (Int.natCast_nonneg _) size clipValid meet

end

end Render

end Qemu.Memory
