import Mathlib.Tactic

/-! Lists of spans on a line: each span covers the points from its low end up to its high end and
has a value at each of them.  An ordered list is searched point by point, and the gaps it leaves
in a range can be filled. -/

namespace Qemu.Spans

open List

structure Layout (ρ β : Type) where
  lo : ρ → Int
  hi : ρ → Int
  value : ρ → Int → β

variable {ρ β : Type} (L : Layout ρ β)

namespace Layout

def Covers (r : ρ) (x : Int) : Prop := L.lo r ≤ x ∧ x < L.hi r

instance (r : ρ) (x : Int) : Decidable (L.Covers r x) := inferInstanceAs (Decidable (_ ∧ _))

/-- The value at a point, if a span covers it. -/
def lookup (spans : List ρ) (x : Int) : Option β := (spans.find? fun r => L.Covers r x).map fun r =>
    L.value r x

/-- Nonempty spans, each before the next ones. -/
structure Ordered (spans : List ρ) : Prop where
  nonempty : ∀ r ∈ spans, L.lo r < L.hi r
  sorted : spans.Pairwise fun r r' => L.hi r ≤ L.lo r'

/-- All spans lie between two points. -/
def Within (low high : Int) (spans : List ρ) : Prop := ∀ r ∈ spans, low ≤ L.lo r ∧ L.hi r ≤ high

/-- Put a piece into every gap that the spans leave between `low` and `high`. -/
def fill (piece : Int → Int → ρ) : List ρ → Int → Int → List ρ
  | [], low, high => if low < high then [piece low high] else []
  | r :: rest, low, high =>
    if high ≤ low then r :: rest
    else if L.hi r ≤ low then r :: fill piece rest low high
    else if low < L.lo r then
      piece low (min high (L.lo r)) :: r :: fill piece rest (min high (L.hi r)) high
    else r :: fill piece rest (min high (L.hi r)) high

end Layout

variable {L} {spans : List ρ} {r : ρ} {low high x : Int}

@[simp] theorem lookup_nil : L.lookup [] x = none := rfl

theorem lookup_cons : L.lookup (r :: spans) x = if L.Covers r x then some (L.value r x)
    else L.lookup spans x := by
  by_cases covered : L.Covers r x
  · rw [if_pos covered, Layout.lookup, find?_cons_of_pos (by simpa using covered)]
    rfl
  · rw [if_neg covered, Layout.lookup, find?_cons_of_neg (by simpa using covered)]
    rfl

theorem lookup_eq_none : L.lookup spans x = none ↔ ∀ r ∈ spans, ¬ L.Covers r x := by
  rw [Layout.lookup]
  simp

theorem lookup_append : L.lookup (spans ++ spans') x = (L.lookup spans x).or (L.lookup spans' x) := by
  rw [Layout.lookup, find?_append, Option.map_or]
  rfl

theorem ordered_nil : L.Ordered [] := ⟨by simp, .nil⟩

theorem ordered_cons : L.Ordered (r :: spans) ↔
    L.lo r < L.hi r ∧ (∀ r' ∈ spans, L.hi r ≤ L.lo r') ∧ L.Ordered spans := by
  constructor
  · intro ordered
    obtain ⟨before, rest⟩ := pairwise_cons.mp ordered.sorted
    exact ⟨ordered.nonempty r (by simp), before,
      fun r' member => ordered.nonempty r' (by simp [member]), rest⟩
  · rintro ⟨nonempty, before, rest⟩
    refine ⟨?_, pairwise_cons.mpr ⟨before, rest.sorted⟩⟩
    intro r' member
    rcases mem_cons.mp member with rfl | member
    · exact nonempty
    · exact rest.nonempty r' member

/-- In an ordered list the span that covers a point is the only one. -/
theorem lookup_of_mem (ordered : L.Ordered spans) (member : r ∈ spans) (covered : L.Covers r x) :
    L.lookup spans x = some (L.value r x) := by
  induction spans with
  | nil => cases member
  | cons head rest ih => ?_
  obtain ⟨-, before, ordered⟩ := ordered_cons.mp ordered
  rw [lookup_cons]
  rcases mem_cons.mp member with rfl | member
  · rw [if_pos covered]
  · have after := before r member
    rw [if_neg (fun here => by have := here.2; have := covered.1; omega), ih ordered member]

/-- Of two spans of an ordered list one is before the other. -/
theorem Layout.Ordered.apart (ordered : L.Ordered spans) {r' : ρ} (member : r ∈ spans)
    (member' : r' ∈ spans) (different : r ≠ r') : L.hi r ≤ L.lo r' ∨ L.hi r' ≤ L.lo r := by
  induction spans with
  | nil => cases member
  | cons head rest ih => ?_
  obtain ⟨-, before, ordered⟩ := ordered_cons.mp ordered
  rcases mem_cons.mp member with rfl | later
  · exact .inl (before r' ((mem_cons.mp member').resolve_left (Ne.symm different)))
  · rcases mem_cons.mp member' with rfl | later'
    · exact .inr (before r later)
    · exact ih ordered later later'

theorem lookup_none_of_before (high : Int) (after : ∀ r ∈ spans, high ≤ L.lo r)
    (before : x < high) : L.lookup spans x = none := by
  refine lookup_eq_none.mpr fun r member covered => ?_
  have := after r member
  have := covered.1
  omega

variable {piece : Int → Int → ρ}

/-- The piece between two points, if there is room for one. -/
def gap (piece : Int → Int → ρ) (low high : Int) : List ρ := if low < high then [piece low high] else []

theorem fill_of_le (none : high ≤ low) : L.fill piece spans low high = spans := by
  cases spans with
  | nil => exact if_neg (not_lt.mpr none)
  | cons r rest => exact if_pos none

/-- A nonempty span is kept, with a piece in the gap before it. -/
theorem fill_cons (nonempty : L.lo r < L.hi r) : L.fill piece (r :: spans) low high =
    gap piece low (min high (L.lo r)) ++ r :: L.fill piece spans (max low (min high (L.hi r))) high := by
  rw [Layout.fill, gap]
  by_cases full : high ≤ low
  · rw [if_pos full, if_neg (by omega), fill_of_le (by omega), nil_append]
  rw [if_neg full]
  by_cases past : L.hi r ≤ low
  · rw [if_pos past, if_neg (by omega), max_eq_left (by omega), nil_append]
  rw [if_neg past, max_eq_right (by omega)]
  by_cases room : low < L.lo r
  · rw [if_pos room, if_pos (by omega), singleton_append]
  · rw [if_neg room, if_neg (by omega), nil_append]

theorem subset_fill (nonempty : ∀ r ∈ spans, L.lo r < L.hi r) : spans ⊆ L.fill piece spans low high := by
  induction spans generalizing low with
  | nil => exact nil_subset _
  | cons head rest ih =>
    obtain ⟨here, later⟩ := forall_mem_cons.mp nonempty
    rw [fill_cons here]
    exact List.Subset.trans (cons_subset_cons head (ih later)) (subset_append_right _ _)

theorem forall_mem_gap {P : ρ → Prop} (new : low < high → P (piece low high)) :
    ∀ r ∈ gap piece low high, P r := by
  rw [gap]
  split
  · exact forall_mem_singleton.mpr (new ‹_›)
  · exact forall_mem_nil P

/-- Where the spans of a filled list come from. -/
theorem forall_mem_fill {P : ρ → Prop} (nonempty : ∀ r ∈ spans, L.lo r < L.hi r) (old : ∀ r ∈ spans, P r)
    (new : ∀ first last, low ≤ first → first < last → last ≤ high → P (piece first last)) :
    ∀ r ∈ L.fill piece spans low high, P r := by
  induction spans generalizing low with
  | nil => exact forall_mem_gap fun room => new low high le_rfl room le_rfl
  | cons head rest ih => ?_
  obtain ⟨here, later⟩ := forall_mem_cons.mp nonempty
  obtain ⟨oldHere, oldLater⟩ := forall_mem_cons.mp old
  rw [fill_cons here]
  refine forall_mem_append.mpr ⟨forall_mem_gap fun room => new _ _ le_rfl room (min_le_left ..),
    forall_mem_cons.mpr ⟨oldHere, ih later oldLater fun first last above => ?_⟩⟩
  exact new first last ((le_max_left ..).trans above)

section Fill

variable {piece : Int → Int → ρ} {f : Int → β} {bottom top : Int}

/-- Pieces of a range: they have the ends they are made with, and the value that `f` gives. -/
structure Pieces (L : Layout ρ β) (piece : Int → Int → ρ) (f : Int → β) (bottom top : Int) : Prop where
  lo : ∀ low high, bottom ≤ low → low < high → high ≤ top → L.lo (piece low high) = low
  hi : ∀ low high, bottom ≤ low → low < high → high ≤ top → L.hi (piece low high) = high
  value : ∀ low high x, bottom ≤ low → low ≤ x → x < high → high ≤ top → L.value (piece low high) x = f x

variable (pieces : Pieces L piece f bottom top) (bottomLe : bottom ≤ low) (leTop : high ≤ top)
include pieces bottomLe leTop

theorem lookup_gap : L.lookup (gap piece low high) x = if low ≤ x ∧ x < high then some (f x)
    else none := by
  rw [gap]
  by_cases room : low < high
  · have covers : L.Covers (piece low high) x ↔ low ≤ x ∧ x < high := by
      rw [Layout.Covers, pieces.lo low high bottomLe room leTop, pieces.hi low high bottomLe room leTop]
    rw [if_pos room, lookup_cons, lookup_nil]
    refine ite_congr (propext covers) (fun here => ?_) fun _ => rfl
    rw [pieces.value _ _ _ bottomLe here.1 here.2 leTop]
  · rw [if_neg room, if_neg (by omega), lookup_nil]

variable (ordered : L.Ordered spans)
include ordered

theorem ordered_fill : L.Ordered (L.fill piece spans low high) := by
  have first {spans : List ρ} {low high : Int} (above : bottom ≤ low) (below : high ≤ top)
      (ordered : L.Ordered spans)
      (after : ∀ r ∈ spans, high ≤ L.lo r) : L.Ordered (gap piece low high ++ spans) := by
    rw [gap]
    split
    next room =>
      refine ordered_cons.mpr ⟨?_, fun r member => ?_, ordered⟩
      · rwa [pieces.lo low high above room below, pieces.hi low high above room below]
      · rw [pieces.hi low high above room below]
        exact after r member
    · exact ordered
  induction spans generalizing low with
  | nil =>
    rw [show L.fill piece [] low high = gap piece low high ++ [] from (append_nil _).symm]
    exact first bottomLe leTop ordered_nil (by simp)
  | cons head rest ih => ?_
  obtain ⟨nonempty, before, restOrdered⟩ := ordered_cons.mp ordered
  have above : bottom ≤ max low (min high (L.hi head)) := bottomLe.trans (le_max_left ..)
  have after := forall_mem_fill restOrdered.nonempty before fun start stop later room inside => by
    rw [pieces.lo start stop (above.trans later) room (inside.trans leTop)]
    omega
  rw [fill_cons nonempty]
  refine first bottomLe (by omega) (ordered_cons.mpr ⟨nonempty, after, ih above restOrdered⟩)
    fun r member => ?_
  rcases mem_cons.mp member with rfl | member
  · exact min_le_right ..
  · have := after r member
    omega

/-- Filled spans end where the spans did or at an end of the range. -/
theorem ends_fill {ends : List Int} (old : ∀ r ∈ spans, L.lo r ∈ ends ∧ L.hi r ∈ ends) (first : low ∈ ends)
    (last : high ∈ ends) : ∀ r ∈ L.fill piece spans low high, L.lo r ∈ ends ∧ L.hi r ∈ ends := by
  have new {low high : Int} (above : bottom ≤ low) (below : high ≤ top) (first : low ∈ ends)
      (last : high ∈ ends) :
      ∀ r ∈ gap piece low high, L.lo r ∈ ends ∧ L.hi r ∈ ends := forall_mem_gap fun room => by
    rw [pieces.lo low high above room below, pieces.hi low high above room below]
    exact ⟨first, last⟩
  induction spans generalizing low with
  | nil => exact new bottomLe leTop first last
  | cons head rest ih => ?_
  obtain ⟨nonempty, -, restOrdered⟩ := ordered_cons.mp ordered
  obtain ⟨⟨lo, hi⟩, later⟩ := forall_mem_cons.mp old
  rw [fill_cons nonempty]
  exact forall_mem_append.mpr ⟨new bottomLe (by omega) first (min_rec' (· ∈ ends) last lo),
    forall_mem_cons.mpr
    ⟨⟨lo, hi⟩, ih (by omega) restOrdered later (max_rec' (· ∈ ends) first (min_rec' (· ∈ ends) last hi))⟩⟩

theorem within_fill (within : L.Within first last spans) (above : first ≤ low)
    (below : high ≤ last) : L.Within first last (L.fill piece spans low high) := by
  refine forall_mem_fill ordered.nonempty within fun start stop later room inside => ?_
  rw [pieces.lo start stop (bottomLe.trans later) room (inside.trans leTop),
    pieces.hi start stop (bottomLe.trans later) room (inside.trans leTop)]
  exact ⟨above.trans later, inside.trans below⟩

/-- A filled list has the values of the spans and, in the gaps of the range, the new ones. -/
theorem lookup_fill : L.lookup (L.fill piece spans low high) x =
    (L.lookup spans x).or (if low ≤ x ∧ x < high then some (f x) else none) := by
  induction spans generalizing low with
  | nil => exact lookup_gap pieces bottomLe leTop
  | cons head rest ih => ?_
  obtain ⟨nonempty, before, restOrdered⟩ := ordered_cons.mp ordered
  rw [fill_cons nonempty, lookup_append, lookup_gap pieces bottomLe (by omega), lookup_cons, lookup_cons,
    ih (by omega) restOrdered]
  by_cases covered : L.Covers head x
  · rw [if_pos covered, if_pos covered, if_neg (fun here => by have := covered.1; omega)]
    rfl
  rw [if_neg covered, if_neg covered]
  rw [Layout.Covers] at covered
  by_cases inGap : low ≤ x ∧ x < min high (L.lo head)
  · have none : L.lookup rest x = none := lookup_none_of_before (L.hi head) before (by omega)
    rw [if_pos inGap, none, if_pos (show low ≤ x ∧ x < high by omega)]
    rfl
  · rw [if_neg inGap, Option.none_or]
    congr 1
    refine if_congr ?_ rfl rfl
    omega

end Fill

end Qemu.Spans
