import Mathlib.Tactic
import Mathlib.Data.List.Sort

/-! The free ranges between the resources that the guest has programmed. -/

namespace Qemu.Acpi

open List

/-- Both bounds are inclusive and `uint64_t`. -/
structure CrsRangeEntry where
  base : Nat
  limit : Nat
  deriving DecidableEq

/-- `g_ptr_array_sort` with `crs_range_compare`; the sort is stable. -/
def crsRangeSort (ranges : List CrsRangeEntry) : List CrsRangeEntry :=
  ranges.insertionSort fun a b => a.base ≤ b.base

/-- The loop over the sorted ranges, with the base of the next free range. -/
def freeRanges (last : Nat) : Nat → List CrsRangeEntry → List CrsRangeEntry
  | freeBase, [] => if freeBase < last then [⟨freeBase, last⟩] else []
  | freeBase, used :: rest =>
    (if freeBase < used.base then [⟨freeBase, used.base - 1⟩] else []) ++
      freeRanges last ((used.limit + 1) % 2 ^ 64) rest

def crsReplaceWithFreeRanges (ranges : List CrsRangeEntry) (start last : Nat) : List CrsRangeEntry :=
  freeRanges last start (crsRangeSort ranges)

/-- The loop of the merge, with the range that is being extended. -/
def mergeInto : CrsRangeEntry → List CrsRangeEntry → List CrsRangeEntry
  | range, [] => [range]
  | range, entry :: rest =>
    if (entry.base + (2 ^ 64 - 1)) % 2 ^ 64 = range.limit then mergeInto ⟨range.base, entry.limit⟩ rest
    else range :: mergeInto entry rest

def crsRangeMerge (ranges : List CrsRangeEntry) : List CrsRangeEntry :=
  match crsRangeSort ranges with
  | [] => []
  | entry :: rest => mergeInto entry rest

def CrsRangeEntry.Has (r : CrsRangeEntry) (addr : Nat) : Prop := r.base ≤ addr ∧ addr ≤ r.limit

/-- Sorted, pairwise disjoint and nonempty ranges of exactly the given addresses. -/
structure Ranges (addrs : Nat → Prop) (ranges : List CrsRangeEntry) : Prop where
  disjoint : ranges.Pairwise fun a b => a.limit < b.base
  nonempty : ∀ r ∈ ranges, r.base ≤ r.limit
  exact : ∀ addr, (∃ r ∈ ranges, r.Has addr) ↔ addrs addr

def Free (used : List CrsRangeEntry) (start stop addr : Nat) : Prop :=
  start ≤ addr ∧ addr < stop ∧ ∀ u ∈ used, ¬ u.Has addr

/-- A range of a sorted list with the ranges `before` it: if there is a gap to the next range, no
range before reaches into it, and only a range at 0 follows one up to `UINT64_MAX`; after the last
range the window has more than one address or none left. -/
def Fits (last : Nat) (before : List CrsRangeEntry) (u : CrsRangeEntry) : List CrsRangeEntry → Prop
  | next :: _ =>
    (u.limit + 1 < next.base → ∀ b ∈ before, b.limit ≤ u.limit) ∧ (u.limit = 2 ^ 64 - 1 → next.base = 0)
  | [] =>
    u.limit ≠ 2 ^ 64 - 1 ∧ (u.limit + 1 < last → ∀ b ∈ before, b.limit ≤ u.limit) ∧
      (u.limit + 1 = last → ∃ b ∈ before, b.limit = last)

def Consecutive (last : Nat) (ranges : List CrsRangeEntry) : Prop :=
  ∀ before u rest, ranges = before ++ u :: rest → Fits last before u rest

/-- No range is reported while an earlier one goes on beyond its base, and the last range does not
leave one address free; `reach` is the first address after all ranges so far. -/
def Sweeps (last : Nat) : Nat → Nat → List CrsRangeEntry → Prop
  | reach, freeBase, [] => (freeBase < last → reach ≤ freeBase) ∧ ¬ (freeBase = last ∧ reach = last)
  | reach, freeBase, used :: rest => (freeBase < used.base → reach ≤ freeBase) ∧
    Sweeps last (max reach (used.limit + 1)) ((used.limit + 1) % 2 ^ 64) rest

theorem forall_split_cons {P : List CrsRangeEntry → CrsRangeEntry → List CrsRangeEntry → Prop} :
    (∀ before u rest, r :: list = before ++ u :: rest → P before u rest) ↔
      P [] r list ∧ ∀ before u rest, list = before ++ u :: rest → P (r :: before) u rest := by
  constructor
  · exact fun all => ⟨all [] r list rfl,
      fun before u rest same => all (r :: before) u rest (by rw [same]; rfl)⟩
  · rintro ⟨here, later⟩ (_ | ⟨_, before⟩) u rest same
    · cases same
      exact here
    · obtain ⟨rfl, tail⟩ := cons.inj same
      exact later before u rest tail

/-- `reach` is the first address after all of the ranges. -/
def EndsAt (ranges : List CrsRangeEntry) (reach : Nat) : Prop :=
  (∀ b ∈ ranges, b.limit < reach) ∧ ∃ b ∈ ranges, b.limit + 1 = reach

theorem EndsAt.concat (ends : EndsAt list reach) (u : CrsRangeEntry) :
    EndsAt (list ++ [u]) (max reach (u.limit + 1)) := by
  obtain ⟨below, top, member, same⟩ := ends
  refine ⟨fun b found => ?_, ?_⟩
  · rcases mem_append.mp found with early | here
    · exact lt_max_of_lt_left (below b early)
    · rw [mem_singleton.mp here]
      omega
  · rcases le_total reach (u.limit + 1) with beyond | before
    · exact ⟨u, by simp, by omega⟩
    · exact ⟨top, mem_append_left _ member, by omega⟩

theorem EndsAt.le_iff (ends : EndsAt (earlier ++ [u]) reach) :
    reach ≤ u.limit + 1 ↔ ∀ b ∈ earlier, b.limit ≤ u.limit := by
  obtain ⟨below, top, member, rfl⟩ := ends
  constructor
  · intro short b early
    have := below b (mem_append_left _ early)
    omega
  · intro short
    rcases mem_append.mp member with early | here
    · exact Nat.succ_le_succ (short top early)
    · rw [mem_singleton.mp here]

/-- The sweep after `earlier` and `u` is right about the rest exactly if the neighbours are. -/
theorem sweeps_iff_consecutive (window : last < 2 ^ 64)
    (inside : ∀ r ∈ earlier ++ u :: rest, r.limit ≤ last) (ends : EndsAt (earlier ++ [u]) reach) :
    Sweeps last reach ((u.limit + 1) % 2 ^ 64) rest ↔
      ∀ before v rest', u :: rest = before ++ v :: rest' → Fits last (earlier ++ before) v rest' := by
  induction rest generalizing earlier u reach with
  | nil =>
    have inner : u.limit ≤ last := inside u (by simp)
    have ahead : u.limit < reach := ends.1 u (by simp)
    rw [forall_split_cons, and_iff_left (by simp), append_nil, Fits, Sweeps]
    by_cases wraps : u.limit = 2 ^ 64 - 1
    · rw [wraps]
      refine iff_of_false (fun regular => ?_) (fun final => final.1 rfl)
      have := regular.1 (by omega)
      omega
    rw [Nat.mod_eq_of_lt (by omega), ends.le_iff, and_iff_right wraps]
    refine and_congr_right fun _ => ⟨fun left next => ?_, ?_⟩
    · obtain ⟨b, member, same⟩ := ends.2
      rcases mem_append.mp member with early | here
      · have := inside b (mem_append_left _ early)
        exact ⟨b, early, by omega⟩
      · cases mem_singleton.mp here
        omega
    · rintro found ⟨next, same⟩
      obtain ⟨b, early, limit⟩ := found next
      have := ends.1 b (mem_append_left _ early)
      omega
  | cons v rest ih =>
    have inner : u.limit ≤ last := inside u (by simp)
    have ahead : u.limit < reach := ends.1 u (by simp)
    rw [forall_split_cons, append_nil, Fits, Sweeps,
      @ih (earlier ++ [u]) v _ (by simpa using inside) (ends.concat v)]
    simp only [append_assoc, singleton_append]
    refine and_congr_left fun _ => ?_
    by_cases wraps : u.limit = 2 ^ 64 - 1
    · rw [wraps]
      omega
    · rw [Nat.mod_eq_of_lt (by omega), ends.le_iff, and_iff_left fun top => absurd top wraps]

theorem Ranges.congr (ranges : Ranges P list) (same : ∀ addr, P addr ↔ Q addr) : Ranges Q list :=
  ⟨ranges.disjoint, ranges.nonempty, fun addr => (ranges.exact addr).trans (same addr)⟩

theorem Ranges.concat (ranges : Ranges P list) (below : ∀ addr, P addr → addr < base)
    (ordered : base ≤ limit) :
    Ranges (fun addr => P addr ∨ base ≤ addr ∧ addr ≤ limit) (list ++ [⟨base, limit⟩]) where
  disjoint := by
    refine pairwise_append.mpr ⟨ranges.disjoint, pairwise_singleton _ _, ?_⟩
    simp only [mem_singleton, forall_eq]
    intro r member
    exact below r.limit ((ranges.exact _).mp ⟨r, member, ranges.nonempty r member, le_rfl⟩)
  nonempty := by simpa [or_imp, forall_and] using ⟨ranges.nonempty, ordered⟩
  exact addr := by simpa [or_and_right, exists_or,
    CrsRangeEntry.Has] using or_congr_left (ranges.exact addr)

/-- Where the loop is: the ranges up to `reach` are behind it, and what was found so far is
right. -/
structure Swept (used : List CrsRangeEntry) (start last reach : Nat)
    (rest found : List CrsRangeEntry) : Prop where
  low : start ≤ reach
  high : reach = start ∨ reach ≤ last + 1
  behind : ∀ u ∈ used, u ∈ rest ∨ u.limit < reach
  free : Ranges (Free used start reach) found

/-- A range from before `reach` overlaps a used or a reported one, or starts outside the window. -/
theorem Swept.overlaps (swept : Swept used start last reach rest found) (early : freeBase < reach)
    (ordered : freeBase ≤ limit) :
    ¬ Ranges (Free used start (last + 1)) (found ++ ⟨freeBase, limit⟩ :: more) := by
  intro all
  obtain ⟨low, -, unused⟩ := (all.exact freeBase).mp ⟨⟨freeBase, limit⟩, by simp, le_rfl, ordered⟩
  obtain ⟨r, member, -, above⟩ := (swept.free.exact freeBase).mpr ⟨low, early, unused⟩
  exact absurd ((pairwise_append.mp all.disjoint).2.2 r member _ mem_cons_self) above.not_gt

/-- A range from `reach` on, up to the next used one. -/
theorem Swept.report (swept : Swept used start last reach rest found) (exact : reach ≤ freeBase)
    (behind : freeBase ≤ reach) (nonempty : freeBase ≤ limit) (clear : ∀ u ∈ rest, limit < u.base)
    (stops : ∀ addr, reach ≤ addr → (∀ u ∈ used, ¬ u.Has addr) → (addr < stop ↔ addr ≤ limit))
    (further : reach ≤ stop) : Ranges (Free used start stop) (found ++ [⟨freeBase, limit⟩]) := by
  obtain ⟨low, -, passed, free⟩ := swept
  refine (free.concat (fun addr found => found.2.1.trans_le exact) nonempty).congr fun addr => ⟨?_, ?_⟩
  · rintro (⟨above, before, unused⟩ | ⟨above, below⟩)
    · exact ⟨above, before.trans_le further, unused⟩
    have unused : ∀ u ∈ used, ¬ u.Has addr := by
      intro u member has
      rcases passed u member with later | before
      · exact absurd has.1 ((below.trans_lt (clear u later)).not_ge)
      · exact absurd has.2 (by omega)
    exact ⟨by omega, (stops addr (by omega) unused).mpr below, unused⟩
  · rintro ⟨above, below, unused⟩
    by_cases before : addr < reach
    · exact .inl ⟨above, before, unused⟩
    · exact .inr ⟨by omega, (stops addr (by omega) unused).mp below⟩

theorem Swept.end_iff (swept : Swept used start last reach [] found) (behind : freeBase ≤ reach) :
    Ranges (Free used start (last + 1)) (found ++ freeRanges last freeBase []) ↔
    Sweeps last reach freeBase [] := by
  have low := swept.low
  have high := swept.high
  unfold freeRanges Sweeps
  split_ifs with more
  · by_cases exact : reach ≤ freeBase
    · exact iff_of_true (swept.report exact behind more.le (by simp) (by omega) (by omega))
        ⟨fun _ => exact, by omega⟩
    · exact iff_of_false (swept.overlaps (by omega) more.le) fun regular => exact (regular.1 more)
  rw [append_nil]
  constructor
  · intro all
    refine ⟨fun less => absurd less more, fun left => ?_⟩
    have unused : ∀ u ∈ used, ¬ u.Has last := by
      intro u member has
      have before := (swept.behind u member).resolve_left not_mem_nil
      exact absurd has.2 (by omega)
    have missed := (swept.free.exact last).mp ((all.exact last).mpr ⟨by omega, by omega, unused⟩)
    exact absurd missed.2.1 (by omega)
  · intro whole
    refine swept.free.congr fun addr => and_congr_right fun above => and_congr_left fun _ => ?_
    omega

theorem sweep_iff (ordered : rest.Pairwise fun a b => a.base ≤ b.base)
    (within : ∀ u ∈ rest, u ∈ used ∧ u.base ≤ u.limit ∧ u.limit ≤ last) (behind : freeBase ≤ reach)
    (swept : Swept used start last reach rest found) :
    Ranges (Free used start (last + 1)) (found ++ freeRanges last freeBase rest) ↔
    Sweeps last reach freeBase rest := by
  induction rest generalizing reach freeBase found with
  | nil => exact swept.end_iff behind
  | cons range rest ih => ?_
  obtain ⟨⟨member, nonempty, inside⟩, within⟩ := forall_mem_cons.mp within
  obtain ⟨first, ordered⟩ := pairwise_cons.mp ordered
  have low := swept.low
  have high := swept.high
  have passed : ∀ u ∈ used, u ∈ rest ∨ u.limit < max reach (range.limit + 1) := by
    intro u member
    rcases swept.behind u member with here | before
    · rcases mem_cons.mp here with rfl | later
      · exact .inr (by omega)
      · exact .inl later
    · exact .inr (by omega)
  have next {found' : List CrsRangeEntry}
    (free : Ranges (Free used start (max reach (range.limit + 1))) found') :=
    ih ordered within ((Nat.mod_le (range.limit + 1) (2 ^ 64)).trans (le_max_right reach _))
      ⟨by omega, by omega, passed, free⟩
  have apart (addr : Nat) (unused : ∀ u ∈ used, ¬ u.Has addr) : addr < range.base ∨
    range.limit < addr := by
    by_contra! within
    exact unused range member within
  unfold freeRanges Sweeps
  split_ifs with gap
  · by_cases exact : reach ≤ freeBase
    · rw [← append_assoc, next, and_iff_right (fun _ => exact)]
      refine swept.report exact behind (by omega) ?_ (fun addr above unused => ?_) (le_max_left _ _)
      · refine forall_mem_cons.mpr ⟨by omega, fun u later => ?_⟩
        exact lt_of_lt_of_le (by omega) (first u later)
      · have := apart addr unused
        omega
    · exact iff_of_false (swept.overlaps (by omega) (by omega)) fun regular => exact (regular.1 gap)
  · rw [nil_append, next, and_iff_right (fun less => absurd less gap)]
    refine swept.free.congr fun addr => and_congr_right fun above => and_congr_left fun unused => ?_
    have := apart addr unused
    omega

instance : Std.Total fun a b : CrsRangeEntry => a.base ≤ b.base := ⟨fun a b => le_total a.base b.base⟩

instance : IsTrans CrsRangeEntry fun a b => a.base ≤ b.base := ⟨fun _ _ _ => le_trans⟩

/-- Merging skips only gaps that the sweep would not report. -/
theorem freeRanges_mergeInto (words : ∀ r ∈ cur :: rest, r.base < 2 ^ 64 ∧ r.limit < 2 ^ 64) :
    freeRanges last freeBase (mergeInto cur rest) = freeRanges last freeBase (cur :: rest) := by
  induction rest generalizing cur freeBase with
  | nil => rfl
  | cons entry rest ih => ?_
  obtain ⟨⟨base, limit⟩, words⟩ := forall_mem_cons.mp words
  have here := words entry mem_cons_self
  rw [mergeInto]
  split_ifs with adjacent
  · refine (ih ?_).trans ?_
    · exact forall_mem_cons.mpr ⟨⟨base, here.2⟩, fun r member => words r (mem_cons_of_mem _ member)⟩
    · have closed : ¬ (cur.limit + 1) % 2 ^ 64 < entry.base := by omega
      simp only [freeRanges, closed, if_false, nil_append]
  · simp only [freeRanges, ih words]

theorem mergeInto_ordered (ordered : (cur :: rest).Pairwise fun a b => a.base ≤ b.base) :
    (mergeInto cur rest).Pairwise (fun a b => a.base ≤ b.base) ∧
    ∀ r ∈ mergeInto cur rest, cur.base ≤ r.base := by
  induction rest generalizing cur with
  | nil => simp [mergeInto]
  | cons entry rest ih => ?_
  obtain ⟨first, later⟩ := pairwise_cons.mp ordered
  obtain ⟨next, -⟩ := forall_mem_cons.mp first
  rw [mergeInto]
  split_ifs
  · exact ih (pairwise_cons.mpr ⟨fun r member => first r (mem_cons_of_mem _ member), later.of_cons⟩)
  · obtain ⟨sorted, above⟩ := ih later
    refine ⟨pairwise_cons.mpr ⟨fun r member => next.trans (above r member), sorted⟩, ?_⟩
    exact forall_mem_cons.mpr ⟨le_rfl, fun r member => next.trans (above r member)⟩

theorem replace_merge {ranges : List CrsRangeEntry}
    (words : ∀ r ∈ ranges, r.base < 2 ^ 64 ∧ r.limit < 2 ^ 64) :
    crsReplaceWithFreeRanges (crsRangeMerge ranges) start last = crsReplaceWithFreeRanges ranges
    start last := by
  have ordered := pairwise_insertionSort (fun a b : CrsRangeEntry => a.base ≤ b.base) ranges
  have words' : ∀ r ∈ crsRangeSort ranges, r.base < 2 ^ 64 ∧ r.limit < 2 ^ 64 :=
    fun r member => words r ((mem_insertionSort _).mp member)
  unfold crsReplaceWithFreeRanges crsRangeMerge
  change (crsRangeSort ranges).Pairwise _ at ordered
  cases found : crsRangeSort ranges with
  | nil => rfl
  | cons range rest =>
    rw [found] at ordered words'
    rw [crsRangeSort, (mergeInto_ordered ordered).1.insertionSort_eq, freeRanges_mergeInto words']

/-- Nested, overlapping and adjacent ranges, none of which hides a gap. -/
def programmed : List CrsRangeEntry := [⟨211, 220⟩, ⟨0, 100⟩, ⟨10, 20⟩, ⟨15, 120⟩, ⟨200, 210⟩]

end Qemu.Acpi
