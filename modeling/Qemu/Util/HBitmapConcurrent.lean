import Qemu.Util.HBitmapRun

/-! Iterating over a bitmap while it is set and reset. The words that the iterator caches grow
stale, but hold the way to every group that stays set. -/

namespace Qemu.HBitmap

open BitWords List Option

/-- A bitmap, an iterator over it and the items that it has returned -/
structure Iteration where
  hb : HBitmap
  hbi : HBitmapIter
  returned : List Nat

inductive IterOp where
  | set (start count : BitVec 64)
  | reset (start count : BitVec 64)
  | next

namespace Iteration

def step (s : Iteration) : IterOp → Option Iteration
  | .set start count => (s.hb.set start count).map fun hb => { s with hb }
  | .reset start count => (s.hb.reset start count).map fun hb => { s with hb }
  | .next => (s.hb.iterNextItem s.hbi).map fun (item, hbi) =>
    { s with hbi, returned := s.returned ++ item.toList }

def run (s : Iteration) (ops : List IterOp) : Option Iteration := ops.foldlM step s

end Iteration

/-- The bits that groups keep set, a number of levels above the last one -/
def keptAbove (groups : Set Nat) : Nat → Set Nat
  | 0 => groups
  | n + 1 => blocks (keptAbove groups n) ∪ guard (5 - n)

section

variable {levels : Levels} {groups : Set Nat} (summarised : Summarised levels 6)
  (live : groups ⊆ bits (levels 6))
include summarised live

theorem keptAbove_subset (upper : n ≤ 6) : keptAbove groups n ⊆ bits (levels (6 - n)) := by
  induction n with
  | zero => exact live
  | succ n ih =>
    rw [show 6 - (n + 1) = 5 - n by omega, summarised (5 - n) (by omega), show 5 - n + 1 = 6 - n by omega]
    exact Set.union_subset_union_left _ (Set.image_mono (ih (by omega)))

theorem keeps_kept : Keeps levels (fun i => keptAbove groups (6 - i)) fun _ => Set.univ where
  live i upper := by
    have subset := keptAbove_subset summarised live (Nat.sub_le 6 i)
    rwa [show 6 - (6 - i) = i by omega] at subset
  seen _ _ := Set.subset_univ _
  up i below := by
    rw [show 6 - i = 6 - (i + 1) + 1 by omega]
    exact Set.subset_union_left
  guarded := .inr rfl

end

/-- The state before the group `next`: what was returned is in order and holds all `groups` from
`first` on. -/
structure Iterated (hb : HBitmap) (first : Nat) (groups : Set Nat) (s : Iteration) (next : Nat) :
    Prop where
  wellFormed : WellFormed s.hb
  origSize_eq : s.hb.origSize = hb.origSize
  granularity_eq : s.hb.granularity = hb.granularity
  tracks : Tracks (fun i => keptAbove groups (6 - i)) (fun _ => Set.univ) s.hb.levels s.hbi next
  late : first ≤ next
  ordered : s.returned.Pairwise (· < ·)
  below : ∀ item ∈ s.returned, item < next * 2 ^ hb.granularity
  complete : ∀ n ∈ groups, first ≤ n → n < next → n * 2 ^ hb.granularity ∈ s.returned

variable {hb : HBitmap} {first next : Nat} {groups : Set Nat} {s t : Iteration}

/-- Another bitmap of the same size -/
theorem Iterated.changed (iterated : Iterated hb first groups s next) (wellFormed : WellFormed new)
    (origSize : new.origSize = s.hb.origSize) (granularity : new.granularity = s.hb.granularity) :
    Iterated hb first groups { s with hb := new } next := by
  have size : new.size = s.hb.size := by
    rw [wellFormed.size_eq, iterated.wellFormed.size_eq, origSize, granularity]
  have inside := iterated.tracks.inside
  rw [iterated.wellFormed.lastLength, ← size, ← wellFormed.lastLength] at inside
  exact { iterated with
    wellFormed, tracks := { iterated.tracks with inside }
    origSize_eq := origSize.trans iterated.origSize_eq
    granularity_eq := granularity.trans iterated.granularity_eq }

theorem Iterated.step (iterated : Iterated hb first groups s next) (live : groups ⊆ bits (s.hb.levels 6))
    (stepped : s.step op = some t) : ∃ next, Iterated hb first groups t next := by
  have models : Models s.hb ⟨s.hb.origSize, s.hb.granularity, bits (s.hb.levels 6)⟩ :=
    ⟨iterated.wellFormed, rfl, rfl, rfl⟩
  cases op with
  | set start count =>
    obtain ⟨new, ran, rfl⟩ := map_eq_some_iff.mp stepped
    have after := set_models models ran
    exact ⟨next, iterated.changed after.wellFormed after.origSize_eq after.granularity_eq⟩
  | reset start count =>
    obtain ⟨new, ran, rfl⟩ := map_eq_some_iff.mp stepped
    have after := reset_models models ran
    exact ⟨next, iterated.changed after.wellFormed after.origSize_eq after.granularity_eq⟩
  | next => ?_
  rw [Iteration.step] at stepped
  rcases iterNextItem_spec iterated.wellFormed (keeps_kept iterated.wellFormed.summarised live)
    iterated.tracks with
    ⟨finished, -⟩ | ⟨n, hbi, found, later, -, earliest, tracks⟩
  · rw [finished] at stepped
    obtain rfl := some.inj stepped
    refine ⟨next, { iterated with ordered := ?_, below := ?_, complete := ?_ }⟩ <;>
      simp only [toList_none, append_nil]
    exacts [iterated.ordered, iterated.below, iterated.complete]
  rw [found, iterated.granularity_eq] at stepped
  obtain rfl := some.inj stepped
  have positive := Nat.two_pow_pos hb.granularity
  have before := Nat.mul_le_mul_right (2 ^ hb.granularity) later
  refine ⟨n + 1, { iterated with
    tracks, late := by have := iterated.late; omega, ordered := ?_, below := ?_, complete := ?_ }⟩
  · refine pairwise_append.mpr ⟨iterated.ordered, pairwise_singleton _ _, fun item old new here => ?_⟩
    rw [mem_singleton.mp here]
    exact (iterated.below item old).trans_le before
  · intro item here
    rw [Nat.succ_mul]
    rcases mem_append.mp here with old | new
    · have := iterated.below item old
      omega
    · rw [mem_singleton.mp new]
      omega
  · intro m member from' upTo
    refine mem_append.mpr ?_
    rcases Nat.lt_or_ge m next with seen | unseen
    · exact .inl (iterated.complete m member from' seen)
    · have := earliest m member unseen
      obtain rfl : m = n := by omega
      exact .inr (mem_singleton.mpr rfl)

/-- The groups are set at every point of a run. -/
def Stays (groups : Set Nat) (s : Iteration) (ops : List IterOp) : Prop :=
  ∀ before after state, ops = before ++ after → s.run before = some state →
    groups ⊆ bits (state.hb.levels 6)

theorem Iterated.run {ops : List IterOp} (iterated : Iterated hb first groups s next)
    (stays : Stays groups s ops)
    (ran : s.run ops = some t) : ∃ next, Iterated hb first groups t next := by
  induction ops generalizing s next with
  | nil =>
    obtain rfl := some.inj ran
    exact ⟨next, iterated⟩
  | cons op ops ih => ?_
  obtain ⟨middle, stepped, rest⟩ := bind_eq_some_iff.mp ran
  obtain ⟨next', later⟩ := iterated.step (stays [] _ s rfl rfl) stepped
  refine ih later (fun before after state split ran => ?_) rest
  refine stays (op :: before) after state (by rw [split, cons_append]) ?_
  rw [Iteration.run, foldlM_cons, stepped]
  exact ran

/-- Under any interleaving with sets and resets, a call returns without a failed assertion. Items
come in strictly increasing order and are dirty when they are returned. After -1 every group that
stayed dirty has been returned, and -1 comes once nothing is dirty at or above the current
position. -/
theorem iteration_exact (wellFormed : WellFormed hb) (inside : first / 2 ^ hb.granularity < hb.size) :
    ∃ hbi, hb.iterInit first = some hbi ∧ ∀ ops s, Iteration.run ⟨hb, hbi, []⟩ ops = some s →
      s.returned.Pairwise (· < ·) ∧ ∃ result hbi', s.hb.iterNextItem s.hbi = some (result, hbi') ∧
        (∀ item, result = some item → s.hb.DirtyItem item ∧ ∀ earlier ∈ s.returned, earlier < item) ∧
        (result = none → ∀ group, first / 2 ^ hb.granularity ≤ group → Stays {group} ⟨hb, hbi, []⟩ ops →
          group * 2 ^ hb.granularity ∈ s.returned) ∧
        ((∀ group ∈ bits (s.hb.levels 6), first / 2 ^ hb.granularity ≤ group →
          ∃ item ∈ s.returned, group * 2 ^ hb.granularity ≤ item) → result = none) := by
  have fits := wellFormed.fits
  obtain ⟨hbi, started, iterating⟩ := iterInit_spec inside (by omega) rfl
  refine ⟨hbi, started, fun ops s ran => ?_⟩
  have positive := Nat.two_pow_pos hb.granularity
  have reached {groups : Set Nat} (stays : Stays groups ⟨hb, hbi, []⟩ ops) :
      ∃ next, Iterated hb (first / 2 ^ hb.granularity) groups s next := by
    refine @Iterated.run _ _ (first / 2 ^ hb.granularity) _ _ _ _ ⟨wellFormed, rfl, rfl, ?_,
      Nat.le_refl _, .nil, by simp, ?_⟩ stays ran
    · have keeps := keeps_kept wellFormed.summarised (stays [] ops ⟨hb, hbi, []⟩ rfl rfl)
      exact { iterating with
        ahead := iterating.ahead.weaken (fun l _ => keeps.live l (by omega)) fun l _ =>
          keeps.seen l (by omega) }
    · exact fun n _ low high => absurd high (Nat.not_lt.mpr low)
  obtain ⟨next, iterated⟩ := @reached ∅ fun _ _ _ _ _ => Set.empty_subset _
  rcases iterNextItem_spec iterated.wellFormed
    (keeps_kept iterated.wellFormed.summarised (Set.empty_subset _)) iterated.tracks with
    ⟨finished, -⟩ | ⟨n, hbi', found, later, set, -, -⟩
  · refine ⟨iterated.ordered, none, s.hbi, finished, nofun, fun _ group from' stays => ?_, fun _ => rfl⟩
    obtain ⟨next, kept⟩ := reached stays
    have live := stays ops [] s (append_nil ops).symm ran
    refine kept.complete group rfl from' ?_
    rcases iterNextItem_spec kept.wellFormed (keeps_kept kept.wellFormed.summarised live) kept.tracks with
      ⟨-, passed⟩ | ⟨n, hbi', found, -⟩
    · exact passed group rfl
    · rw [finished] at found
      cases found
  · rw [iterated.granularity_eq] at found
    have least := iterated.late.trans later
    have above (item : Nat) (old : item ∈ s.returned) : item < n * 2 ^ hb.granularity :=
      (iterated.below item old).trans_le (Nat.mul_le_mul_right _ later)
    refine ⟨iterated.ordered, _, hbi', found, ?_, nofun, fun nothing => ?_⟩
    · rintro _ ⟨⟩
      refine ⟨?_, above⟩
      rwa [DirtyItem, iterated.granularity_eq, Nat.mul_div_cancel _ positive]
    · obtain ⟨item, old, high⟩ := nothing n set least
      exact absurd (above item old) (Nat.not_lt.mpr high)

/-- Calls of an iterator with sets and resets before, at and behind its position. -/
def interleaved : List IterOp :=
  [.next, .next, .set 160 8, .reset 56 72, .next, .reset 504 48, .set 0 8, .next, .next]

def interleavedToEnd : List IterOp := interleaved ++ [.next, .next, .next]

theorem iteration_exact_interleaved : ∃ hb hbi s t,
    run [] stripes = some [hb] ∧ hb.iterInit 20 = some hbi ∧
    Iteration.run ⟨hb, hbi, []⟩ interleaved = some s ∧ s.returned = [40, 48, 128, 136, 496] ∧
    s.returned.Pairwise (· < ·) ∧
    (∃ hbi', s.hb.iterNextItem s.hbi = some (some 552, hbi') ∧ s.hb.DirtyItem 552) ∧
    Iteration.run ⟨hb, hbi, []⟩ interleavedToEnd = some t ∧
    (∃ hbi', t.hb.iterNextItem t.hbi = some (none, hbi')) ∧ 1984 ∈ t.returned := by
  obtain ⟨hb, wellFormed, ran, evaluate⟩ := stripes_run
  have size : hb.size = 250 := some.inj ((evaluate (some ·.size)).symm.trans (by decide +kernel))
  have scale : hb.granularity = 3 :=
    some.inj ((evaluate (some ·.granularity)).symm.trans (by decide +kernel))
  obtain ⟨hbi, started, calls⟩ := @iteration_exact hb 20 wellFormed (by rw [size, scale]; decide)
  have iterate (α : Type) (ops : List IterOp) (f : Iteration → Option α) (result : α)
      (evaluated : ((run [] stripes).bind fun store => store.head?.bind fun hb =>
        (hb.iterInit 20).bind fun hbi => (Iteration.run ⟨hb, hbi, []⟩ ops).bind f) = some result) :
      ∃ s, Iteration.run ⟨hb, hbi, []⟩ ops = some s ∧ f s = some result := by
    rw [evaluate fun hb => (hb.iterInit 20).bind fun hbi => (Iteration.run ⟨hb, hbi, []⟩ ops).bind f,
      started] at evaluated
    exact bind_eq_some_iff.mp evaluated
  have stays : Stays {248} ⟨hb, hbi, []⟩ interleavedToEnd := by
    rintro before after state split reached group rfl
    have each : ∀ before ∈ interleavedToEnd.inits,
        ((run [] stripes).bind fun store => store.head?.bind fun hb => (hb.iterInit 20).bind fun hbi =>
          (Iteration.run ⟨hb, hbi, []⟩ before).bind fun s => some (bit (s.hb.levels 6) 248)) =
            some true := by
      decide +kernel
    obtain ⟨state', reached', set⟩ :=
      iterate _ _ _ _ (each before ((mem_inits _ _).mpr ⟨after, split.symm⟩))
    cases reached.symm.trans reached'
    exact some.inj set
  obtain ⟨s, first, shown⟩ :=
    iterate _ interleaved (fun s => (s.hb.iterNextItem s.hbi).map fun r => (s.returned, r.1))
    ([40, 48, 128, 136, 496], some 552) (by decide +kernel)
  obtain ⟨t, second, ended⟩ := iterate _ interleavedToEnd
    (fun s => (s.hb.iterNextItem s.hbi).map Prod.fst) none (by decide +kernel)
  obtain ⟨ordered, result, hbi', called, dirty, -⟩ := calls _ _ first
  obtain ⟨-, result', hbi'', called', -, complete, -⟩ := calls _ _ second
  rw [called, map_some, some.injEq, Prod.mk.injEq] at shown
  obtain ⟨returned, rfl⟩ := shown
  rw [called', map_some, some.injEq] at ended
  subst ended
  have found := complete rfl 248 (by rw [scale]; decide) stays
  rw [scale] at found
  exact ⟨hb, hbi, s, t, ran, started, first, returned, ordered, ⟨hbi', called, (dirty 552 rfl).1⟩, second,
    ⟨hbi'', called'⟩, found⟩

end Qemu.HBitmap
