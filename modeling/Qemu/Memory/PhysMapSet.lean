import Qemu.Memory.PhysMap

namespace Qemu.Memory.AddressSpaceDispatch

open Nat

/-- Nodes for both ends of a run, where it does not begin or end with the range that it is in. -/
def edges (level first stop : Nat) (c : Cursor) : Nat :=
  if c.nb = 0 then 0 else (if c.index = first then 0 else level) +
    (if c.index + c.nb < stop then level else 0)

/-- There are that many nodes left. -/
def Room (d : AddressSpaceDispatch) (n : Nat) : Prop := d.nodesNb + n ≤ d.nodesNbAlloc ∧
    d.nodesNb + n ≤ physMapNodeNil

/-- The run is set up to `high` at most. -/
structure SetsRun (levels : Nat) (pos : Nat → Position) (c c' : Cursor) (pos' : Nat → Position)
    (low high cost : Nat) : Prop where
  placed : Placed levels c'.d pos'
  evolves : Evolves levels c.d pos c'.d pos' low high
  index : c'.index = min (c.index + c.nb) high
  nb : c'.index + c'.nb = c.index + c.nb
  nodes : c'.d.nodesNb ≤ c.d.nodesNb + cost

/-- The pages of the run that are under a slot are not assigned. -/
def Unset (height base : Nat) (slot : Slot) (c : Cursor) : Prop :=
  ∀ page, c.index ≤ page → page < c.index + c.nb → page < base + span height →
    pageValue c.d height (c.d.read slot) page = physSectionUnassigned

/-- What a recursive call does for a slot that the run does not cover. -/
def Descends (levels leaf height : Nat) (descend : Slot → Cursor → Except Assertion Cursor) : Prop :=
  ∀ {slot base c pos}, Placed levels c.d pos → SlotAt levels c.d pos height base slot → base ≤ c.index →
    c.index < base + span height → c.nb ≠ 0 → ¬ (c.index % span height = 0 ∧ c.nb ≥ span height) →
    Unset height base slot c → Room c.d (1 + edges (height - 1) base (base + span height) c) →
    ∃ c' pos', descend slot c = .ok c' ∧
      SetsRun levels pos c c' pos' base (base + span height)
      (1 + edges (height - 1) base (base + span height) c) ∧
      ∀ page, base ≤ page → page < base + span height → pageValue c'.d height (c'.d.read slot) page =
        if c.index ≤ page ∧ page < c'.index then leaf else pageValue c.d height (c.d.read slot) page

section Entries

variable {levels leaf level node base : Nat} {descend : Slot → Cursor → Except Assertion Cursor}

variable {c : Cursor} {pos : Nat → Position}

/-- One entry of a node: it is set as a whole, or the run goes on below it. -/
theorem setEntry_spec (descends : Descends levels leaf level descend)
    (assigned : leaf ≠ physSectionUnassigned)
    (small : span levels ≤ 2 ^ 63) (placed : Placed levels c.d pos)
    (here : SlotAt levels c.d pos level (base + i * span level) (.entry node i)) (some : c.nb ≠ 0)
    (lower : base + i * span level ≤ c.index) (upper : c.index < base + i * span level + span level)
    (stop : base + i * span level + span level ≤ base + span (level + 1))
    (unset : Unset level (base + i * span level) (.entry node i) c)
    (room : Room c.d (edges level (base + i * span level) (base + span (level + 1)) c)) :
    ∃ c' pos' cost, (if c.index % span level = 0 ∧ c.nb ≥ span level then
        .ok ⟨c.d.write ⟨0, leaf⟩ (.entry node i), (c.index + span level) % 2 ^ 64, c.nb - span level⟩
      else descend (.entry node i) c) = .ok c' ∧
      SetsRun levels pos c c' pos' (base + i * span level) (base + i * span level + span level) cost ∧
      cost + edges level (base + i * span level + span level) (base + span (level + 1)) c' ≤
        edges level (base + i * span level) (base + span (level + 1)) c ∧
      ∀ page, base + i * span level ≤ page → page < base + i * span level + span level →
        pageValue c'.d level (c'.d.read (.entry node i)) page =
          if c.index ≤ page ∧ page < c'.index then leaf
          else pageValue c.d level (c.d.read (.entry node i)) page := by
  have pos := span_pos level
  obtain ⟨aligned, inside⟩ := slot_bounds placed here
  generalize base + i * span level = first at *
  by_cases whole : c.index % span level = 0 ∧ c.nb ≥ span level
  · -- the run covers the entry from its first page on
    have start : c.index = first := by
      have rest := dvd_sub (dvd_of_mod_eq_zero whole.1) aligned
      have none := eq_zero_of_dvd_of_lt rest (by omega)
      omega
    have long := whole.2
    have wrap : (c.index + span level) % 2 ^ 64 = c.index + span level := mod_eq_of_lt (by omega)
    rw [if_pos whole, wrap]
    refine ⟨_, _, 0, rfl, ⟨placed.write here (.leaf (.inr assigned)), .write here _, ?_, ?_, ?_⟩,
      ?_, fun page low high => ?_⟩
    · dsimp only
      omega
    · dsimp only
      omega
    · rw [write_nodesNb]
      exact le_rfl
    · simp only [edges, start]
      split_ifs <;> omega
    rw [read_write_self]
    dsimp only
    rw [if_pos (by omega)]
    cases level with
    | zero => rfl
    | succ level => exact if_pos rfl
  · rw [if_neg whole]
    -- a page by itself is always set as a whole
    have higher : level ≠ 0 := by
      rintro rfl
      exact whole ⟨mod_one _, pos_of_ne_zero some⟩
    have entersWhole : c.index = first → c.nb < span level := by
      intro start
      by_contra! long
      exact whole ⟨start ▸ mod_eq_zero_of_dvd aligned, long⟩
    have cheaper : 1 + edges (level - 1) first (first + span level) c ≤ edges level first
      (base + span (level + 1)) c := by
      simp only [edges, some, if_false]
      split_ifs <;> omega
    obtain ⟨c', pos', done, run, values⟩ := descends placed here lower upper some whole unset
      ⟨(Nat.add_le_add_left cheaper _).trans room.1, (Nat.add_le_add_left cheaper _).trans room.2⟩
    refine ⟨c', pos', _, done, run, ?_, values⟩
    have index := run.index
    have nb := run.nb
    simp only [edges, some, if_false]
    split_ifs <;> omega

/-- The section of a page under a node. -/
def nodeValue (d : AddressSpaceDispatch) (level node page : Nat) : Nat :=
  pageValue d level (d.nodes node (page / span level % 512)) page

/-- What the loop over the entries of a node does. -/
structure SetsNode (levels leaf level node base : Nat) (pos : Nat → Position) (c c' : Cursor)
    (pos' : Nat → Position) (cost : Nat) : Prop where
  run : SetsRun levels pos c c' pos' base (base + span (level + 1)) cost
  values : ∀ page, base ≤ page → page < base + span (level + 1) → nodeValue c'.d level node page =
    if c.index ≤ page ∧ page < c'.index then leaf else nodeValue c.d level node page
  above : ∀ slot height start, SlotAt levels c.d pos height start slot → level < height →
    c'.d.read slot = c.d.read slot

theorem SetsNode.nothing (placed : Placed levels c.d pos)
    (within : c.index ≤ base + span (level + 1))
    (finished : c.nb = 0 ∨ c.index = base + span (level + 1)) :
    SetsNode levels leaf level node base pos c c pos cost := by
  refine ⟨⟨placed, .refl, by omega, rfl, by omega⟩, fun page _ _ => ?_, fun _ _ _ _ _ => rfl⟩
  rw [if_neg (by omega)]

/-- One entry, then the others. -/
theorem SetsNode.of_entry {i first cost rest : Nat}
    (placed : Placed levels c.d pos) (allocated : node < c.d.nodesNb) (stands : pos node = ⟨level, base⟩)
    (small : i < 512) (start : first = base + i * span level) (lower : first ≤ c.index)
    (upper : c.index < first + span level)
    (run : SetsRun levels pos c middle middlePos first (first + span level) cost)
    (values : ∀ page, first ≤ page → page < first + span level →
      pageValue middle.d level (middle.d.read (.entry node i)) page =
        if c.index ≤ page ∧ page < middle.index then leaf
        else pageValue c.d level (c.d.read (.entry node i)) page)
    (others : SetsNode levels leaf level node base middlePos middle c' pos' rest) :
    SetsNode levels leaf level node base pos c c' pos' (cost + rest) := by
  have inside := @entry_inside level i small
  have nb := run.nb
  have index := run.index
  have laterNb := others.run.nb
  have laterIndex := others.run.index
  have nodes := run.nodes
  have laterNodes := others.run.nodes
  refine ⟨⟨others.run.placed, (run.evolves.mono (by omega) (by omega)).trans others.run.evolves, ?_,
    ?_, ?_⟩, fun page low high => ?_, fun slot height start at_ higher => ?_⟩
  · omega
  · omega
  · omega
  · rw [others.values page low high]
    by_cases inside : first ≤ page ∧ page < first + span level
    · have digit : page / span level % 512 = i :=
        digit_eq (placed.aligned_of allocated stands) small (by omega) (by omega)
      have here := values page inside.1 inside.2
      rw [nodeValue, nodeValue, digit]
      rw [read] at here
      rw [here]
      split_ifs <;> first | rfl | omega
    · obtain ⟨entryStart, at_, entryLow, entryHigh⟩ := slotAt_below placed allocated stands low high
      have same := pageValue_evolves placed run.evolves at_ entryLow entryHigh (by omega)
      rw [read, read] at same
      rw [nodeValue, nodeValue]
      split_ifs <;> first | rfl | omega
  · -- a higher slot is over more pages than one entry
    have wider := span_lt higher
    have once := run.evolves.entries slot height start at_ (by omega)
    exact (others.above slot height start (at_.evolves run.evolves.grows run.evolves.stays)
      higher).trans once

theorem setEntries_spec (descends : Descends levels leaf level descend)
    (assigned : leaf ≠ physSectionUnassigned)
    (small : span levels ≤ 2 ^ 63) (k : Nat) {i : Nat} {c : Cursor} {pos : Nat → Position}
    (total : i + k = 512)
    (placed : Placed levels c.d pos) (allocated : node < c.d.nodesNb)
    (stands : pos node = ⟨level, base⟩) (within : c.index ≤ base + span (level + 1))
    (entry : c.nb ≠ 0 → base + i * span level ≤ c.index ∧
    (k ≠ 0 → c.index < base + i * span level + span level))
    (unset : ∀ page, c.index ≤ page → page < c.index + c.nb → page < base + span (level + 1) →
      nodeValue c.d level node page = physSectionUnassigned)
    (room : Room c.d (edges level (base + i * span level) (base + span (level + 1)) c)) :
    ∃ c' pos', setEntries leaf (span level) node descend k c = .ok c' ∧
    SetsNode levels leaf level node base pos c c' pos'
      (edges level (base + i * span level) (base + span (level + 1)) c) := by
  induction k generalizing i c pos with
  | zero =>
    refine ⟨c, pos, rfl, .nothing placed within ?_⟩
    by_cases none : c.nb = 0
    · exact .inl none
    · have last := (entry none).1
      rw [show i = 512 by omega, mul_comm 512, ← span_succ] at last
      exact .inr (by omega)
  | succ k ih => ?_
  rw [setEntries]
  by_cases none : c.nb = 0
  · exact ⟨c, pos, if_pos none, .nothing placed within (.inl none)⟩
  rw [if_neg none, show 512 - (k + 1) = i by omega]
  obtain ⟨lower, upper⟩ := entry none
  have upper := upper (succ_ne_zero k)
  have index : i < 512 := by omega
  have inside := @entry_inside level i index
  have slotUnset : Unset level (base + i * span level) (.entry node i) c := by
    intro page first inRun high
    have digit : page / span level % 512 = i :=
      digit_eq (placed.aligned_of allocated stands) index (by omega) high
    have none := unset page first inRun (by omega)
    rwa [nodeValue, digit] at none
  obtain ⟨middle, middlePos, cost, done, run, cheap, values⟩ :=
    setEntry_spec descends assigned small placed
      (slotAt_entry allocated stands index) none lower upper (by omega) slotUnset room
  have next : base + i * span level + span level = base + (i + 1) * span level := by
    rw [add_mul, one_mul, add_assoc]
  have nodes := run.nodes
  have alloc := run.evolves.alloc
  have middleIndex := run.index
  have middleNb := run.nb
  rw [next] at cheap
  have middleRoom : Room middle.d
    (edges level (base + (i + 1) * span level) (base + span (level + 1)) middle) := by
    obtain ⟨inAlloc, inAll⟩ := room
    exact ⟨by omega, by omega⟩
  have middleStands := (run.evolves.stays node allocated).trans stands
  have middleUnset : ∀ page, middle.index ≤ page → page < middle.index + middle.nb → page < base +
      span (level + 1) → nodeValue middle.d level node page = physSectionUnassigned := by
    intro page first inRun high
    obtain ⟨entryStart, at_, entryLow, entryHigh⟩ := slotAt_below placed allocated stands (by omega) high
    have same := pageValue_evolves placed run.evolves at_ entryLow entryHigh (by omega)
    rw [read] at same
    rw [nodeValue, same]
    exact unset page (by omega) (by omega) high
  have middleEntry : middle.nb ≠ 0 → base + (i + 1) * span level ≤ middle.index ∧
      (k ≠ 0 → middle.index < base + (i + 1) * span level + span level) := by
    intro left
    exact ⟨by omega, fun _ => by omega⟩
  obtain ⟨c', pos', rest, others⟩ :=
    ih (by omega) run.placed (allocated.trans_le run.evolves.grows) middleStands
    (by omega) middleEntry middleUnset middleRoom
  refine ⟨c', pos', ?_, ?_⟩
  · by_cases whole : c.index % span level = 0 ∧ c.nb ≥ span level
    · rw [if_pos whole] at done ⊢
      rw [done]
      exact rest
    · rw [if_neg whole] at done ⊢
      rw [done]
      exact rest
  · have both := SetsNode.of_entry placed allocated stands index rfl lower upper run values others
    have total := both.run.nodes
    exact ⟨⟨both.run.placed, both.run.evolves, both.run.index, both.run.nb, by omega⟩, both.values,
      both.above⟩

end Entries

/-- What an entry that is not set as a whole is left to. -/
def descendOf (leaf : Nat) : Nat → Slot → Cursor → Except Assertion Cursor
  | 0 => fun _ c => .ok c
  | level + 1 => physPageSetLevel leaf level

theorem physPageSetLevel_eq (leaf level : Nat) (slot : Slot) (c : Cursor) :
    physPageSetLevel leaf level slot c = (nodeBelow (decide (level = 0)) slot c.d >>= fun result =>
      setEntries leaf (span level) result.2 (descendOf leaf level)
        (512 - c.index / span level % 512) { c with d := result.1 }) := by
  cases level with
  | zero =>
    rw [span_zero, Nat.div_one]
    rfl
  | succ level => rfl

section Levels

variable {levels leaf : Nat}

section

variable (assigned : leaf ≠ physSectionUnassigned) (small : span levels ≤ 2 ^ 63)
include assigned small

theorem physPageSetLevel_spec {level : Nat}
    (descends : Descends levels leaf level (descendOf leaf level)) {slot : Slot} {base : Nat}
    {c : Cursor} {pos : Nat → Position} (placed : Placed levels c.d pos)
    (here : SlotAt levels c.d pos (level + 1) base slot)
    (lower : base ≤ c.index) (upper : c.index < base + span (level + 1)) (some : c.nb ≠ 0)
    (unset : Unset (level + 1) base slot c)
    (room : Room c.d (1 + edges level base (base + span (level + 1)) c)) :
    ∃ c' pos', physPageSetLevel leaf level slot c = .ok c' ∧
      SetsRun levels pos c c' pos' base (base + span (level + 1))
      (1 + edges level base (base + span (level + 1)) c) ∧
      ∀ page, base ≤ page → page < base + span (level + 1) →
      pageValue c'.d (level + 1) (c'.d.read slot) page =
        if c.index ≤ page ∧ page < c'.index then leaf
        else pageValue c.d (level + 1) (c.d.read slot) page := by
  have aligned := (slot_bounds placed here).1
  obtain ⟨inAlloc, inAll⟩ := room
  have first := unset c.index le_rfl (by omega) upper
  obtain ⟨d, middlePos, node, found, below⟩ := nodeBelow_spec placed here first (by omega) (by omega)
  obtain ⟨digitLow, digitHigh⟩ := digit_bounds aligned lower upper
  -- the run begins in the entry with its digit, which is the first one if the run begins with the node
  have cheap : edges level (base + c.index / span level % 512 * span level)
      (base + span (level + 1)) { c with d } ≤ edges level base (base + span (level + 1)) c := by
    simp only [edges]
    split_ifs <;> omega
  have nodes := below.nodes
  have alloc := below.evolves.alloc
  have nodeRoom : Room d (edges level (base + c.index / span level % 512 * span level)
    (base + span (level + 1)) { c with d }) :=
    ⟨by omega, by omega⟩
  have nodeUnset : ∀ page, c.index ≤ page → page < c.index + c.nb → page < base + span (level + 1) →
      nodeValue d level node page = physSectionUnassigned := by
    intro page from_ inRun high
    rw [nodeValue, below.values page (by omega) high]
    exact unset page from_ inRun high
  obtain ⟨c', pos', done, sets⟩ := @setEntries_spec levels leaf level node base _ descends assigned small
    (512 - c.index / span level % 512) (c.index / span level % 512) { c with d } middlePos
    (by omega) below.placed
    below.allocated below.stands upper.le (fun _ => ⟨digitLow, fun _ => by dsimp only; omega⟩)
      nodeUnset nodeRoom
  refine ⟨c', pos', ?_, ?_, fun page low high => ?_⟩
  · rw [physPageSetLevel_eq, found, Checked.ok_bind]
    exact done
  · have total : c'.d.nodesNb ≤ d.nodesNb + _ := sets.run.nodes
    exact ⟨sets.run.placed, below.evolves.trans sets.run.evolves, sets.run.index, sets.run.nb, by omega⟩
  have there := here.evolves below.evolves.grows below.evolves.stays
  have leads := (sets.above slot (level + 1) base there (lt_succ_self _)).trans below.leads
  have some : node ≠ physMapNodeNil := (below.allocated.trans_le below.placed.few).ne
  have value : nodeValue c'.d level node page = _ := sets.values page low high
  have before : nodeValue d level node page = _ := below.values page low high
  rw [before] at value
  rw [leads, pageValue, if_neg some]
  exact value

theorem descends_of (level : Nat) :
    Descends levels leaf level (descendOf leaf level) := by
  induction level with
  | zero =>
    intro slot base c pos _ _ _ _ some partly
    exact absurd ⟨mod_one _, pos_of_ne_zero some⟩ partly
  | succ level ih =>
    intro slot base c pos placed here lower upper some _ unset room
    exact physPageSetLevel_spec assigned small ih placed here lower upper some unset room

end

end Levels

section Table

variable {t : Target} {d : AddressSpaceDispatch} {pos : Nat → Position}

theorem levels_pos (t : Target) : 0 < t.levels := succ_pos _

theorem span_levels_le (t : Target) : span t.levels ≤ 2 ^ 63 := by
  have small := t.pageBits_pos
  refine Nat.pow_le_pow_right (by decide) ?_
  rw [Target.levels]
  omega

/-- The tree is high enough for all pages. -/
theorem pages_le_span (t : Target) : 2 ^ (64 - t.pageBits) ≤ span t.levels := by
  refine Nat.pow_le_pow_right (by decide) ?_
  rw [Target.levels]
  omega

/-- The section that a page is mapped to. -/
def pageSection (t : Target) (d : AddressSpaceDispatch) (page : Nat) : Nat :=
  pageValue d t.levels d.physMap page

/-- The tree stays as it is. -/
structure SameTree (d d' : AddressSpaceDispatch) : Prop where
  physMap : d'.physMap = d.physMap
  nodes : d'.nodes = d.nodes
  nodesNb : d'.nodesNb = d.nodesNb

section

variable (n : Nat) (d : AddressSpaceDispatch)

theorem physMapNodeReserve_sameTree : SameTree d (d.physMapNodeReserve n) := by
  rw [physMapNodeReserve]
  split
  · exact ⟨rfl, rfl, rfl⟩
  · exact ⟨rfl, rfl, rfl⟩

theorem physMapNodeReserve_sections :
    (d.physMapNodeReserve n).sections = d.sections ∧ (d.physMapNodeReserve n).subpages = d.subpages := by
  rw [physMapNodeReserve]
  split
  · exact ⟨rfl, rfl⟩
  · exact ⟨rfl, rfl⟩

theorem physMapNodeReserve_room :
    d.nodesNb + n ≤ (d.physMapNodeReserve n).nodesNbAlloc := by
  rw [physMapNodeReserve]
  split
  · exact le_max_right ..
  · omega

end

variable {d' : AddressSpaceDispatch}

theorem SameTree.pageValue_eq (same : SameTree d d') (height : Nat) (e : PhysPageEntry)
    (page : Nat) : pageValue d' height e page = pageValue d height e page := by
  induction height generalizing e with
  | zero => rfl
  | succ level ih => rw [pageValue, pageValue, same.nodes, ih]

theorem SameTree.pageSection_eq (same : SameTree d d') (page : Nat) :
    pageSection t d' page = pageSection t d page := by
  rw [pageSection, pageSection, same.physMap, same.pageValue_eq]

theorem SameTree.placed (same : SameTree d d') (placed : Placed levels d pos) : Placed levels d' pos := by
  have nodesNb := same.nodesNb
  have entry : ∀ slot, d'.read slot = d.read slot := by
    intro slot
    cases slot with
    | root => exact same.physMap
    | entry node index => exact congrFun (congrFun same.nodes node) index
  refine ⟨fun slot height base here => ?_, ?_, ?_, ?_⟩
  · rw [entry, nodesNb]
    exact placed.entries slot height base (here.evolves nodesNb.le fun _ _ => rfl)
  · rw [nodesNb]
    exact placed.aligned
  · rw [nodesNb]
    exact placed.inside
  · rw [nodesNb]
    exact placed.few

/-- What `phys_page_set` does to pages that are not assigned. -/
structure PageSet (t : Target) (d : AddressSpaceDispatch) (index nb leaf : Nat)
    (d' : AddressSpaceDispatch) : Prop where
  placed : ∃ pos, Placed t.levels d' pos
  nodes : d'.nodesNb ≤ d.nodesNb + 3 * t.levels
  sections : d'.sections = d.sections
  subpages : d'.subpages = d.subpages
  value : ∀ page < span t.levels, pageSection t d' page =
    if index ≤ page ∧ page < index + nb then leaf else pageSection t d page

theorem physPageSet_spec {index nb leaf : Nat} (assigned : leaf ≠ physSectionUnassigned)
    (placed : Placed t.levels d pos)
    (some : nb ≠ 0) (inside : index + nb ≤ span t.levels)
    (few : d.nodesNb + 3 * t.levels ≤ physMapNodeNil)
    (unset : ∀ page, index ≤ page → page < index + nb → pageSection t d page = physSectionUnassigned) :
    ∃ d', d.physPageSet t index nb leaf = .ok d' ∧ PageSet t d index nb leaf d' := by
  have reserved := physMapNodeReserve_sameTree (3 * t.levels) d
  obtain ⟨sections, subpages⟩ := physMapNodeReserve_sections (3 * t.levels) d
  have room := physMapNodeReserve_room (3 * t.levels) d
  have nodesNb := reserved.nodesNb
  have height : t.levels - 1 + 1 = t.levels := Nat.sub_add_cancel (levels_pos t)
  have same : ∀ page, pageValue (d.physMapNodeReserve (3 * t.levels)) t.levels
      ((d.physMapNodeReserve (3 * t.levels)).read .root) page = pageSection t d page := by
    intro page
    rw [reserved.pageValue_eq, read, reserved.physMap, pageSection]
  have cheap : 1 + edges (t.levels - 1) 0 (0 + span t.levels)
      ⟨d.physMapNodeReserve (3 * t.levels), index, nb⟩ ≤ 3 * t.levels := by
    simp only [edges]
    split_ifs <;> omega
  obtain ⟨c, pos', done, run, values⟩ :=
    @physPageSetLevel_spec t.levels leaf assigned (span_levels_le t) (t.levels - 1)
    (descends_of assigned (span_levels_le t) _) .root 0 ⟨d.physMapNodeReserve (3 * t.levels), index,
      nb⟩ pos
    (reserved.placed placed) ⟨height, rfl⟩ (Nat.zero_le _) (by rw [height]; dsimp only; omega) some
    (fun page from_ inRun _ => by rw [height, same]; exact unset page from_ inRun)
    ⟨by rw [height]; dsimp only; omega, by rw [height]; dsimp only; omega⟩
  rw [height] at run values
  have nodes := run.nodes
  have index' := run.index
  dsimp only at nodes index'
  refine ⟨c.d, ?_, ⟨pos', run.placed⟩, by omega, run.evolves.sections.trans sections,
    run.evolves.subpages.trans subpages, fun page small => ?_⟩
  · rw [physPageSet, done]
    rfl
  · have value := values page (Nat.zero_le _) (by omega)
    rw [same, read] at value
    rw [pageSection, value, show c.index = index + nb by omega]

/-- The walk finds what a page is mapped to. -/
theorem walk_getD {levels : Nat} (placed : Placed levels d pos) {slot : Slot}
    {height base page fuel : Nat}
    (here : SlotAt levels d pos height base slot) (lower : base ≤ page)
    (upper : page < base + span height) (enough : height < fuel) :
    (d.walk page fuel height (d.read slot)).getD physSectionUnassigned = pageValue d height
    (d.read slot) page := by
  induction height generalizing fuel slot base with
  | zero =>
    obtain ⟨fuel, rfl⟩ := exists_eq_succ_of_ne_zero (ne_of_gt enough)
    have ok := placed.entries slot 0 base here
    cases entry : d.read slot with
    | mk skip ptr =>
      rw [entry] at ok
      cases ok with
      | leaf => rfl
  | succ height ih =>
    obtain ⟨fuel, rfl⟩ := exists_eq_succ_of_ne_zero (ne_of_gt (zero_lt_of_lt enough))
    have ok := placed.entries slot (height + 1) base here
    cases entry : d.read slot with
    | mk skip ptr =>
      rw [entry] at ok
      cases ok with
      | leaf => rfl
      | missing =>
        rfl
      | node allocated below => ?_
      have few := placed.few
      have some : ptr ≠ physMapNodeNil := by omega
      obtain ⟨start, next, first, last⟩ := slotAt_below placed allocated below lower upper
      rw [walk, if_neg some, pageValue, if_neg some]
      exact ih next first last (lt_of_succ_lt_succ enough)

end Table

end Qemu.Memory.AddressSpaceDispatch
