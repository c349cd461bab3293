import Qemu.Memory.PhysMapSet

/-! Compaction: an entry that skips levels leads pages astray that have nothing, to a section of
some other page, and finds the section of every page that has one. -/

namespace Qemu.Memory.AddressSpaceDispatch

open Nat

variable {levels : Nat} {d d₁ d₂ : AddressSpaceDispatch} {pos : Nat → Position}

theorem walk_missing (page fuel level : Nat) :
    d.walk page (fuel + 1) (level + 1) ⟨1, physMapNodeNil⟩ = none := by
  rw [walk, if_neg (by simp), if_pos rfl]

theorem walk_node (page fuel level skip : Nat) {ptr : Nat} (some : ptr ≠ physMapNodeNil) :
    d.walk page (fuel + 1) (level + (skip + 1)) ⟨skip + 1, ptr⟩ =
      d.walk page fuel level (d.nodes ptr (page / span level % 512)) := by
  rw [walk, if_neg (by dsimp only; omega), if_neg some]
  rw [Nat.add_sub_cancel]
  rfl

variable {height : Nat}

/-- A walk depends on the digits below its level only. -/
theorem walk_congr_mod (same : page % span height = page' % span height)
    (e : PhysPageEntry) : d.walk page fuel height e = d.walk page' fuel height e := by
  induction fuel generalizing height e with
  | zero => rfl
  | succ fuel ih => ?_
  rw [walk, walk]
  by_cases stop : e.skip = 0 ∨ height < e.skip
  · rw [if_pos stop, if_pos stop]
  have above : height - e.skip + 1 ≤ height := by omega
  have divides : span (height - e.skip + 1) ∣ span height := pow_dvd_pow 2 (mul_le_mul_right 9 above)
  have below : page % span (height - e.skip + 1) = page' % span (height - e.skip + 1) := by
    rw [← mod_mod_of_dvd page divides, same, mod_mod_of_dvd page' divides]
  have digit : page / span (height - e.skip) % 512 = page' / span (height - e.skip) % 512 := by
    rw [span_succ] at below
    rw [← mod_mul_right_div_self, ← mod_mul_right_div_self, below]
  have lower : page % span (height - e.skip) = page' % span (height - e.skip) := by
    have divides : span (height - e.skip) ∣ span (height - e.skip + 1) := Dvd.intro _ (span_succ _).symm
    rw [← mod_mod_of_dvd page divides, below, mod_mod_of_dvd page' divides]
  have sameEntry : d.nodes e.ptr (page / 2 ^ ((height - e.skip) * 9) % 512) =
      d.nodes e.ptr (page' / 2 ^ ((height - e.skip) * 9) % 512) := congrArg (d.nodes e.ptr) digit
  rw [sameEntry, ih lower]

/-- An entry of a compacted table: a leaf, a missing node, or a node some levels below that stands
in the range of the entry. -/
inductive Leads (nodesNb : Nat) (pos : Nat → Position) (d : AddressSpaceDispatch) :
    Nat → Nat → PhysPageEntry → Prop
  | leaf {height base ptr : Nat} : Leads nodesNb pos d height base ⟨0, ptr⟩
  | missing {level base : Nat} : Leads nodesNb pos d (level + 1) base ⟨1, physMapNodeNil⟩
  | node {level skip base ptr : Nat} (allocated : ptr < nodesNb) (some : ptr ≠ physMapNodeNil)
      (stands : (pos ptr).level = level) (after : base ≤ (pos ptr).base)
      (before : (pos ptr).base + span (level + 1) ≤ base + span (level + (skip + 1)))
      (children : ∀ i < 512, Leads nodesNb pos d level ((pos ptr).base + i * span level)
        (d.nodes ptr i)) :
      Leads nodesNb pos d (level + (skip + 1)) base ⟨skip + 1, ptr⟩

/-- Two tables with the same entries below an entry. -/
def AgreeBelow (levels : Nat) (d : AddressSpaceDispatch) (pos : Nat → Position) (height base : Nat)
    (d₁ d₂ : AddressSpaceDispatch) : Prop :=
  ∀ slot height' base', SlotAt levels d pos height' base' slot → base ≤ base' →
    base' + span height' ≤ base + span height → height' < height → d₂.read slot = d₁.read slot

variable {base : Nat}

/-- They have the same entries in a node below it, and below those. -/
theorem AgreeBelow.child (agree : AgreeBelow levels d pos (level + (skip + 1)) base d₁ d₂)
    (allocated : ptr < d.nodesNb) (stands : (pos ptr).level = level) (after : base ≤ (pos ptr).base)
    (before : (pos ptr).base + span (level + 1) ≤ base + span (level + (skip + 1)))
    (small : i < 512) : d₂.nodes ptr i = d₁.nodes ptr i ∧
    AgreeBelow levels d pos level ((pos ptr).base + i * span level) d₁ d₂ := by
  have inside := @entry_inside level i small
  have here : SlotAt levels d pos level ((pos ptr).base + i * span level) (.entry ptr i) :=
    ⟨allocated, small, stands, rfl⟩
  exact ⟨agree _ _ _ here (by omega) (by omega) (by omega), fun slot height' base' there low high less =>
    agree slot height' base' there (by omega) (by omega) (by omega)⟩

theorem Leads.agree (leads : Leads d.nodesNb pos d₁ height base e)
    (agree : AgreeBelow levels d pos height base d₁ d₂) : Leads d.nodesNb pos d₂ height base e := by
  induction leads with
  | leaf => exact .leaf
  | missing => exact .missing
  | node allocated some stands after before _ ih =>
    refine .node allocated some stands after before fun i small => ?_
    obtain ⟨same, below⟩ := agree.child allocated stands after before small
    rw [same]
    exact ih i small below

/-- The walk under an entry, in a table with the same entries there. -/
theorem Leads.walk_agree
    (leads : Leads d.nodesNb pos d₁ height base e) (agree : AgreeBelow levels d pos height base d₁ d₂)
    (enough : height < fuel) (enough' : height < fuel') :
    d₂.walk page fuel height e = d₁.walk page fuel' height e := by
  obtain ⟨fuel, rfl⟩ := exists_eq_succ_of_ne_zero (ne_of_gt (zero_lt_of_lt enough))
  obtain ⟨fuel', rfl⟩ := exists_eq_succ_of_ne_zero (ne_of_gt (zero_lt_of_lt enough'))
  induction leads generalizing fuel fuel' with
  | leaf => rfl
  | missing => rw [walk_missing, walk_missing]
  | @node level skip base ptr allocated some stands after before children ih => ?_
  rw [walk_node _ _ _ _ some, walk_node _ _ _ _ some]
  have digit := mod_lt (page / span level) (show 0 < 512 by decide)
  obtain ⟨same, below⟩ := agree.child allocated stands after before digit
  obtain ⟨fuel, rfl⟩ := exists_eq_succ_of_ne_zero (show fuel ≠ 0 by omega)
  obtain ⟨fuel', rfl⟩ := exists_eq_succ_of_ne_zero (show fuel' ≠ 0 by omega)
  rw [same]
  exact ih _ digit below fuel (by omega) fuel' (by omega)

/-- The walk finds the section of a page, or for a page without one the section of another page. -/
def Finds (d d₁ : AddressSpaceDispatch) (height base : Nat) (slot : Slot) : Prop :=
  ∀ page, base ≤ page → page < base + span height → ∃ other, base ≤ other ∧ other < base + span height ∧
    (d₁.walk page (height + 1) height (d₁.read slot)).getD physSectionUnassigned =
    pageValue d height (d.read slot) other ∧
    (other = page ∨ pageValue d height (d.read slot) page = physSectionUnassigned)

/-- A slot is compacted: `d` is the table before. -/
structure Compacted (d : AddressSpaceDispatch) (pos : Nat → Position) (d₁ : AddressSpaceDispatch)
    (height base : Nat) (slot : Slot) : Prop where
  leads : Leads d.nodesNb pos d₁ height base (d₁.read slot)
  finds : Finds d d₁ height base slot
  kept : (d.read slot).ptr ≠ physMapNodeNil → (d₁.read slot).ptr ≠ physMapNodeNil

theorem Compacted.agree (compacted : Compacted d pos d₁ height base slot)
    (agree : AgreeBelow levels d pos height base d₁ d₂) (same : d₂.read slot = d₁.read slot) :
    Compacted d pos d₂ height base slot := by
  refine ⟨?_, fun page low high => ?_, same ▸ compacted.kept⟩
  · rw [same]
    exact compacted.leads.agree agree
  · rw [same, compacted.leads.walk_agree agree (lt_succ_self _) (lt_succ_self _)]
    exact compacted.finds page low high

/-- What compaction may touch: slots under the given one, and itself. -/
structure Touches (levels : Nat) (d : AddressSpaceDispatch) (pos : Nat → Position)
    (height base : Nat) (d₁ d₂ : AddressSpaceDispatch) : Prop where
  sections : d₂.sections = d₁.sections
  subpages : d₂.subpages = d₁.subpages
  entries : ∀ slot height' base', SlotAt levels d pos height' base' slot →
    ¬ (base ≤ base' ∧ base' + span height' ≤ base + span height) → d₂.read slot = d₁.read slot

theorem Touches.refl : Touches levels d pos height base d₁ d₁ := ⟨rfl, rfl, fun _ _ _ _ _ => rfl⟩

theorem Touches.trans (first : Touches levels d pos height base d₁ d₂)
    (second : Touches levels d pos height base d₂ d₃) : Touches levels d pos height base d₁ d₃ :=
  ⟨second.sections.trans first.sections, second.subpages.trans first.subpages,
    fun slot height' base' here outside =>
    (second.entries slot height' base' here outside).trans
      (first.entries slot height' base' here outside)⟩

theorem Touches.mono (touches : Touches levels d pos height base d₁ d₂)
    (lower : base' ≤ base) (upper : base + span height ≤ base' + span height') :
    Touches levels d pos height' base' d₁ d₂ :=
  ⟨touches.sections, touches.subpages, fun slot height'' base'' here outside =>
    touches.entries slot height'' base'' here fun inside => outside ⟨by omega, by omega⟩⟩

/-- How many of the first entries of a node are in use, and which one if it is a single one. -/
inductive Counted (used : Nat → Prop) (i : Nat) : Nat → Nat → Prop
  | none {last : Nat} (nothing : ∀ j < i, ¬ used j) : Counted used i 0 last
  | one {last : Nat} (within : last < i) (it : used last) (only : ∀ j < i, j ≠ last → ¬ used j) :
    Counted used i 1 last
  | many {valid last : Nat} : Counted used i (valid + 2) last

theorem Counted.skip (counted : Counted used i valid last) (unused : ¬ used i) :
    Counted used (i + 1) valid last := by
  cases counted with
  | none nothing =>
    refine .none fun j less => ?_
    rcases Nat.lt_succ_iff_lt_or_eq.mp less with before | rfl
    · exact nothing j before
    · exact unused
  | one within it only =>
    refine .one (lt_succ_of_lt within) it fun j less other => ?_
    rcases Nat.lt_succ_iff_lt_or_eq.mp less with before | rfl
    · exact only j before other
    · exact unused
  | many => exact .many

theorem Counted.take (counted : Counted used i valid last) (here : used i) :
    Counted used (i + 1) (valid + 1) i := by
  cases counted with
  | none nothing =>
    refine .one (lt_succ_self i) here fun j less other => ?_
    exact nothing j (by omega)
  | one => exact .many
  | many => exact .many

section Node

variable {level node base : Nat}

/-- The loop over the entries of a node, before entry `i`. -/
structure LoopAt (levels : Nat) (d : AddressSpaceDispatch) (pos : Nat → Position) (level node base : Nat)
    (d₀ : AddressSpaceDispatch) (i : Nat) (d₁ : AddressSpaceDispatch) : Prop where
  done : ∀ j < i, Compacted d pos d₁ level (base + j * span level) (.entry node j)
  intact : ∀ slot height' base', SlotAt levels d pos height' base' slot → base + i * span level ≤ base' →
    base' + span height' ≤ base + span (level + 1) → height' ≤ level → d₁.read slot = d.read slot
  touches : Touches levels d pos (level + 1) base d₀ d₁
  above : ∀ slot height' base', SlotAt levels d pos height' base' slot → level < height' →
    d₁.read slot = d₀.read slot

/-- One entry was compacted. -/
theorem LoopAt.step (loop : LoopAt levels d pos level node base d₀ i d₁)
    (allocated : node < d.nodesNb) (stands : pos node = ⟨level, base⟩) (small : i < 512)
    (touches : Touches levels d pos level (base + i * span level) d₁ d₂)
    (compacted : Compacted d pos d₂ level (base + i * span level) (.entry node i)) :
    LoopAt levels d pos level node base d₀ (i + 1) d₂ := by
  have inside := @entry_inside level i small
  have next := Nat.add_one_mul i (span level)
  have pos' := span_pos level
  refine ⟨fun j less => ?_, fun slot height' base' here low high below => ?_,
    loop.touches.trans (touches.mono (by omega) (by omega)), fun slot height' base' here higher => ?_⟩
  · rcases Nat.lt_succ_iff_lt_or_eq.mp less with before | rfl
    · have apart : (j + 1) * span level ≤ i * span level := Nat.mul_le_mul_right _ before
      rw [Nat.add_mul] at apart
      have slotHere := @slotAt_entry levels d pos base node level j allocated stands (by omega)
      have agree : AgreeBelow levels d pos level (base + j * span level) d₁ d₂ := by
        intro slot height' base' here low high _
        have some := span_pos height'
        exact touches.entries slot height' base' here (by omega)
      exact (loop.done j before).agree agree (touches.entries _ _ _ slotHere (by omega))
    · exact compacted
  · have some := span_pos height'
    rw [touches.entries slot height' base' here (by omega)]
    exact loop.intact slot height' base' here (by omega) high below
  · have wider := span_lt higher
    rw [touches.entries slot height' base' here (by omega)]
    exact loop.above slot height' base' here higher

variable {height : Nat} {slot : Slot}

/-- A leaf or a missing node is compacted as it is. -/
theorem Compacted.of_leaf (before : d.read slot = ⟨0, ptr⟩) (now : d₁.read slot = ⟨0, ptr⟩) :
    Compacted d pos d₁ height base slot := by
  have value : ∀ page, pageValue d height (d.read slot) page = ptr := by
    intro page
    rw [before]
    cases height with
    | zero => rfl
    | succ level => exact if_pos rfl
  refine ⟨now ▸ .leaf, fun page low high => ⟨page, low, high, ?_, .inl rfl⟩, ?_⟩
  · rw [now, ← value]
    rfl
  · rw [before, now]
    exact id

theorem Compacted.of_missing (before : d.read slot = ⟨1, physMapNodeNil⟩)
    (now : d₁.read slot = ⟨1, physMapNodeNil⟩) : Compacted d pos d₁ (level + 1) base slot := by
  refine ⟨now ▸ .missing, fun page low high => ⟨page, low, high, ?_, .inl rfl⟩, ?_⟩
  · rw [now, before, walk_missing, Option.getD_none, pageValue, if_neg one_ne_zero, if_pos rfl]
  · rw [before, now]
    exact id

/-- What compacting the slot of a node below does. -/
def CompactsBelow (levels : Nat) (d : AddressSpaceDispatch) (pos : Nat → Position) (height : Nat)
    (compact : Slot → AddressSpaceDispatch → AddressSpaceDispatch) : Prop :=
  ∀ {slot base d₁}, SlotAt levels d pos height base slot → (d.read slot).skip ≠ 0 →
    (∀ page, base ≤ page → page < base + span height →
    pageValue d height (d.read slot) page ≠ physMapNodeNil) →
    (∀ slot' height' base', SlotAt levels d pos height' base' slot' → base ≤ base' →
      base' + span height' ≤ base + span height → height' ≤ height → d₁.read slot' = d.read slot') →
    Touches levels d pos height base d₁ (compact slot d₁) ∧
      Compacted d pos (compact slot d₁) height base slot

theorem compactEntries_spec (placed : Placed levels d pos)
    (allocated : node < d.nodesNb) (stands : pos node = ⟨level, base⟩)
    (small : ∀ page, base ≤ page → page < base + span (level + 1) →
    nodeValue d level node page ≠ physMapNodeNil)
    (below : CompactsBelow levels d pos level compact) (k : Nat)
    (total : i + k = 512) (loop : LoopAt levels d pos level node base d₀ i d₁)
    (counted : Counted (fun j => (d.nodes node j).ptr ≠ physMapNodeNil) i valid last) :
    ∃ d₂ valid' last', compactEntries compact node k valid last d₁ = (d₂, valid', last') ∧
      LoopAt levels d pos level node base d₀ 512 d₂ ∧
      Counted (fun j => (d.nodes node j).ptr ≠ physMapNodeNil) 512 valid' last' := by
  induction k generalizing i valid last d₁ with
  | zero =>
    obtain rfl : i = 512 := by omega
    exact ⟨d₁, valid, last, rfl, loop, counted⟩
  | succ k ih => ?_
  have index : i < 512 := by omega
  have inside := @entry_inside level i index
  have spanPos := span_pos level
  have here := @slotAt_entry levels d pos base node level i allocated stands index
  have same : d₁.nodes node i = d.nodes node i := loop.intact _ _ _ here le_rfl (by omega) le_rfl
  have value : ∀ page, base + i * span level ≤ page → page < base + i * span level + span level →
      pageValue d level (d.nodes node i) page ≠ physMapNodeNil := by
    intro page low high
    have digit := digit_eq (placed.aligned_of allocated stands) index low high
    have some := small page (by omega) (by omega)
    rwa [nodeValue, digit] at some
  have nothing : Touches levels d pos level (base + i * span level) d₁ d₁ := .refl
  rw [compactEntries, show 512 - (k + 1) = i by omega]
  rw [same]
  have ok := placed.entries _ _ _ here
  rw [read] at ok
  cases entry : d.nodes node i with
  | mk skip ptr =>
    rw [entry] at ok
    cases ok with
    | leaf =>
      have used : ptr ≠ physMapNodeNil := by
        have first := value (base + i * span level) le_rfl (by omega)
        rw [entry] at first
        cases level with
        | zero => exact first
        | succ level => exact first
      rw [if_neg used]
      refine ih (by omega) (loop.step allocated stands index nothing (.of_leaf entry (same.trans entry)))
        (counted.take ?_)
      rw [entry]
      exact used
    | missing =>
      refine ih (by omega) (loop.step allocated stands index nothing
        (.of_missing entry (same.trans entry))) (counted.skip ?_)
      rw [entry]
      exact not_not.mpr rfl
    | node isNode stands' =>
      have few := placed.few
      have used : ptr ≠ physMapNodeNil := by omega
      rw [if_neg used]
      obtain ⟨touches, compacted⟩ := @below _ _ d₁ here (by rw [read, entry]; exact one_ne_zero) value
        fun slot height' base' there low high less => loop.intact slot height' base' there low
        (by omega) less
      refine ih (by omega) (loop.step allocated stands index touches compacted) (counted.take ?_)
      rw [entry]
      exact used

/-- The value of a page under a node's entry. -/
theorem pageValue_node (some : ptr ≠ physMapNodeNil) (page : Nat) :
    pageValue d (level + 1) ⟨1, ptr⟩ page = nodeValue d level ptr page := by
  rw [pageValue, if_neg some]
  rfl

/-- A node with several children, or none, keeps its place. -/
theorem Compacted.of_node (few : node ≠ physMapNodeNil) (allocated : node < d.nodesNb)
    (stands : pos node = ⟨level, base⟩) (aligned : span (level + 1) ∣ base)
    (before : d.read slot = ⟨1, node⟩) (now : d₁.read slot = ⟨1, node⟩)
    (done : ∀ j < 512, Compacted d pos d₁ level (base + j * span level) (.entry node j)) :
    Compacted d pos d₁ (level + 1) base slot := by
  refine ⟨?_, fun page low high => ?_, ?_⟩
  · have leads : Leads d.nodesNb pos d₁ (level + (0 + 1)) base ⟨0 + 1, node⟩ := by
      refine .node allocated few ?_ ?_ ?_ ?_
      all_goals rw [stands]
      intro j less
      exact (done j less).leads
    rw [now]
    exact leads
  · obtain ⟨first, last⟩ := digit_bounds aligned low high
    have digit := mod_lt (page / span level) (show 0 < 512 by decide)
    obtain ⟨other, lower, upper, value, same⟩ := (done _ digit).finds page first last
    have inside := @entry_inside level _ digit
    have otherDigit := digit_eq aligned digit lower upper
    refine ⟨other, by omega, by omega, ?_, ?_⟩
    · have step : d₁.walk page (level + 1 + 1) (level + 1) ⟨1, node⟩ =
          d₁.walk page (level + 1) level (d₁.nodes node (page / span level % 512)) :=
            walk_node page (level + 1) level 0 few
      rw [now, step, before, pageValue_node few, nodeValue, otherDigit]
      exact value
    · rw [before, pageValue_node few]
      exact same
  · rw [before, now]
    exact id

/-- The page with the lower digits of `page` under a slot. -/
theorem exists_mod_eq (aligned : span height ∣ start) (page : Nat) :
    ∃ page', start ≤ page' ∧ page' < start + span height ∧ page' % span height =
      page % span height ∧ (start ≤ page → page < start + span height → page' = page) := by
  obtain ⟨q, rfl⟩ := aligned
  have small := mod_lt page (span_pos height)
  refine ⟨span height * q + page % span height, le_add_right _ _, by omega, ?_, fun low high => ?_⟩
  · rw [mul_add_mod, mod_mod]
  · have quotient : page / span height = q :=
      Nat.div_eq_of_lt_le (by rw [Nat.mul_comm]; exact low) (by rw [Nat.mul_comm]; exact high)
    rw [← quotient]
    exact div_add_mod page (span height)

/-- The entry of the only child of a node in the place of the node's. -/
def lifted (child : PhysPageEntry) : PhysPageEntry :=
  ⟨if child.skip = 0 then 0 else 1 + child.skip, child.ptr⟩

/-- A node with one child hands its place to the child. -/
theorem Compacted.of_single (few : node ≠ physMapNodeNil)
    (stands : pos node = ⟨level, base⟩) (aligned : span (level + 1) ∣ base)
    (here : SlotAt levels d pos (level + 1) base slot) (before : d.read slot = ⟨1, node⟩)
    (index : k < 512) (used : (d.nodes node k).ptr ≠ physMapNodeNil)
    (only : ∀ j < 512, j ≠ k → ∀ page, pageValue d level (d.nodes node j) page = physSectionUnassigned)
    (done : Compacted d pos d₁ level (base + k * span level) (.entry node k)) :
    Compacted d pos (d₁.write (lifted (d₁.nodes node k)) slot) (level + 1) base slot := by
  have inside := @entry_inside level k index
  have agree : ∀ e, AgreeBelow levels d pos (level + 1) base d₁ (d₁.write e slot) := by
    intro e slot' height' base' there _ _ less
    refine read_write_of_ne fun same => ?_
    subst same
    have := (here.unique there).1
    omega
  have childAligned : span level ∣ base + k * span level :=
    dvd_add ((Dvd.intro _ (span_succ level).symm).trans aligned) (Dvd.intro_left _ rfl)
  -- it is enough that the walk does what the walk from the child does
  suffices walks : Leads d.nodesNb pos d₁ (level + 1) base (lifted (d₁.nodes node k)) ∧
      ∀ page, d₁.walk page (level + 2) (level + 1) (lifted (d₁.nodes node k)) =
        d₁.walk page (level + 1) level (d₁.nodes node k) by
    obtain ⟨leads, walks⟩ := walks
    refine ⟨?_, fun page low high => ?_, ?_⟩
    · rw [read_write_self]
      exact leads.agree (agree _)
    · obtain ⟨page', low', high', same, itself⟩ := exists_mod_eq childAligned page
      obtain ⟨other, lower, upper, value, found⟩ := done.finds page' low' high'
      have otherDigit := digit_eq aligned index lower upper
      refine ⟨other, by omega, by omega, ?_, ?_⟩
      · rw [read_write_self, leads.walk_agree (agree _) (lt_succ_self _) (lt_succ_self _), walks,
          walk_congr_mod same.symm, before, pageValue_node few, nodeValue, otherDigit]
        exact value
      rw [before, pageValue_node few, nodeValue]
      by_cases digit : page / span level % 512 = k
      · obtain ⟨first, last⟩ := digit_bounds aligned low high
        rw [digit] at first last ⊢
        rw [itself first last] at found
        exact found
      · exact .inr (only _ (mod_lt _ (by decide)) digit page)
    · intro _
      rw [read_write_self]
      exact done.kept used
  have leads := done.leads
  have kept := done.kept used
  rw [read] at leads kept
  cases entry : d₁.nodes node k with
  | mk skip ptr =>
    rw [entry] at leads kept
    cases leads with
    | leaf => exact ⟨.leaf, fun page => rfl⟩
    | missing => exact absurd rfl kept
    | @node level' skip base' ptr allocated' some stands' after before' children => ?_
    have taller : lifted ⟨skip + 1, ptr⟩ = ⟨skip + 1 + 1, ptr⟩ := by
      rw [lifted, if_neg (succ_ne_zero _), add_comm 1]
    rw [taller]
    have room : base + span (level' + (skip + 1) + 1) = base + span (level' + (skip + 1 + 1)) := rfl
    refine ⟨.node allocated' some stands' (by omega) (by omega) children, fun page => ?_⟩
    have first := walk_node (d := d₁) page (level' + (skip + 1) + 1) level' (skip + 1) some
    have second := walk_node (d := d₁) page (level' + (skip + 1)) level' skip some
    refine first.trans (Eq.trans ?_ second.symm)
    have digit := mod_lt (page / span level') (show 0 < 512 by decide)
    have nothing : AgreeBelow levels d pos level'
      ((pos ptr).base + page / span level' % 512 * span level') d₁ d₁ :=
      fun _ _ _ _ _ _ _ => rfl
    exact (children _ digit).walk_agree nothing (by omega) (by omega)

/-- An entry that counts as unused has nothing under it. -/
theorem unused_value (placed : Placed levels d pos)
    (here : SlotAt levels d pos height start slot) (unused : (d.read slot).ptr = physMapNodeNil)
    (small : ∀ page, start ≤ page → page < start + span height →
      pageValue d height (d.read slot) page ≠ physMapNodeNil) (page : Nat) :
    pageValue d height (d.read slot) page = physSectionUnassigned := by
  have ok := placed.entries _ _ _ here
  have first := small start le_rfl (Nat.lt_add_of_pos_right (span_pos height))
  cases entry : d.read slot with
  | mk skip ptr =>
    rw [entry] at ok unused first
    cases ok with
    | leaf =>
      refine absurd ?_ first
      cases height with
      | zero => exact unused
      | succ level => exact unused
    | missing => rw [pageValue, if_neg Nat.one_ne_zero, if_pos rfl]
    | node => rw [pageValue, if_neg Nat.one_ne_zero, if_pos unused]

theorem compactsBelow_zero (placed : Placed levels d pos)
    (compact : Slot → AddressSpaceDispatch → AddressSpaceDispatch) :
    CompactsBelow levels d pos 0 compact := by
  intro slot start d₁ here deep
  have ok := placed.entries _ _ _ here
  generalize d.read slot = e at ok deep
  cases ok with
  | leaf => exact absurd rfl deep

/-- `physPageCompact` over any loop: to unfold it is not to run the loop. -/
def compactWith (entries : (Slot → AddressSpaceDispatch → AddressSpaceDispatch) → Nat → Nat → Nat → Nat →
    AddressSpaceDispatch → AddressSpaceDispatch × Nat × Nat) : Nat → Slot → AddressSpaceDispatch →
    AddressSpaceDispatch
  | 0, _, d => d
  | depth + 1, lp, d =>
    if (d.read lp).ptr = physMapNodeNil then d
    else
      let node := (d.read lp).ptr
      let (d, valid, validPtr) := entries (compactWith entries depth) node 512 0 512 d
      if valid ≠ 1 then d
      else
        let child := d.nodes node validPtr
        d.write ⟨if child.skip = 0 then 0 else (d.read lp).skip + child.skip, child.ptr⟩ lp

theorem physPageCompact_eq : physPageCompact = compactWith compactEntries := by
  delta physPageCompact compactWith
  rfl

theorem compactsBelow_succ (placed : Placed levels d pos)
    (below : CompactsBelow levels d pos level (physPageCompact level)) :
    CompactsBelow levels d pos (level + 1) (physPageCompact (level + 1)) := by
  intro slot base d₁ here deep small intact
  have now : d₁.read slot = d.read slot := intact _ _ _ here le_rfl le_rfl le_rfl
  have ok := placed.entries _ _ _ here
  have bounds := slot_bounds placed here
  cases entry : d.read slot with
  | mk skip ptr =>
    rw [entry] at ok deep small now
    cases ok with
    | leaf => exact absurd rfl deep
    | missing =>
      have unchanged : physPageCompact (level + 1) slot d₁ = d₁ := by
        rw [physPageCompact_eq, compactWith, now, if_pos rfl]
      rw [unchanged]
      exact ⟨.refl, .of_missing entry now⟩
    | node allocated stands => ?_
    have few : ptr ≠ physMapNodeNil := by
      have := placed.few
      omega
    have values : ∀ page, base ≤ page → page < base + span (level + 1) →
        nodeValue d level ptr page ≠ physMapNodeNil := by
      intro page low high
      rw [← pageValue_node few]
      exact small page low high
    have start : LoopAt levels d pos level ptr base d₁ 0 d₁ := by
      refine ⟨fun j less => absurd less (not_lt_zero j),
        fun slot' height' base' there low high less => ?_, .refl, fun _ _ _ _ _ => rfl⟩
      exact intact slot' height' base' there (by omega) high (by omega)
    have nothing : Counted (fun j => (d.nodes ptr j).ptr ≠ physMapNodeNil) 0 0 512 :=
      .none fun j less => absurd less (not_lt_zero j)
    obtain ⟨d₂, valid, last, run, loop, counted⟩ :=
      compactEntries_spec placed allocated stands values below 512 (zero_add 512) start nothing
    have still : d₂.read slot = ⟨1, ptr⟩ := (loop.above _ _ _ here (lt_succ_self level)).trans now
    rw [physPageCompact_eq] at run ⊢
    rw [compactWith, now, if_neg few]
    dsimp only
    rw [run, still]
    have keeps := Compacted.of_node few allocated stands bounds.1 entry still loop.done
    cases counted with
    | none => exact ⟨loop.touches, keeps⟩
    | many => exact ⟨loop.touches, keeps⟩
    | one within it only => ?_
    refine ⟨loop.touches.trans ⟨?_, ?_, fun slot' height' base' there outside => ?_⟩,
      .of_single few stands bounds.1 here entry within it (fun j less other page => ?_)
      (loop.done last within)⟩
    · cases slot <;> rfl
    · cases slot <;> rfl
    · refine read_write_of_ne fun same => ?_
      subst same
      obtain ⟨rfl, rfl⟩ := here.unique there
      exact outside ⟨le_rfl, le_rfl⟩
    · have thereSlot := @slotAt_entry levels d pos base ptr level j allocated stands less
      refine unused_value placed thereSlot (not_not.mp (only j less other))
        (fun page' low high => ?_) page
      have inside := @entry_inside level j less
      have value := values page' (by omega) (by omega)
      rwa [nodeValue, digit_eq bounds.1 less low high] at value

end Node

/-- Compaction of a slot: the number of levels below it bounds the recursion. -/
theorem physPageCompact_spec (placed : Placed levels d pos) (level : Nat) :
    CompactsBelow levels d pos level (physPageCompact level) := by
  induction level with
  | zero => exact compactsBelow_zero placed _
  | succ level ih => exact compactsBelow_succ placed ih

end Qemu.Memory.AddressSpaceDispatch
