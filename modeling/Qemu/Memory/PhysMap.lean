import Qemu.Memory.Dispatch

namespace Qemu.Memory.AddressSpaceDispatch

open Function Nat

/-- The pages under one entry of a node, by the level of the node. -/
def span (height : Nat) : Nat := 2 ^ (height * 9)

theorem span_pos (height : Nat) : 0 < span height := Nat.two_pow_pos _

theorem span_succ (height : Nat) : span (height + 1) = span height * 512 := by
  rw [span, span, Nat.add_mul, Nat.pow_add]

theorem span_zero : span 0 = 1 := rfl

variable {height : Nat}

theorem span_lt (higher : height < height') : span height < span height' :=
  Nat.pow_lt_pow_right (by decide) (Nat.mul_lt_mul_of_pos_right higher (by decide))

/-- Which entry of a node leads to a page. -/
theorem digit_eq (aligned : span (height + 1) ∣ base) (small : index < 512)
    (lower : base + index * span height ≤ page)
    (upper : page < base + index * span height + span height) :
    page / span height % 512 = index := by
  obtain ⟨q, rfl⟩ := aligned
  have quotient : page / span height = 512 * q + index := by
    rw [span_succ, mul_assoc, mul_comm, ← add_mul] at lower upper
    exact Nat.div_eq_of_lt_le lower (by rwa [Nat.add_one_mul])
  omega

theorem entry_inside {index : Nat} (small : index < 512) :
    index * span height + span height ≤ span (height + 1) := by
  have last := mul_le_mul_right (span height) (show index + 1 ≤ 512 from small)
  rw [add_one_mul] at last
  rw [span_succ]
  omega

theorem digit_bounds (aligned : span (height + 1) ∣ base) (lower : base ≤ page)
    (upper : page < base + span (height + 1)) :
    base + page / span height % 512 * span height ≤ page ∧
      page < base + page / span height % 512 * span height + span height := by
  obtain ⟨q, rfl⟩ := aligned
  have pos := span_pos height
  rw [span_succ, mul_assoc] at lower upper ⊢
  have division := div_add_mod page (span height)
  have small := mod_lt page pos
  have first : 512 * q ≤ page / span height := (le_div_iff_mul_le pos).mpr (by rw [mul_comm]; exact lower)
  have last : page / span height < 512 * q + 512 :=
    (div_lt_iff_lt_mul pos).mpr
      (by rw [add_mul, mul_comm (512 * q), mul_comm 512 (span height)]; exact upper)
  have digit : page / span height % 512 = page / span height - 512 * q := by omega
  rw [digit, Nat.sub_mul, Nat.mul_comm (page / span height), Nat.mul_comm (512 * q)]
  omega

/-- The level of a node and the first page under it. -/
structure Position where
  level : Nat
  base : Nat

/-- A slot with its level, where a slot of the lowest nodes has level 0, and the first page under
it. -/
def SlotAt (levels : Nat) (d : AddressSpaceDispatch) (pos : Nat → Position) (height base : Nat) :
    Slot → Prop
  | .root => height = levels ∧ base = 0
  | .entry node index => node < d.nodesNb ∧ index < 512 ∧ (pos node).level = height ∧
      base = (pos node).base + index * span height

/-- An entry is a leaf, a missing node or a node that stands right below it. -/
inductive EntryOk (nodesNb : Nat) (pos : Nat → Position) (base : Nat) : Nat → PhysPageEntry → Prop
  | leaf {height ptr : Nat} (assigned : height = 0 ∨ ptr ≠ physSectionUnassigned) :
    EntryOk nodesNb pos base height ⟨0, ptr⟩
  | missing {level : Nat} : EntryOk nodesNb pos base (level + 1) ⟨1, physMapNodeNil⟩
  | node {level ptr : Nat} (allocated : ptr < nodesNb) (below : pos ptr = ⟨level, base⟩) :
      EntryOk nodesNb pos base (level + 1) ⟨1, ptr⟩

/-- Every node stands at one place of the tree. -/
structure Placed (levels : Nat) (d : AddressSpaceDispatch) (pos : Nat → Position) : Prop where
  entries : ∀ slot height base, SlotAt levels d pos height base slot →
    EntryOk d.nodesNb pos base height (d.read slot)
  aligned : ∀ node < d.nodesNb, span ((pos node).level + 1) ∣ (pos node).base
  inside : ∀ node < d.nodesNb, (pos node).base + span ((pos node).level + 1) ≤ span levels
  few : d.nodesNb ≤ physMapNodeNil

/-- The section of a page, from an entry of some level on. -/
def pageValue (d : AddressSpaceDispatch) : Nat → PhysPageEntry → Nat → Nat
  | 0, e, _ => e.ptr
  | level + 1, e, page =>
    if e.skip = 0 then e.ptr
    else if e.ptr = physMapNodeNil then physSectionUnassigned
    else pageValue d level (d.nodes e.ptr (page / span level % 512)) page

/-- What is left alone when the pages from `low` to `high` are set. -/
structure Evolves (levels : Nat) (d : AddressSpaceDispatch) (pos : Nat → Position)
    (d' : AddressSpaceDispatch) (pos' : Nat → Position) (low high : Nat) : Prop where
  grows : d.nodesNb ≤ d'.nodesNb
  stays : ∀ node < d.nodesNb, pos' node = pos node
  alloc : d'.nodesNbAlloc = d.nodesNbAlloc
  hint : d'.allocHint = d.allocHint
  sections : d'.sections = d.sections
  subpages : d'.subpages = d.subpages
  entries : ∀ slot height base, SlotAt levels d pos height base slot →
    ¬ (low ≤ base ∧ base + span height ≤ high) → d'.read slot = d.read slot

section

variable {levels low high : Nat} {d d' d'' : AddressSpaceDispatch} {pos pos' pos'' : Nat → Position}

theorem Evolves.refl : Evolves levels d pos d pos low high :=
  ⟨le_rfl, fun _ _ => rfl, rfl, rfl, rfl, rfl, fun _ _ _ _ _ => rfl⟩

variable {slot : Slot} {height base : Nat}

theorem SlotAt.evolves (here : SlotAt levels d pos height base slot)
    (grows : d.nodesNb ≤ d'.nodesNb) (stays : ∀ node < d.nodesNb, pos' node = pos node) :
    SlotAt levels d' pos' height base slot := by
  cases slot with
  | root => exact here
  | entry node index => ?_
  obtain ⟨allocated, small, level, first⟩ := here
  refine ⟨allocated.trans_le grows, small, ?_, ?_⟩
  · rw [stays node allocated]
    exact level
  · rw [stays node allocated]
    exact first

theorem Evolves.trans (first : Evolves levels d pos d' pos' low high)
    (second : Evolves levels d' pos' d'' pos'' low high) :
    Evolves levels d pos d'' pos'' low high where
  grows := first.grows.trans second.grows
  stays node allocated := (second.stays node (allocated.trans_le first.grows)).trans
    (first.stays node allocated)
  alloc := second.alloc.trans first.alloc
  hint := second.hint.trans first.hint
  sections := second.sections.trans first.sections
  subpages := second.subpages.trans first.subpages
  entries slot height base here outside :=
    (second.entries slot height base (here.evolves first.grows first.stays) outside).trans
      (first.entries slot height base here outside)

theorem Evolves.mono (evolves : Evolves levels d pos d' pos' low high) (lower : low' ≤ low)
    (upper : high ≤ high') : Evolves levels d pos d' pos' low' high' :=
  { evolves with
    entries := fun slot height base here outside =>
      evolves.entries slot height base here fun inside => outside ⟨by omega, by omega⟩ }

theorem EntryOk.mono {nodesNb nodesNb' : Nat} (ok : EntryOk nodesNb pos base height e)
    (grows : nodesNb ≤ nodesNb') (stays : ∀ node < nodesNb, pos' node = pos node) :
    EntryOk nodesNb' pos' base height e := by
  cases ok with
  | leaf assigned => exact .leaf assigned
  | missing => exact .missing
  | node allocated below => exact .node (allocated.trans_le grows) ((stays _ allocated).trans below)

theorem Placed.aligned_of (placed : Placed levels d pos) (allocated : node < d.nodesNb)
    (stands : pos node = ⟨level, base⟩) : span (level + 1) ∣ base := by
  have multiple := placed.aligned node allocated
  rwa [stands] at multiple

theorem slotAt_entry {node level index : Nat} (allocated : node < d.nodesNb)
    (stands : pos node = ⟨level, base⟩)
    (small : index < 512) : SlotAt levels d pos level (base + index * span level)
    (.entry node index) := by
  refine ⟨allocated, small, ?_, ?_⟩
  · rw [stands]
  · rw [stands]

/-- The entry below a slot that leads to a page. -/
theorem slotAt_below (placed : Placed levels d pos) (allocated : node < d.nodesNb)
    (stands : pos node = ⟨level, base⟩) (lower : base ≤ page) (upper : page < base + span (level + 1)) :
    ∃ start, SlotAt levels d pos level start (.entry node (page / span level % 512)) ∧
      start ≤ page ∧ page < start + span level := by
  obtain ⟨first, last⟩ := digit_bounds (placed.aligned_of allocated stands) lower upper
  exact ⟨_, slotAt_entry allocated stands (mod_lt _ (by decide)), first, last⟩

/-- A page outside of what is set keeps its section. -/
theorem pageValue_evolves (placed : Placed levels d pos) (evolves : Evolves levels d pos d' pos' low high)
    (here : SlotAt levels d pos height base slot) (lower : base ≤ page)
    (upper : page < base + span height) (outside : page < low ∨ high ≤ page) :
    pageValue d' height (d'.read slot) page = pageValue d height (d.read slot) page := by
  have unchanged := evolves.entries slot height base here (by omega)
  rw [unchanged]
  have ok := placed.entries slot height base here
  induction height generalizing slot base with
  | zero => rfl
  | succ level ih => ?_
  cases entry : d.read slot with
  | mk skip ptr =>
    rw [entry] at ok
    cases ok with
    | leaf => rfl
    | missing => rfl
    | node allocated below => ?_
    have few := placed.few
    have some : ptr ≠ physMapNodeNil := by omega
    obtain ⟨start, next, first, last⟩ := slotAt_below placed allocated below lower upper
    have more := ih next first last (evolves.entries _ _ _ next (by omega)) (placed.entries _ _ _ next)
    have same : d'.nodes ptr (page / span level % 512) = d.nodes ptr (page / span level % 512) :=
      evolves.entries _ _ _ next (by omega)
    rw [pageValue, pageValue, if_neg one_ne_zero, if_neg some, if_neg some, same]
    exact more

end

section Write

variable {levels : Nat} {d : AddressSpaceDispatch} {pos : Nat → Position}

@[simp]
theorem write_nodesNb (e : PhysPageEntry) (slot : Slot) : (d.write e slot).nodesNb = d.nodesNb := by
  cases slot <;> rfl

theorem read_write_self (e : PhysPageEntry) (slot : Slot) : (d.write e slot).read slot = e := by
  cases slot with
  | root => rfl
  | entry node index => simp [read, write]

theorem read_write_of_ne {e : PhysPageEntry} {slot slot' : Slot} (other : slot' ≠ slot) :
    (d.write e slot).read slot' = d.read slot' := by
  cases slot with
  | root =>
    cases slot' with
    | root => exact absurd rfl other
    | entry node index => rfl
  | entry node index => ?_
  cases slot' with
  | root => rfl
  | entry node' index' => ?_
  simp only [read, write]
  by_cases same : node' = node
  · have apart : index' ≠ index := fun equal => other (by rw [same, equal])
    rw [same, update_self, update_of_ne apart]
  · rw [update_of_ne same]

variable {slot : Slot} {height base : Nat}

theorem slotAt_write :
    SlotAt levels (d.write e slot) pos height base slot' ↔ SlotAt levels d pos height base slot' := by
  cases slot' with
  | root => rfl
  | entry node index =>
    rw [SlotAt, SlotAt, write_nodesNb]

section

variable (here : SlotAt levels d pos height base slot)
include here

theorem SlotAt.unique (also : SlotAt levels d pos height' base' slot)
    : height' = height ∧ base' = base := by
  cases slot with
  | root =>
    obtain ⟨rfl, rfl⟩ := here
    exact also
  | entry node index =>
    obtain ⟨-, -, rfl, rfl⟩ := here
    obtain ⟨-, -, rfl, rfl⟩ := also
    exact ⟨rfl, rfl⟩

theorem Placed.write (placed : Placed levels d pos) (ok : EntryOk d.nodesNb pos base height e) :
    Placed levels (d.write e slot) pos where
  entries slot' height' base' here' := by
    rw [slotAt_write] at here'
    rw [write_nodesNb]
    by_cases same : slot' = slot
    · subst same
      obtain ⟨rfl, rfl⟩ := here.unique here'
      rw [read_write_self]
      exact ok
    · rw [read_write_of_ne same]
      exact placed.entries slot' height' base' here'
  aligned := by
    rw [write_nodesNb]
    exact placed.aligned
  inside := by
    rw [write_nodesNb]
    exact placed.inside
  few := by
    rw [write_nodesNb]
    exact placed.few

theorem Evolves.write (e : PhysPageEntry) :
    Evolves levels d pos (d.write e slot) pos base (base + span height) where
  grows := (write_nodesNb e slot).ge
  stays _ _ := rfl
  alloc := by cases slot <;> rfl
  hint := by cases slot <;> rfl
  sections := by cases slot <;> rfl
  subpages := by cases slot <;> rfl
  entries slot' height' base' here' outside := by
    refine read_write_of_ne fun same => ?_
    subst same
    obtain ⟨rfl, rfl⟩ := here.unique here'
    exact outside ⟨le_rfl, le_rfl⟩

end

end Write

section NodeBelow

variable {levels : Nat} {d : AddressSpaceDispatch} {pos : Nat → Position}

/-- A new node, as `physMapNodeAlloc` makes it for a level. -/
def withNode (d : AddressSpaceDispatch) (level : Nat) : AddressSpaceDispatch :=
  { d with
    nodesNb := d.nodesNb + 1
    nodes := update d.nodes d.nodesNb fun _ => if level = 0 then ⟨0, physSectionUnassigned⟩
      else ⟨1, physMapNodeNil⟩ }

theorem withNode_new (level index : Nat) : (d.withNode level).nodes d.nodesNb index =
    if level = 0 then ⟨0, physSectionUnassigned⟩ else ⟨1, physMapNodeNil⟩ := by
  simp [withNode]

theorem withNode_old (level index : Nat) (other : node ≠ d.nodesNb) :
    (d.withNode level).nodes node index = d.nodes node index := congrFun (update_of_ne other ..) index

theorem physMapNodeAlloc_eq (level : Nat) (room : d.nodesNb < d.nodesNbAlloc)
    (few : d.nodesNb < physMapNodeNil) :
    d.physMapNodeAlloc (decide (level = 0)) = .ok (d.withNode level, d.nodesNb) := by
  rw [physMapNodeAlloc]
  rw [if_neg few.ne, if_neg room.ne, withNode]
  by_cases lowest : level = 0
  · simp [lowest]
  · simp [lowest]

variable {slot : Slot}

theorem slot_bounds (placed : Placed levels d pos)
    (here : SlotAt levels d pos height base slot) : span height ∣ base ∧
    base + span height ≤ span levels := by
  cases slot with
  | root =>
    obtain ⟨rfl, rfl⟩ := here
    exact ⟨dvd_zero _, (zero_add _).le⟩
  | entry node index => ?_
  obtain ⟨allocated, small, rfl, rfl⟩ := here
  have aligned := placed.aligned node allocated
  have inside := placed.inside node allocated
  have last := @entry_inside (pos node).level index small
  exact ⟨dvd_add ((Dvd.intro _ (span_succ _).symm).trans aligned) (Dvd.intro_left _ rfl), by omega⟩

/-- A node that nothing leads to yet. -/
theorem Placed.withNode (placed : Placed levels d pos) {level base : Nat}
    (aligned : span (level + 1) ∣ base)
    (inside : base + span (level + 1) ≤ span levels) (few : d.nodesNb < physMapNodeNil) :
    Placed levels (d.withNode level) (update pos d.nodesNb ⟨level, base⟩) := by
  have stays : ∀ node < d.nodesNb, update pos d.nodesNb ⟨level, base⟩ node = pos node :=
    fun node allocated => update_of_ne allocated.ne ..
  have old : ∀ node < d.nodesNb + 1, node ≠ d.nodesNb → node < d.nodesNb :=
    fun node allocated other => by omega
  refine ⟨fun slot height start here => ?_, fun node allocated => ?_, fun node allocated => ?_, few⟩
  · cases slot with
    | root => exact (placed.entries .root height start here).mono (le_succ _) stays
    | entry node index => ?_
    obtain ⟨allocated, small, stands, first⟩ := here
    by_cases new : node = d.nodesNb
    · subst new
      rw [update_self] at stands
      subst stands
      rw [read, withNode_new]
      cases level with
      | zero => exact .leaf (.inl rfl)
      | succ level => exact .missing
    · have before := old node allocated new
      rw [stays node before] at stands first
      have ok := placed.entries (.entry node index) height start ⟨before, small, stands, first⟩
      rw [read, withNode_old level index new]
      exact ok.mono (le_succ _) stays
  · by_cases new : node = d.nodesNb
    · subst new
      rw [update_self]
      exact aligned
    · rw [stays node (old node allocated new)]
      exact placed.aligned node (old node allocated new)
  · by_cases new : node = d.nodesNb
    · subst new
      rw [update_self]
      exact inside
    · rw [stays node (old node allocated new)]
      exact placed.inside node (old node allocated new)

theorem Evolves.withNode (level base low high : Nat) :
    Evolves levels d pos (d.withNode level) (update pos d.nodesNb ⟨level, base⟩) low high where
  grows := le_succ _
  stays node allocated := update_of_ne allocated.ne ..
  alloc := rfl
  hint := rfl
  sections := rfl
  subpages := rfl
  entries slot height start here _ := by
    cases slot with
    | root => rfl
    | entry node index =>
      have allocated : node ≠ d.nodesNb := here.1.ne
      exact withNode_old level index allocated

/-- What the node below a slot is, and that nothing else changes. -/
structure Below (levels : Nat) (d : AddressSpaceDispatch) (pos : Nat → Position) (slot : Slot)
    (level base : Nat) (d' : AddressSpaceDispatch) (pos' : Nat → Position) (node : Nat) : Prop where
  placed : Placed levels d' pos'
  evolves : Evolves levels d pos d' pos' base (base + span (level + 1))
  allocated : node < d'.nodesNb
  stands : pos' node = ⟨level, base⟩
  leads : d'.read slot = ⟨1, node⟩
  nodes : d'.nodesNb ≤ d.nodesNb + 1
  values : ∀ page, base ≤ page → page < base + span (level + 1) →
    pageValue d' level (d'.nodes node (page / span level % 512)) page = pageValue d (level + 1)
    (d.read slot) page

theorem nodeBelow_spec (placed : Placed levels d pos)
    (here : SlotAt levels d pos (level + 1) base slot)
    (unset : pageValue d (level + 1) (d.read slot) page = physSectionUnassigned)
    (room : d.nodesNb < d.nodesNbAlloc) (few : d.nodesNb < physMapNodeNil) :
    ∃ d' pos' node, d.nodeBelow (decide (level = 0)) slot = .ok (d', node) ∧
    Below levels d pos slot level base d' pos' node := by
  have ok := placed.entries slot _ _ here
  rw [nodeBelow]
  cases entry : d.read slot with
  | mk skip ptr =>
    rw [entry] at ok unset
    cases ok with
    | leaf assigned =>
      exact absurd unset (assigned.resolve_left (succ_ne_zero _))
    | missing =>
      obtain ⟨aligned, inside⟩ := slot_bounds placed here
      have added := placed.withNode aligned inside few
      have grown := @Evolves.withNode levels d pos level base base (base + span (level + 1))
      have there := here.evolves grown.grows grown.stays
      have stands : update pos d.nodesNb ⟨level, base⟩ d.nodesNb = ⟨level, base⟩ := update_self ..
      refine ⟨(d.withNode level).write ⟨1, d.nodesNb⟩ slot, update pos d.nodesNb ⟨level, base⟩,
        d.nodesNb, ?_,
        added.write there (.node (lt_succ_self _) stands), grown.trans (.write there _), ?_, stands,
        read_write_self _ _, ?_, fun page lower upper => ?_⟩
      · rw [physMapNodeAlloc_eq level room few]
        rfl
      · rw [write_nodesNb]
        exact lt_succ_self _
      · rw [write_nodesNb]
        exact le_rfl
      -- nothing is set in the new node
      have other : Slot.entry d.nodesNb (page / span level % 512) ≠ slot := by
        rintro rfl
        exact absurd here.1 (lt_irrefl _)
      have fresh := @read_write_of_ne (d.withNode level) ⟨1, d.nodesNb⟩ slot _ other
      rw [read, read] at fresh
      rw [fresh, withNode_new, entry]
      cases level with
      | zero => rfl
      | succ level => rfl
    | node allocated below =>
      have some : ptr ≠ physMapNodeNil := by omega
      refine ⟨d, pos, ptr, ?_, placed, .refl, allocated, below, entry, le_succ _,
        fun page lower upper => ?_⟩
      · rw [if_neg (fun both => some both.2)]
      · rw [entry, pageValue, if_neg one_ne_zero, if_neg some]

end NodeBelow

end Qemu.Memory.AddressSpaceDispatch
