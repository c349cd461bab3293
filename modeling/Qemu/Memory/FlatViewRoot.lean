import Qemu.Memory.FlatViewExact

/-! The region that stands for an address-space root, and when its view is the root's own. -/

namespace Qemu.Memory

open Spans List Option MemoryRegion Resolved

/-- The region that stands in for a region: the target of an alias of all of it, or the only child
of a container. -/
inductive StandsIn : MemoryRegion → MemoryRegion → Prop where
  | aliasTarget {f : Fields} {target : MemoryRegion} (enabled : f.enabled = true)
      (offset : f.aliasOffset = 0) (whole : target.fields.size ≤ f.size) :
      StandsIn (.aliasOf f target) target
  | onlyChild {f : Fields} {before after : List MemoryRegion} {child : MemoryRegion}
      (enabled : f.enabled = true) (terminates : f.terminates = false)
      (others : ∀ other ∈ before ++ after, other.fields.enabled = false)
      (on : child.fields.enabled = true) (addr : child.fields.addr = 0)
      (whole : child.fields.size ≤ f.size) : StandsIn (.region f (before ++ child :: after)) child

/-- The search passes from a region to one below it; the flags of the regions that it leaves behind
add up. -/
inductive Follows : MemoryRegion → Flags → MemoryRegion → Prop where
  | here (mr : MemoryRegion) : Follows mr ⟨false, false, false⟩ mr
  | step {mr next root : MemoryRegion} {flags : Flags} (first : StandsIn mr next)
      (more : Follows next flags root) : Follows mr (mr.fields.flags.join flags) root

/-- Nothing else stands in for a region. -/
def Final (root : MemoryRegion) : Prop := ∀ next, ¬ StandsIn root next

variable {mr next : MemoryRegion} {x : Int}

theorem MemoryRegion.inside_of_resolve (found : mr.resolve x ≠ none) : mr.fields.Inside x := by
  by_contra outside
  refine found ?_
  cases mr with
  | aliasOf f target => exact if_neg outside
  | region f subregions => exact if_neg outside

theorem MemoryRegion.resolve_of_disabled (disabled : mr.fields.enabled = false) (x : Int) :
    mr.resolve x = none := by
  by_contra found
  have enabled := (inside_of_resolve found).1
  simp [disabled] at enabled

theorem resolveFirst_append (before after : List MemoryRegion) (x : Int) :
    resolveFirst (before ++ after) x = (resolveFirst before x).or (resolveFirst after x) := by
  induction before with
  | nil => rfl
  | cons subregion rest ih => rw [cons_append, resolveFirst, resolveFirst, ih, Option.or_assoc]

variable {subregions : List MemoryRegion}

theorem resolveFirst_of_disabled
    (disabled : ∀ subregion ∈ subregions, subregion.fields.enabled = false) (x : Int) :
    resolveFirst subregions x = none := by
  induction subregions with
  | nil => rfl
  | cons subregion rest ih =>
    obtain ⟨here, later⟩ := forall_mem_cons.mp disabled
    rw [resolveFirst, resolve_of_disabled here, ih later]
    rfl

variable {f : Fields} {flags : Flags}

/-- A region that only shows what is in a smaller one at the same place. -/
theorem resolve_through (enabled : f.enabled = true)
    (whole : next.fields.size ≤ f.size) :
    (if f.Inside x then (next.resolve x).map (join f.flags) else none) =
      (next.resolve x).map (join f.flags) := by
  by_cases inside : f.Inside x
  · rw [if_pos inside]
  have nothing : next.resolve x = none := by
    by_contra found
    obtain ⟨-, first, last⟩ := inside_of_resolve found
    exact inside ⟨enabled, first, by omega⟩
  rw [if_neg inside, nothing]
  rfl

theorem StandsIn.resolve (step : StandsIn mr next) (x : Int) :
    mr.resolve x = (next.resolve x).map (join mr.fields.flags) := by
  cases step with
  | aliasTarget enabled offset whole =>
    rw [MemoryRegion.resolve, offset, Nat.cast_zero, add_zero]
    exact resolve_through enabled whole
  | onlyChild enabled terminates others on addr whole => ?_
  obtain ⟨before, after⟩ := forall_mem_append.mp others
  rw [MemoryRegion.resolve, terminates, resolveFirst_append, resolveFirst,
    resolveFirst_of_disabled before,
    resolveFirst_of_disabled after, addr, Nat.cast_zero, sub_zero]
  simp only [Bool.false_eq_true, if_false, or_none]
  exact resolve_through enabled whole

/-- The regions that are skipped only add their flags. -/
theorem Follows.resolve (follows : Follows mr flags root) (x : Int) :
    mr.resolve x = (root.resolve x).map (join flags) := by
  induction follows with
  | here mr => rw [join_nothing, Option.map_id, id]
  | @step mr next root flags first more ih =>
    rw [first.resolve, ih, Option.map_map]
    congr 1
    funext r
    exact join_join mr.fields.flags flags r

/-- What the loop over the children of a region finds. -/
inductive Scanned (size : Nat) (subregions : List MemoryRegion) :
    Nat × Option (Option MemoryRegion) → Prop where
  | none (next : Option (Option MemoryRegion))
      (disabled : ∀ other ∈ subregions, other.fields.enabled = false) :
      Scanned size subregions (0, next)
  | only (before after : List MemoryRegion) (child : MemoryRegion)
      (shape : subregions = before ++ child :: after)
      (others : ∀ other ∈ before ++ after, other.fields.enabled = false)
      (on : child.fields.enabled = true) (addr : child.fields.addr = 0)
        (whole : child.fields.size ≤ size) :
      Scanned size subregions (1, some (memoryRegionGetFlatviewRoot child))
  | stop (found : Nat) : Scanned size subregions (found + 1, .none)

theorem scanChildren_disabled {next : Option (Option MemoryRegion)}
    (disabled : ∀ other ∈ subregions, other.fields.enabled = false) :
    scanChildren size subregions found next = (found, next) := by
  induction subregions with
  | nil => rfl
  | cons child rest ih =>
    obtain ⟨here, later⟩ := forall_mem_cons.mp disabled
    rw [scanChildren, here, ih later]
    rfl

/-- After the first enabled child, a second one ends the search. -/
theorem scanChildren_one (next : Option (Option MemoryRegion)) (subregions : List MemoryRegion) :
    (∀ other ∈ subregions, other.fields.enabled = false) ∨
    scanChildren size subregions 1 next = (2, none) := by
  induction subregions with
  | nil => exact .inl (by simp)
  | cons child rest ih => ?_
  by_cases enabled : child.fields.enabled = true
  · right
    rw [scanChildren, if_pos enabled]
    rfl
  · rcases ih with disabled | stopped
    · exact .inl (forall_mem_cons.mpr ⟨by simpa using enabled, disabled⟩)
    · right
      rw [scanChildren, if_neg enabled, stopped]

theorem scanChildren_scanned (size : Nat) (subregions : List MemoryRegion) :
    Scanned size subregions (scanChildren size subregions 0 none) := by
  induction subregions with
  | nil => exact .none none (by simp)
  | cons child rest ih => ?_
  rw [scanChildren]
  by_cases enabled : child.fields.enabled = true
  · rw [if_pos enabled]
    by_cases fits : child.fields.addr = 0 ∧ size ≥ child.fields.size
    · rw [if_pos fits]
      rcases scanChildren_one (some (memoryRegionGetFlatviewRoot child)) rest with disabled | stopped
      · rw [scanChildren_disabled disabled]
        exact .only [] rest child rfl disabled enabled fits.1 fits.2
      · rw [stopped]
        exact .stop 1
    · rw [if_neg fits]
      rcases scanChildren_one none rest with disabled | stopped
      · rw [scanChildren_disabled disabled]
        exact .stop 0
      · rw [stopped]
        exact .stop 1
  · rw [if_neg enabled]
    have off : child.fields.enabled = false := by simpa using enabled
    generalize scanChildren size rest 0 none = result at ih
    cases ih with
    | none next disabled => exact .none next (forall_mem_cons.mpr ⟨off, disabled⟩)
    | only before after only shape others on addr whole =>
      exact .only (child :: before) after only (by rw [shape]; rfl)
        (forall_mem_cons.mpr ⟨off, others⟩) on addr whole
    | stop found => exact .stop found

theorem scanChildren_only {before after : List MemoryRegion} {child : MemoryRegion}
    (others : ∀ other ∈ before ++ after, other.fields.enabled = false) (on : child.fields.enabled = true)
    (addr : child.fields.addr = 0) (whole : child.fields.size ≤ size) :
    scanChildren size (before ++ child :: after) 0 none =
    (1, some (memoryRegionGetFlatviewRoot child)) := by
  induction before with
  | nil =>
    rw [nil_append, scanChildren, if_pos on, if_neg (by simp), if_pos ⟨addr, whole⟩, zero_add]
    exact scanChildren_disabled others
  | cons first rest ih =>
    obtain ⟨off, others⟩ := forall_mem_cons.mp others
    rw [cons_append, scanChildren, if_neg (by simp [off])]
    exact ih others

/-- The search goes on with the region that stands in. -/
theorem StandsIn.root_eq (step : StandsIn mr next) :
    memoryRegionGetFlatviewRoot mr = memoryRegionGetFlatviewRoot next := by
  cases step with
  | aliasTarget enabled offset whole =>
    rw [memoryRegionGetFlatviewRoot, if_pos enabled, if_pos ⟨offset, whole⟩]
  | onlyChild enabled terminates others on addr whole =>
    rw [memoryRegionGetFlatviewRoot, if_pos enabled, if_pos (by simp [terminates]),
      scanChildren_only others on addr whole]
    rfl

theorem Follows.root_eq (follows : Follows mr flags root) :
    memoryRegionGetFlatviewRoot mr = memoryRegionGetFlatviewRoot root := by
  induction follows with
  | here => rfl
  | step first _ ih => rw [first.root_eq, ih]

/-- The search ends at a region for which nothing stands in; it finds nothing only where nothing is
mapped. -/
theorem Final.root_eq (final : Final mr) : memoryRegionGetFlatviewRoot mr = some mr ∨
    memoryRegionGetFlatviewRoot mr = none ∧ ∀ x, mr.resolve x = none := by
  by_cases enabled : mr.fields.enabled = true
  · cases mr with
    | aliasOf f target =>
      change f.enabled = true at enabled
      left
      rw [memoryRegionGetFlatviewRoot, if_pos enabled, if_neg]
      exact fun fits => final target (.aliasTarget enabled fits.1 fits.2)
    | region f subregions =>
      change f.enabled = true at enabled
      rw [memoryRegionGetFlatviewRoot, if_pos enabled]
      by_cases terminates : f.terminates = true
      · exact .inl (if_neg (by simpa using terminates))
      have container : f.terminates = false := by simpa using terminates
      rw [if_pos (by simpa using container)]
      have scanned := scanChildren_scanned f.size subregions
      generalize scanChildren f.size subregions 0 none = result at scanned
      cases scanned with
      | none next disabled =>
        refine .inr ⟨rfl, fun x => ?_⟩
        rw [resolve, resolveFirst_of_disabled disabled]
        split <;> rfl
      | only before after child shape others on addr whole =>
        subst shape
        exact absurd (.onlyChild enabled container others on addr whole) (final child)
      | stop found => exact .inl rfl
  · have off : mr.fields.enabled = false := by simpa using enabled
    refine .inr ⟨?_, resolve_of_disabled off⟩
    cases mr with
    | aliasOf f target => exact if_neg enabled
    | region f subregions => exact if_neg enabled

theorem StandsIn.sizeOf_lt (step : StandsIn mr next) : sizeOf next < sizeOf mr := by
  cases step with
  | aliasTarget => simp
  | @onlyChild f before after =>
    have member : next ∈ before ++ next :: after := by simp
    refine (sizeOf_lt_of_mem member).trans ?_
    simp

theorem exists_final (mr : MemoryRegion) : ∃ flags root, Follows mr flags root ∧ Final root := by
  by_cases ends : Final mr
  · exact ⟨_, mr, .here mr, ends⟩
  · obtain ⟨next, step⟩ : ∃ next, StandsIn mr next := by simpa [Final] using ends
    have smaller := step.sizeOf_lt
    obtain ⟨flags, root, follows, final⟩ := exists_final next
    exact ⟨_, root, .step step follows, final⟩
termination_by sizeOf mr

/-- What the root has in a part of it that one of the two views shows is at the same address in
both, and has the flags of the regions that are skipped. -/
def SharesSoundly (mr root : MemoryRegion) (flags : Flags) : Prop :=
  ∀ y r, root.resolve y = some r → y + min mr.fields.addr root.fields.addr < 2 ^ 64 →
    mr.fields.addr = root.fields.addr ∧ (flags.readonly = true → r.readonly = true) ∧
      (flags.nonvolatile = true → r.nonvolatile = true)

theorem Resolved.join_eq_self {r : Resolved} : r.join flags = r ↔
    (flags.readonly = true → r.readonly = true) ∧ (flags.nonvolatile = true → r.nonvolatile = true) := by
  obtain ⟨mr, offset, readonly, nonvolatile⟩ := r
  obtain ⟨skippedReadonly, skippedNonvolatile, -⟩ := flags
  simp only [join]
  cases skippedReadonly <;> cases skippedNonvolatile <;> simp

section Share

variable {mr root : MemoryRegion} {flags : Flags} (follows : Follows mr flags root)
include follows

theorem Follows.resolveAddress (visible : 0 ≤ x ∧ x < 2 ^ 64) :
    mr.resolveAddress x = (root.resolve (x - mr.fields.addr)).map (join flags) := by
  rw [MemoryRegion.resolveAddress, if_pos visible, follows.resolve]

/-- If the maps are equal and not empty, the lowest mapped address tells the address of the
region. -/
theorem Follows.addr_eq (same : ∀ x, mr.resolveAddress x = root.resolveAddress x)
    (mapped : root.resolveAddress x ≠ none) : mr.fields.addr = root.fields.addr := by
  have onRoot : ∀ {x}, root.resolveAddress x ≠ none → 0 ≤ x ∧ x < 2 ^ 64 ∧
    root.resolve (x - root.fields.addr) ≠ none := by
    intro x mapped
    by_cases visible : 0 ≤ x ∧ x < 2 ^ 64
    · rw [MemoryRegion.resolveAddress, if_pos visible] at mapped
      exact ⟨visible.1, visible.2, mapped⟩
    · rw [MemoryRegion.resolveAddress, if_neg visible] at mapped
      exact absurd rfl mapped
  have onRegion : ∀ {x}, root.resolveAddress x ≠ none → root.resolve (x - mr.fields.addr) ≠ none := by
    intro x mapped
    obtain ⟨first, last, -⟩ := onRoot mapped
    rw [← same x, follows.resolveAddress ⟨first, last⟩] at mapped
    simpa using mapped
  obtain ⟨-, small, offRoot⟩ := onRoot mapped
  have rootInside := inside_of_resolve offRoot
  have exists_ : ∃ y : Nat, root.resolve y ≠ none :=
    ⟨(x - root.fields.addr).toNat, by rwa [Int.toNat_of_nonneg rootInside.2.1]⟩
  classical
  -- the lowest point of the root that is mapped
  obtain ⟨lowest, least⟩ : root.resolve (Nat.find exists_) ≠ none ∧
      ∀ y : Int, 0 ≤ y → root.resolve y ≠ none → (Nat.find exists_ : Int) ≤ y := by
    refine ⟨Nat.find_spec exists_, fun y nonneg found => ?_⟩
    have := Nat.find_min' exists_ (m := y.toNat) (by rwa [Int.toNat_of_nonneg nonneg])
    omega
  generalize Nat.find exists_ = y at lowest least
  have belowRoot := least _ rootInside.2.1 offRoot
  have first : mr.fields.addr ≤ root.fields.addr := by
    have here : root.resolveAddress (root.fields.addr + y) ≠ none := by
      rw [MemoryRegion.resolveAddress, if_pos (by omega), add_sub_cancel_left]
      exact lowest
    have found := onRegion here
    have := least _ (inside_of_resolve found).2.1 found
    omega
  have second : root.fields.addr ≤ mr.fields.addr := by
    have here : root.resolveAddress (mr.fields.addr + y) ≠ none := by
      rw [← same, follows.resolveAddress (by omega)]
      simpa using lowest
    obtain ⟨-, -, found⟩ := onRoot here
    have := least _ (inside_of_resolve found).2.1 found
    omega
  omega

theorem Follows.same_iff :
    (∀ x, mr.resolveAddress x = root.resolveAddress x) ↔ SharesSoundly mr root flags := by
  constructor
  · intro same y r found low
    have inside := inside_of_resolve (by rw [found]; simp)
    have addr : mr.fields.addr = root.fields.addr := by
      rcases le_total mr.fields.addr root.fields.addr with first | first
      · refine follows.addr_eq same (x := y + mr.fields.addr) ?_
        rw [← same, follows.resolveAddress (by have := inside.2.1; omega), add_sub_cancel_right, found]
        simp
      · refine follows.addr_eq same (x := y + root.fields.addr) ?_
        rw [MemoryRegion.resolveAddress, if_pos (by have := inside.2.1; omega),
          add_sub_cancel_right, found]
        simp
    have visible : 0 ≤ y + root.fields.addr ∧ y + root.fields.addr < 2 ^ 64 := by
      have := inside.2.1
      omega
    have here := same (y + root.fields.addr)
    rw [follows.resolveAddress visible, MemoryRegion.resolveAddress, if_pos visible, addr,
      add_sub_cancel_right, found] at here
    exact ⟨addr, join_eq_self.mp (some.inj here)⟩
  · intro sound x
    by_cases visible : 0 ≤ x ∧ x < 2 ^ 64
    · rw [follows.resolveAddress visible, MemoryRegion.resolveAddress, if_pos visible]
      have agree : root.resolve (x - mr.fields.addr) ≠ none ∨
          root.resolve (x - root.fields.addr) ≠ none → mr.fields.addr = root.fields.addr := by
        rintro (found | found)
        all_goals
          obtain ⟨r, mapped⟩ := ne_none_iff_exists'.mp found
          exact (sound _ r mapped (by omega)).1
      by_cases unmapped : root.resolve (x - mr.fields.addr) = none ∧
        root.resolve (x - root.fields.addr) = none
      · rw [unmapped.1, unmapped.2]
        rfl
      · rw [agree (not_and_or.mp unmapped)]
        cases found : root.resolve (x - root.fields.addr) with
        | none => rfl
        | some r => exact congrArg some (join_eq_self.mpr (sound _ r found (by omega)).2)
    · rw [MemoryRegion.resolveAddress, MemoryRegion.resolveAddress, if_neg visible, if_neg visible]

end Share

def romRanges (unmergeable : Bool) : List FlatRange :=
  [⟨1, 0, ⟨0, 0x10000⟩, 0, true, true, false, unmergeable⟩]

end Qemu.Memory
