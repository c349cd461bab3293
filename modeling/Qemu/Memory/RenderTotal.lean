import Qemu.Memory.RenderExact

/-! When rendering fails an assertion: two terminating regions that cover the whole address space,
with nothing rendered before the first of them. -/

namespace Qemu.Memory

open Spans List MemoryRegion

mutual

/-- The visible parts of the terminating regions between two addresses, in the order in which they
are rendered. -/
def MemoryRegion.leaves : MemoryRegion → Int → Int → Int → List (Int × Int)
  | .aliasOf f target, base, low, high =>
    if f.enabled then
      target.leaves (base + f.addr - target.fields.addr - f.aliasOffset) (max (base + f.addr) low)
        (min (base + f.addr + f.size) high)
    else []
  | .region f subregions, base, low, high =>
    if f.enabled then
      let low := max (base + f.addr) low
      let high := min (base + f.addr + f.size) high
      leavesOf subregions (base + f.addr) low high ++
        (if f.terminates ∧ low < high then [(low, high)] else [])
    else []

def leavesOf : List MemoryRegion → Int → Int → Int → List (Int × Int)
  | [], _, _, _ => []
  | subregion :: rest, base, low, high => subregion.leaves base low high ++ leavesOf rest base low high

end

/-- All addresses. -/
def wholeSpace : Int × Int := (0, 2 ^ 64)

/-- The first region that is visible covers everything, and so does another one behind it. -/
def MemoryRegion.FullTwice (mr : MemoryRegion) : Prop :=
  (mr.leaves 0 0 (2 ^ 64)).head? = some wholeSpace ∧ wholeSpace ∈ (mr.leaves 0 0 (2 ^ 64)).tail

instance (mr : MemoryRegion) : Decidable mr.FullTwice := inferInstanceAs (Decidable (_ ∧ _))

mutual

theorem MemoryRegion.leaves_empty (mr : MemoryRegion) (empty : high ≤ low) :
    mr.leaves base low high = [] := by
  match mr with
  | .aliasOf f target =>
    rw [leaves]
    split
    · exact target.leaves_empty (by omega)
    · rfl
  | .region f subregions =>
    rw [leaves]
    split
    · have narrower : ¬ max (base + f.addr) low < min (base + f.addr + f.size) high := by omega
      simp only [narrower, and_false, if_false, append_nil]
      exact leavesOf_empty subregions (by omega)
    · rfl

theorem leavesOf_empty (subregions : List MemoryRegion) (empty : high ≤ low) :
    leavesOf subregions base low high = [] := by
  match subregions with
  | [] => rfl
  | subregion :: rest =>
    rw [leavesOf, subregion.leaves_empty empty, leavesOf_empty rest empty]
    rfl

end

/-- What decides whether the next region can be rendered. -/
inductive Stage where
  | empty
  | partly
  | full
  deriving DecidableEq, Repr

def stageOf (view : List FlatRange) : Stage :=
  if view = [] then .empty else if ∃ r ∈ view, r.addr.size = 2 ^ 64 then .full else .partly

/-- The stage after one more visible part. -/
def Stage.next : Stage → Int × Int → Option Stage
  | .empty, part => some (if part = wholeSpace then .full else .partly)
  | .partly, _ => some .partly
  | .full, part => if part = wholeSpace then none else some .full

theorem foldlM_partly (parts : List (Int × Int)) : parts.foldlM Stage.next .partly = some .partly := by
  induction parts with
  | nil => rfl
  | cons part rest ih => exact ih

theorem foldlM_full (parts : List (Int × Int)) :
    parts.foldlM Stage.next .full = if wholeSpace ∈ parts then none else some .full := by
  induction parts with
  | nil => rfl
  | cons part rest ih => ?_
  rw [foldlM_cons, Stage.next]
  by_cases whole : part = wholeSpace
  · rw [if_pos whole, if_pos (by simp [whole])]
    rfl
  · rw [if_neg whole]
    refine ih.trans ?_
    simp [Ne.symm whole]

theorem foldlM_empty_eq_none (parts : List (Int × Int)) :
    parts.foldlM Stage.next .empty = none ↔ parts.head? = some wholeSpace ∧ wholeSpace ∈ parts.tail := by
  cases parts with
  | nil => simp
  | cons part rest => ?_
  rw [foldlM_cons, Stage.next]
  by_cases whole : part = wholeSpace
  · rw [if_pos whole]
    refine (iff_of_eq (congrArg (· = none) (foldlM_full rest))).trans ?_
    simp [whole]
  · rw [if_neg whole]
    refine (iff_of_eq (congrArg (· = none) (foldlM_partly rest))).trans ?_
    simp [whole]

variable {view : List FlatRange}

theorem stageOf_eq_full : stageOf view = .full ↔ ∃ r ∈ view, r.addr.size = 2 ^ 64 := by
  rw [stageOf]
  split
  · simp_all
  · split <;> simp_all

theorem stageOf_of_mem (member : r ∈ view)
    (partly : ¬ ∃ r ∈ view, r.addr.size = 2 ^ 64) : stageOf view = .partly := by
  rw [stageOf, if_neg (ne_nil_of_mem member), if_neg partly]

section Gaps

/-- The stage after the gaps of a view were filled. -/
theorem stageOf_fill (positive : 0 < remain) (below : base + remain ≤ 2 ^ 64)
    (nonneg : 0 ≤ base) (before : ValidView view)
    (valid : ValidView (flatLayout.fill (gapPiece f flags origin) view base (base + remain)))
    (fits : ¬ (remain = 2 ^ 64 ∧ ∃ r ∈ view, r.addr.size = 2 ^ 64)) :
    (stageOf view).next (base, base + remain) =
      some (stageOf (flatLayout.fill (gapPiece f flags origin) view base (base + remain))) := by
  have whole : (base, base + remain) = wholeSpace ↔ remain = 2 ^ 64 := by
    simp only [wholeSpace, Prod.mk.injEq]
    omega
  cases view with
  | nil =>
    have room : base < base + remain := by omega
    rw [Layout.fill, if_pos room, stageOf, if_pos rfl, Stage.next, stageOf, if_neg (cons_ne_nil _ _)]
    have size : (∃ r ∈ [gapPiece f flags origin base (base + remain)], r.addr.size = 2 ^ 64) ↔
      remain = 2 ^ 64 := by
      simp [gapPiece, Fields.flatRange]
    simp only [whole, size]
  | cons head rest =>
    have kept := @subset_fill _ _ flatLayout _ base (base + remain) (gapPiece f flags origin)
      before.ordered.nonempty
    by_cases full : ∃ r ∈ head :: rest, r.addr.size = 2 ^ 64
    · have smaller : ¬ (base, base + remain) = wholeSpace := fun same => fits ⟨whole.mp same, full⟩
      obtain ⟨r, member, size⟩ := full
      rw [stageOf_eq_full.mpr ⟨r, member, size⟩, Stage.next, if_neg smaller,
        stageOf_eq_full.mpr ⟨r, kept member, size⟩]
    · rw [stageOf_of_mem mem_cons_self full, Stage.next, stageOf_of_mem (kept mem_cons_self)]
      rintro ⟨r, member, size⟩
      have same := valid.full_only member size (kept mem_cons_self)
      exact full ⟨head, mem_cons_self, same ▸ size⟩

end Gaps

/-- What comes of rendering, by the stage of the view. -/
def Outcome (stage : Option Stage) (result : Except Assertion (List FlatRange))
    (holds : List FlatRange → Prop) : Prop :=
  match stage with
  | none => result = .error .int128Get64
  | some stage => ∃ view, result = .ok view ∧ holds view ∧ stageOf view = stage

/-- The ranges of a view end at given addresses. -/
def EndsAt (ends : List Int) (view : List FlatRange) : Prop := ∀ r ∈ view, flatLayout.lo r ∈ ends ∧
    flatLayout.hi r ∈ ends

/-- The new ranges of a view end where other ranges do or at an end of a visible part. -/
def Cuts (parts : List (Int × Int)) (view view' : List FlatRange) : Prop :=
  ∀ ends, EndsAt ends view → (∀ part ∈ parts, part.1 ∈ ends ∧ part.2 ∈ ends) → EndsAt ends view'

/-- The map of the region is added where the view has nothing yet, unless a visible part cannot be
rendered. -/
def RendersTo (map : Int → Option Resolved) (clip : AddrRange) (flags : Flags) (view : List FlatRange)
    (parts : List (Int × Int)) (result : Except Assertion (List FlatRange)) : Prop :=
  Outcome (parts.foldlM Stage.next (stageOf view)) result fun view' =>
    Renders map clip flags view view' ∧ Cuts parts view view'

section Render

variable {map map' : Int → Option Resolved} {clip : AddrRange}

theorem RendersTo.nothing (valid : ValidView view) (nothing : ∀ x, clip.Has x → map x = none) :
    RendersTo map clip flags view [] (.ok view) :=
  ⟨view, rfl, ⟨.nothing valid nothing, fun _ old _ => old⟩, rfl⟩

theorem Outcome.imp (outcome : Outcome stage result holds)
    (weaken : ∀ view, holds view → holds' view) : Outcome stage result holds' := by
  cases stage with
  | none => exact outcome
  | some stage =>
    obtain ⟨view, done, held, reached⟩ := outcome
    exact ⟨view, done, weaken view held, reached⟩

/-- One region after the other. -/
theorem RendersTo.bind (first : RendersTo map clip flags view parts result)
    {next : List FlatRange → Except Assertion (List FlatRange)}
    (second : ∀ middle, ValidView middle → RendersTo map' clip flags middle parts' (next middle)) :
    RendersTo (fun x => (map x).or (map' x)) clip flags view (parts ++ parts') (result >>= next) := by
  rw [RendersTo] at first ⊢
  rw [foldlM_append]
  cases arrives : parts.foldlM Stage.next (stageOf view) with
  | none =>
    rw [arrives] at first
    obtain rfl : result = _ := first
    rfl
  | some stage => ?_
  rw [arrives] at first
  obtain ⟨middle, rfl, ⟨rendered, cuts⟩, rfl⟩ := first
  refine (second middle rendered.valid).imp fun view' ⟨more, cuts'⟩ =>
    ⟨⟨more.valid, fun x => ?_⟩, fun ends old new => ?_⟩
  rotate_left
  · obtain ⟨before, after⟩ := forall_mem_append.mp new
    exact cuts' ends (cuts ends old before) after
  rw [more.lookup x, rendered.lookup x, Option.or_assoc]
  congr 1
  by_cases here : clip.Has x
  · rw [if_pos here, if_pos here, if_pos here, ← Option.map_or]
  · rw [if_neg here, if_neg here, if_neg here, Option.or_none]

theorem RendersTo.ok (renders : RendersTo map clip flags view parts (.ok view')) :
    Renders map clip flags view view' ∧ Cuts parts view view' := by
  rw [RendersTo] at renders
  cases arrives : parts.foldlM Stage.next (stageOf view) with
  | none =>
    rw [arrives] at renders
    cases renders
  | some stage =>
    rw [arrives] at renders
    obtain ⟨_, done, rendered, -⟩ := renders
    exact Except.ok.inj done ▸ rendered

variable {f : Fields} {base : Int} (low : -2 ^ 66 ≤ base + f.addr) (high : base + f.addr ≤ 2 ^ 66)
  (clipValid : clip.Clip)
include low high clipValid

/-- Nothing is rendered of a region that is disabled or outside the clip. -/
theorem RendersTo.window (valid : ValidView view)
    (outside : ∀ x, ¬ f.Inside (x - base - f.addr) → map x = none)
    (empty : min (base + f.addr + f.size) (clip.start + clip.size) ≤ max
    (base + f.addr) clip.start → parts = [])
    (inside : f.enabled = true → AddrRange.Clipped ⟨base + f.addr, f.size⟩ clip
      ((⟨base + f.addr, f.size⟩ : AddrRange).addrrangeIntersection clip) →
      RendersTo map clip flags view parts result) :
    RendersTo map clip flags view (if f.enabled then parts else [])
      (if !f.enabled then .ok view
        else if !(⟨base + f.addr, f.size⟩ : AddrRange).addrrangeIntersects clip then .ok view
        else result) := by
  cases enabled : f.enabled with
  | false => exact .nothing valid fun x _ => outside x (by simp [Fields.Inside, enabled])
  | true => ?_
  cases meet : (⟨base + f.addr, f.size⟩ : AddrRange).addrrangeIntersects clip with
  | true => exact inside enabled (Fields.clipped_of_meet low high clipValid meet)
  | false => ?_
  have apart {x : Int} (visible : clip.Has x) :=
    Fields.not_inside_of_apart low high clipValid (Bool.not_eq_true _ ▸ meet) visible
  have none : min (base + f.addr + f.size) (clip.start + clip.size) ≤ max (base + f.addr) clip.start := by
    by_contra room
    exact @apart (max (base + f.addr) clip.start) ⟨by omega, by omega⟩ ⟨enabled, by omega, by omega⟩
  rw [empty none]
  exact .nothing valid fun x visible => outside x (apart visible)

theorem window_eq : ((⟨base + f.addr, f.size⟩ : AddrRange).addrrangeIntersection clip).start +
    ((⟨base + f.addr, f.size⟩ : AddrRange).addrrangeIntersection clip).size =
      min (base + f.addr + f.size) (clip.start + clip.size) := by
  have size : (f.size : Int) ≤ 2 ^ 64 := by exact_mod_cast f.size_le
  rw [AddrRange.addrrangeIntersection_eq low high (Int.natCast_nonneg _) size clipValid]
  exact add_sub_cancel ..

omit low high clipValid

/-- The range of a region itself, after its subregions. -/
theorem RendersTo.own (clipped : AddrRange.Clipped ⟨base + f.addr, f.size⟩ clip now)
    (valid : ValidView view) :
    RendersTo (fun x => if f.terminates then some ⟨f.id, (x - (base + f.addr)).toNat, false, false⟩
    else none) now flags view
      (if f.terminates ∧ now.start < now.start + now.size then [(now.start, now.start + now.size)]
      else [])
      (if !f.terminates then .ok view else int128Get64 (int128Sub now.start (base + f.addr)) >>=
      fun offset =>
        renderGaps (f.flatRange flags) view now.start now.size offset) := by
  cases terminates : f.terminates with
  | false => exact .nothing valid fun _ _ => rfl
  | true => ?_
  have size := f.size_le
  have after : base + f.addr ≤ now.start := clipped.after
  have before : now.start + now.size ≤ base + f.addr + f.size := clipped.before
  have room : now.start < base + f.addr + f.size ∨ now.start = base + f.addr := clipped.room
  obtain ⟨startNonneg, sizeNonneg, last⟩ := clipped.valid
  rw [int128Sub_eq (by omega) (by omega), int128Get64_eq (by omega) (by omega), Checked.ok_bind]
  simp only [true_and]
  by_cases some : now.start < now.start + now.size
  · have rendered := @Renders.fill now flags view f (base + f.addr) valid clipped.valid after (by omega)
    rw [← Nat.mod_eq_of_lt (show (now.start - (base + f.addr)).toNat < 2 ^ 64 by omega),
      if_pos some, RendersTo]
    simp only [foldlM_cons, foldlM_nil, bind_pure]
    by_cases stops : now.size = 2 ^ 64 ∧ ∃ r ∈ view, r.addr.size = 2 ^ 64
    · obtain ⟨all, r, member, full⟩ := stops
      have first : now.start = 0 := by omega
      rw [stageOf_eq_full.mpr ⟨r, member, full⟩, all, first]
      exact renderGaps_full valid member full _ _
    have fits : now.size < 2 ^ 64 ∨ ∀ r ∈ view, r.addr.size < 2 ^ 64 := by
      by_contra! both
      obtain ⟨all, r, member, full⟩ := both
      have bounds := valid.within r member
      simp only [flatLayout] at bounds
      exact stops ⟨by omega, r, member, by omega⟩
    rw [stageOf_fill (by omega) last startNonneg valid rendered.valid stops]
    refine ⟨_, renderGaps_eq_fill valid after startNonneg sizeNonneg last fits,
      ⟨rendered, fun ends old new => ?_⟩, rfl⟩
    obtain ⟨first, last⟩ := forall_mem_singleton.mp new
    exact ends_fill (gapPiece_pieces f flags _) after (by omega) valid.ordered old first last
  · obtain none : now.size = 0 := by omega
    rw [if_neg some]
    have unchanged : renderGaps (f.flatRange flags) view now.start now.size
      (now.start - (base + f.addr)).toNat = .ok view := by
      rw [none]
      cases view <;> rfl
    rw [unchanged]
    exact .nothing valid fun x here => absurd here (by simp only [AddrRange.Has]; omega)

end Render

mutual

theorem renderMemoryRegion_renders (mr : MemoryRegion) {base : Int} {clip : AddrRange}
    {flags : Flags} {view : List FlatRange} (low : -2 ^ 66 ≤ base + mr.fields.addr)
    (high : base + mr.fields.addr ≤ 2 ^ 66) (clipValid : clip.Clip) (valid : ValidView view) :
    RendersTo (fun x => mr.resolve (x - base - mr.fields.addr)) clip flags view
      (mr.leaves base clip.start (clip.start + clip.size))
      (renderMemoryRegion mr base clip flags view) := by
  match mr with
  | .aliasOf f target =>
    change -2 ^ 66 ≤ base + f.addr at low
    change base + f.addr ≤ 2 ^ 66 at high
    rw [renderMemoryRegion, int128Add_eq (by omega) (by omega), leaves]
    refine .window low high clipValid valid (fun x away => if_neg away)
      (fun empty => target.leaves_empty empty) fun enabled clipped => ?_
    have below : -2 ^ 64 < base + f.addr := clipped.low
    have above : base + f.addr ≤ 2 ^ 64 := clipped.high
    have offset := f.aliasOffset_lt
    have targetAddr := target.fields.addr_lt
    have firstSub : int128Sub (base + f.addr) target.fields.addr = base + f.addr - target.fields.addr :=
      int128Sub_eq (by omega) (by omega)
    dsimp only
    rw [firstSub, int128Sub_eq (by omega) (by omega), ← window_eq low high clipValid]
    refine (renderMemoryRegion_renders target (by omega) (by omega) clipped.valid valid).imp
      fun view' ⟨inner, cuts⟩ => ⟨?_, cuts⟩
    refine inner.of_clipped enabled clipped (fun x here => ?_) (fun x away => if_neg away)
    refine (if_pos here).trans ?_
    congr 2
    simp only [fields]
    ring
  | .region f subregions =>
    change -2 ^ 66 ≤ base + f.addr at low
    change base + f.addr ≤ 2 ^ 66 at high
    rw [renderMemoryRegion, int128Add_eq (by omega) (by omega), leaves]
    refine .window low high clipValid valid (fun x away => if_neg away)
      (fun empty => ?_) fun enabled clipped => ?_
    · dsimp only
      rw [leavesOf_empty subregions empty, if_neg (fun both => absurd both.2 (not_lt.mpr empty))]
      rfl
    dsimp only
    rw [← window_eq low high clipValid]
    have children := @renderSubregions_renders subregions (base + f.addr) _
      (flags.join f.flags) view clipped.low clipped.high clipped.valid valid
    refine (children.bind fun middle middleValid => .own clipped middleValid).imp
      fun view' ⟨inner, cuts⟩ => ⟨?_, cuts⟩
    refine inner.of_clipped enabled clipped (fun x here => ?_) (fun x away => if_neg away)
    refine (if_pos here).trans ?_
    simp [fields, sub_sub]

theorem renderSubregions_renders (subregions : List MemoryRegion) {base : Int} {clip : AddrRange}
    {flags : Flags}
    {view : List FlatRange} (low : -2 ^ 64 < base) (high : base ≤ 2 ^ 64) (clipValid : clip.Clip)
    (valid : ValidView view) :
    RendersTo (fun x => resolveFirst subregions (x - base)) clip flags view
      (leavesOf subregions base clip.start (clip.start + clip.size))
      (renderSubregions subregions base clip flags view) := by
  match subregions with
  | [] => exact .nothing valid fun _ _ => rfl
  | subregion :: rest =>
    have addr := subregion.fields.addr_lt
    exact (renderMemoryRegion_renders subregion (by omega) (by omega) clipValid valid).bind
      fun middle middleValid =>
      renderSubregions_renders rest low high clipValid middleValid

end

/-- Rendering a root fails exactly if two regions each fill the address space, the first of them
into an empty view. -/
theorem renderTopology_total (mr : MemoryRegion) :
    (mr.FullTwice → renderTopology (some mr) = .error .int128Get64) ∧
      (¬ mr.FullTwice → ∃ ranges, renderTopology (some mr) = .ok ranges) := by
  have addr := mr.fields.addr_lt
  have renders := @renderMemoryRegion_renders mr 0 ⟨0, 2 ^ 64⟩ ⟨false, false, false⟩ [] (by omega)
    (by omega) ⟨le_rfl, by decide, by decide⟩ validView_nil
  rw [show (0 : Int) + 2 ^ 64 = 2 ^ 64 from rfl, RendersTo, show stageOf [] = .empty from rfl] at renders
  rw [MemoryRegion.FullTwice, ← foldlM_empty_eq_none, renderTopology]
  cases stage : (mr.leaves 0 0 (2 ^ 64)).foldlM Stage.next .empty with
  | none =>
    rw [stage] at renders
    dsimp only at renders ⊢
    rw [renders]
    exact ⟨fun _ => rfl, absurd rfl⟩
  | some last =>
    rw [stage] at renders
    obtain ⟨view, done, -⟩ := renders
    dsimp only
    rw [done]
    exact ⟨nofun, fun _ => ⟨_, rfl⟩⟩

end Qemu.Memory
