import Qemu.Memory.ListenersExact

/-! What a listener hears of coalesced ranges: while it is registered, when it is registered after
the view was made, and when it is unregistered. -/

namespace Qemu.Memory

open List Callback

/-- `flat_range_coalesced_io_notify_listener_add_del`: it returns at a range that is not shown. -/
def coalescedIoNotifyListener (call : MemoryRegionSection → AddrRange → Callback)
    (mrs : MemoryRegionSection) (fr : FlatRange) : List AddrRange → List Callback
  | [] => []
  | cmr :: rest =>
    match shownPart fr cmr with
    | none => []
    | some tmp => call mrs tmp :: coalescedIoNotifyListener call mrs fr rest

/-- The calls for the ranges of a view and their sections. -/
def forEachFlatRange (calls : FlatRange → MemoryRegionSection → List Callback) :
    List FlatRange → Except Assertion (List Callback)
  | [] => .ok []
  | fr :: view => do
    let s ← sectionFromFlatRange fr
    return calls fr s ++ (← forEachFlatRange calls view)

def listenerAddAddressSpace (coalesced : Nat → List AddrRange) (view : List FlatRange) :
    Except Assertion (List Callback) :=
  forEachFlatRange (fun fr s => .regionAdd s :: coalescedIoNotifyListener .coalescedIoAdd s fr
    (coalesced fr.mr) ++ if fr.dirtyLogMask ≠ 0 then [.logStart s 0 fr.dirtyLogMask] else []) view

def listenerDelAddressSpace (coalesced : Nat → List AddrRange) (view : List FlatRange) :
    Except Assertion (List Callback) :=
  forEachFlatRange (fun fr s => (if fr.dirtyLogMask ≠ 0 then [.logStop s fr.dirtyLogMask 0] else []) ++
    coalescedIoNotifyListener .coalescedIoDel s fr (coalesced fr.mr) ++ [.regionDel s]) view

abbrev CoalescedIo := MemoryRegionSection × AddrRange

/-- What a listener knows after a call. -/
def Callback.keep (told : Set CoalescedIo) : Callback → Set CoalescedIo
  | .coalescedIoAdd s addr => insert (s, addr) told
  | .coalescedIoDel s addr => told \ {(s, addr)}
  | _ => told

def shownParts (coalesced : Nat → List AddrRange) (fr : FlatRange) : List AddrRange :=
  (coalesced fr.mr).filterMap (shownPart fr)

/-- The parts before the first coalesced range that is not shown. -/
def firstParts (coalesced : Nat → List AddrRange) (fr : FlatRange) : List AddrRange :=
  ((coalesced fr.mr).takeWhile fun cmr => (shownPart fr cmr).isSome).filterMap (shownPart fr)

def shownBy (parts : FlatRange → List AddrRange) (view : List FlatRange) : Set CoalescedIo :=
  {x | ∃ fr ∈ view, rangeSection fr = x.1 ∧ x.2 ∈ parts fr}

variable {coalesced : Nat → List AddrRange} {old new view : List FlatRange} {fr : FlatRange}
  {calls : List Callback} {x : CoalescedIo}

theorem flatRangeCoalescedIo_eq : flatRangeCoalescedIo call s fr (coalesced fr.mr) =
    (shownParts coalesced fr).map (call s) := by
  rw [shownParts, map_filterMap, flatRangeCoalescedIo]

theorem coalescedIoNotifyListener_eq : coalescedIoNotifyListener call s fr (coalesced fr.mr) =
    (firstParts coalesced fr).map (call s) := by
  rw [firstParts]
  induction coalesced fr.mr with
  | nil => rfl
  | cons cmr rest ih =>
    cases found : shownPart fr cmr with
    | none => simp [coalescedIoNotifyListener, found]
    | some tmp => simp [coalescedIoNotifyListener, found, ih]

theorem forEachFlatRange_eq (valid : ValidView view)
    {calls : FlatRange → MemoryRegionSection → List Callback} :
    forEachFlatRange calls view = .ok (view.flatMap fun fr => calls fr (rangeSection fr)) := by
  induction view with
  | nil => rfl
  | cons fr rest ih =>
    rw [forEachFlatRange, sectionFromFlatRange_eq valid mem_cons_self, ih valid.tail]
    rfl

/-- Calls that only add, or only take back. -/
theorem mem_foldl_keep
    (apart : ∀ y z : CoalescedIo, .coalescedIoAdd y.1 y.2 ∈ calls → .coalescedIoDel z.1 z.2 ∉ calls) :
    x ∈ calls.foldl keep told ↔ x ∈ told ∧ .coalescedIoDel x.1 x.2 ∉ calls ∨
    .coalescedIoAdd x.1 x.2 ∈ calls := by
  induction calls generalizing told with
  | nil => simp
  | cons call rest ih => ?_
  rw [foldl_cons, ih fun y z add del => apart y z (mem_cons_of_mem _ add) (mem_cons_of_mem _ del)]
  cases call with
  | coalescedIoAdd s addr =>
    have noDel := apart (s, addr) x mem_cons_self
    simp only [mem_cons, not_or] at noDel
    simp [keep, noDel.2, Prod.ext_iff, or_assoc, or_left_comm]
  | coalescedIoDel s addr => simp [keep, Prod.ext_iff, and_assoc]
  | _ => simp [keep]

theorem flatrangeEqual_parts (same : flatrangeEqual a b = true) :
    shownParts coalesced a = shownParts coalesced b := by
  simp only [flatrangeEqual, Bool.and_eq_true, decide_eq_true_eq] at same
  have parts : shownPart a = shownPart b := by
    funext cmr
    simp [shownPart, same]
  simp [shownParts, same, parts]

/-- The pass that adds: ranges that are kept make no calls. -/
theorem adding_calls : .coalescedIoDel x.1 x.2 ∉ allCalls coalesced (new.map (classify old)) ∧
    (.coalescedIoAdd x.1 x.2 ∈ allCalls coalesced (new.map (classify old)) ↔
      ∃ b ∈ new, (∀ a ∈ old, flatrangeEqual a b = false) ∧ rangeSection b = x.1 ∧
      x.2 ∈ shownParts coalesced b) := by
  simp only [allCalls, flatMap_map, mem_flatMap]
  have each : ∀ b, .coalescedIoDel x.1 x.2 ∉ (classify old b).calls coalesced
      (rangeSection (classify old b).range) ∧
      (.coalescedIoAdd x.1 x.2 ∈ (classify old b).calls coalesced (rangeSection (classify old b).range) ↔
        (∀ a ∈ old, flatrangeEqual a b = false) ∧ rangeSection b = x.1 ∧
        x.2 ∈ shownParts coalesced b) := by
    intro b
    rcases classify_cases old b with ⟨a, isOld, same, kept⟩ | ⟨fresh, added⟩
    · have stays : ¬ ∀ a ∈ old, flatrangeEqual a b = false := fun fresh => by simp [fresh a isOld] at same
      simp [kept, Change.calls, logCalls, stays]
    · simpa [added, Change.calls, Change.range, flatRangeCoalescedIo_eq, and_comm] using fun _ _ => fresh
  simp [each]

/-- A listener that is there when the view changes goes from the parts of the old view to those of
the new one. -/
theorem keep_topology (validOld : ValidView old) :
    (allCalls coalesced ((gone old new).map .removed) ++
    allCalls coalesced (new.map (classify old))).foldl keep
      (shownBy (shownParts coalesced) old) = shownBy (shownParts coalesced) new := by
  ext x
  have noAdd : ∀ y : CoalescedIo, .coalescedIoAdd y.1 y.2 ∉ allCalls coalesced
    ((gone old new).map .removed) := by
    simp [allCalls, Change.calls, flatRangeCoalescedIo_eq]
  have removed : .coalescedIoDel x.1 x.2 ∈ allCalls coalesced ((gone old new).map .removed) ↔
      x ∈ shownBy (shownParts coalesced) (gone old new) := by
    simp [allCalls, Change.calls, Change.range, flatRangeCoalescedIo_eq, shownBy, and_comm]
  rw [foldl_append, mem_foldl_keep fun _ _ _ => adding_calls.1,
    mem_foldl_keep fun y _ add => absurd add (noAdd y)]
  simp only [noAdd, adding_calls, removed, not_false_eq_true, and_true, or_false]
  constructor
  · rintro (⟨⟨a, isOld, here, part⟩, stays⟩ | ⟨b, isNew, -, here, part⟩)
    · by_contra absent
      refine stays ⟨a, mem_gone.mpr ⟨isOld, fun b isNew => Bool.eq_false_iff.mpr fun same =>
        absent ?_⟩, here, part⟩
      exact ⟨b, isNew, (flatrangeEqual_section same).symm.trans here, flatrangeEqual_parts same ▸ part⟩
    · exact ⟨b, isNew, here, part⟩
  · rintro ⟨b, isNew, here, part⟩
    rcases classify_cases old b with ⟨a, isOld, same, -⟩ | ⟨fresh, -⟩
    · have here' := (flatrangeEqual_section same).trans here
      refine .inl ⟨⟨a, isOld, here', (flatrangeEqual_parts same).symm ▸ part⟩, ?_⟩
      rintro ⟨fr, isGone, there, -⟩
      obtain ⟨frOld, different⟩ := mem_gone.mp isGone
      obtain rfl := validOld.rangeSection_inj frOld isOld (there.trans here'.symm)
      exact Bool.eq_false_iff.mp (different b isNew) same
    · exact .inr ⟨b, isNew, fresh, here, part⟩

/-- A coalesced range that is shown does not stand behind one that is not, unless an earlier one
shows the same part. -/
def InOrder (fr : FlatRange) (coalesced : List AddrRange) : Prop :=
  ∀ before hidden after, coalesced = before ++ hidden :: after → shownPart fr hidden = none →
    ∀ cmr ∈ after, ∀ part, shownPart fr cmr = some part →
    ∃ earlier ∈ before, shownPart fr earlier = some part

theorem mem_before_of_mem_takeWhile {p : α → Bool} {before : List α} (stops : p stop = false)
    (member : element ∈ (before ++ stop :: rest).takeWhile p) : element ∈ before := by
  induction before with
  | nil => simp [stops] at member
  | cons first rest ih =>
    rw [cons_append, takeWhile_cons] at member
    split at member
    · exact mem_cons.mpr ((mem_cons.mp member).imp_right ih)
    · contradiction

theorem parts_subset_iff : shownParts coalesced fr ⊆ firstParts coalesced fr ↔
    InOrder fr (coalesced fr.mr) := by
  rw [shownParts, firstParts]
  generalize coalesced fr.mr = ranges
  constructor
  · rintro subset before hidden after rfl unseen cmr later part shown
    have told := subset (mem_filterMap.mpr ⟨cmr, by simp [later], shown⟩)
    obtain ⟨earlier, first, same⟩ := mem_filterMap.mp told
    exact ⟨earlier, mem_before_of_mem_takeWhile (by simp [unseen]) first, same⟩
  · intro ordered part told
    obtain ⟨cmr, member, shown⟩ := mem_filterMap.mp told
    set seen := fun cmr => (shownPart fr cmr).isSome
    rw [← takeWhile_append_dropWhile (p := seen) (l := ranges)] at member
    rcases mem_append.mp member with first | later
    · exact mem_filterMap.mpr ⟨cmr, first, shown⟩
    cases rest : ranges.dropWhile seen with
    | nil => simp [rest] at later
    | cons hidden after => ?_
    have unseen : ¬ seen hidden = true := by
      have stops := head_dropWhile_not seen (l := ranges) (by simp [rest])
      simpa [rest] using stops
    have behind : cmr ∈ after := by
      rw [rest] at later
      refine (mem_cons.mp later).resolve_left ?_
      rintro rfl
      exact unseen (by simp [seen, shown])
    obtain ⟨earlier, first, same⟩ := ordered (ranges.takeWhile seen) hidden after
      (by rw [← rest, takeWhile_append_dropWhile]) (by simpa [seen] using unseen) cmr behind part shown
    exact mem_filterMap.mpr ⟨earlier, first, same⟩

/-- A late listener is told the same as one that was there, and unregistering takes back what either
was told, exactly if no range of the view shows a coalesced range after one that it does not
show. -/
theorem lateListener_iff (coalesced : Nat → List AddrRange) (old new : List FlatRange)
    (validOld : ValidView old) (validNew : ValidView new) : ∃ removing adding adds dels,
      addressSpaceUpdateTopologyPass coalesced old new false = .ok removing ∧
      addressSpaceUpdateTopologyPass coalesced old new true = .ok adding ∧
      listenerAddAddressSpace coalesced new = .ok adds ∧ listenerDelAddressSpace coalesced new =
      .ok dels ∧ let present := (removing ++ adding).foldl keep (shownBy (shownParts coalesced) old)
      let late := adds.foldl keep ∅
      ((late = present ∧ ∀ x ∈ present ∪ late, .coalescedIoDel x.1 x.2 ∈ dels) ↔
        ∀ fr ∈ new, InOrder fr (coalesced fr.mr)) := by
  refine ⟨_, _, _, _, updateTopology_removing validOld validNew, updateTopology_adding validOld validNew,
    forEachFlatRange_eq validNew, forEachFlatRange_eq validNew, ?_⟩
  dsimp only
  rw [keep_topology validOld]
  generalize wholeAdds : new.flatMap _ = adds
  generalize wholeDels : new.flatMap _ = dels
  have late : adds.foldl keep ∅ = shownBy (firstParts coalesced) new := by
    ext x
    rw [← wholeAdds, mem_foldl_keep]
    · simp [coalescedIoNotifyListener_eq, shownBy, and_comm]
    · simp [coalescedIoNotifyListener_eq]
  have taken : ∀ x : CoalescedIo, .coalescedIoDel x.1 x.2 ∈ dels ↔
    x ∈ shownBy (firstParts coalesced) new := by
    simp [← wholeDels, coalescedIoNotifyListener_eq, shownBy, and_comm]
  rw [late]
  constructor
  · rintro ⟨same, -⟩ fr isNew
    refine parts_subset_iff.mp fun addr part => ?_
    obtain ⟨fr', isNew', here, part'⟩ := same.symm.subset
      (⟨fr, isNew, rfl, part⟩ : (rangeSection fr, addr) ∈ shownBy _ _)
    rwa [validNew.rangeSection_inj isNew' isNew here] at part'
  · intro first
    have same : shownBy (firstParts coalesced) new = shownBy (shownParts coalesced) new := by
      refine Set.Subset.antisymm ?_ ?_
      · rintro x ⟨fr, isNew, here, part⟩
        exact ⟨fr, isNew, here, ((takeWhile_sublist _).filterMap _).subset part⟩
      · rintro x ⟨fr, isNew, here, part⟩
        exact ⟨fr, isNew, here, parts_subset_iff.mpr (first fr isNew) part⟩
    refine ⟨same, fun x told => (taken x).mpr ?_⟩
    rw [same]
    rwa [same, Set.union_self] at told

/-- A device that is mapped twice, the second time in part, and another one, each with coalesced
ranges. -/
def twoDevices : List FlatRange :=
  [⟨1, 0, ⟨0x1000, 0x1000⟩, 0, true, false, false, false⟩,
    ⟨2, 0, ⟨0x2000, 0x1000⟩, 0, true, false, false, false⟩,
    ⟨1, 0, ⟨0x3000, 0x28⟩, 0, true, false, false, false⟩]

def deviceRanges (mr : Nat) : List AddrRange :=
  if mr = 1 then [⟨0x20, 0x10⟩, ⟨0x40, 0x10⟩, ⟨0x2000, 0x10⟩] else [⟨0, 8⟩, ⟨0x800, 0x1000⟩]

/-- The part that a call announces. -/
def Callback.added : Callback → Option AddrRange
  | .coalescedIoAdd _ part => some part
  | _ => none

theorem lateListener_iff_twoDevices : ∃ removing adding adds dels,
    addressSpaceUpdateTopologyPass deviceRanges [] twoDevices false = .ok removing ∧
    addressSpaceUpdateTopologyPass deviceRanges [] twoDevices true = .ok adding ∧
    listenerAddAddressSpace deviceRanges twoDevices = .ok adds ∧
    listenerDelAddressSpace deviceRanges twoDevices = .ok dels ∧
    adds.filterMap Callback.added =
      [⟨0x1020, 0x10⟩, ⟨0x1040, 0x10⟩, ⟨0x2000, 8⟩, ⟨0x2800, 0x800⟩, ⟨0x3020, 8⟩] ∧
    let present := (removing ++ adding).foldl keep (shownBy (shownParts deviceRanges) [])
    let late := adds.foldl keep ∅
    late = present ∧ ∀ x ∈ present ∪ late, .coalescedIoDel x.1 x.2 ∈ dels := by
  have valid : ValidView twoDevices := by
    refine ⟨?_, by rw [Spans.Layout.Within]; decide, by decide⟩
    simp only [twoDevices, Spans.ordered_cons, Spans.ordered_nil]
    decide
  obtain ⟨removing, adding, adds, dels, removed, added, told, taken, exact⟩ :=
    lateListener_iff deviceRanges [] twoDevices validView_nil valid
  refine ⟨removing, adding, adds, dels, removed, added, told, taken, ?_, exact.mpr fun fr member => ?_⟩
  · have calls : listenerAddAddressSpace deviceRanges twoDevices = .ok _ := rfl
    cases told.symm.trans calls
    rfl
  · refine parts_subset_iff.mp ?_
    revert fr
    decide

/-- A region with two coalesced ranges of which the view shows the second. -/
theorem lateListener_misses :
    let fr : FlatRange := ⟨1, 0, ⟨0, 0x1000⟩, 0, true, false, false, false⟩
    let coalesced : Nat → List AddrRange := fun _ => [⟨0x2000, 0x10⟩, ⟨0x20, 0x10⟩]
    addressSpaceUpdateTopologyPass coalesced [] [fr] true =
        .ok [.regionAdd (rangeSection fr), .coalescedIoAdd (rangeSection fr) ⟨0x20, 0x10⟩] ∧
      listenerAddAddressSpace coalesced [fr] = .ok [.regionAdd (rangeSection fr)] ∧
      listenerDelAddressSpace coalesced [fr] = .ok [.regionDel (rangeSection fr)] := by
  refine ⟨?_, rfl, rfl⟩
  rw [addressSpaceUpdateTopologyPass, symmetricDifference, symmetricDifference]
  rfl

end Qemu.Memory
