import Qemu.Memory.Listeners

namespace Qemu.Memory

open Spans MemoryRegionSection List Callback

variable {coalesced : Nat → List AddrRange} {old new : List FlatRange} {a b : FlatRange}

section

variable (valid : ValidView new) (member : a ∈ new) (member' : b ∈ new)
include valid member member'

theorem ValidView.apart (different : a ≠ b) :
    (rangeSection a).Apart (rangeSection b) := by
  have bounds := valid.bounds member
  have bounds' := valid.bounds member'
  have apart := valid.ordered.apart member member' different
  simp only [flatLayout] at apart
  simp only [Apart, MemoryRegionSection.stop, rangeSection]
  omega

theorem ValidView.rangeSection_inj
    (same : rangeSection a = rangeSection b) : a = b := by
  by_contra different
  have apart := valid.apart member member' different
  have bounds := valid.bounds member'
  rw [same] at apart
  simp only [Apart, MemoryRegionSection.stop, rangeSection] at apart
  omega

end

theorem ValidView.nodup (valid : ValidView new) : new.Nodup := by
  refine valid.ordered.sorted.imp_of_mem fun {a b} member _ before same => ?_
  have nonempty := valid.ordered.nonempty a member
  rw [← same] at before
  omega

theorem ValidView.starts_before (valid : ValidView (a :: new)) :
    ∀ b ∈ new, a.addr.start < b.addr.start := by
  intro b member
  obtain ⟨nonempty, before, -⟩ := ordered_cons.mp valid.ordered
  exact lt_of_lt_of_le nonempty (before b member)

theorem flatrangeEqual_section (same : flatrangeEqual a b = true) : rangeSection a = rangeSection b := by
  simp only [flatrangeEqual, Bool.and_eq_true, decide_eq_true_eq] at same
  simp [rangeSection, same]

theorem flatrangeEqual_start (same : flatrangeEqual a b = true) : a.addr.start = b.addr.start := by
  simp only [flatrangeEqual, Bool.and_eq_true, decide_eq_true_eq] at same
  rw [same.1.1.1.1.1.2]

/-- What the loop does with a range of the new view. -/
def classify (old : List FlatRange) (b : FlatRange) : Change :=
  match old.find? (flatrangeEqual · b) with
  | some a => .kept a b
  | none => .added b

/-- The ranges that are in the old view only. -/
def gone (old new : List FlatRange) : List FlatRange := old.filter fun a => !new.any (flatrangeEqual a)

theorem mem_gone : a ∈ gone old new ↔ a ∈ old ∧ ∀ b ∈ new, flatrangeEqual a b = false := by simp [gone]

/-- The branches of the loop, by the pass that acts on them. -/
structure Difference (old new : List FlatRange) (changes : List Change) : Prop where
  removed : changes.filter (·.adding = false) = (gone old new).map .removed
  others : changes.filter (·.adding = true) = new.map (classify old)

theorem map_classify_cons (absent : ∀ b ∈ new, flatrangeEqual a b = false) :
    new.map (classify (a :: old)) = new.map (classify old) := by
  refine map_congr_left fun b member => ?_
  rw [classify, find?_cons_of_neg (by simp [absent b member]), classify]

theorem gone_cons_new (fresh : ∀ a ∈ old, flatrangeEqual a b = false) :
    gone old (b :: new) = gone old new := by
  refine filter_congr fun a member => ?_
  rw [any_cons, fresh a member, Bool.false_or]

section Cons

variable {changes : List Change} (more : Difference old new changes)
include more

theorem Difference.cons_removed (absent : ∀ b ∈ new, flatrangeEqual a b = false) :
    Difference (a :: old) new (.removed a :: changes) where
  removed := by
    rw [filter_cons_of_pos rfl, more.removed, gone, gone,
      filter_cons_of_pos (by simpa using absent), map_cons]
  others := by rw [filter_cons_of_neg (by simp [Change.adding]), more.others, map_classify_cons absent]

theorem Difference.cons_added (fresh : ∀ a ∈ old, flatrangeEqual a b = false) :
    Difference old (b :: new) (.added b :: changes) where
  removed := by rw [filter_cons_of_neg (by simp [Change.adding]), more.removed, gone_cons_new fresh]
  others := by
    have isNew : classify old b = .added b := by rw [classify, find?_eq_none.mpr (by simpa using fresh)]
    rw [filter_cons_of_pos rfl, more.others, map_cons, isNew]

theorem Difference.cons_kept (same : flatrangeEqual a b = true)
    (absent : ∀ b ∈ new, flatrangeEqual a b = false)
    (fresh : ∀ a ∈ old, flatrangeEqual a b = false) :
    Difference (a :: old) (b :: new) (.kept a b :: changes) where
  removed := by
    rw [filter_cons_of_neg (by simp [Change.adding]), more.removed, ← gone_cons_new fresh, gone, gone,
      filter_cons_of_neg (by simp [same])]
  others := by
    have stays : classify (a :: old) b = .kept a b := by rw [classify, find?_cons_of_pos (by exact same)]
    rw [filter_cons_of_pos rfl, more.others, map_cons, stays, map_classify_cons absent]

end Cons

/-- Ranges with different starts are different. -/
theorem flatrangeEqual_of_lt (before : a.addr.start < b.addr.start) :
    flatrangeEqual a b = false ∧ flatrangeEqual b a = false :=
  ⟨Bool.eq_false_iff.mpr fun same => before.ne (flatrangeEqual_start same),
    Bool.eq_false_iff.mpr fun same => before.ne' (flatrangeEqual_start same)⟩

theorem symmetricDifference_difference (validOld : ValidView old) (validNew : ValidView new) :
    Difference old new (symmetricDifference old new) := by
  induction old, new using symmetricDifference.induct with
  | case1 =>
    rw [symmetricDifference]
    exact ⟨rfl, rfl⟩
  | case2 frnew new ih =>
    rw [symmetricDifference]
    exact (ih validOld validNew.tail).cons_added nofun
  | case3 frold old ih =>
    rw [symmetricDifference]
    exact (ih validOld.tail validNew).cons_removed nofun
  | case4 frold old frnew new first ih =>
    rw [symmetricDifference, if_pos first]
    refine (ih validOld.tail validNew).cons_removed (forall_mem_cons.mpr ⟨?_, fun b member => ?_⟩)
    · rcases first with before | ⟨-, different⟩
      · exact (flatrangeEqual_of_lt before).1
      · simpa using different
    · have later := validNew.starts_before b member
      exact (flatrangeEqual_of_lt (by omega)).1
  | case5 frold old frnew new first same ih =>
    rw [symmetricDifference, if_neg first, if_pos same]
    have start := flatrangeEqual_start same
    refine (ih validOld.tail validNew.tail).cons_kept same (fun b member => ?_) fun a member => ?_
    · exact (flatrangeEqual_of_lt (start ▸ validNew.starts_before b member)).1
    · exact (flatrangeEqual_of_lt (start ▸ validOld.starts_before a member)).2
  | case6 frold old frnew new first different ih =>
    rw [symmetricDifference, if_neg first, if_neg different]
    have before : frnew.addr.start < frold.addr.start := by
      simp only [different, Bool.not_false, and_true] at first
      omega
    refine (ih validOld validNew.tail).cons_added (forall_mem_cons.mpr ⟨?_, fun a member => ?_⟩)
    · exact (flatrangeEqual_of_lt before).2
    · exact (flatrangeEqual_of_lt (before.trans (validOld.starts_before a member))).2

/-- The calls of a list of branches. -/
def allCalls (coalesced : Nat → List AddrRange) (changes : List Change) : List Callback :=
  changes.flatMap fun change => change.calls coalesced (rangeSection change.range)

theorem runChanges_eq (valid : ValidView new) (known : ∀ change ∈ changes, change.range ∈ new) :
    runChanges coalesced changes = .ok (allCalls coalesced changes) := by
  induction changes with
  | nil => rfl
  | cons change rest ih =>
    obtain ⟨here, later⟩ := forall_mem_cons.mp known
    rw [runChanges, sectionFromFlatRange_eq valid here, ih later]
    rfl

theorem mem_coalescedIo
    {ranges : List AddrRange} (member : told ∈ flatRangeCoalescedIo call s fr ranges) :
    ∃ addr, told = call s addr := by
  obtain ⟨cmr, -, found⟩ := mem_filterMap.mp member
  obtain ⟨addr, -, rfl⟩ := Option.map_eq_some_iff.mp found
  exact ⟨addr, rfl⟩

theorem mem_logCalls {before after : BitVec 8}
    (member : told ∈ logCalls s before after) : told = .logStart s before after ∨
    told = .logStop s before after := by
  simp only [logCalls, mem_append, mem_ite_nil_right, mem_singleton] at member
  exact member.imp And.right And.right

theorem Change.calls_about {change : Change} (member : told ∈ change.calls coalesced s) :
    told.about = s := by
  cases change with
  | removed fr =>
    rcases mem_append.mp member with io | last
    · obtain ⟨addr, rfl⟩ := mem_coalescedIo io
      rfl
    · exact mem_singleton.mp last ▸ rfl
  | kept a b =>
    rcases mem_cons.mp member with rfl | log
    · rfl
    · rcases mem_logCalls log with rfl | rfl <;> rfl
  | added fr =>
    rcases mem_cons.mp member with rfl | io
    · rfl
    · obtain ⟨addr, rfl⟩ := mem_coalescedIo io
      rfl

theorem Change.kept_keeps (member : told ∈ (kept a b).calls coalesced s) : told.Keeps := by
  rcases mem_cons.mp member with rfl | log
  · trivial
  · rcases mem_logCalls log with rfl | rfl <;> trivial

theorem Callback.Keeps.stays {call : Callback} (keeps : call.Keeps) : call.Stays := by
  cases call with
  | regionAdd | regionDel => exact keeps
  | _ => trivial

section Mirror

theorem Mirrors.append (begins : Mirrors mirror calls middle)
    (goesOn : Mirrors middle more last) : Mirrors mirror (calls ++ more) last := by
  induction begins with
  | nil => exact goesOn
  | add apart _ ih => exact .add apart (ih goesOn)
  | del present _ ih => exact .del present (ih goesOn)
  | stay stays _ ih => exact .stay stays (ih goesOn)

theorem Mirrors.quiet (stays : ∀ call ∈ calls, call.Stays) (goesOn : Mirrors mirror more last) :
    Mirrors mirror (calls ++ more) last := by
  induction calls with
  | nil => exact goesOn
  | cons call rest ih =>
    obtain ⟨here, later⟩ := forall_mem_cons.mp stays
    exact .stay here (ih later)

theorem mirrors_removing {gone : List FlatRange}
    (distinct : gone.Pairwise fun a b => rangeSection a ≠ rangeSection b)
    (present : ∀ fr ∈ gone, rangeSection fr ∈ mirror) :
    Mirrors mirror (allCalls coalesced (gone.map .removed)) (mirror \ sections gone) := by
  induction gone generalizing mirror with
  | nil =>
    have same : mirror \ sections [] = mirror := by simp [sections]
    rw [same]
    exact .nil mirror
  | cons fr rest ih => ?_
  obtain ⟨different, distinct⟩ := pairwise_cons.mp distinct
  obtain ⟨here, later⟩ := forall_mem_cons.mp present
  have present : ∀ other ∈ rest, rangeSection other ∈ mirror \ {rangeSection fr} := fun other member =>
    ⟨later other member, (different other member).symm⟩
  have goesOn := ih distinct present
  have left : (mirror \ {rangeSection fr}) \ sections rest = mirror \ sections (fr :: rest) := by
    ext s
    simp [sections, and_assoc, eq_comm]
  rw [left] at goesOn
  rw [allCalls, map_cons, flatMap_cons, Change.calls, append_assoc]
  refine .quiet (fun call io => ?_) (.del here goesOn)
  obtain ⟨addr, rfl⟩ := mem_coalescedIo io
  trivial

theorem mirrors_adding (apart : new.Pairwise fun a b => (rangeSection b).Apart (rangeSection a))
    (place : ∀ b ∈ new, (∃ a, classify old b = .kept a b ∧ rangeSection b ∈ mirror) ∨
      classify old b = .added b ∧ ∀ other ∈ mirror, (rangeSection b).Apart other) :
    Mirrors mirror (allCalls coalesced (new.map (classify old))) (mirror ∪ sections new) := by
  induction new generalizing mirror with
  | nil =>
    have same : mirror ∪ sections [] = mirror := by simp [sections]
    rw [same]
    exact .nil mirror
  | cons b rest ih => ?_
  obtain ⟨different, apart⟩ := pairwise_cons.mp apart
  obtain ⟨here, later⟩ := forall_mem_cons.mp place
  have grown : insert (rangeSection b) mirror ∪ sections rest = mirror ∪ sections (b :: rest) := by
    ext s
    simp [sections, or_assoc, or_left_comm, eq_comm]
  rw [map_cons, ← grown]
  rcases here with ⟨a, kept, present⟩ | ⟨added, free⟩
  · rw [kept, Set.insert_eq_of_mem present]
    exact .quiet (fun call member => (Change.kept_keeps member).stays) (ih apart later)
  rw [added]
  refine .add free (.quiet (fun call io => ?_) (ih apart fun b' member => ?_))
  · obtain ⟨addr, rfl⟩ := mem_coalescedIo io
    trivial
  · refine (later b' member).imp (fun ⟨a, kept, present⟩ => ⟨a, kept, .inr present⟩)
      (And.imp_right fun free => ?_)
    rintro other (rfl | old)
    · exact different b' member
    · exact free other old

end Mirror

theorem foldl_log_of_about {calls : List Callback} (others : ∀ call ∈ calls, call.about ≠ s)
    (mask : BitVec 8) : calls.foldl (log s) mask = mask := by
  induction calls with
  | nil => rfl
  | cons call rest ih => ?_
  obtain ⟨here, later⟩ := forall_mem_cons.mp others
  have same : call.log s mask = mask := by
    cases call with
    | logStart | logStop => exact if_neg here
    | _ => rfl
  rw [foldl_cons, same, ih later]

/-- From the old mask or from the new one, the calls lead to the new one. -/
theorem foldl_logCalls (s : MemoryRegionSection) {before after mask : BitVec 8}
    (start : mask = after ∨ mask = before) :
    (logCalls s before after).foldl (log s) mask = after := by
  have started (m : BitVec 8) : (if after &&& ~~~before ≠ 0 then [logStart s before after] else []).foldl
      (log s) m = m ||| (after &&& ~~~before) := by
    split_ifs with none
    · simp [log]
    · simp [not_not.mp none]
  have stopped (m : BitVec 8) : (if before &&& ~~~after ≠ 0 then [logStop s before after] else []).foldl
      (log s) m = m &&& ~~~(before &&& ~~~after) := by
    split_ifs with none
    · simp [log]
    · rw [not_not.mp none]
      exact BitVec.and_allOnes.symm
  rw [logCalls, foldl_append, started, stopped]
  ext i bound
  rcases start with rfl | rfl
  · cases before[i] <;> cases next : mask[i] <;> simp [next]
  · cases first : mask[i] <;> cases next : after[i] <;> simp [next]

section Own

variable {changes : List Change}
  (own : ∀ change ∈ changes, rangeSection change.range = rangeSection b → change = .kept a b)
include own

theorem allCalls_keeps (member : call ∈ allCalls coalesced changes)
    (about : call.about = rangeSection b) : call.Keeps := by
  obtain ⟨change, known, mine⟩ := mem_flatMap.mp member
  have same := own change known ((Change.calls_about mine).symm.trans about)
  rw [same] at mine
  exact Change.kept_keeps mine

theorem allCalls_logs (start : mask = b.dirtyLogMask ∨ mask = a.dirtyLogMask ∧ .kept a b ∈ changes) :
    (allCalls coalesced changes).foldl (log (rangeSection b)) mask = b.dirtyLogMask := by
  induction changes generalizing mask with
  | nil => exact start.elim id fun ⟨_, member⟩ => nomatch member
  | cons change rest ih => ?_
  obtain ⟨here, later⟩ := forall_mem_cons.mp own
  rw [allCalls, flatMap_cons, foldl_append]
  by_cases mine : rangeSection change.range = rangeSection b
  · have updated : (change.calls coalesced (rangeSection change.range)).foldl
        (log (rangeSection b)) mask = b.dirtyLogMask := by
      rw [here mine]
      exact foldl_logCalls _ (start.imp_right And.left)
    rw [updated]
    exact ih later (.inl rfl)
  · have untouched : (change.calls coalesced (rangeSection change.range)).foldl
        (log (rangeSection b)) mask =
        mask := foldl_log_of_about (fun call member => Change.calls_about member ▸ mine) mask
    rw [untouched]
    refine ih later (start.imp_right (And.imp_right fun member => ?_))
    exact (mem_cons.mp member).resolve_left fun this => mine (this ▸ rfl)

end Own

theorem classify_cases (old : List FlatRange) (b : FlatRange) :
    (∃ a ∈ old, flatrangeEqual a b = true ∧ classify old b = .kept a b) ∨
      (∀ a ∈ old, flatrangeEqual a b = false) ∧ classify old b = .added b := by
  rw [classify]
  cases found : old.find? (flatrangeEqual · b) with
  | none => exact .inr ⟨by simpa using found, rfl⟩
  | some a =>
    have same := find?_some found
    exact .inl ⟨a, mem_of_find?_eq_some found, same, rfl⟩

theorem classify_range (old : List FlatRange) (b : FlatRange) : (classify old b).range = b := by
  rcases classify_cases old b with ⟨_, _, _, kept⟩ | ⟨_, added⟩
  · rw [kept, Change.range]
  · rw [added, Change.range]

/-- What a listener learns of a new view. -/
structure Tracks (old new : List FlatRange) (calls : List Callback) : Prop where
  mirrors : Mirrors (sections old) calls (sections new)
  keeps : ∀ a ∈ old, ∀ b ∈ new, flatrangeEqual a b = true →
    ∀ call ∈ calls, call.about = rangeSection b → call.Keeps
  logs : ∀ a ∈ old, ∀ b ∈ new, flatrangeEqual a b = true →
    calls.foldl (log (rangeSection b)) a.dirtyLogMask = b.dirtyLogMask

theorem Tracks.refl (valid : ValidView old) : Tracks old old [] := by
  refine ⟨.nil _, fun _ _ _ _ _ => forall_mem_nil _, fun a member b member' same => ?_⟩
  rw [valid.rangeSection_inj member member' (flatrangeEqual_section same)]
  rfl

section Views

variable (validOld : ValidView old) (validNew : ValidView new)
include validOld validNew

theorem mirrors_new : Mirrors (sections old)
    (allCalls coalesced ((gone old new).map .removed) ++
    allCalls coalesced (new.map (classify old))) (sections new) := by
  have distinct : (gone old new).Pairwise fun a b => rangeSection a ≠ rangeSection b := by
    refine (validOld.nodup.filter _).imp_of_mem fun {a b} member member' different same => different ?_
    exact validOld.rangeSection_inj (mem_gone.mp member).1 (mem_gone.mp member').1 same
  have apart : new.Pairwise fun a b => (rangeSection b).Apart (rangeSection a) :=
    validNew.nodup.imp_of_mem fun member member' different => validNew.apart member' member different.symm
  have staying : ∀ s ∈ sections old \ sections (gone old new), ∃ a ∈ old, ∃ b ∈ new,
    flatrangeEqual a b = true ∧ rangeSection b = s := by
    rintro s ⟨⟨a, member, rfl⟩, stays⟩
    by_contra none
    refine stays ⟨a, mem_gone.mpr ⟨member, fun b member' => Bool.eq_false_iff.mpr fun same => ?_⟩, rfl⟩
    exact none ⟨a, member, b, member', same, (flatrangeEqual_section same).symm⟩
  have all : sections old \ sections (gone old new) ∪ sections new = sections new := by
    refine Set.union_eq_right.mpr fun s stays => ?_
    obtain ⟨-, -, b, member, -, rfl⟩ := staying s stays
    exact ⟨b, member, rfl⟩
  have present : ∀ fr ∈ gone old new, rangeSection fr ∈ sections old := fun fr member =>
    ⟨fr, (mem_gone.mp member).1, rfl⟩
  rw [← all]
  refine (mirrors_removing distinct present).append (mirrors_adding apart fun b isNew => ?_)
  rcases classify_cases old b with ⟨a, isOld, same, kept⟩ | ⟨fresh, added⟩
  · refine .inl ⟨a, kept, ⟨a, isOld, flatrangeEqual_section same⟩, ?_⟩
    rintro ⟨fr, member, sections_eq⟩
    obtain ⟨frOld, different⟩ := mem_gone.mp member
    have this := validOld.rangeSection_inj frOld isOld
      (sections_eq.trans (flatrangeEqual_section same).symm)
    exact Bool.eq_false_iff.mp (different b isNew) (this ▸ same)
  · refine .inr ⟨added, fun s stays => ?_⟩
    obtain ⟨a, isOld, b', isNew', same, rfl⟩ := staying s stays
    exact validNew.apart isNew isNew' fun this => Bool.eq_false_iff.mp (fresh a isOld) (this ▸ same)

theorem own_change (isOld : a ∈ old) (isNew : b ∈ new) (same : flatrangeEqual a b = true)
    (member : change ∈ (gone old new).map .removed ++ new.map (classify old))
    (mine : rangeSection change.range = rangeSection b) : change = .kept a b := by
  have fromOld : ∀ a' ∈ old, rangeSection a' = rangeSection b → a' = a := fun a' isOld' here =>
    validOld.rangeSection_inj isOld' isOld (here.trans (flatrangeEqual_section same).symm)
  rcases mem_append.mp member with removed | others
  · obtain ⟨fr, found, rfl⟩ := mem_map.mp removed
    obtain ⟨frOld, different⟩ := mem_gone.mp found
    rw [fromOld fr frOld mine] at different
    exact absurd same (Bool.eq_false_iff.mp (different b isNew))
  · obtain ⟨b', isNew', rfl⟩ := mem_map.mp others
    rw [classify_range] at mine
    obtain rfl := validNew.rangeSection_inj isNew' isNew mine
    rcases classify_cases old b' with ⟨a', isOld', same', kept⟩ | ⟨fresh, -⟩
    · rw [kept, fromOld a' isOld' (flatrangeEqual_section same')]
    · exact absurd same (Bool.eq_false_iff.mp (fresh a isOld))

theorem tracks_new : Tracks old new
    (allCalls coalesced ((gone old new).map .removed) ++
    allCalls coalesced (new.map (classify old))) := by
  refine ⟨mirrors_new validOld validNew, fun a isOld b isNew same call => ?_,
    fun a isOld b isNew same => ?_⟩
  all_goals rw [allCalls, allCalls, ← flatMap_append]
  · exact allCalls_keeps fun change => own_change validOld validNew isOld isNew same
  · have member : classify old b ∈ (gone old new).map .removed ++ new.map (classify old) :=
      mem_append_right _ (mem_map_of_mem isNew)
    have kept := own_change validOld validNew isOld isNew same member (by rw [classify_range])
    exact allCalls_logs (fun change => own_change validOld validNew isOld isNew same)
      (.inr ⟨rfl, kept ▸ member⟩)

theorem updateTopology_removing : addressSpaceUpdateTopologyPass coalesced old new false =
    .ok (allCalls coalesced ((gone old new).map .removed)) := by
  rw [addressSpaceUpdateTopologyPass, (symmetricDifference_difference validOld validNew).removed]
  refine runChanges_eq validOld fun change member => ?_
  obtain ⟨fr, found, rfl⟩ := mem_map.mp member
  exact (mem_gone.mp found).1

theorem updateTopology_adding : addressSpaceUpdateTopologyPass coalesced old new true =
    .ok (allCalls coalesced (new.map (classify old))) := by
  rw [addressSpaceUpdateTopologyPass, (symmetricDifference_difference validOld validNew).others]
  refine runChanges_eq validNew fun change member => ?_
  obtain ⟨b, found, rfl⟩ := mem_map.mp member
  rwa [classify_range]

end Views

variable {listener : Nat}

theorem heard_single {listeners : List Nat} (once : listeners.Nodup) (member : listener ∈ listeners)
    (call : Callback) : heard listener (listeners.map fun other => (other, call)) = [call] := by
  have filtered : (listeners.filter fun other => other = listener) = [listener] := by
    rw [filter_eq, count_eq_one_of_mem once member, replicate_one]
  rw [heard, filter_map, map_map]
  exact congrArg (map _) filtered

theorem heard_deliver {as : AddressSpace} (once : as.listeners.Nodup) (member : listener ∈ as.listeners)
    (calls : List Callback) : heard listener (calls.flatMap as.deliver) = calls := by
  induction calls with
  | nil => rfl
  | cons call rest ih => ?_
  have here : heard listener (as.deliver call) = [call] := by
    rw [AddressSpace.deliver]
    split_ifs
    · exact heard_single (nodup_reverse.mpr once) (mem_reverse.mpr member) call
    · exact heard_single once member call
  rw [flatMap_cons, heard, filter_append, map_append]
  exact congrArg₂ (· ++ ·) here ih

/-- Each listener of the address space goes from the old view to the new one. -/
theorem setFlatview_tracks (coalesced : Nat → List AddrRange) (as : AddressSpace) (newView : SharedView)
    (validOld : ValidView as.ranges) (validNew : ValidView newView.ranges) (once : as.listeners.Nodup) :
    ∃ as' calls, as.setFlatview coalesced newView = .ok (as', calls) ∧ as'.ranges = newView.ranges ∧
      ∀ listener ∈ as.listeners, Tracks as.ranges newView.ranges (heard listener calls) := by
  rw [AddressSpace.setFlatview]
  split_ifs with same alone
  · have current : as.ranges = newView.ranges := by
      rw [AddressSpace.ranges, same]
      rfl
    exact ⟨as, [], rfl, current, fun _ _ => current ▸ .refl validOld⟩
  · rw [List.isEmpty_iff] at alone
    exact ⟨_, [], rfl, rfl, by simp [alone]⟩
  · rw [updateTopology_removing validOld validNew, updateTopology_adding validOld validNew]
    refine ⟨_, _, rfl, rfl, fun listener member => ?_⟩
    rw [heard_deliver once member]
    exact tracks_new validOld validNew

/-- A frame buffer whose writes begin to be logged while another region appears above it. -/
theorem setFlatview_tracks_frameBuffer :
    let frameBuffer : FlatRange := ⟨1, 0, ⟨0, 0x1000⟩, 0, true, false, false, false⟩
    let as : AddressSpace := ⟨0, [4, 5], some ⟨7, [frameBuffer]⟩⟩
    let newView : SharedView :=
      ⟨8, [{ frameBuffer with dirtyLogMask := 1 },
        ⟨2, 0x10, ⟨0x1000, 0x20⟩, 0, true, true, false, false⟩]⟩
    ∃ as' calls, as.setFlatview (fun _ => []) newView = .ok (as', calls) ∧ as'.ranges = newView.ranges ∧
      ∀ listener ∈ [4, 5], Tracks as.ranges newView.ranges (heard listener calls) := by
  refine setFlatview_tracks (fun _ => []) ⟨0, [4, 5], some ⟨7, _⟩⟩ _ ?_ ?_ (by decide)
  · exact ⟨ordered_cons.mpr ⟨by decide, by decide, ordered_nil⟩, by rw [Layout.Within]; decide, by decide⟩
  · exact ⟨ordered_cons.mpr ⟨by decide, by decide, ordered_cons.mpr ⟨by decide, by decide, ordered_nil⟩⟩,
      by rw [Layout.Within]; decide, by decide⟩

end Qemu.Memory
