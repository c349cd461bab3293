import Qemu.Qcow2.CacheSettle

namespace Qemu.Qcow2

open EventLog Checked List CacheState

/-- `tracked`: a marked modification waits in the cache or has been written.
`settled`: what `d` had before `c` was made dependent on it is durable, or `c` still
depends on `d` and none of its tables has been written since. -/
structure CacheInv (s : CacheState) : Prop where
  clean : ∀ c i, (s.entry c i).dirty = false → (s.entry c i).marks = []
  located : ∀ c i, (s.entry c i).dirty = true → (s.entry c i).offset ≠ 0
  tracked : ∀ c mark, .markDirty c mark ∈ s.log →
    (∃ i < (s.cache c).size, mark ∈ (s.entry c i).marks) ∨ ∃ event ∈ s.log, event.Writes c mark
  settled : ∀ c d before after, s.log = before ++ .setDependency c d :: after →
    (∀ mark, .markDirty d mark ∈ before → Durable d mark s.log) ∨
      ((s.cache c).depends = some d ∧ ∀ event ∈ after, ∀ mark, ¬ event.Writes c mark)
  ordered : WriteOrdered s.log

namespace CacheInv

variable {s later : CacheState}

theorem fresh (l2Tables l2TableSize refcountTables refcountTableSize : Nat) :
    CacheInv (.fresh l2Tables l2TableSize refcountTables refcountTableSize) where
  clean c i _ := by cases c <;> rfl
  located c i dirty := by cases c <;> simp [CacheState.entry, CacheState.fresh, Cache.create] at dirty
  tracked _ _ member := by simp [CacheState.fresh] at member
  settled _ _ _ _ split := by simp [CacheState.fresh] at split
  ordered _ _ _ _ _ _ _ split := by simp [CacheState.fresh] at split

section

variable (inv : CacheInv s)
include inv

/-- Changes that the invariant does not see. -/
theorem of_same (log : later.log = s.log) (size : ∀ c, (later.cache c).size = (s.cache c).size)
    (depends : ∀ c, (later.cache c).depends = (s.cache c).depends)
    (marks : ∀ c i, (later.entry c i).marks = (s.entry c i).marks)
    (clean : ∀ c i, (later.entry c i).dirty = false → (later.entry c i).marks = [])
    (located : ∀ c i, (later.entry c i).dirty = true → (later.entry c i).offset ≠ 0) :
    CacheInv later where
  clean := clean
  located := located
  tracked c mark member := by
    simpa only [log, size, marks] using inv.tracked c mark (log ▸ member)
  settled c d before after split := by
    simpa only [log, depends] using inv.settled c d before after (log ▸ split)
  ordered := log ▸ inv.ordered

theorem called : CacheInv s.called :=
  inv.of_same rfl (fun _ => rfl) (fun _ => rfl) (fun _ _ => rfl) inv.clean inv.located

theorem setCache (new : Cache) (entries : new.entries = (s.cache c).entries)
    (size : new.size = (s.cache c).size) (depends : new.depends = (s.cache c).depends) :
    CacheInv (s.setCache c new) := by
  have same := s.setCache_entry entries
  exact inv.of_same rfl (s.setCache_field Cache.size size) (s.setCache_field Cache.depends depends)
    (fun d i => by rw [same])
    (fun d i => by rw [same]; exact inv.clean d i) (fun d i => by rw [same]; exact inv.located d i)

theorem setEntry (table : CachedTable) (marks : table.marks = (s.entry c i).marks)
    (clean : table.dirty = false → table.marks = [])
    (located : table.dirty = true → table.offset ≠ 0) : CacheInv (s.setEntry c i table) := by
  refine inv.of_same rfl (by simp) (by simp) (fun d j => ?_) (fun d j => ?_) (fun d j => ?_)
  all_goals
    rw [setEntry_entry]
    split
    all_goals rename_i place
  · obtain ⟨rfl, rfl⟩ := place; exact marks
  · rfl
  · exact clean
  · exact inv.clean d j
  · exact located
  · exact inv.located d j

/-- Events other than a new dependency keep what is due, as long as only caches without
a dependency are written. -/
theorem settled_record (event : CacheEvent) (other : ∀ c d, event ≠ .setDependency c d)
    (free : ∀ c mark, event.Writes c mark → (s.cache c).depends = none) (before after : List CacheEvent)
    (split : s.log ++ [event] = before ++ .setDependency c d :: after) :
    (∀ mark, .markDirty d mark ∈ before → Durable d mark (s.log ++ [event])) ∨
      ((s.cache c).depends = some d ∧ ∀ event ∈ after, ∀ mark, ¬ event.Writes c mark) := by
  rcases concat_split split with ⟨-, new, -⟩ | ⟨earlier, rfl, old⟩
  · exact absurd new (other c d)
  rcases inv.settled c d before earlier old with durable | ⟨depends, unwritten⟩
  · exact .inl fun mark member => (durable mark member).append [event]
  refine .inr ⟨depends, fun written member mark writes => ?_⟩
  rcases mem_append.mp member with member | last
  · exact unwritten written member mark writes
  · obtain rfl := mem_singleton.mp last
    exact absurd (depends.symm.trans (free c mark writes)) (by simp)

theorem ordered_record (event : CacheEvent)
    (free : ∀ c mark, event.Writes c mark → (s.cache c).depends = none) :
    WriteOrdered (s.log ++ [event]) := by
  intro c d before mid written rest mark split writes member earlier marked
  rw [← cons_append, ← append_assoc] at split
  rcases concat_split split with ⟨old, rfl, -⟩ | ⟨rest', rfl, old⟩
  · rw [← old]
    rcases inv.settled c d before mid old with durable | ⟨depends, -⟩
    · exact durable earlier marked
    · exact absurd (depends.symm.trans (free c mark writes)) (by simp)
  · rw [append_assoc] at old
    exact inv.ordered c d before mid written rest' mark old writes member earlier marked

theorem flushed : CacheInv (s.record .flush) where
  clean := inv.clean
  located := inv.located
  tracked c mark member := by
    rcases inv.tracked c mark (by simpa using member) with waiting | ⟨event, present, writes⟩
    · exact .inl waiting
    · exact .inr ⟨event, by simp [present], writes⟩
  settled _ _ := inv.settled_record .flush (by simp) (by simp [CacheEvent.Writes])
  ordered := inv.ordered_record .flush (by simp [CacheEvent.Writes])

theorem written (free : (s.cache c).depends = none) :
    CacheInv ((s.record (.write c (s.entry c i).offset (s.entry c i).marks)).setEntry c i
      { s.entry c i with marks := [] }) := by
  have onlyHere : ∀ d mark, (CacheEvent.write c (s.entry c i).offset (s.entry c i).marks).Writes d mark →
      (s.cache d).depends = none := by
    rintro d mark ⟨offset, marks, ⟨⟩, -⟩
    exact free
  refine ⟨fun d j => ?_, fun d j => ?_, fun d mark member => ?_, fun d e => ?_,
    inv.ordered_record _ onlyHere⟩
  · rw [setEntry_entry]
    split
    · exact fun _ => rfl
    · exact inv.clean d j
  · rw [setEntry_entry]
    split
    next place =>
      obtain ⟨rfl, rfl⟩ := place
      exact inv.located d j
    · exact inv.located d j
  · rcases inv.tracked d mark (by simpa using member) with ⟨j, inRange, waiting⟩ |
      ⟨event, present, writes⟩
    · by_cases place : d = c ∧ j = i
      · obtain ⟨rfl, rfl⟩ := place
        exact .inr ⟨.write d (s.entry d j).offset (s.entry d j).marks, by simp, _, _, rfl, waiting⟩
      · refine .inl ⟨j, by simpa using inRange, ?_⟩
        rw [setEntry_entry, if_neg place]
        exact waiting
    · exact .inr ⟨event, by simp [present], writes⟩
  · simpa using inv.settled_record _ (by simp) onlyHere

/-- The dependency of `c` may be dropped once all it waits for is durable. -/
theorem clearDependency (durable : ∀ d, (s.cache c).depends = some d →
      ∀ mark, .markDirty d mark ∈ s.log → Durable d mark s.log) :
    CacheInv (s.clearDependency c) := by
  have entries : ∀ d i, (s.clearDependency c).entry d i = s.entry d i := s.setCache_entry rfl
  have size : ∀ d, ((s.clearDependency c).cache d).size = (s.cache d).size :=
    s.setCache_field Cache.size rfl
  refine ⟨fun d i => by rw [entries]; exact inv.clean d i,
    fun d i => by rw [entries]; exact inv.located d i, fun d mark member => ?_,
    fun e d before after split => ?_, inv.ordered⟩
  · simp only [entries, size]
    exact inv.tracked d mark member
  by_cases eq : e = c
  · subst eq
    rcases inv.settled e d before after split with done | ⟨depends, -⟩
    · exact .inl done
    · refine .inl fun mark member => durable d depends mark ?_
      have whole : s.log = before ++ .setDependency e d :: after := split
      rw [whole]
      exact mem_append_left _ member
  · rw [CacheState.clearDependency, CacheState.setCache_ne s eq]
    exact inv.settled e d before after split

/-- A new dependency of `c`, which depended on nothing or on the same cache. -/
theorem setDependency (was : (s.cache c).depends = none ∨ (s.cache c).depends = some d) :
    CacheInv ((s.setCache c { s.cache c with depends := some d }).record (.setDependency c d)) := by
  have entries : ∀ e i, (s.setCache c { s.cache c with depends := some d }).entry e i =
      s.entry e i := s.setCache_entry rfl
  have size : ∀ e, ((s.setCache c { s.cache c with depends := some d }).cache e).size =
      (s.cache e).size := s.setCache_field Cache.size rfl
  refine ⟨fun e i => by rw [record_entry, entries]; exact inv.clean e i,
    fun e i => by rw [record_entry, entries]; exact inv.located e i,
    fun e mark member => ?_, fun e d' before after split => ?_,
    inv.ordered_record _ (by simp [CacheEvent.Writes])⟩
  · rcases inv.tracked e mark (by simpa using member) with ⟨i, inRange, waiting⟩ |
      ⟨event, present, writes⟩
    · refine .inl ⟨i, ?_, ?_⟩
      · simpa [size] using inRange
      · rw [record_entry, entries]; exact waiting
    · exact .inr ⟨event, by simp [present], writes⟩
  rcases concat_split split with ⟨-, new, rfl⟩ | ⟨earlier, rfl, old⟩
  · cases new
    exact .inr ⟨by simp, by simp⟩
  rcases inv.settled e d' before earlier old with durable | ⟨depends, unwritten⟩
  · exact .inl fun mark member => (durable mark member).append _
  refine .inr ⟨?_, fun event member mark writes => ?_⟩
  · by_cases eq : e = c
    · subst eq
      rcases was with none | same
      · simp [none] at depends
      · obtain rfl := Option.some.inj (same.symm.trans depends)
        simp
    · rw [record_cache, setCache_ne s eq]
      exact depends
  · rcases mem_append.mp member with member | last
    · exact unwritten event member mark writes
    · obtain rfl := mem_singleton.mp last
      obtain ⟨offset, marks, ⟨⟩, -⟩ := writes

theorem markDirty (inRange : i < (s.cache c).size) (holds : (s.entry c i).offset ≠ 0) (mark : Nat) :
    CacheInv ((s.record (.markDirty c mark)).setEntry c i
      { s.entry c i with dirty := true, marks := (s.entry c i).marks ++ [mark] }) := by
  refine ⟨fun d j => ?_, fun d j => ?_, fun d other member => ?_, fun d e => ?_,
    inv.ordered_record _ (by simp [CacheEvent.Writes])⟩
  · rw [setEntry_entry]
    split
    · simp
    · exact inv.clean d j
  · rw [setEntry_entry]
    split
    · exact fun _ => holds
    · exact inv.located d j
  · rcases mem_append.mp member with old | new
    · rcases inv.tracked d other old with ⟨j, inside, waiting⟩ | ⟨event, present, writes⟩
      · refine .inl ⟨j, by simpa using inside, ?_⟩
        rw [setEntry_entry]
        split
        next place =>
          obtain ⟨rfl, rfl⟩ := place
          exact mem_append_left _ waiting
        · exact waiting
      · exact .inr ⟨event, by simp [present], writes⟩
    · cases mem_singleton.mp new
      refine .inl ⟨i, by simpa using inRange, ?_⟩
      rw [setEntry_entry]
      simp
  · simpa using inv.settled_record _ (by simp) (by simp [CacheEvent.Writes])

end

end CacheInv

section

variable {flush : CacheId → CacheState → CacheResult}
variable {s later : CacheState} {ret : Int} {c dependency : CacheId}

theorem bdrvFlush_inv (inv : CacheInv s) : CacheInv (bdrvFlush io s).1 := by
  unfold bdrvFlush
  dsimp only
  split
  · exact inv.called
  · exact inv.called.flushed

theorem bdrvPwrite_inv (inv : CacheInv s) (free : (s.cache c).depends = none) :
    CacheInv (bdrvPwrite io c i s).1 ∧
      (0 ≤ (bdrvPwrite io c i s).2 → ((bdrvPwrite io c i s).1.entry c i).marks = []) := by
  by_cases failed : io s.calls < 0
  · simp only [bdrvPwrite, if_pos failed]
    exact ⟨inv.called, fun passed => by omega⟩
  · simp only [bdrvPwrite, if_neg failed]
    exact ⟨inv.called.written free, fun _ => by simp [setEntry_entry]⟩

theorem writeEntry_cases (io : Nat → Int) (c : CacheId) (i : Nat) (s : CacheState) :
    (io s.calls < 0 ∧ writeEntry io c i s = (s.called, io s.calls)) ∨
      ((bdrvPwrite io c i s.called).2 < 0 ∧ writeEntry io c i s = bdrvPwrite io c i s.called) ∨
      (0 ≤ (bdrvPwrite io c i s.called).2 ∧
      writeEntry io c i s = ((bdrvPwrite io c i s.called).1.setEntry c i
          { (bdrvPwrite io c i s.called).1.entry c i with dirty := false }, 0)) := by
  by_cases rejected : io s.calls < 0
  · exact .inl ⟨rejected, if_pos rejected⟩
  · by_cases failed : (bdrvPwrite io c i s.called).2 < 0
    · exact .inr (.inl ⟨failed, (if_neg rejected).trans (if_pos failed)⟩)
    · exact .inr (.inr ⟨by omega, (if_neg rejected).trans (if_neg failed)⟩)

theorem writeEntry_inv (inv : CacheInv s) (free : (s.cache c).depends = none) :
    CacheInv (writeEntry io c i s).1 := by
  obtain ⟨kept, written⟩ : CacheInv (bdrvPwrite io c i s.called).1 ∧ _ := bdrvPwrite_inv inv.called free
  rcases writeEntry_cases io c i s with ⟨-, result⟩ | ⟨-, result⟩ | ⟨passed, result⟩ <;> rw [result]
  · exact inv.called
  · exact kept
  · exact kept.setEntry _ rfl (fun _ => written passed) (by simp)

theorem writeEntry_clean (passed : 0 ≤ (writeEntry io c i s).2) :
    ((writeEntry io c i s).1.entry c i).dirty = false := by
  rcases writeEntry_cases io c i s with ⟨failed, result⟩ | ⟨failed, result⟩ | ⟨-, result⟩ <;>
    rw [result] at passed ⊢
  · omega
  · omega
  · simp [setEntry_entry]

/-- What a flush of `c` guarantees to whoever waits for it. -/
structure FlushSpec (flush : CacheId → CacheState → CacheResult) : Prop where
  settles : ∀ {c s later ret}, flush c s = .ok (later, ret) → Settles s later
  inv : ∀ {c s later ret}, flush c s = .ok (later, ret) → CacheInv s → CacheInv later
  durable : ∀ {c s later ret}, flush c s = .ok (later, ret) → CacheInv s → 0 ≤ ret →
    ∀ mark, .markDirty c mark ∈ s.log → Durable c mark later.log

@[simp] theorem clearDependency_depends (s : CacheState) (c : CacheId) :
    ((s.clearDependency c).cache c).depends = none := by
  simp [clearDependency]

section

variable (done : cacheFlushDependency flush c dependency s = .ok (later, ret))
include done

theorem cacheFlushDependency_settles (spec : FlushSpec flush) : Settles s later := by
  obtain ⟨flushed, flushRet, called, ⟨-, rfl, -⟩ | ⟨-, rfl, -⟩⟩ := cacheFlushDependency_ok done
  · exact spec.settles called
  · exact (spec.settles called).trans (.setCache _ _ rfl rfl rfl (.inr rfl))

theorem cacheFlushDependency_inv (spec : FlushSpec flush) (inv : CacheInv s)
    (depends : (s.cache c).depends = some dependency) : CacheInv later := by
  obtain ⟨flushed, flushRet, called, ⟨-, rfl, -⟩ | ⟨passed, rfl, -⟩⟩ := cacheFlushDependency_ok done
  · exact spec.inv called inv
  refine (spec.inv called inv).clearDependency fun d still mark member => ?_
  have settles := spec.settles called
  obtain rfl : d = dependency := by
    rcases settles.depends c with same | gone
    · exact Option.some.inj (still.symm.trans (same.trans depends))
    · simp [gone] at still
  exact spec.durable called inv passed mark (settles.marked.mp member)

theorem cacheFlushDependency_depends (passed : 0 ≤ ret) : (later.cache c).depends = none := by
  obtain ⟨flushed, flushRet, -, ⟨failed, -, rfl⟩ | ⟨-, rfl, -⟩⟩ := cacheFlushDependency_ok done
  · omega
  · exact clearDependency_depends flushed c

end

theorem settleDependency_spec (spec : FlushSpec flush)
    (done : settleDependency io flush c s = .ok (later, ret)) :
    Settles s later ∧ (CacheInv s → CacheInv later) ∧ (0 ≤ ret → (later.cache c).depends = none) := by
  rcases settleDependency_ok done with ⟨dependency, depends, flushed⟩ | ⟨free, same⟩ |
    ⟨free, -, onFlush, rfl⟩
  · exact ⟨cacheFlushDependency_settles flushed spec,
      fun inv => cacheFlushDependency_inv flushed spec inv depends,
      cacheFlushDependency_depends flushed⟩
  · obtain ⟨rfl, rfl⟩ := Prod.mk.inj same
    exact ⟨.refl _, id, fun _ => free⟩
  · refine ⟨(bdrvFlush_settles s).trans (.setCache _ _ rfl rfl rfl (.inl rfl)),
      fun inv => (bdrvFlush_inv inv).setCache _ rfl rfl rfl, fun _ => ?_⟩
    simpa using (bdrvFlush_settles s).depends_none free

theorem cacheEntryFlush_settles (spec : FlushSpec flush)
    (done : cacheEntryFlush io flush c i s = .ok (later, ret)) : Settles s later := by
  rcases cacheEntryFlush_ok done with ⟨-, rfl, -⟩ | ⟨settled, settledRet, called, rest⟩
  · exact .refl _
  have settles := (settleDependency_spec spec called).1
  rcases rest with ⟨-, rfl, -⟩ | ⟨-, wrote⟩
  · exact settles
  · rw [show later = (writeEntry io c i settled).1 from congrArg Prod.fst wrote]
    exact settles.trans (writeEntry_settles c i settled)

theorem cacheEntryFlush_clean (located : ∀ c i, (s.entry c i).dirty = true → (s.entry c i).offset ≠ 0)
    (done : cacheEntryFlush io flush c i s = .ok (later, ret)) (passed : 0 ≤ ret) :
    (later.entry c i).dirty = false := by
  rcases cacheEntryFlush_ok done with ⟨skip, rfl, -⟩ | ⟨settled, settledRet, called, rest⟩
  · rcases skip with clean | nowhere
    · exact clean
    · by_contra dirty
      exact located c i (by simpa using dirty) nowhere
  · rcases rest with ⟨failed, rfl, rfl⟩ | ⟨-, wrote⟩
    · omega
    · obtain ⟨rfl, rfl⟩ := Prod.mk.inj wrote
      exact writeEntry_clean passed

theorem cacheEntryFlush_inv (spec : FlushSpec flush) (inv : CacheInv s)
    (done : cacheEntryFlush io flush c i s = .ok (later, ret)) :
    CacheInv later := by
  rcases cacheEntryFlush_ok done with ⟨-, rfl, -⟩ | ⟨settled, settledRet, called, rest⟩
  · exact inv
  obtain ⟨-, kept, free⟩ := settleDependency_spec spec called
  rcases rest with ⟨-, rfl, -⟩ | ⟨passed, wrote⟩
  · exact kept inv
  · obtain ⟨rfl, -⟩ := Prod.mk.inj wrote
    exact writeEntry_inv (kept inv) (free passed)

/-- The loop over the entries: a result of 0 means that every entry it visited is clean. -/
theorem cacheWriteLoop_spec (spec : FlushSpec flush) (indices : List Nat)
    (done : indices.foldlM (cacheWriteStep io flush c) acc = .ok result) :
    Settles acc.1 result.1 ∧ (CacheInv acc.1 → CacheInv result.1 ∧
    (acc.2 ≤ 0 → result.2 ≤ 0 ∧ (result.2 = 0 →
        acc.2 = 0 ∧ ∀ i ∈ indices, (result.1.entry c i).dirty = false))) := by
  induction indices generalizing acc with
  | nil =>
    cases Except.ok.inj done
    exact ⟨.refl _, fun inv => ⟨inv, fun nonpos => ⟨nonpos, fun zero => ⟨zero, by simp⟩⟩⟩⟩
  | cons i rest ih => ?_
  obtain ⟨next, stepped, more⟩ := bind_ok.mp done
  obtain ⟨settlesRest, keepsRest⟩ := ih more
  obtain ⟨⟨_, entryRet⟩, flushed, ⟨⟩⟩ := bind_ok.mp stepped
  refine ⟨(cacheEntryFlush_settles spec flushed).trans settlesRest, fun inv => ?_⟩
  have kept := cacheEntryFlush_inv spec inv flushed
  have clean := cacheEntryFlush_clean inv.located flushed
  obtain ⟨keptRest, cleanRest⟩ := keepsRest kept
  refine ⟨keptRest, fun nonpos => ?_⟩
  obtain ⟨resultNonpos, allClean⟩ := cleanRest (by dsimp only; split <;> omega)
  refine ⟨resultNonpos, fun zero => ?_⟩
  obtain ⟨nextZero, restClean⟩ := allClean zero
  have noError : 0 ≤ entryRet ∧ acc.2 = 0 := by
    dsimp only at nextZero
    split at nextZero
    · omega
    next kept =>
      refine ⟨?_, nextZero⟩
      by_contra negative
      exact kept ⟨by omega, by rw [nextZero]; decide⟩
  refine ⟨noError.2, fun j member => ?_⟩
  rcases mem_cons.mp member with rfl | member
  · have now := clean noError.1
    by_contra dirty
    have before := settlesRest.dirty c j (by simpa using dirty)
    simp [now] at before
  · exact restClean j member

theorem cacheFlushWith_ok (done : cacheFlushWith io flush c s = .ok (later, ret)) :
    ∃ written result, cacheWriteWith io flush c s = .ok (written, result) ∧
      ((result ≠ 0 ∧ later = written ∧ ret = result) ∨ (result = 0 ∧ later = (bdrvFlush io written).1 ∧
          ret = if (bdrvFlush io written).2 < 0 then (bdrvFlush io written).2 else 0)) := by
  obtain ⟨⟨written, result⟩, called, rest⟩ := bind_ok.mp done
  refine ⟨written, result, called, ?_⟩
  dsimp only at rest
  split at rest
  next zero =>
    obtain ⟨rfl, rfl⟩ := Prod.mk.inj (Except.ok.inj rest)
    exact .inr ⟨zero, rfl, by rw [zero]⟩
  next nonzero =>
    obtain ⟨rfl, rfl⟩ := Prod.mk.inj (Except.ok.inj rest)
    exact .inl ⟨nonzero, rfl, rfl⟩

/-- All that was written is durable after a flush of the file that did not fail. -/
theorem bdrvFlush_durable (passed : ¬ (bdrvFlush io s).2 < 0)
    (written : ∃ event ∈ s.log, event.Writes c mark) : Durable c mark (bdrvFlush io s).1.log := by
  have ret : (bdrvFlush io s).2 = io s.calls := by
    unfold bdrvFlush; dsimp only; split <;> rfl
  rw [ret] at passed
  have result : bdrvFlush io s = (s.called.record .flush, io s.calls) := if_neg passed
  rw [result]
  exact Then.concat written rfl

theorem cacheFlushWith_spec (spec : FlushSpec flush) : FlushSpec (cacheFlushWith io flush) := by
  refine ⟨fun done => ?_, fun done inv => ?_, fun done inv passed mark marked => ?_⟩
  all_goals
    obtain ⟨written, result, wrote, rest⟩ := cacheFlushWith_ok done
    obtain ⟨settles, keeps⟩ := cacheWriteLoop_spec spec _ wrote
  · rcases rest with ⟨-, rfl, -⟩ | ⟨-, rfl, -⟩
    · exact settles
    · exact settles.trans (bdrvFlush_settles written)
  · rcases rest with ⟨-, rfl, -⟩ | ⟨-, rfl, -⟩
    · exact (keeps inv).1
    · exact bdrvFlush_inv (keeps inv).1
  obtain ⟨kept, clean⟩ := keeps inv
  obtain ⟨nonpos, allClean⟩ := clean le_rfl
  rcases rest with ⟨nonzero, -, rfl⟩ | ⟨zero, rfl, flushRet⟩
  · exact absurd (le_antisymm nonpos passed) nonzero
  refine bdrvFlush_durable (fun failed => ?_) ?_
  · omega
  rcases kept.tracked _ mark (settles.marked.mpr marked) with ⟨i, inRange, waiting⟩ | written
  · have isClean := (allClean zero).2 i (by rw [mem_range, ← settles.size]; exact inRange)
    rw [kept.clean _ i isClean] at waiting
    simp at waiting
  · exact written

theorem cacheFlush_spec (io : Nat → Int) (fuel : Nat) : FlushSpec (cacheFlush io fuel) := by
  induction fuel with
  | zero => constructor <;> intro _ _ _ _ done <;> cases done
  | succ fuel ih => exact cacheFlushWith_spec ih

end

end Qemu.Qcow2
