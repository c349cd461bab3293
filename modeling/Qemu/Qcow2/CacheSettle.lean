import Qemu.Lib.Checked
import Qemu.Qcow2.Cache

namespace Qemu.Qcow2

open EventLog Checked Except

namespace CacheState

variable (s : CacheState)

@[simp] theorem setCache_log (c : CacheId) (new : Cache) : (s.setCache c new).log = s.log := rfl

@[simp] theorem setCache_self (c : CacheId) (new : Cache) : (s.setCache c new).cache c = new :=
  Function.update_self ..

variable {c : CacheId}

theorem setCache_ne (ne : d ≠ c) (new : Cache) :
    (s.setCache c new).cache d = s.cache d := Function.update_of_ne ne ..

variable {new : Cache}

theorem setCache_entry (entries : new.entries = (s.cache c).entries)
    (d : CacheId) (i : Nat) : (s.setCache c new).entry d i = s.entry d i := by
  by_cases same : d = c
  · subst same; simp [entry, entries]
  · rw [entry, setCache_ne s same]; rfl

theorem setCache_field {α : Type} (field : Cache → α) (kept : field new = field (s.cache c))
    (d : CacheId) : field ((s.setCache c new).cache d) = field (s.cache d) := by
  by_cases same : d = c
  · rw [same, setCache_self, kept]
  · rw [setCache_ne s same]

section

variable (i : Nat) (t : CachedTable)
include i t

@[simp] theorem setEntry_log (c : CacheId) : (s.setEntry c i t).log = s.log := rfl

@[simp] theorem setEntry_size (c d : CacheId) : ((s.setEntry c i t).cache d).size = (s.cache d).size :=
  @setCache_field s c ((s.cache c).setEntry i t) _ Cache.size rfl d

@[simp] theorem setEntry_tableSize (c d : CacheId) :
    ((s.setEntry c i t).cache d).tableSize = (s.cache d).tableSize :=
  @setCache_field s c ((s.cache c).setEntry i t) _ Cache.tableSize rfl d

@[simp] theorem setEntry_depends (c d : CacheId) :
    ((s.setEntry c i t).cache d).depends = (s.cache d).depends :=
  @setCache_field s c ((s.cache c).setEntry i t) _ Cache.depends rfl d

end

theorem setEntry_entry (c d : CacheId) (i j : Nat) (t : CachedTable) :
    (s.setEntry c i t).entry d j = if d = c ∧ j = i then t else s.entry d j := by
  by_cases same : d = c
  · subst same
    by_cases place : j = i
    · subst place; simp [entry, setEntry, Cache.setEntry]
    · simp [entry, setEntry, Cache.setEntry, place]
  · simp [entry, setEntry, setCache_ne s same, same]

@[simp] theorem record_log (event : CacheEvent) : (s.record event).log = s.log ++ [event] := rfl

@[simp] theorem record_cache (event : CacheEvent) : (s.record event).cache = s.cache := rfl

@[simp] theorem record_entry (event : CacheEvent) (c : CacheId) (i : Nat) :
    (s.record event).entry c i = s.entry c i := rfl

@[simp] theorem called_log : s.called.log = s.log := rfl

@[simp] theorem called_cache : s.called.cache = s.cache := rfl

@[simp] theorem called_entry (c : CacheId) (i : Nat) : s.called.entry c i = s.entry c i := rfl

end CacheState

theorem CacheState.Acyclic.of_depends {s later : CacheState} (acyclic : s.Acyclic)
    (depends : ∀ c, (later.cache c).depends = (s.cache c).depends ∨ (later.cache c).depends = none) :
    later.Acyclic := by
  intro c cycle
  refine acyclic c (Relation.TransGen.mono ?_ _ _ cycle)
  intro a b edge
  rcases depends a with same | gone
  · exact same.symm.trans edge
  · exact absurd (gone.symm.trans edge) (by simp)

/-- `later` comes from `s` by writing tables back: nothing is marked, every table stays in
its entry, none becomes dirty and dependencies only go away. -/
structure Settles (s later : CacheState) : Prop where
  log : ∃ tail, later.log = s.log ++ tail ∧ ∀ c mark, .markDirty c mark ∉ tail
  size : ∀ c, (later.cache c).size = (s.cache c).size
  tableSize : ∀ c, (later.cache c).tableSize = (s.cache c).tableSize
  offset : ∀ c i, (later.entry c i).offset = (s.entry c i).offset
  dirty : ∀ c i, (later.entry c i).dirty = true → (s.entry c i).dirty = true
  depends : ∀ c, (later.cache c).depends = (s.cache c).depends ∨ (later.cache c).depends = none

namespace Settles

theorem refl (s : CacheState) : Settles s s :=
  ⟨⟨[], by simp⟩, fun _ => rfl, fun _ => rfl, fun _ _ => rfl, fun _ _ dirty => dirty, fun _ => .inl rfl⟩

theorem trans (first : Settles s t) (second : Settles t u) : Settles s u := by
  obtain ⟨tail, grown, quiet⟩ := first.log
  obtain ⟨tail', grown', quiet'⟩ := second.log
  refine ⟨⟨tail ++ tail', by rw [grown', grown, List.append_assoc], fun c mark member => ?_⟩,
    fun c => (second.size c).trans (first.size c),
    fun c => (second.tableSize c).trans (first.tableSize c),
    fun c i => (second.offset c i).trans (first.offset c i),
    fun c i dirty => first.dirty c i (second.dirty c i dirty), fun c => ?_⟩
  · exact (List.mem_append.mp member).elim (quiet c mark) (quiet' c mark)
  · rcases second.depends c with same | gone
    · rw [same]; exact first.depends c
    · exact .inr gone

theorem marked (settles : Settles s t) : .markDirty c mark ∈ t.log ↔ .markDirty c mark ∈ s.log := by
  obtain ⟨tail, grown, quiet⟩ := settles.log
  simp [grown, quiet]

theorem depends_none (settles : Settles s t) (none : (s.cache c).depends = none) :
    (t.cache c).depends = .none := by
  rcases settles.depends c with same | gone
  · rw [same, none]
  · exact gone

theorem acyclic (settles : Settles s t) (acyclic : s.Acyclic) : t.Acyclic :=
  acyclic.of_depends settles.depends

theorem called (s : CacheState) : Settles s s.called :=
  ⟨⟨[], by simp⟩, fun _ => rfl, fun _ => rfl, fun _ _ => rfl, fun _ _ dirty => dirty, fun _ => .inl rfl⟩

theorem setEntry (c : CacheId) (i : Nat) (table : CachedTable)
    (offset : table.offset = (s.entry c i).offset)
    (dirty : table.dirty = true → (s.entry c i).dirty = true) :
    Settles s (s.setEntry c i table) := by
  refine ⟨⟨[], by simp⟩, by simp, by simp, fun d j => ?_, fun d j => ?_, by simp⟩
  all_goals
    rw [CacheState.setEntry_entry]
    split
    all_goals rename_i place
  · obtain ⟨rfl, rfl⟩ := place; exact offset
  · rfl
  · obtain ⟨rfl, rfl⟩ := place; exact dirty
  · exact id

theorem setCache (c : CacheId) (new : Cache) (entries : new.entries = (s.cache c).entries)
    (size : new.size = (s.cache c).size) (tableSize : new.tableSize = (s.cache c).tableSize)
    (depends : new.depends = (s.cache c).depends ∨ new.depends = none) :
    Settles s (s.setCache c new) := by
  refine ⟨⟨[], by simp⟩, s.setCache_field Cache.size size, s.setCache_field Cache.tableSize tableSize,
    fun d i => by rw [s.setCache_entry entries],
    fun d i dirty => by rwa [s.setCache_entry entries] at dirty, fun d => ?_⟩
  by_cases same : d = c
  · subst same; simpa using depends
  · exact .inl (by rw [CacheState.setCache_ne s same])

theorem record (s : CacheState) (event : CacheEvent) (quiet : ∀ c mark, .markDirty c mark ≠ event) :
    Settles s (s.record event) :=
  ⟨⟨[event], by simp, by simpa using quiet⟩, fun _ => rfl, fun _ => rfl, fun _ _ => rfl,
    fun _ _ dirty => dirty, fun _ => .inl rfl⟩

end Settles

section

theorem bdrvFlush_settles (s : CacheState) : Settles s (bdrvFlush io s).1 := by
  unfold bdrvFlush
  dsimp only
  split
  · exact Settles.called s
  · exact (Settles.called s).trans (.record _ .flush (by simp))

theorem bdrvPwrite_settles (c : CacheId) (i : Nat) (s : CacheState) :
    Settles s (bdrvPwrite io c i s).1 := by
  unfold bdrvPwrite
  dsimp only
  split
  · exact Settles.called s
  · have wrote := Settles.record (s.called) (.write c (s.entry c i).offset (s.entry c i).marks) (by simp)
    exact ((Settles.called s).trans wrote).trans (.setEntry _ _ _ rfl fun dirty => dirty)

theorem writeEntry_settles (c : CacheId) (i : Nat) (s : CacheState) :
    Settles s (writeEntry io c i s).1 := by
  have wrote : Settles s (bdrvPwrite io c i s.called).1 :=
    (Settles.called s).trans (bdrvPwrite_settles ..)
  unfold writeEntry fileCall
  dsimp only
  split
  · exact Settles.called s
  · split
    · exact wrote
    · exact wrote.trans (.setEntry _ _ _ rfl (by simp))

/-- Both outcomes of `qcow2_cache_flush_dependency`. -/
theorem cacheFlushDependency_ok
    (done : cacheFlushDependency flush c dependency s = .ok (later, ret)) :
    ∃ flushed flushRet, flush dependency s = .ok (flushed, flushRet) ∧
      ((flushRet < 0 ∧ later = flushed ∧ ret = flushRet) ∨
        (0 ≤ flushRet ∧ later = flushed.clearDependency c ∧ ret = 0)) := by
  obtain ⟨⟨flushed, flushRet⟩, called, rest⟩ := bind_ok.mp done
  refine ⟨flushed, flushRet, called, ?_⟩
  dsimp only at rest
  split at rest
  next failed =>
    obtain ⟨rfl, rfl⟩ := Prod.mk.inj (ok.inj rest)
    exact .inl ⟨failed, rfl, rfl⟩
  · obtain ⟨rfl, rfl⟩ := Prod.mk.inj (ok.inj rest)
    exact .inr ⟨by omega, rfl, rfl⟩

theorem settleDependency_ok (done : settleDependency io flush c s = .ok (later, ret)) :
    (∃ dependency, (s.cache c).depends = some dependency ∧
        cacheFlushDependency flush c dependency s = .ok (later, ret)) ∨
      ((s.cache c).depends = none ∧ (later, ret) = (s, 0)) ∨
      ((s.cache c).depends = none ∧ ret = (bdrvFlush io s).2 ∧
        ∃ onFlush, later = (bdrvFlush io s).1.setCache c
          { (bdrvFlush io s).1.cache c with dependsOnFlush := onFlush }) := by
  unfold settleDependency at done
  split at done
  next dependency depends => exact .inl ⟨dependency, depends, done⟩
  next depends =>
    refine .inr ?_
    split at done
    · dsimp only at done
      split at done
      · obtain ⟨rfl, rfl⟩ := Prod.mk.inj (ok.inj done)
        exact .inr ⟨depends, rfl, false, rfl⟩
      · obtain ⟨rfl, rfl⟩ := Prod.mk.inj (ok.inj done)
        refine .inr ⟨depends, rfl, ((bdrvFlush io s).1.cache c).dependsOnFlush, ?_⟩
        simp [CacheState.setCache]
    · exact .inl ⟨depends, (ok.inj done).symm⟩

theorem cacheEntryFlush_ok (done : cacheEntryFlush io flush c i s = .ok (later, ret)) :
    (((s.entry c i).dirty = false ∨ (s.entry c i).offset = 0) ∧ later = s ∧ ret = 0) ∨
      ∃ settled settledRet, settleDependency io flush c s = .ok (settled, settledRet) ∧
        ((settledRet < 0 ∧ later = settled ∧ ret = settledRet) ∨
          (0 ≤ settledRet ∧ (later, ret) = writeEntry io c i settled)) := by
  unfold cacheEntryFlush at done
  split at done
  next skip =>
    obtain ⟨rfl, rfl⟩ := Prod.mk.inj (ok.inj done)
    exact .inl ⟨by simpa using skip, rfl, rfl⟩
  · obtain ⟨⟨settled, settledRet⟩, called, rest⟩ := bind_ok.mp done
    refine .inr ⟨settled, settledRet, called, ?_⟩
    dsimp only at rest
    split at rest
    next failed =>
      obtain ⟨rfl, rfl⟩ := Prod.mk.inj (ok.inj rest)
      exact .inl ⟨failed, rfl, rfl⟩
    · exact .inr ⟨by omega, (ok.inj rest).symm⟩

end

end Qemu.Qcow2
