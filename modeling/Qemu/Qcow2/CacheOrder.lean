import Qemu.Qcow2.CacheInvariant

/-! The order in which the metadata caches reach the file: the dependency graph
stays acyclic, so that flushing ends, and a dependency is on disk before the cache
that depends on it is written. -/

namespace Qemu.Qcow2

open CacheState

variable {s : CacheState}

theorem CacheState.Acyclic.next_free (acyclic : s.Acyclic)
    (depends : (s.cache c).depends = some d) : (s.cache d).depends = none := by
  cases next : (s.cache d).depends with
  | none => rfl
  | some e => ?_
  have edge : s.DependsOn c d := depends
  have edge' : s.DependsOn d e := next
  -- two caches: `e` is `c` or `d`, or `c` depends on itself
  have cycle : e = c ∨ e = d ∨ c = d := by cases c <;> cases d <;> cases e <;> simp
  rcases cycle with rfl | rfl | rfl
  · exact absurd ((Relation.TransGen.single edge).tail edge') (acyclic e)
  · exact absurd (Relation.TransGen.single edge') (acyclic e)
  · exact absurd (Relation.TransGen.single edge) (acyclic c)

section

theorem cacheFlushDependency_ends (ends : ∃ result, flush d s = .ok result) :
    ∃ result, cacheFlushDependency flush c d s = .ok result := by
  obtain ⟨result, called⟩ := ends
  unfold cacheFlushDependency
  simp only [called, bind, Except.bind]
  split <;> exact ⟨_, rfl⟩

theorem cacheEntryFlush_ends (ends : ∀ d, (s.cache c).depends = some d →
    ∃ result, flush d s = .ok result) (i : Nat) :
    ∃ result, cacheEntryFlush io flush c i s = .ok result := by
  have settled : ∃ result, settleDependency io flush c s = .ok result := by
    unfold settleDependency
    split
    next d depends => exact cacheFlushDependency_ends (ends d depends)
    · split
      · dsimp only
        split <;> exact ⟨_, rfl⟩
      · exact ⟨_, rfl⟩
  obtain ⟨result, called⟩ := settled
  unfold cacheEntryFlush
  split
  · exact ⟨_, rfl⟩
  · simp only [called, bind, Except.bind]
    split <;> exact ⟨_, rfl⟩

/-- The recursion ends if it does so for whatever `c` depends on, now or later. -/
theorem cacheFlushWith_ends (spec : FlushSpec flush)
    (ends : ∀ later, Settles s later → ∀ d, (later.cache c).depends = some d →
    ∃ result, flush d later = .ok result) :
    (∃ result, cacheWriteWith io flush c s = .ok result) ∧
    ∃ result, cacheFlushWith io flush c s = .ok result := by
  have loop : ∀ (indices : List Nat) (acc : CacheState × Int), Settles s acc.1 →
      ∃ result, indices.foldlM (cacheWriteStep io flush c) acc = .ok result := by
    intro indices
    induction indices with
    | nil => exact fun acc _ => ⟨acc, rfl⟩
    | cons i rest ih => ?_
    intro acc settles
    obtain ⟨result, flushed⟩ : ∃ result, cacheEntryFlush io flush c i acc.1 = .ok result :=
      cacheEntryFlush_ends (ends acc.1 settles) i
    have stepped : cacheWriteStep io flush c acc i =
        .ok (result.1, if result.2 < 0 ∧ acc.2 ≠ -enospc then result.2 else acc.2) := by
      simp [cacheWriteStep, flushed, bind, Except.bind, pure, Except.pure]
    rw [List.foldlM_cons, stepped]
    exact ih _ (settles.trans (cacheEntryFlush_settles spec flushed))
  obtain ⟨result, written⟩ : ∃ result, cacheWriteWith io flush c s = .ok result := loop _ (s, 0) (.refl s)
  refine ⟨⟨result, written⟩, ?_⟩
  unfold cacheFlushWith
  simp only [written, bind, Except.bind]
  split <;> exact ⟨_, rfl⟩

/-- A cache without dependency is flushed without recursion, any other with one level. -/
theorem cacheFlush_ends (acyclic : s.Acyclic) (fuel : Nat) (c : CacheId) :
    ∃ result, cacheFlush io (fuel + 2) c s = .ok result := by
  refine (cacheFlushWith_ends (cacheFlush_spec io _) fun later settles d depends => ?_).2
  refine (cacheFlushWith_ends (cacheFlush_spec io _) fun last settles' e depends' => ?_).2
  have free := (settles.acyclic acyclic).next_free depends
  simp [settles'.depends_none free] at depends'

theorem cacheWrite_ends (acyclic : s.Acyclic) (fuel : Nat) (c : CacheId) :
    ∃ result, cacheWrite io (fuel + 2) c s = .ok result :=
  (cacheFlushWith_ends (cacheFlush_spec io _) fun _ settles d _ =>
    cacheFlush_ends (settles.acyclic acyclic) fuel d).1

end

/-- The invariant of a run. -/
structure CacheState.Good (s : CacheState) : Prop where
  acyclic : s.Acyclic
  inv : CacheInv s

/-- An operation does not run out of fuel and leaves a good state. -/
def Proper (result : Except Stop CacheState) : Prop :=
  result ≠ .error .outOfFuel ∧ ∀ later, result = .ok later → later.Good

theorem Proper.ok (good : s.Good) : Proper (.ok s) := ⟨nofun, fun _ same => Except.ok.inj same ▸ good⟩

theorem Proper.error (ended : stop ≠ .outOfFuel) : Proper (.error stop) :=
  ⟨fun same => ended (Except.error.inj same), nofun⟩

theorem Proper.abort : Proper (.error .abort) := .error nofun

theorem Proper.fst {called : CacheResult}
    (same : called = .ok result) (settles : Settles s result.1) (inv : CacheInv result.1)
    (good : s.Good) : Proper (Prod.fst <$> called) := by
  rw [same]
  exact .ok ⟨settles.acyclic good.acyclic, inv⟩

section

variable {s : CacheState}

section

variable (good : s.Good)
include good

theorem CacheState.Good.setEntry (table : CachedTable) (marks : table.marks = (s.entry c i).marks)
    (clean : table.dirty = false → table.marks = [])
    (located : table.dirty = true → table.offset ≠ 0) : (s.setEntry c i table).Good :=
  ⟨good.acyclic.of_depends (by simp), good.inv.setEntry table marks clean located⟩

theorem CacheState.Good.header (new : Cache)
    (entries : new.entries = (s.cache c).entries) (size : new.size = (s.cache c).size)
    (tableSize : new.tableSize = (s.cache c).tableSize)
    (depends : new.depends = (s.cache c).depends) : (s.setCache c new).Good :=
  ⟨(Settles.setCache c new entries size tableSize (.inl depends)).acyclic good.acyclic,
    good.inv.setCache new entries size depends⟩

theorem CacheState.Good.grab : (s.grab c i).Good :=
  good.setEntry _ rfl (good.inv.clean c i) (good.inv.located c i)

theorem CacheState.Good.called : s.called.Good := ⟨good.acyclic, good.inv.called⟩

theorem readTable_good (readFromDisk : Bool) :
    (readTable io readFromDisk s).1.Good ∧ (readTable io readFromDisk s).1.entry c i = s.entry c i := by
  cases readFromDisk
  · exact ⟨good, rfl⟩
  · exact ⟨good.called, rfl⟩

theorem loadEntry_good (clean : (s.entry c i).dirty = false)
    (readFromDisk : Bool) : (loadEntry io c i offset readFromDisk s).1.Good := by
  have emptied : (s.setEntry c i { s.entry c i with offset := 0, marks := [] }).Good :=
    good.setEntry _ (good.inv.clean c i clean).symm (fun _ => rfl) (by simp [clean])
  obtain ⟨read, entry⟩ : (readTable io readFromDisk _).1.Good ∧ _ =
      entry _ c i := readTable_good emptied readFromDisk
  rw [setEntry_entry, if_pos ⟨rfl, rfl⟩] at entry
  unfold loadEntry
  dsimp only
  split
  · exact read
  · have isClean := (congrArg CachedTable.dirty entry).trans clean
    refine CacheState.Good.grab ?_
    exact read.setEntry _ rfl (fun _ => congrArg CachedTable.marks entry)
      fun dirty => absurd (isClean.symm.trans dirty) (by simp)

theorem cacheDoGet_proper (fuel offset : Nat) (readFromDisk : Bool) :
    Proper (Prod.fst <$> cacheDoGet io (fuel + 2) c offset readFromDisk s) := by
  unfold cacheDoGet
  split
  · exact .abort
  split
  · exact .ok good
  split
  · exact .ok good.grab
  · exact .abort
  next i _ =>
    obtain ⟨result, flushed⟩ : ∃ result, cacheEntryFlush io (cacheFlush io (fuel + 2)) c i s =
      .ok result :=
      cacheEntryFlush_ends (fun d _ => cacheFlush_ends good.acyclic fuel d) i
    have settles := cacheEntryFlush_settles (cacheFlush_spec io _) flushed
    have inv := cacheEntryFlush_inv (cacheFlush_spec io _) good.inv flushed
    have clean := cacheEntryFlush_clean good.inv.located flushed
    have flushedGood : result.1.Good := ⟨settles.acyclic good.acyclic, inv⟩
    simp only [flushed, bind, Except.bind]
    split
    · exact .ok flushedGood
    · exact .ok (loadEntry_good flushedGood (clean (by omega)) readFromDisk)

theorem cachePut_proper : Proper (cachePut c i s) := by
  unfold cachePut
  dsimp only
  split
  · split
    · exact .abort
    · have counted : (s.setCache c { s.cache c with
          lruCounter := ((s.cache c).lruCounter + 1) % 2 ^ 64 }).Good := good.header _ rfl rfl rfl rfl
      exact .ok (counted.setEntry _ (by simp [entry]) (good.inv.clean c i)
        (good.inv.located c i))
    · exact .ok (good.setEntry _ rfl (good.inv.clean c i) (good.inv.located c i))
  · exact .abort

theorem cacheEntryMarkDirty_proper : Proper (cacheEntryMarkDirty c i s) := by
  unfold cacheEntryMarkDirty
  dsimp only
  split
  next usable =>
    refine .ok ⟨good.acyclic.of_depends (by simp), ?_⟩
    have counted : CacheInv { s with marked := s.marked + 1 } :=
      good.inv.of_same rfl (fun _ => rfl) (fun _ => rfl) (fun _ _ => rfl) good.inv.clean
        good.inv.located
    exact counted.markDirty usable.1 usable.2 s.marked
  · exact .abort

/-- After a successful call `c` depends on nothing or on `keep`. -/
theorem dropDependency_spec (fuel : Nat) (keep : Option CacheId) :
    ∃ later ret, dropDependency io (fuel + 2) c keep s = .ok (later, ret) ∧ Settles s later ∧
      CacheInv later ∧ (0 ≤ ret → (later.cache c).depends = none ∨ (later.cache c).depends = keep) := by
  unfold dropDependency
  split
  next free => exact ⟨s, 0, rfl, .refl s, good.inv, fun _ => .inl free⟩
  next dependency depends =>
    split
    next same => exact ⟨s, 0, rfl, .refl s, good.inv, fun _ => .inr (depends.trans same)⟩
    · obtain ⟨⟨later, ret⟩, done⟩ : ∃ result,
          cacheFlushDependency (cacheFlush io (fuel + 2)) c dependency s = .ok result :=
        cacheFlushDependency_ends (cacheFlush_ends good.acyclic fuel dependency)
      have spec := cacheFlush_spec io (fuel + 2)
      exact ⟨later, ret, done, cacheFlushDependency_settles done spec,
        cacheFlushDependency_inv done spec good.inv depends,
        fun passed => .inl (cacheFlushDependency_depends done passed)⟩

end

/-- With `c` depending on `d` and `d` on nothing there is no cycle. -/
theorem CacheState.acyclic_of_single (distinct : c ≠ d)
    (only : ∀ a b, s.DependsOn a b → a = c ∧ b = d) : s.Acyclic := by
  intro a cycle
  obtain ⟨_, first, -⟩ := Relation.TransGen.head'_iff.mp cycle
  obtain ⟨_, -, last⟩ := Relation.TransGen.tail'_iff.mp cycle
  exact distinct ((only _ _ first).1.symm.trans (only _ _ last).2)

section

variable (good : s.Good) (fuel : Nat)
include good

theorem cacheSetDependency_proper (distinct : c ≠ d) :
    Proper (Prod.fst <$> cacheSetDependency io (fuel + 2) c d s) := by
  obtain ⟨first, ret, dropped, settles, inv, free⟩ : ∃ later ret,
      dropDependency io (fuel + 2) d none s = .ok (later, ret) ∧ _ := dropDependency_spec good fuel none
  have firstGood : first.Good := ⟨settles.acyclic good.acyclic, inv⟩
  obtain ⟨second, ret', dropped', settles', inv', was⟩ : ∃ later ret,
      dropDependency io (fuel + 2) c (some d) first = .ok (later, ret) ∧ _ :=
    dropDependency_spec firstGood fuel (some d)
  simp only [cacheSetDependency, dropped, dropped', bind, Except.bind]
  split
  · exact .ok firstGood
  split
  · exact .ok ⟨settles'.acyclic firstGood.acyclic, inv'⟩
  have dFree : (second.cache d).depends = none := settles'.depends_none (by simpa using free (by omega))
  refine .ok ⟨acyclic_of_single distinct fun a b edge => ?_, inv'.setDependency (was (by omega))⟩
  unfold CacheState.DependsOn at edge
  rw [record_cache] at edge
  by_cases same : a = c
  · subst same
    exact ⟨rfl, by simpa using edge.symm⟩
  · obtain rfl : a = d := by cases a <;> cases c <;> cases d <;> simp_all
    rw [setCache_ne _ same, dFree] at edge
    cases edge

theorem cacheStep_proper (op : CacheOp) : Proper (cacheStep io (fuel + 2) s op) := by
  cases op with
  | get c offset => exact cacheDoGet_proper good fuel offset true
  | getEmpty c offset => exact cacheDoGet_proper good fuel offset false
  | put c i => exact cachePut_proper good
  | markDirty c i => exact cacheEntryMarkDirty_proper good
  | setDependency c d distinct => exact cacheSetDependency_proper good fuel distinct
  | dependsOnFlush c =>
    exact .ok (good.header _ rfl rfl rfl rfl)
  | write c =>
    obtain ⟨result, done⟩ : ∃ result, cacheWrite io (fuel + 2) c s = .ok result :=
      cacheWrite_ends good.acyclic fuel c
    obtain ⟨settles, keeps⟩ := cacheWriteLoop_spec (cacheFlush_spec io _) _ done
    exact .fst done settles (keeps good.inv).1 good
  | flush c =>
    obtain ⟨result, done⟩ : ∃ result, cacheFlush io (fuel + 2) c s = .ok result :=
      cacheFlush_ends good.acyclic fuel c
    have spec := cacheFlush_spec io (fuel + 2)
    exact .fst done (spec.settles done) (spec.inv done good.inv) good

theorem cacheRun_proper (ops : List CacheOp) :
    Proper (cacheRun io (fuel + 2) ops s) := by
  induction ops generalizing s with
  | nil => exact .ok good
  | cons op rest ih => ?_
  obtain ⟨ends, keeps⟩ : Proper (cacheStep io (fuel + 2) s op) := cacheStep_proper good fuel op
  unfold cacheRun
  rw [List.foldlM_cons]
  cases stepped : cacheStep io (fuel + 2) s op with
  | error stop => exact .error fun spent => ends (spent ▸ stepped)
  | ok next => exact ih (keeps next stepped)

end

end

theorem CacheState.fresh_good (l2Tables l2TableSize refcountTables refcountTableSize : Nat) :
    (fresh l2Tables l2TableSize refcountTables refcountTableSize).Good := by
  refine ⟨fun c cycle => ?_, CacheInv.fresh ..⟩
  obtain ⟨d, edge, -⟩ := Relation.TransGen.head'_iff.mp cycle
  cases c <;> cases edge

/-- Along every run of the two caches, whatever file operations fail, flushing ends, no cache
comes to depend on itself, and dependencies are durable before their dependents are written. -/
theorem cacheRun_writeOrdered (io : Nat → Int) (fuel : Nat) (ops : List CacheOp)
    (l2Tables l2TableSize refcountTables refcountTableSize : Nat) :
    let run := cacheRun io (fuel + 2) ops
      (.fresh l2Tables l2TableSize refcountTables refcountTableSize)
    run ≠ .error .outOfFuel ∧ ∀ s, run = .ok s → s.Acyclic ∧ WriteOrdered s.log := by
  have proper : Proper (cacheRun io (fuel + 2) ops _) :=
    cacheRun_proper (fresh_good l2Tables l2TableSize refcountTables refcountTableSize) fuel ops
  exact ⟨proper.1, fun s done => ⟨(proper.2 s done).acyclic, (proper.2 s done).inv.ordered⟩⟩

/-- The L2 cache, which has one entry, is made dependent on the refcount block cache; a table
marked before and one marked after that are then evicted. -/
theorem cacheRun_writeOrdered_eviction :
    let ops : List CacheOp := [.get .refcountBlock 1024, .markDirty .refcountBlock 0,
      .setDependency .l2Table .refcountBlock (by decide), .get .l2Table 512, .markDirty .l2Table 0,
      .put .l2Table 0, .get .l2Table 1536]
    ∃ s, cacheRun (fun _ => 0) 2 ops (.fresh 1 512 1 512) = .ok s ∧
      s.log = [.markDirty .refcountBlock 0, .setDependency .l2Table .refcountBlock,
        .markDirty .l2Table 1, .write .refcountBlock 1024 [0], .flush, .write .l2Table 512 [1]] ∧
      Durable .refcountBlock 0 (s.log.take 5) := by
  intro ops
  have ran : ∃ s, cacheRun (fun _ => 0) 2 ops (.fresh 1 512 1 512) = .ok s ∧
      s.log = [.markDirty .refcountBlock 0, .setDependency .l2Table .refcountBlock,
        .markDirty .l2Table 1, .write .refcountBlock 1024 [0], .flush, .write .l2Table 512 [1]] :=
    ⟨_, rfl, by decide⟩
  obtain ⟨s, done, log⟩ := ran
  have ordered := ((cacheRun_writeOrdered (fun _ => 0) 0 ops 1 512 1 512).2 s done).2
  refine ⟨s, done, log, ?_⟩
  have durable := ordered .l2Table .refcountBlock [.markDirty .refcountBlock 0]
    [.markDirty .l2Table 1, .write .refcountBlock 1024 [0], .flush] (.write .l2Table 512 [1]) [] 1
    (by simpa using log) ⟨512, [1], rfl, by decide⟩ (by decide) 0 (by decide)
  simpa [log] using durable

end Qemu.Qcow2
