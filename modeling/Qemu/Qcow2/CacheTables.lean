import Qemu.Qcow2.CacheInvariant

namespace Qemu.Qcow2

open Checked Nat CacheState Except

structure TablesDistinct (s : CacheState) : Prop where
  distinct : ∀ c i j, i < (s.cache c).size → j < (s.cache c).size →
    (s.entry c i).offset = (s.entry c j).offset → (s.entry c i).offset ≠ 0 → i = j
  located : ∀ c i, (s.entry c i).dirty = true → (s.entry c i).offset ≠ 0
  aligned : ∀ c i, (s.entry c i).offset % (s.cache c).tableSize = 0

/-- Both states hold the same tables, dirty in both or in none. -/
structure SameTables (s later : CacheState) : Prop where
  size : ∀ c, (later.cache c).size = (s.cache c).size
  tableSize : ∀ c, (later.cache c).tableSize = (s.cache c).tableSize
  offset : ∀ c i, (later.entry c i).offset = (s.entry c i).offset
  dirty : ∀ c i, (later.entry c i).dirty = (s.entry c i).dirty

namespace SameTables

theorem refl (s : CacheState) : SameTables s s :=
  ⟨fun _ => rfl, fun _ => rfl, fun _ _ => rfl, fun _ _ => rfl⟩

theorem trans (first : SameTables s t) (second : SameTables t u) : SameTables s u where
  size c := (second.size c).trans (first.size c)
  tableSize c := (second.tableSize c).trans (first.tableSize c)
  offset c i := (second.offset c i).trans (first.offset c i)
  dirty c i := (second.dirty c i).trans (first.dirty c i)

theorem header (new : Cache) (entries : new.entries = (s.cache c).entries)
    (size : new.size = (s.cache c).size) (tableSize : new.tableSize = (s.cache c).tableSize) :
    SameTables s (s.setCache c new) where
  size := s.setCache_field Cache.size size
  tableSize := s.setCache_field Cache.tableSize tableSize
  offset d i := by rw [s.setCache_entry entries]
  dirty d i := by rw [s.setCache_entry entries]

theorem setEntry (table : CachedTable) (offset : table.offset = (s.entry c i).offset)
    (dirty : table.dirty = (s.entry c i).dirty) : SameTables s (s.setEntry c i table) := by
  refine ⟨by simp, by simp, fun d j => ?_, fun d j => ?_⟩
  all_goals
    rw [setEntry_entry]
    split
    all_goals rename_i place
  · rw [place.1, place.2, offset]
  · rfl
  · rw [place.1, place.2, dirty]
  · rfl

theorem record (s : CacheState) (event : CacheEvent) : SameTables s (s.record event) :=
  ⟨fun _ => rfl, fun _ => rfl, fun _ _ => rfl, fun _ _ => rfl⟩

end SameTables

namespace TablesDistinct

variable {s later : CacheState}

theorem fresh (l2Tables l2TableSize refcountTables refcountTableSize : Nat) :
    TablesDistinct (.fresh l2Tables l2TableSize refcountTables refcountTableSize) where
  distinct c i j _ _ _ used := by cases c <;> exact absurd rfl used
  located c i dirty := by cases c <;> cases dirty
  aligned c i := by cases c <;> exact zero_mod _

section

variable (tables : TablesDistinct s)
include tables

theorem of_same (size : ∀ c, (later.cache c).size = (s.cache c).size)
    (tableSize : ∀ c, (later.cache c).tableSize = (s.cache c).tableSize)
    (offset : ∀ c i, (later.entry c i).offset = (s.entry c i).offset)
    (located : ∀ c i, (later.entry c i).dirty = true → (s.entry c i).offset ≠ 0) :
    TablesDistinct later where
  distinct c i j := by simpa only [size, offset] using tables.distinct c i j
  located c i := by simpa only [offset] using located c i
  aligned c i := by simpa only [offset, tableSize] using tables.aligned c i

theorem of_settles (settles : Settles s later) : TablesDistinct later :=
  tables.of_same settles.size settles.tableSize settles.offset
    fun c i dirty => tables.located c i (settles.dirty c i dirty)

theorem of_sameTables (same : SameTables s later) : TablesDistinct later :=
  tables.of_same same.size same.tableSize same.offset
    fun c i dirty => tables.located c i (same.dirty c i ▸ dirty)

/-- Any change of an entry that keeps its table. -/
theorem setEntry (table : CachedTable) (offset : table.offset = (s.entry c i).offset)
    (located : table.dirty = true → (s.entry c i).offset ≠ 0) :
    TablesDistinct (s.setEntry c i table) := by
  refine tables.of_same (by simp) (by simp) (fun d j => ?_) (fun d j dirty => ?_)
  · rw [setEntry_entry]
    split
    · rename_i place; obtain ⟨rfl, rfl⟩ := place; exact offset
    · rfl
  · rw [setEntry_entry] at dirty
    split at dirty
    · rename_i place; obtain ⟨rfl, rfl⟩ := place; exact located dirty
    · exact tables.located d j dirty

theorem grab : TablesDistinct (s.grab c i) := tables.of_sameTables (.setEntry _ rfl rfl)

theorem replace (table : CachedTable) (clean : table.dirty = false)
    (aligned : table.offset % (s.cache c).tableSize = 0)
    (absent : ∀ j < (s.cache c).size, (s.entry c j).offset = table.offset → table.offset = 0) :
    TablesDistinct (s.setEntry c i table) := by
  refine ⟨fun d j k jRange kRange same used => ?_, fun d j dirty => ?_, fun d j => ?_⟩
  · rw [setEntry_size] at jRange kRange
    rw [setEntry_entry, setEntry_entry] at same
    rw [setEntry_entry] at used
    split at same <;> split at same <;> rename_i atJ atK
    · exact atJ.2.trans atK.2.symm
    · obtain ⟨rfl, rfl⟩ := atJ
      rw [if_pos ⟨rfl, rfl⟩] at used
      exact absurd (absent k kRange same.symm) used
    · obtain ⟨rfl, rfl⟩ := atK
      rw [if_neg atJ, same] at used
      exact absurd (absent j jRange same) used
    · rw [if_neg atJ] at used
      exact tables.distinct d j k jRange kRange same used
  · rw [setEntry_entry] at dirty ⊢
    split at dirty
    · simp [clean] at dirty
    next place =>
      rw [if_neg place]
      exact tables.located d j dirty
  · rw [setEntry_entry, setEntry_tableSize]
    split
    next place =>
      obtain ⟨rfl, -⟩ := place
      exact aligned
    · exact tables.aligned d j

end

end TablesDistinct

theorem lookup_replace
    (searched : lookup entries offset order minLruCounter minLruIndex = .replace index) :
    ∀ i ∈ order, (entries i).offset ≠ offset := by
  induction order generalizing minLruCounter minLruIndex with
  | nil => exact List.forall_mem_nil _
  | cons i rest ih => ?_
  rw [lookup] at searched
  split at searched
  · cases searched
  next other =>
    split at searched
    · exact List.forall_mem_cons.mpr ⟨other, ih searched⟩
    · exact List.forall_mem_cons.mpr ⟨other, ih searched⟩

theorem Cache.mem_lookupOrder {c : Cache} : i ∈ c.lookupOrder offset ↔ i < c.size := by
  simp only [lookupOrder, List.mem_map, List.mem_range]
  constructor
  · rintro ⟨k, inRange, rfl⟩
    exact mod_lt _ (by omega)
  · intro inRange
    generalize offset / c.tableSize * 4 = first
    refine ⟨(i + (c.size - first % c.size)) % c.size, mod_lt _ (by omega), ?_⟩
    have small := mod_lt first (by omega : 0 < c.size)
    rw [add_mod_mod, ← mod_add_mod]
    rw [show first % c.size + (i + (c.size - first % c.size)) = i + c.size by omega,
      add_mod_right, mod_eq_of_lt inRange]

section

theorem dropDependency_settles
    (done : dropDependency io fuel c keep s = .ok (later, ret)) : Settles s later := by
  unfold dropDependency at done
  split at done
  · cases ok.inj done
    exact .refl s
  · split at done
    · cases ok.inj done
      exact .refl s
    · exact cacheFlushDependency_settles done (cacheFlush_spec io fuel)

theorem cacheSetDependency_tables (tables : TablesDistinct s)
    (done : cacheSetDependency io fuel c d s = .ok (later, ret)) : TablesDistinct later := by
  obtain ⟨⟨first, firstRet⟩, dropped, rest⟩ := bind_ok.mp done
  have firstTables := tables.of_settles (dropDependency_settles dropped)
  dsimp only at rest
  split at rest
  · cases ok.inj rest
    exact firstTables
  obtain ⟨⟨second, secondRet⟩, dropped', rest⟩ := bind_ok.mp rest
  have secondTables := firstTables.of_settles (dropDependency_settles dropped')
  split at rest
  · cases ok.inj rest
    exact secondTables
  · cases ok.inj rest
    have headed : TablesDistinct (second.setCache c { second.cache c with depends := some d }) :=
      secondTables.of_sameTables (.header _ rfl rfl rfl)
    exact headed.of_sameTables (.record _ _)

theorem loadEntry_tables (tables : TablesDistinct s) (clean : (s.entry c i).dirty = false)
    (aligned : offset % (s.cache c).tableSize = 0)
    (absent : ∀ j < (s.cache c).size, (s.entry c j).offset ≠ offset) (readFromDisk : Bool) :
    TablesDistinct (loadEntry io c i offset readFromDisk s).1 := by
  set emptied := s.setEntry c i { s.entry c i with offset := 0, marks := [] } with emptied_def
  have emptiedTables : TablesDistinct emptied := tables.replace _ clean (zero_mod _) (fun _ _ _ => rfl)
  have readTables : TablesDistinct (readTable io readFromDisk emptied).1 ∧
      (readTable io readFromDisk emptied).1.cache = emptied.cache := by
    cases readFromDisk
    · exact ⟨emptiedTables, rfl⟩
    · exact ⟨emptiedTables.of_settles (.called _), rfl⟩
  obtain ⟨readTables, same⟩ := readTables
  have entry : ∀ j, (readTable io readFromDisk emptied).1.entry c j = emptied.entry c j := fun j => by
    rw [entry, same]; rfl
  unfold loadEntry
  dsimp only
  split
  · exact readTables
  refine TablesDistinct.grab (readTables.replace _ ?_ ?_ fun j inRange found => ?_)
  · rw [entry, setEntry_entry, if_pos ⟨rfl, rfl⟩]
    exact clean
  · rw [same, setEntry_tableSize]
    exact aligned
  rw [same, setEntry_size] at inRange
  rw [entry, setEntry_entry] at found
  split at found
  · exact found.symm
  · exact absurd found (absent j inRange)

theorem cacheDoGet_tables (tables : TablesDistinct s)
    (done : cacheDoGet io fuel c offset readFromDisk s = .ok (later, ret)) : TablesDistinct later := by
  unfold cacheDoGet at done
  split at done
  · cases done
  split at done
  · cases ok.inj done
    exact tables
  rename_i aligned
  split at done
  · cases ok.inj done
    exact tables.grab
  · cases done
  next i searched =>
    obtain ⟨⟨flushed, flushRet⟩, called, rest⟩ := bind_ok.mp done
    have spec := cacheFlush_spec io fuel
    have settles := cacheEntryFlush_settles spec called
    have flushedTables := tables.of_settles settles
    dsimp only at rest
    split at rest
    · cases ok.inj rest
      exact flushedTables
    -- A miss says that the table is not cached.
    have absent := fun j inRange => lookup_replace searched j (Cache.mem_lookupOrder.mpr inRange)
    have clean := cacheEntryFlush_clean tables.located called (by omega)
    have loaded : TablesDistinct (loadEntry io c i offset readFromDisk flushed).1 :=
      loadEntry_tables flushedTables clean (by simpa [settles.tableSize] using aligned)
        (fun j inRange => by
          rw [settles.offset]
          exact absent j (settles.size c ▸ inRange)) readFromDisk
    rwa [ok.inj rest] at loaded

theorem cachePut_sameTables (done : cachePut c i s = .ok later) : SameTables s later := by
  unfold cachePut at done
  dsimp only at done
  split at done
  · split at done
    · cases done
    · cases ok.inj done
      refine SameTables.trans (.header { s.cache c with
        lruCounter := ((s.cache c).lruCounter + 1) % 2 ^ 64 } rfl rfl rfl) (.setEntry _ ?_ ?_)
      all_goals simp [entry]
    · cases ok.inj done
      exact .setEntry _ rfl rfl
  · cases done

theorem cacheEntryMarkDirty_tables (tables : TablesDistinct s)
    (done : cacheEntryMarkDirty c i s = .ok later) : TablesDistinct later := by
  unfold cacheEntryMarkDirty at done
  dsimp only at done
  split at done
  next usable =>
    cases ok.inj done
    have recorded : TablesDistinct ({ s with marked := s.marked + 1 }.record (.markDirty c s.marked)) :=
      tables.of_same (fun _ => rfl) (fun _ => rfl) (fun _ _ => rfl) tables.located
    exact recorded.setEntry _ rfl fun _ => usable.2
  · cases done

theorem cacheStep_tables (tables : TablesDistinct s) (op : CacheOp)
    (done : cacheStep io fuel s op = .ok later) : TablesDistinct later := by
  cases op with
  | get c offset =>
    obtain ⟨result, called, rfl⟩ := map_ok.mp done
    exact cacheDoGet_tables tables called
  | getEmpty c offset =>
    obtain ⟨result, called, rfl⟩ := map_ok.mp done
    exact cacheDoGet_tables tables called
  | put c i => exact tables.of_sameTables (cachePut_sameTables done)
  | markDirty c i => exact cacheEntryMarkDirty_tables tables done
  | setDependency c d distinct =>
    obtain ⟨result, called, rfl⟩ := map_ok.mp done
    exact cacheSetDependency_tables tables called
  | dependsOnFlush c =>
    cases ok.inj done
    exact tables.of_settles (.setCache _ _ rfl rfl rfl (.inl rfl))
  | write c =>
    obtain ⟨result, called, rfl⟩ := map_ok.mp done
    exact tables.of_settles (cacheWriteLoop_spec (cacheFlush_spec io fuel) _ called).1
  | flush c =>
    obtain ⟨result, called, rfl⟩ := map_ok.mp done
    exact tables.of_settles ((cacheFlush_spec io fuel).settles called)

end

end Qemu.Qcow2
