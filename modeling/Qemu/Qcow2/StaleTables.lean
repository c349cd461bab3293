import Qemu.Qcow2.CacheTables
import Qemu.Qcow2.FreeClusters

/-! Dirty tables that outlive the cluster they lie in.  `update_refcount` drops the table
cached at the start of the range it frees and no other one. -/

namespace Qemu.Qcow2

open Checked List Except

variable {clusterSize cluster : Nat} {t : TableAt}

theorem mem_dirtyInside :
    t ∈ dirtyInside caches clusterSize cluster ↔
    ∃ i < (caches.cache t.1).size, (caches.entry t.1 i).dirty = true ∧
        (caches.entry t.1 i).offset = t.2 ∧ t.2 / clusterSize = cluster := by
  obtain ⟨c, offset⟩ := t
  simp only [dirtyInside, mem_flatMap, mem_map, mem_filter, mem_range, Bool.and_eq_true, beq_iff_eq,
    Prod.mk.injEq]
  constructor
  · rintro ⟨_, -, i, ⟨inRange, dirty, inside⟩, rfl, rfl⟩
    exact ⟨i, inRange, dirty, rfl, inside⟩
  · rintro ⟨i, inRange, dirty, rfl, inside⟩
    exact ⟨c, by cases c <;> simp, i, ⟨inRange, dirty, inside⟩, rfl, rfl⟩

theorem SameTables.mem_dirtyInside (same : SameTables s later) :
    t ∈ dirtyInside later clusterSize cluster ↔ t ∈ dirtyInside s clusterSize cluster := by
  simp [Qcow2.mem_dirtyInside, same.size, same.offset, same.dirty]

theorem SameTables.cacheIsTableOffset (same : SameTables s later)
    (c : CacheId) (offset : Nat) :
    Qcow2.cacheIsTableOffset c offset later = Qcow2.cacheIsTableOffset c offset s := by
  simp [Qcow2.cacheIsTableOffset, same.size, same.offset]

section

theorem cacheIsTableOffset_some (found : cacheIsTableOffset c offset s = some i) :
    i < (s.cache c).size ∧ (s.entry c i).offset = offset := by
  have member := mem_of_find?_eq_some found
  have holds := find?_some found
  exact ⟨mem_range.mp member, by simpa using holds⟩

theorem cacheDiscard_tables (tables : TablesDistinct s)
    (done : cacheDiscard c i s = .ok later) : TablesDistinct later := by
  unfold cacheDiscard at done
  split at done
  · cases ok.inj done
    exact tables.replace _ rfl (Nat.zero_mod _) fun _ _ _ => rfl
  · cases done

variable {t : TableAt}

/-- Dropping the table at `offset` takes it, and only it, out of the dirty tables. -/
theorem cacheDiscard_dirtyInside (tables : TablesDistinct s)
    (found : cacheIsTableOffset c offset s = some i) (done : cacheDiscard c i s = .ok later) :
    t ∈ dirtyInside later clusterSize cluster ↔
      t ∈ dirtyInside s clusterSize cluster ∧ ¬ (t.1 = c ∧ t.2 = offset) := by
  obtain ⟨inRange, atOffset⟩ := cacheIsTableOffset_some found
  unfold cacheDiscard at done
  split at done
  · cases ok.inj done
    obtain ⟨d, place⟩ := t
    simp only [mem_dirtyInside, CacheState.setEntry_size, CacheState.setEntry_entry]
    constructor
    · rintro ⟨j, jRange, dirty, same, inside⟩
      split at dirty
      · cases dirty
      next other =>
        rw [if_neg other] at same
        refine ⟨⟨j, jRange, dirty, same, inside⟩, fun dropped => other ⟨dropped.1, ?_⟩⟩
        obtain ⟨rfl, rfl⟩ := dropped
        exact tables.distinct d j i jRange inRange (same.trans atOffset.symm)
          (tables.located d j dirty)
    · rintro ⟨⟨j, jRange, dirty, same, inside⟩, kept⟩
      have other : ¬ (d = c ∧ j = i) := by
        rintro ⟨rfl, rfl⟩
        exact kept ⟨rfl, same.symm.trans atOffset⟩
      exact ⟨j, jRange, by rw [if_neg other]; exact dirty, by rw [if_neg other]; exact same, inside⟩
  · cases done

theorem dirtyInside_of_none (missing : cacheIsTableOffset c offset s = none) :
    t ∈ dirtyInside s clusterSize cluster ↔ t ∈ dirtyInside s clusterSize cluster ∧
    ¬ (t.1 = c ∧ t.2 = offset) := by
  refine ⟨fun member => ⟨member, ?_⟩, And.left⟩
  rintro ⟨rfl, rfl⟩
  obtain ⟨j, inRange, -, same, -⟩ := mem_dirtyInside.mp member
  have other := find?_eq_none.mp missing j (mem_range.mpr inRange)
  simp [same] at other

/-- What is recorded about a release: exactly the tables at other offsets stay dirty. -/
def Release.Exact (r : Release) : Prop := ∀ t, t ∈ r.left ↔ t ∈ r.dirty ∧ t.2 ≠ r.offset

/-- The invariant of a run. -/
structure FreeState.Good (s : FreeState) : Prop where
  tables : TablesDistinct s.caches
  exact : ∀ r ∈ s.released, r.Exact

variable {s : FreeState}

theorem FreeState.Good.of_caches (good : s.Good) {caches : CacheState}
    (tables : TablesDistinct caches) : FreeState.Good { s with caches } := ⟨tables, good.exact⟩

theorem putRefcountBlock_ok (done : putRefcountBlock block s = .ok later) :
    ∃ caches, later = { s with caches } ∧ SameTables s.caches caches := by
  unfold putRefcountBlock at done
  split at done
  · cases ok.inj done
    exact ⟨s.caches, rfl, .refl _⟩
  · obtain ⟨caches, put, ⟨⟩⟩ := bind_ok.mp done
    exact ⟨caches, rfl, cachePut_sameTables put⟩

theorem dropRefcountBlock_ok {later : UpdateCursor} (tables : TablesDistinct cursor.state.caches)
    (done : dropRefcountBlock offset cursor = .ok later) :
    ∃ caches, later.state = { cursor.state with caches } ∧ TablesDistinct caches ∧
      ∀ {clusterSize cluster t}, t ∈ dirtyInside caches clusterSize cluster ↔
        t ∈ dirtyInside cursor.state.caches clusterSize cluster ∧
        ¬ (t.1 = .refcountBlock ∧ t.2 = offset) := by
  unfold dropRefcountBlock at done
  split at done
  next missing =>
    cases ok.inj done
    exact ⟨_, rfl, tables, dirtyInside_of_none missing⟩
  · obtain ⟨s, put, rest⟩ := bind_ok.mp done
    obtain ⟨caches, dropped, ⟨⟩⟩ := bind_ok.mp rest
    obtain ⟨putCaches, rfl, same⟩ := putRefcountBlock_ok put
    have putTables := tables.of_sameTables same
    refine ⟨caches, rfl, cacheDiscard_tables putTables dropped, ?_⟩
    intro clusterSize cluster t
    rw [cacheDiscard_dirtyInside putTables (by rwa [same.cacheIsTableOffset]) dropped,
      same.mem_dirtyInside]

theorem dropL2Table_ok {caches later : CacheState} (tables : TablesDistinct caches)
    (done : dropL2Table offset caches = .ok later) : TablesDistinct later ∧
      ∀ {clusterSize cluster t}, t ∈ dirtyInside later clusterSize cluster ↔
        t ∈ dirtyInside caches clusterSize cluster ∧ ¬ (t.1 = .l2Table ∧ t.2 = offset) := by
  unfold dropL2Table at done
  split at done
  next missing =>
    cases ok.inj done
    exact ⟨tables, dirtyInside_of_none missing⟩
  next table found => exact ⟨cacheDiscard_tables tables done, cacheDiscard_dirtyInside tables found done⟩

/-- The discards after a refcount has become 0, if it has. -/
def FreeState.queued (s : FreeState) (zero : Bool) (type : DiscardType) (clusterOffset : Nat) :
    Except Stop (List DiscardRegion) :=
  if zero && s.discardPassthrough type then queueDiscard s.discards clusterOffset s.clusterSize
    else .ok s.discards

theorem releaseCluster_ok {later : UpdateCursor}
    (good : cursor.state.Good) (done : releaseCluster offset clusterOffset type cursor = .ok later) :
    later.state.Good ∧ ∃ caches released discards, later.state =
    { cursor.state with caches, released, discards } ∧
      cursor.state.queued true type clusterOffset = .ok discards := by
  obtain ⟨dropped, first, rest⟩ := bind_ok.mp done
  obtain ⟨caches, second, rest⟩ := bind_ok.mp rest
  obtain ⟨droppedCaches, droppedState, droppedTables, droppedDirty⟩ :=
    dropRefcountBlock_ok good.tables first
  rw [droppedState] at second rest
  obtain ⟨tables, dirty⟩ := dropL2Table_ok droppedTables second
  set cluster := clusterOffset / cursor.state.clusterSize
  have exact : ∀ r ∈ cursor.state.released ++ [⟨offset, cluster,
      dirtyInside cursor.state.caches cursor.state.clusterSize cluster,
      dirtyInside caches cursor.state.clusterSize cluster⟩], r.Exact := by
    intro r member
    rcases mem_append.mp member with old | new
    · exact good.exact r old
    obtain rfl := mem_singleton.mp new
    intro t
    rw [dirty, droppedDirty, and_assoc]
    refine and_congr_right fun _ => ⟨fun kept same => ?_, fun other => ?_⟩
    · cases which : t.1
      · exact kept.2 ⟨which, same⟩
      · exact kept.1 ⟨which, same⟩
    · exact ⟨fun drop => other drop.2, fun drop => other drop.2⟩
  dsimp only at rest
  rw [FreeState.queued, Bool.true_and]
  split at rest
  next passed =>
    obtain ⟨discards, queue, ⟨⟩⟩ := bind_ok.mp rest
    exact ⟨⟨tables, exact⟩, caches, _, discards, rfl, (if_pos passed).trans queue⟩
  next kept =>
    cases ok.inj rest
    exact ⟨⟨tables, exact⟩, caches, _, _, rfl, if_neg kept⟩

theorem loadRefcountBlock_ok
    (good : s.Good) (done : loadRefcountBlock io fuel clusterIndex s = .ok (later, ret, block)) :
    ∃ caches, later = { s with caches } ∧ TablesDistinct caches := by
  unfold loadRefcountBlock at done
  split at done
  · cases done
  dsimp only at done
  split at done
  · cases done
  split at done
  · cases ok.inj done
    exact ⟨_, rfl, good.tables⟩
  · obtain ⟨⟨caches, getRet⟩, got, ⟨⟩⟩ := bind_ok.mp done
    exact ⟨caches, rfl, cacheDoGet_tables good.tables got⟩

theorem switchBlock_ok {later : UpdateCursor}
    (good : cursor.state.Good) (done : switchBlock io fuel clusterIndex cursor = .ok (later, ret)) :
    ∃ caches, later.state = { cursor.state with caches } ∧ TablesDistinct caches := by
  unfold switchBlock at done
  dsimp only at done
  split at done
  · cases ok.inj done
    exact ⟨_, rfl, good.tables⟩
  obtain ⟨s, put, more⟩ := bind_ok.mp done
  obtain ⟨caches, rfl, same⟩ := putRefcountBlock_ok put
  obtain ⟨⟨loaded, loadRet, block⟩, load, rest⟩ := bind_ok.mp more
  obtain ⟨caches, rfl, tables⟩ :=
    loadRefcountBlock_ok (good.of_caches (good.tables.of_sameTables same)) load
  split at rest
  · cases ok.inj rest
    exact ⟨caches, rfl, tables⟩
  · cases ok.inj rest
    exact ⟨caches, rfl, tables⟩

/-- What a pass of `update_refcount` that succeeds does besides its work on the caches. -/
def FreeState.Counted (s : FreeState) (addend : Nat) (decrease : Bool) (type : DiscardType)
    (clusterOffset : Nat) (later : FreeState) : Prop :=
  ∃ refcount caches freeClusterIndex released discards,
    newRefcount s (s.refcount (clusterOffset / s.clusterSize)) addend decrease = some refcount ∧
      s.queued (refcount = 0) type clusterOffset = .ok discards ∧
      later = { s with
        caches, freeClusterIndex, released, discards
        refcount := Function.update s.refcount (clusterOffset / s.clusterSize) refcount }

theorem updateCluster_ok {later : UpdateCursor} (good : cursor.state.Good)
    (done : updateCluster io fuel offset addend decrease type clusterOffset cursor = .ok (later, ret)) :
    later.state.Good ∧ (¬ ret < 0 →
    cursor.state.Counted addend decrease type clusterOffset later.state) := by
  obtain ⟨⟨switched, switchRet⟩, switch, rest⟩ := bind_ok.mp done
  obtain ⟨switchedCaches, switchedState, switchedTables⟩ := switchBlock_ok good switch
  dsimp only at rest
  split at rest
  next failed =>
    cases ok.inj rest
    exact ⟨switchedState ▸ good.of_caches switchedTables, absurd failed⟩
  obtain ⟨caches, marked, rest⟩ := bind_ok.mp rest
  rw [switchedState] at marked rest
  have tables := cacheEntryMarkDirty_tables switchedTables marked
  split at rest
  · cases ok.inj rest
    exact ⟨good.of_caches tables, fun success => absurd (by decide) success⟩
  next refcount counted =>
    split at rest
    next zero =>
      obtain ⟨released, release, ⟨⟩⟩ := bind_ok.mp rest
      obtain ⟨laterGood, caches, releases, discards, state, queue⟩ :=
        releaseCluster_ok (by exact ⟨tables, good.exact⟩) release
      exact ⟨laterGood, fun _ => ⟨refcount, caches, _, releases, discards, counted,
        by rw [zero]; exact queue, state⟩⟩
    next some =>
      cases ok.inj rest
      refine ⟨⟨tables, good.exact⟩, fun _ => ⟨refcount, caches, _, _, _, counted, ?_, rfl⟩⟩
      simp [FreeState.queued, some]

theorem updateClusters_good {later : UpdateCursor} (good : cursor.state.Good)
    (done : updateClusters io fuel offset addend decrease type clusters cursor =
      .ok (later, ret, stopped)) : later.state.Good := by
  induction clusters generalizing cursor with
  | nil =>
    cases ok.inj done
    exact good
  | cons clusterOffset rest ih => ?_
  obtain ⟨⟨next, nextRet⟩, step, more⟩ := bind_ok.mp done
  have nextGood := (updateCluster_ok good step).1
  dsimp only at more
  split at more
  · cases ok.inj more
    exact nextGood
  · exact ih nextGood more

section

variable (good : s.Good)
include good

theorem orderDecrease_ok (done : orderDecrease io fuel decrease s = .ok later) :
    ∃ caches, later = { s with caches } ∧ TablesDistinct caches := by
  unfold orderDecrease at done
  split at done
  · obtain ⟨⟨caches, ret⟩, set, ⟨⟩⟩ := bind_ok.mp done
    exact ⟨caches, rfl, cacheSetDependency_tables good.tables set⟩
  · cases ok.inj done
    exact ⟨_, rfl, good.tables⟩

theorem updateRefcount_good {length : Int}
    (done : updateRefcount io fuel depth offset length addend decrease type s = .ok (later, ret)) :
    later.Good := by
  induction depth generalizing offset length decrease type s later ret with
  | zero => cases done
  | succ depth ih => ?_
  rw [updateRefcount] at done
  split at done
  · cases ok.inj done
    exact good
  split at done
  · cases ok.inj done
    exact good
  obtain ⟨ordered, order, rest⟩ := bind_ok.mp done
  obtain ⟨⟨cursor, loopRet, stopped⟩, loop, rest⟩ := bind_ok.mp rest
  obtain ⟨put, putDone, rest⟩ := bind_ok.mp rest
  obtain ⟨_, rfl, tables⟩ := orderDecrease_ok good order
  have cursorGood := updateClusters_good (good.of_caches tables) loop
  obtain ⟨caches, rfl, same⟩ := putRefcountBlock_ok putDone
  -- the discards sent or dropped are not part of the invariant
  have processed : FreeState.Good (if cursor.state.cacheDiscards then cursor.state
      else processDiscards loopRet cursor.state) := by
    split
    · exact cursorGood
    · exact ⟨cursorGood.tables, cursorGood.exact⟩
  have putGood := processed.of_caches (processed.tables.of_sameTables same)
  split at rest
  · obtain ⟨⟨undone, undoRet⟩, undo, ⟨⟩⟩ := bind_ok.mp rest
    exact ih putGood undo
  · cases ok.inj rest
    exact putGood

theorem freeClusters_good (done : freeClusters io fuel depth offset size type s = .ok later)
    : later.Good := by
  obtain ⟨⟨later, ret⟩, update, rfl⟩ := map_ok.mp done
  exact updateRefcount_good good update

theorem freeL2Tables_good (done : freeL2Tables io fuel depth indices s = .ok later)
    : later.Good := by
  induction indices generalizing s with
  | nil =>
    cases ok.inj done
    exact good
  | cons i rest ih => ?_
  rw [freeL2Tables] at done
  split at done
  · exact ih good done
  obtain ⟨freed, free, more⟩ := bind_ok.mp done
  have freedGood := freeClusters_good good free
  have cleared : FreeState.Good { freed with l1Table := freed.l1Table.set i 0 } :=
    ⟨freedGood.tables, freedGood.exact⟩
  exact ih cleared more

theorem shrinkL1Table_good (done : shrinkL1Table io fuel depth exactSize s = .ok (later, ret))
    : later.Good := by
  have zeroed := good.tables.of_settles (.called s.caches)
  have flushed : TablesDistinct (bdrvFlush io s.caches.called).1 :=
    zeroed.of_settles (bdrvFlush_settles s.caches.called)
  unfold shrinkL1Table fileCall at done
  split at done
  · cases ok.inj done
    exact good
  dsimp only at done
  split at done
  · cases ok.inj done
    exact ⟨zeroed, good.exact⟩
  split at done
  · cases ok.inj done
    exact ⟨flushed, good.exact⟩
  · obtain ⟨freed, free, ⟨⟩⟩ := bind_ok.mp done
    exact freeL2Tables_good (good.of_caches flushed) free

theorem freeStep_good (op : FreeOp) (done : freeStep io fuel depth s op = .ok later) : later.Good := by
  cases op with
  | cache op =>
    obtain ⟨caches, step, ⟨⟩⟩ := bind_ok.mp done
    exact good.of_caches (cacheStep_tables good.tables op step)
  | updateRefcount offset length addend decrease type =>
    obtain ⟨⟨later, ret⟩, update, rfl⟩ := map_ok.mp done
    exact updateRefcount_good good update
  | freeClusters offset size type => exact freeClusters_good good done
  | shrinkL1Table exactSize =>
    obtain ⟨⟨later, ret⟩, shrink, rfl⟩ := map_ok.mp done
    exact shrinkL1Table_good good shrink

end

end

theorem Release.Exact.clean_iff {r : Release} (exact : r.Exact) : r.left = [] ↔
    ∀ t ∈ r.dirty, t.2 = r.offset := by
  rw [eq_nil_iff_forall_not_mem]
  refine forall_congr' fun t => ?_
  rw [exact t]
  tauto

/-- Along every run, the clusters that reach refcount 0 are free of dirty tables exactly if each
dirty table cached inside one of them was cached at the start of the range being freed. -/
theorem freeRun_clean_iff (io : Nat → Int) (fuel depth : Nat) (ops : List FreeOp)
    (image : FreeState) (l2Tables l2TableSize refcountTables : Nat) {s : FreeState}
    (done : freeRun io fuel depth ops (image.mount l2Tables l2TableSize refcountTables) = .ok s) :
    (∀ r ∈ s.released, r.left = []) ↔ ∀ r ∈ s.released, ∀ t ∈ r.dirty, t.2 = r.offset := by
  have good : s.Good := foldlM_ok (fun _ op _ good step => freeStep_good good op step)
    ⟨TablesDistinct.fresh .., by simp [FreeState.mount]⟩ done
  exact forall₂_congr fun r member => (good.exact r member).clean_iff

/-- 1 KiB clusters: header, refcount table, refcount block, L1 table and one L2 table, each with
one reference. -/
def smallImage : FreeState where
  caches := .fresh 0 0 0 0
  clusterBits := 10
  refcountBlockBits := 9
  refcountMax := 65535
  refcountTable := [2048]
  refcount cluster := if cluster < 5 then 1 else 0
  freeClusterIndex := 5
  l1Table := [2 ^ 63 + 4096]
  discardPassthrough _ := false
  cacheDiscards := false
  discards := []
  pdiscards := []
  released := []

/-- The first slice of the L2 table is the one that is dropped. -/
theorem freeRun_clean_first_slice :
    let ops : List FreeOp := [.cache (.get .l2Table 4096), .cache (.markDirty .l2Table 0),
      .cache (.put .l2Table 0), .shrinkL1Table 0]
    ∃ s, freeRun (fun _ => 0) 2 2 ops (smallImage.mount 4 512 4) = .ok s ∧
      s.released.map Release.dirty = [[(.l2Table, 4096)]] ∧ ∀ r ∈ s.released, r.left = [] := by
  intro ops
  have ran : ∃ s, freeRun (fun _ => 0) 2 2 ops (smallImage.mount 4 512 4) = .ok s ∧
      s.released.map Release.dirty = [[(.l2Table, 4096)]] ∧
      ∀ r ∈ s.released, ∀ t ∈ r.dirty, t.2 = r.offset := ⟨_, rfl, by decide +kernel, by decide +kernel⟩
  obtain ⟨s, done, dirty, first⟩ := ran
  exact ⟨s, done, dirty, (freeRun_clean_iff _ _ _ ops smallImage 4 512 4 done).mpr first⟩

/-- With 512 byte slices the second slice of the L2 table stays dirty when the L1 table is shrunk
and the table's cluster is free; the next flush writes it there. -/
theorem freeRun_stale_second_slice :
    let ops : List FreeOp := [.cache (.get .l2Table 4608), .cache (.markDirty .l2Table 0),
      .cache (.put .l2Table 0), .shrinkL1Table 0, .cache (.flush .l2Table)]
    ∃ s, freeRun (fun _ => 0) 2 2 ops (smallImage.mount 4 512 4) = .ok s ∧
      s.refcount 4 = 0 ∧ s.released.map Release.left = [[(.l2Table, 4608)]] ∧
      .write .l2Table 4608 [0] ∈ s.caches.log := by
  exact ⟨_, rfl, by decide +kernel, by decide +kernel, by decide +kernel⟩

end Qemu.Qcow2
