import Qemu.Qcow2.DiscardEffect

/-! Which clusters discard and zero requests pass to `bdrv_pdiscard`: a cluster whose refcount
drops to zero, and with `discard-no-unref` every cluster of the request, shared or not. -/

namespace Qemu.Qcow2.Metadata

open Nat

/-- Some entry of the active image or of a snapshot has data in the cluster. -/
def HoldsData (cfg : Config) (s : Metadata) (c : Nat) : Prop :=
  ∃ k g, c ∈ cfg.dataClusters (s.entries cfg k g)

/-- Nothing that was passed to `bdrv_pdiscard` is data of an entry. -/
def DiscardsUnused (cfg : Config) (s : Metadata) : Prop :=
  ∀ byte, Covered s.pdiscards byte → ¬ s.HoldsData cfg (byte / cfg.clusterSize)

/-- The cluster of a discardable entry is also the data cluster of another entry. -/
def SharesData (cfg : Config) (s : Metadata) : Prop :=
  ∃ g, Discardable cfg (s.entries cfg 0 g) ∧ ∃ k g', (k, g') ≠ (0, g) ∧
    offsetField (s.entries cfg 0 g).entry / cfg.clusterSize ∈ cfg.dataClusters (s.entries cfg k g')

/-- An image at rest: no discard is pending, and a cluster is free. -/
structure AtRest (cfg : Config) (s : Metadata) : Prop where
  consistent : s.Consistent cfg []
  /-- the flag of an L1 entry says whether its table is shared -/
  flags : ∀ i, s.l2At i ≠ 0 → ¬ s.Copied i → 1 < s.refcount (s.l2At i / cfg.clusterSize)
  discards : s.discards = []
  pdiscards : s.pdiscards = []
  room : ∃ c, 0 < c ∧ s.refcount c = 0 ∧ c * cfg.clusterSize < 2 ^ 56

variable {cfg : Config} {s s₁ s₂ : Metadata} {alloc : Allocator cfg.toFormat}

/-- Without sharing, or without `discard-no-unref`, no request discards data. -/
theorem discardsUnused_of_not_shared (atRest : s.AtRest cfg)
    (apart : ¬ (cfg.discardNoUnref = true ∧ cfg.discardPassthrough .request = true ∧ s.SharesData cfg))
    {request : Request} (done : request.run cfg alloc s = .ok (s₂, ret)) : s₂.DiscardsUnused cfg := by
  obtain ⟨s₁, update, kept, effect, rewrites, entries, passed⟩ :=
    Request.run_effect atRest.consistent done
  rintro byte covered ⟨k, g', holds⟩
  rw [entries] at holds
  have before : byte / cfg.clusterSize ∈ cfg.dataClusters (s.entries cfg k g') := by
    cases k with
    | zero =>
      rw [rewrites.active] at holds
      exact effect.loses _ _ holds
    | succ k => rwa [rewrites.snapshot] at holds
  rcases rewrites.discarding byte (passed byte covered) with earlier | dead | keep
  · rw [Discarding, atRest.discards, atRest.pdiscards] at earlier
    simp at earlier
  · have counted : _ ≤ s₁.dataRefs cfg _ := count_le_dataRefs k g' (byte / cfg.clusterSize)
    have positive := List.count_pos_iff.mpr (cfg.dataClusters_subset _ holds)
    omega
  obtain ⟨noUnref, passes, g, discardable, here, none⟩ := effect.keeps _ keep
  by_cases same : (k, g') = (0, g)
  · obtain ⟨rfl, rfl⟩ := Prod.mk.inj same
    rw [rewrites.active, none] at holds
    cases holds
  · exact apart ⟨noUnref, passes, g, discardable, k, g', same, here ▸ before⟩

theorem discardKeeps_of_discardable (noUnref : cfg.discardNoUnref = true)
    (passes : cfg.discardPassthrough .request = true) (discardable : Discardable cfg e) :
    DiscardKeeps cfg .request false e := by
  obtain ⟨normal, bitmap⟩ := discardable
  have standard : cfg.getClusterType e.entry ≠ .compressed := by rw [normal]; nofun
  have keep : discardKeepsReference cfg .request false e = true :=
    discardKeepsReference_iff.mpr ⟨standard, rfl, noUnref, rfl⟩
  refine ⟨fun same => ?_, keep, passes, .inl normal⟩
  rw [discardedEntry, if_neg Bool.false_ne_true, keep, if_pos (cfg.noUnrefVersion noUnref),
    if_pos (by simp [normal, ClusterType.isAllocated])] at same
  by_cases plain : cfg.hasSubclusters = false
  · rw [if_neg (by simp [plain])] at same
    have word : e.entry = e.entry ||| oflagZero := congrArg L2Entry.entry same
    have kind := cfg.getClusterType_or_zero plain standard
    rw [← word, normal] at kind
    split at kind <;> cases kind
  · have sub : cfg.hasSubclusters = true := by simpa using plain
    rw [if_pos sub] at same
    exact bitmap sub (congrArg L2Entry.bitmap same)

theorem offsetField_cluster (bounded : c * cfg.clusterSize < 2 ^ 56) :
    offsetField (BitVec.ofNat 64 (c * cfg.clusterSize)) = c * cfg.clusterSize := by
  obtain ⟨k, size⟩ : ∃ k, cfg.clusterSize = 2 ^ 9 * k := by
    refine ⟨2 ^ (cfg.clusterBits - 9), ?_⟩
    rw [Format.clusterSize, ← Nat.pow_add, Nat.add_sub_cancel' cfg.clusterRange.1]
  have multiple : 2 ^ 9 ∣ c * cfg.clusterSize := ⟨c * k, by rw [size]; ring⟩
  have fits : c * cfg.clusterSize % 2 ^ 64 = c * cfg.clusterSize := mod_eq_of_lt (by omega)
  rw [offsetField, BitVec.toNat_and, BitVec.toNat_ofNat, fits]
  apply eq_of_testBit_eq
  intro i
  rw [testBit_and]
  by_cases middle : 9 ≤ i ∧ i < 56
  · have table : ∀ k : Fin 64, 9 ≤ k.val ∧ k.val < 56 → offsetMask.toNat.testBit k = true := by decide
    rw [table ⟨i, by omega⟩ middle, Bool.and_true]
  have clear : (c * cfg.clusterSize).testBit i = false := by
    by_cases low : i < 9
    · obtain ⟨m, whole⟩ := multiple
      rw [whole, testBit_two_pow_mul]
      simp
      omega
    · exact testBit_lt_two_pow (lt_of_lt_of_le bounded (Nat.pow_le_pow_right (by decide) (by omega)))
  rw [clear, Bool.false_and]

theorem freeClusters_shared (shared : 1 < s.refcount c)
    (collecting : s.cacheDiscards = true) :
    freeClusters cfg (c * cfg.clusterSize) cfg.clusterSize type s =
      .ok { s with refcount := Function.update s.refcount c (s.refcount c - 1) } := by
  have positive := cfg.clusterSize_pos
  have first : c * cfg.clusterSize / cfg.clusterSize = c := Nat.mul_div_cancel _ positive
  have last : (c * cfg.clusterSize + cfg.clusterSize - 1) / cfg.clusterSize = c := by
    rw [Nat.add_sub_assoc positive, Nat.mul_comm, mul_add_div positive, div_eq_of_lt (by omega),
      Nat.add_zero]
  have body : updateCluster cfg 1 true type c s =
      .ok (some { s with refcount := Function.update s.refcount c (s.refcount c - 1) }) := by
    rw [updateCluster]
    simp only [if_true, if_neg (show ¬ s.refcount c < 1 by omega)]
    rw [if_neg (by omega)]
  rw [freeClusters, updateRefcount, if_neg positive.ne', first, last]
  dsimp only
  rw [Nat.add_sub_cancel_left, updateClusters, body]
  simp only [collecting]
  rfl

/-- At rest, the table of a mapped cluster can be opened, and nothing is queued. -/
theorem getClusterTable_ready (atRest : s.AtRest cfg) (mapped : s.l2At (guest / cfg.l2Size) ≠ 0) :
    ∃ (alloc : Allocator cfg.toFormat) (s₁ : Metadata),
      getClusterTable cfg alloc guest { s with cacheDiscards := true } =
        .ok (s₁, 0, s₁.l2At (guest / cfg.l2Size)) ∧ s₁.discards = [] := by
  set i := guest / cfg.l2Size
  obtain ⟨c, positive, free, bounded⟩ := atRest.room
  let alloc : Allocator cfg.toFormat :=
    { allocCluster := fun refcount => if refcount c = 0 then some c else none
      free := fun {refcount c'} found => by
        split at found
        · cases found
          assumption
        · cases found
      bounded := fun {refcount c'} found => by
        split at found
        · cases found
          exact bounded
        · cases found }
  have used : cfg.tree.tableAt s.l1Table i ≠ 0 := mapped
  have inside := TwoLevel.lt_length_of_tableAt used
  have grown : growL1Table (i + 1) { s with cacheDiscards := true } =
    ({ s with cacheDiscards := true }, 0) := by
    rw [growL1Table, if_pos]
    exact inside
  have aligned := atRest.consistent.tableAligned i
  refine ⟨alloc, ?_⟩
  have table : offsetField (s.l1Table.getD i 0) = s.l2At i := rfl
  rw [getClusterTable, grown]
  dsimp only
  rw [table, if_neg (not_not.mpr aligned)]
  by_cases copied : s.Copied i
  · have flag : s.l1Table.getD i 0 &&& oflagCopied ≠ 0 := copied
    rw [if_neg flag]
    exact ⟨_, rfl, atRest.discards⟩
  have shared : s.l1Table.getD i 0 &&& oflagCopied = 0 := not_not.mp copied
  have several := atRest.flags _ mapped copied
  have start : s.l2At i / cfg.clusterSize * cfg.clusterSize = s.l2At i :=
    Nat.div_mul_cancel (dvd_of_mod_eq_zero aligned)
  have other : s.l2At i / cfg.clusterSize ≠ c := by
    intro same
    rw [same] at several
    omega
  rw [if_pos shared, l2Allocate]
  simp only [if_true, processDiscards, processQueue_eq]
  rw [show alloc.allocCluster s.refcount = some c from if_pos free]
  dsimp only
  rw [if_neg (not_not.mpr (offsetField_cluster bounded)),
    if_neg (Nat.mul_ne_zero positive.ne' cfg.clusterSize_pos.ne')]
  simp only [bind, Except.bind]
  rw [if_pos mapped, ← start, freeClusters_shared]
  · exact ⟨_, rfl, rfl⟩
  · simpa [Function.update_of_ne other] using several
  · rfl

theorem sizeToClusters_cluster : sizeToClusters cfg cfg.clusterSize = 1 := by
  have positive := cfg.clusterSize_pos
  rw [sizeToClusters, add_div_left _ positive, div_eq_of_lt (by omega)]

theorem clusterDiscard_ready (atRest : s.AtRest cfg) (noUnref : cfg.discardNoUnref = true)
    (passes : cfg.discardPassthrough .request = true)
    (discardable : Discardable cfg (s.entries cfg 0 g)) :
    ∃ (alloc : Allocator cfg.toFormat) (s₂ : Metadata),
      clusterDiscard cfg alloc (g * cfg.clusterSize) cfg.clusterSize .request false s = .ok (s₂, 0) := by
  have mapped : s.l2At (g / cfg.l2Size) ≠ 0 := by
    intro none
    have blank : s.entries cfg 0 g = ⟨0, 0⟩ := if_pos none
    rw [blank] at discardable
    exact absurd discardable.1 (by simp [Format.getClusterType])
  obtain ⟨alloc, s₁, opened, idle⟩ := getClusterTable_ready atRest mapped
  obtain ⟨same, ready⟩ := getClusterTable_rewrites atRest.consistent.collecting opened
  obtain ⟨copied, -⟩ := ready le_rfl
  have small := mod_lt g cfg.l2Size_pos
  have old : s₁.l2 (s₁.l2At (g / cfg.l2Size)) (g % cfg.l2Size) = s.entries cfg 0 g := by
    rw [l2_eq_entries same.consistent small copied, Nat.mul_comm, div_add_mod, same.active]
    rfl
  obtain ⟨changed, keep, kind⟩ := discardKeeps_of_discardable noUnref passes discardable
  have slice := mod_lt g (show 0 < cfg.l2SliceSize from Nat.two_pow_pos _)
  have guest : g * cfg.clusterSize / cfg.clusterSize = g := Nat.mul_div_cancel _ cfg.clusterSize_pos
  have single : min (0 + 1) (cfg.l2SliceSize - g % cfg.l2SliceSize) = 0 + 1 := by omega
  have condition := kind
  rw [PassesOn] at condition
  refine ⟨alloc, ?_⟩
  rw [clusterDiscard]
  dsimp only
  rw [if_neg (by simp), if_neg (by simp), guest, sizeToClusters_cluster, overSlices, inL2Slice, opened]
  simp only [bind, Except.bind]
  rw [single]
  simp only [forEntries, discardEntry, old]
  rw [if_neg changed, if_pos keep, discardCluster, if_pos condition]
  rw [show (s₁.setL2 _ _ _).discards = [] from idle]
  exact ⟨_, rfl⟩

/-- With both options on, the discard of one cluster passes it on and leaves the other entries as
they are. -/
theorem clusterDiscard_covers (atRest : s.AtRest cfg) (noUnref : cfg.discardNoUnref = true)
    (passes : cfg.discardPassthrough .request = true)
    (discardable : Discardable cfg (s.entries cfg 0 g)) :
    ∃ (alloc : Allocator cfg.toFormat) (s₂ : Metadata),
      clusterDiscard cfg alloc (g * cfg.clusterSize) cfg.clusterSize .request false s =
      .ok (s₂, 0) ∧ (∀ k g', (k, g') ≠ (0, g) → s₂.entries cfg k g' = s.entries cfg k g') ∧
      ∀ byte, byte / cfg.clusterSize = offsetField (s.entries cfg 0 g).entry / cfg.clusterSize →
        Covered s₂.pdiscards byte := by
  obtain ⟨alloc, s₂, done⟩ := clusterDiscard_ready atRest noUnref passes discardable
  obtain ⟨s₁, n, rfl, success, rewrites⟩ := clusterDiscard_rewrites atRest.consistent done
  obtain ⟨-, rfl⟩ := success le_rfl
  have guest : g * cfg.clusterSize / cfg.clusterSize = g := Nat.mul_div_cancel _ cfg.clusterSize_pos
  rw [sizeToClusters_cluster, guest] at rewrites
  refine ⟨alloc, _, done, fun k g' other => ?_, fun byte here => ?_⟩
  · cases k with
    | zero =>
      have away : g' ≠ g := fun same => other (by rw [same])
      exact (rewrites.active g').trans (onRange_of_not_mem (by omega))
    | succ k => exact rewrites.snapshot k g'
  · apply (finish_discards 0 s₁).2 le_rfl
    apply rewrites.discarded
    rw [here, keptOn_one]
    exact .inr ⟨discardKeeps_of_discardable noUnref passes discardable, rfl⟩

/-- Requests discard no data of another entry exactly if `discard-no-unref` and the discard of
requests are not both on, or no entry shares its cluster. -/
theorem discards_unused_iff (atRest : s.AtRest cfg) :
    (∀ (alloc : Allocator cfg.toFormat) (request : Request) (s' : Metadata) (ret : Int),
        request.run cfg alloc s = .ok (s', ret) → s'.DiscardsUnused cfg) ↔
      ¬ (cfg.discardNoUnref = true ∧ cfg.discardPassthrough .request = true ∧ s.SharesData cfg) := by
  constructor
  · rintro safe ⟨noUnref, passes, g, discardable, k, g', other, shared⟩
    obtain ⟨alloc, s₂, done, entries, covered⟩ := clusterDiscard_covers atRest noUnref passes discardable
    set c := offsetField (s.entries cfg 0 g).entry / cfg.clusterSize with cluster
    have byte : c * cfg.clusterSize / cfg.clusterSize = c := Nat.mul_div_cancel _ cfg.clusterSize_pos
    apply safe alloc (.discard _ _ _ _) _ _ done _ (covered (c * cfg.clusterSize) byte)
    exact ⟨k, g', by rwa [byte, entries k g' other]⟩
  · exact fun apart alloc request s' ret done => discardsUnused_of_not_shared atRest apart done

/-- Clusters of one sector; requests are discarded, and keep their references. -/
def snapshotConfig : Config where
  clusterBits := 9
  hasSubclusters := false
  sliceBits := 6
  clusterRange := by decide
  subclusterRange := nofun
  sliceRange := by decide
  version := 3
  refcountMax := 65535
  backing := false
  imageSize := 32768
  discardNoUnref := true
  discardPassthrough type := type = .request
  never := rfl
  noUnrefVersion _ := le_rfl
  subclusterVersion _ := le_rfl

/-- L2 tables that map the first `n` clusters to host cluster 4. -/
def firstClusters (n : Nat) : Nat → Nat → L2Entry := fun _ j => if j < n then ⟨0x800, 0⟩ else ⟨0, 0⟩

/-- An image with a snapshot: both map guest cluster 0 to host cluster 4. -/
def snapshotImage : Metadata where
  l1Table := [0x8000000000000400]
  snapshots := [[0x8000000000000600]]
  l2 := firstClusters 1
  refcount c := if c < 4 then 1 else if c = 4 then 2 else 0
  cacheDiscards := false
  discards := []
  pdiscards := []

def noAllocation (fmt : Format) : Allocator fmt where
  allocCluster _ := none
  free := nofun
  bounded := nofun

section First

variable {n : Nat} (few : n ≤ 64)
include few

theorem lookup_first (nonzero : offsetField word ≠ 0) (g : Nat) :
    snapshotConfig.tree.lookup [word] (firstClusters n) g = if g < n then ⟨0x800, 0⟩ else ⟨0, 0⟩ := by
  have size : snapshotConfig.tree.size = 64 := rfl
  by_cases inside : g < 64
  · have here : snapshotConfig.tree.tableAt [word] (g / snapshotConfig.tree.size) = offsetField word := by
      rw [size, div_eq_of_lt inside]
      rfl
    rw [TwoLevel.Shape.lookup, here, if_neg nonzero, size, mod_eq_of_lt inside]
    rfl
  · rw [if_neg (by omega)]
    exact TwoLevel.lookup_of_length_le (by rw [size]; simpa using inside)

theorem dataRefs_first (nonzero : offsetField word ≠ 0) (c : Nat) :
    snapshotConfig.tree.dataRefs [word] (firstClusters n) c = if c = 4 then n else 0 := by
  have weight : ∀ g, snapshotConfig.tree.weight (snapshotConfig.tree.lookup [word]
      (firstClusters n) g) c =
      if g < n then [4].count c else 0 := by
    intro g
    rw [lookup_first few nonzero]
    split
    · exact congrArg (List.count c) (by decide : snapshotConfig.entryClusters 0x800 = [4])
    · exact snapshotConfig.tree.weight_blank c
  have first : (Finset.range 64).filter (· < n) = Finset.range n := by
    ext g
    simp only [Finset.mem_filter, Finset.mem_range]
    omega
  rw [TwoLevel.Shape.dataRefs, Finset.sum_congr rfl fun g _ => weight g, ← Finset.sum_filter,
    show [word].length * snapshotConfig.tree.size = 64 from rfl, first, Finset.sum_const,
    Finset.card_range]
  by_cases same : c = 4
  · simp [same]
  · simp [same, Ne.symm same]

/-- The active L1 table has one entry, for an L2 table of its own in cluster 2. -/
theorem atRest_first {s : Metadata} (root : s.l1Table = [0x8000000000000400])
    (tables : s.l2 = firstClusters n)
    (covered : ∀ c, s.refs snapshotConfig c ≤ s.refcount c)
    (header : s.refs snapshotConfig 0 < s.refcount 0)
    (own : s.refcount 2 = 1) (discards : s.discards = []) (pdiscards : s.pdiscards = [])
    (room : ∃ c, 0 < c ∧ s.refcount c = 0 ∧ c * snapshotConfig.clusterSize < 2 ^ 56) :
    s.AtRest snapshotConfig := by
  have only : ∀ i, s.l2At i = if i = 0 then 1024 else 0 := by
    intro i
    rw [Metadata.l2At, root]
    cases i with
    | zero => decide
    | succ i => simp [offsetField]
  refine ⟨⟨covered, header, fun i copied => ?_, fun i => ?_, fun g _ => ?_⟩,
    fun i mapped shared => ?_, discards, pdiscards, room⟩
  · cases i with
    | zero => exact ⟨by rw [only]; decide, by rw [only]; exact own⟩
    | succ i => exact absurd (by simp [root]) copied
  · rw [only]
    split <;> rfl
  · rw [entries_zero, root, tables, lookup_first few (by decide)]
    split <;> decide
  · cases i with
    | zero => exact absurd (by rw [Copied, root]; decide) shared
    | succ i => exact absurd (only (i + 1)) mapped

end First

theorem snapshotConfig_tableRefs (offset : offsetField word = t * 512) (nonzero : t ≠ 0) (c : Nat) :
    snapshotConfig.tree.tableRefs [word] c = if c = t then 1 else 0 := by
  have unit : snapshotConfig.clusterSize = 512 := rfl
  simp [TwoLevel.Shape.tableRefs, TwoLevel.Shape.refersTo, Format.tree, offset, nonzero, unit, eq_comm]

theorem snapshotImage_refs (c : Nat) :
    snapshotImage.refs snapshotConfig c = (if c = 2 then 1 else 0) + (if c = 3 then 1 else 0) +
      ((if c = 4 then 1 else 0) + if c = 4 then 1 else 0) := by
  have active : offsetField (0x8000000000000400 : BitVec 64) = 2 * 512 := by decide
  have snapshot : offsetField (0x8000000000000600 : BitVec 64) = 3 * 512 := by decide
  rw [refs, tableRefs_eq, dataRefs_eq]
  simp only [snapshotImage, List.map_cons, List.map_nil, List.sum_cons, List.sum_nil, Nat.add_zero]
  rw [snapshotConfig_tableRefs active (by decide), snapshotConfig_tableRefs snapshot (by decide),
    dataRefs_first (by decide) (by decide), dataRefs_first (by decide) (by decide)]

theorem snapshotImage_atRest : snapshotImage.AtRest snapshotConfig := by
  refine atRest_first (n := 1) (by decide) rfl rfl (fun c => ?_) ?_ rfl rfl rfl
    ⟨5, by decide, rfl, by decide⟩
  · rw [snapshotImage_refs]
    simp only [snapshotImage]
    split_ifs <;> omega
  · rw [snapshotImage_refs]
    decide

theorem snapshotImage_discards : ¬ ∀ (alloc : Allocator snapshotConfig.toFormat) (request : Request)
    (s' : Metadata) (ret : Int), request.run snapshotConfig alloc snapshotImage = .ok (s', ret) →
      s'.DiscardsUnused snapshotConfig :=
  fun safe => (discards_unused_iff snapshotImage_atRest).mp safe
    ⟨rfl, rfl, 0, by decide, 1, 0, by decide, by decide⟩

theorem discard_loses_snapshot : snapshotImage.AtRest snapshotConfig ∧
    ((clusterDiscard snapshotConfig (noAllocation _) 0 512 .request false snapshotImage).map fun result =>
      (result.2, result.1.pdiscards, snapshotConfig.dataClusters (result.1.entries snapshotConfig 1 0))) =
      .ok (0, [⟨0x800, 512⟩], [4]) :=
  ⟨snapshotImage_atRest, by decide +kernel⟩

end Qemu.Qcow2.Metadata
