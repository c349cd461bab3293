import Qemu.Qcow2.DiscardSafety
import Qemu.Qcow2.ZeroRanges

namespace Qemu.Qcow2.Metadata

open Nat

/-- An image whose active L2 entries are valid: no bitmap is rejected. -/
structure ValidTables (cfg : Config) (s : Metadata) : Prop where
  consistent : s.Consistent cfg []
  valid : ∀ g, ValidEntry cfg (s.entries cfg 0 g)
  discards : s.discards = []
  pdiscards : s.pdiscards = []

/-- The bytes of a range read as `result`, the other bytes of the image as before, whatever a
discard left in the clusters that were discarded; the refcounts follow the references. -/
structure RangeReads (cfg : Config) (offset bytes : Nat) (result : Environment → Nat → UInt8)
    (s s' : Metadata) : Prop where
  inside : ∀ env disk' b, offset ≤ b → b < offset + bytes →
    readByte cfg env disk' s' b = some (result env b)
  outside : ∀ env disk disk' b, (∀ byte, ¬ Covered s'.pdiscards byte → disk' byte = disk byte) →
    ¬ (offset ≤ b ∧ b < offset + bytes) → b < cfg.imageSize →
    readByte cfg env disk' s' b = readByte cfg env disk s b
  refcounts : ∀ c, s'.refcount c + s.refs cfg c = s.refcount c + s'.refs cfg c

variable {cfg : Config} {s s₁ s₂ : Metadata} {alloc : Allocator cfg.toFormat} {e : L2Entry}
  {env : Environment}

/-- The entry of a guest byte. -/
abbrev entryAt (cfg : Config) (s : Metadata) (b : Nat) : L2Entry := s.entries cfg 0 (b / cfg.clusterSize)

/-- A byte of the image depends on the cluster of a discardable entry that is not its own. -/
def SharesBytes (cfg : Config) (s : Metadata) : Prop :=
  ∃ g b, Discardable cfg (s.entries cfg 0 g) ∧ b / cfg.clusterSize ≠ g ∧ b < cfg.imageSize ∧
    ∃ byte ∈ hostBytes cfg (s.entryAt cfg b) b,
      byte / cfg.clusterSize = offsetField (s.entries cfg 0 g).entry / cfg.clusterSize

/-- A request that keeps references does not pass on what other entries read. -/
def Apart (cfg : Config) (s : Metadata) : Prop :=
  ¬ (cfg.discardNoUnref = true ∧ cfg.discardPassthrough .request = true ∧ s.SharesBytes cfg)

theorem readEntry_zeroForm (standard : cfg.getClusterType word ≠ .compressed) (bitmap : BitVec 64)
    (b : Nat) : readEntry cfg env disk (zeroForm cfg word bitmap) b = some 0 := by
  rw [zeroForm]
  split
  next subclusters => exact readEntry_allZeroes subclusters standard b
  next plain => exact readEntry_or_zero (by simpa using plain) standard b

theorem getClusterType_zero (cfg : Config) : cfg.getClusterType 0#64 ≠ .compressed := by
  simp [Format.getClusterType]

theorem zeroedEntry_reads (mayUnmap : Bool) (e : L2Entry) (b : Nat) :
    readEntry cfg env disk (zeroedEntry cfg mayUnmap e) b = some 0 := by
  by_cases unmapped : (zeroUnmaps cfg mayUnmap e && !zeroKeepsReference cfg e) = true
  · have new : zeroedEntry cfg mayUnmap e = zeroForm cfg 0 e.bitmap := by
      rw [zeroedEntry, if_pos unmapped, zeroForm]
    rw [new]
    exact readEntry_zeroForm (getClusterType_zero cfg) _ b
  · have new : zeroedEntry cfg mayUnmap e = zeroForm cfg e.entry e.bitmap := by
      rw [zeroedEntry, if_neg unmapped, zeroForm]
    rw [new]
    exact readEntry_zeroForm (zeroedEntry_mapped (by simpa using unmapped)).1 _ b

/-- Without a backing file an unallocated cluster reads as zeroes. -/
theorem readEntry_unallocated (alone : cfg.backing = false)
    (unallocated : (cfg.getClusterType e.entry).isAllocated = false) (valid : ValidEntry cfg e)
    (b : Nat) : readEntry cfg env disk e b = some 0 := by
  rw [readEntry]
  by_cases plain : cfg.hasSubclusters = false
  · rw [Format.getSubclusterType, if_neg (by simp [plain])]
    cases kind : cfg.getClusterType e.entry with
    | unallocated => simp [alone]
    | zeroPlain => rfl
    | _ => simp [kind, ClusterType.isAllocated] at unallocated
  · have subclusters : cfg.hasSubclusters = true := by simpa using plain
    rcases cfg.getClusterType_of_subclusters subclusters e.entry with kind | kind | kind
    · simp [kind, ClusterType.isAllocated] at unallocated
    · simp [kind, ClusterType.isAllocated] at unallocated
    · rw [cfg.getSubclusterType_unallocated subclusters (offsetToScIndex_lt subclusters b) e kind
        ((valid.bitmap subclusters).2 kind)]
      cases e.bitmap.getLsbD (32 + offsetToScIndex cfg b) <;> simp [alone]

/-- A discarded entry of a version 3 image reads as zeroes. -/
theorem discardedEntry_reads (version : 3 ≤ cfg.version) (type : DiscardType)
    (valid : ValidEntry cfg e) (b : Nat) :
    readEntry cfg env disk (discardedEntry cfg type false e) b = some 0 := by
  rw [discardedEntry]
  by_cases mapped : (cfg.backing || (cfg.getClusterType e.entry).isAllocated) = true
  · rw [if_pos mapped, if_pos version]
    by_cases keep : discardKeepsReference cfg type false e = true
    · rw [if_pos keep, if_pos keep]
      exact readEntry_zeroForm (discardKeepsReference_iff.mp keep).1 e.bitmap b
    · rw [if_neg keep, if_neg keep]
      have read : readEntry cfg env disk (zeroForm cfg 0#64 e.bitmap) b = some 0 :=
        readEntry_zeroForm (getClusterType_zero cfg) e.bitmap b
      exact read
  · rw [if_neg mapped]
    simp only [Bool.or_eq_true, not_or, Bool.not_eq_true] at mapped
    exact readEntry_unallocated mapped.1 mapped.2 valid b

/-- A fully discarded entry reads as the backing file. -/
theorem fullDiscard_reads (type : DiscardType) (e : L2Entry) (b : Nat) :
    readEntry cfg env disk (discardedEntry cfg type true e) b =
      some (if cfg.backing then env.backingFile b else 0) := by
  have unallocated : cfg.getClusterType 0 = .unallocated := by simp [Format.getClusterType]
  rw [discardedEntry, if_pos rfl, readEntry]
  by_cases plain : cfg.hasSubclusters = false
  · rw [Format.getSubclusterType, if_neg (by simp [plain])]
    dsimp only
    rw [unallocated]
  · have subclusters : cfg.hasSubclusters = true := by simpa using plain
    rw [if_pos subclusters, cfg.getSubclusterType_unallocated subclusters
      (offsetToScIndex_lt subclusters b) ⟨0, 0⟩ unallocated (by simp)]
    simp

variable {b : Nat}

theorem reads_outside (tables : s.ValidTables cfg) (apart : s.Apart cfg)
    (rewrites : Rewrites cfg [] update (keptOn cfg keeps a n s) s s₁)
    (discardable : ∀ e, keeps e →
      cfg.discardNoUnref = true ∧ cfg.discardPassthrough .request = true ∧ Discardable cfg e)
    (outside : ¬ (a ≤ b / cfg.clusterSize ∧ b / cfg.clusterSize < a + n)) (image : b < cfg.imageSize)
    (word : (update (b / cfg.clusterSize) (s.entryAt cfg b)).entry = (s.entryAt cfg b).entry)
    (same : ∀ byte, ¬ s₁.Discarding byte → disk' byte = disk byte) :
    readEntry cfg env disk' (s.entryAt cfg b) b = readEntry cfg env disk (s.entryAt cfg b) b := by
  refine readEntry_congr fun byte here => same byte fun discarding => ?_
  rcases rewrites.discarding byte discarding with earlier | dead | ⟨g, low, high, keep, cluster⟩
  · rw [Discarding, tables.discards, tables.pdiscards] at earlier
    simp at earlier
  · have counted : _ ≤ s₁.dataRefs cfg _ :=
      count_le_dataRefs 0 (b / cfg.clusterSize) (byte / cfg.clusterSize)
    rw [rewrites.active, word] at counted
    have positive := List.count_pos_iff.mpr (hostBytes_cluster (tables.consistent.aligned _) here)
    exact (positive.trans_le counted).ne' dead
  · obtain ⟨noUnref, passes, discardable⟩ := discardable _ keep
    exact apart ⟨noUnref, passes, g, b, discardable, fun same => outside (same ▸ ⟨low, high⟩),
      image, byte, here, cluster.symm⟩

variable {offset bytes : Nat} {type : DiscardType} {ret : Int}

theorem clusterDiscard_aligned
    (done : clusterDiscard cfg alloc offset bytes type fullDiscard s = .ok (s₂, ret)) :
    offset % cfg.clusterSize = 0 ∧
    ((offset + bytes) % cfg.clusterSize = 0 ∨ offset + bytes = cfg.imageSize) := by
  rw [clusterDiscard] at done
  split at done
  · cases done
  next start =>
    split at done
    · cases done
    · exact ⟨not_not.mp start, by tauto⟩

/-- The clusters of a discarded range read as `result` if a discarded entry does. -/
theorem clusterDiscard_reads (tables : s.ValidTables cfg) (apart : s.Apart cfg)
    (reads : ∀ env disk e b, ValidEntry cfg e →
      readEntry cfg env disk (discardedEntry cfg type fullDiscard e) b = some (result env b))
    (done : clusterDiscard cfg alloc offset bytes type fullDiscard s = .ok (s₂, 0)) :
    RangeReads cfg offset bytes result s s₂ := by
  obtain ⟨start, stop⟩ := clusterDiscard_aligned done
  obtain ⟨s₁, n, rfl, success, rewrites⟩ := clusterDiscard_rewrites tables.consistent done
  obtain ⟨-, rfl⟩ := success le_rfl
  have enough := le_sizeToClusters cfg bytes
  refine ⟨fun env disk' b low high => ?_, fun env disk disk' b same outside image => ?_, fun c => ?_⟩
  · have range := (cluster_bytes start).mpr
      ⟨low, show b < offset + sizeToClusters cfg bytes * cfg.clusterSize by omega⟩
    rw [readByte, show (finish 0 s₁).1.entries cfg = s₁.entries cfg from rfl, rewrites.active,
      onRange_of_mem range]
    exact reads env disk' _ b (tables.valid _)
  · have away : ¬ (offset / cfg.clusterSize ≤ b / cfg.clusterSize ∧
        b / cfg.clusterSize < offset / cfg.clusterSize + sizeToClusters cfg bytes) := by
      rw [cluster_bytes start]
      rcases stop with aligned | last
      · have whole : bytes % cfg.clusterSize = 0 := by
          have multiple := (Nat.dvd_add_right (dvd_of_mod_eq_zero start)).mp (dvd_of_mod_eq_zero aligned)
          exact mod_eq_zero_of_dvd multiple
        rw [sizeToClusters_of_aligned whole]
        exact outside
      · omega
    have kept : onRange (offset / cfg.clusterSize) (sizeToClusters cfg bytes)
        (discardedEntry cfg type fullDiscard)
        (b / cfg.clusterSize) (s.entryAt cfg b) = s.entryAt cfg b :=
      onRange_of_not_mem away
    rw [readByte, show (finish 0 s₁).1.entries cfg = s₁.entries cfg from rfl, rewrites.active, kept]
    exact reads_outside tables apart rewrites (fun _ => DiscardKeeps.discardable) away image
      (congrArg L2Entry.entry kept)
      (fun byte idle => same byte fun covered => idle ((finish_discards 0 s₁).1 byte covered))
  · have balanced := rewrites.balanced c
    exact balanced

variable {mayUnmap : Bool}

theorem subclusterZeroize_aligned
    (done : subclusterZeroize cfg alloc offset bytes mayUnmap s = .ok (s₂, ret)) :
    offset % cfg.subclusterSize = 0 ∧
      ((offset + bytes) % cfg.subclusterSize = 0 ∨ cfg.imageSize ≤ offset + bytes) := by
  rw [subclusterZeroize] at done
  split at done
  · cases done
  next start =>
    split at done
    · cases done
    next stop =>
      refine ⟨not_not.mp start, ?_⟩
      by_cases aligned : (offset + bytes) % cfg.subclusterSize = 0
      · exact .inl aligned
      · exact .inr (Nat.le_of_not_lt fun inside => stop ⟨aligned, inside⟩)

/-- The tail lies in a cluster after the head and the body. -/
theorem tail_outside (ordered : offset ≤ endOffset) (tail : tailBytes cfg offset endOffset ≠ 0) :
    bodyStart cfg offset endOffset / cfg.clusterSize + bodyClusters cfg offset endOffset ≤
        bodyEnd cfg offset endOffset / cfg.clusterSize ∧ (zeroHead cfg offset endOffset ≠ 0 →
        bodyEnd cfg offset endOffset / cfg.clusterSize ≠ offset / cfg.clusterSize) ∧
      bodyEnd cfg offset endOffset % cfg.clusterSize = 0 := by
  cases partsCase cfg ordered with
  | short _ _ _ none => exact absurd none tail
  | last _ _ none _ _ => exact absurd none tail
  | inner start stop body sum small inside => ?_
  have aligned := roundUp_mod offset cfg.clusterSize
  rw [← start] at aligned
  have positive := cfg.clusterSize_pos
  refine ⟨?_, fun head same => ?_, stop⟩
  · rw [Nat.le_div_iff_mul_le positive, Nat.add_mul, Nat.div_mul_cancel (dvd_of_mod_eq_zero aligned)]
    omega
  have above : bodyStart cfg offset endOffset / cfg.clusterSize ≤ offset / cfg.clusterSize := by
    rw [← same]
    exact Nat.div_le_div_right (by omega)
  have scaled := Nat.mul_le_mul_right cfg.clusterSize above
  rw [Nat.div_mul_cancel (dvd_of_mod_eq_zero aligned)] at scaled
  have below := div_mul_le_self offset cfg.clusterSize
  have start : bodyStart cfg offset endOffset = offset + zeroHead cfg offset endOffset := rfl
  omega

section

variable (aligned : offset % cfg.subclusterSize = 0) (fits : PartFits cfg offset bytes s)
include aligned fits

theorem zeroedPart_reads (valid : ValidEntry cfg (s.entryAt cfg b)) :
    (InPart cfg offset bytes b → readEntry cfg env disk
        (zeroedPart cfg offset bytes (b / cfg.clusterSize) (s.entryAt cfg b)) b = some 0) ∧
      (¬ InPart cfg offset bytes b → readEntry cfg env disk
        (zeroedPart cfg offset bytes (b / cfg.clusterSize) (s.entryAt cfg b)) b =
          readEntry cfg env disk (s.entryAt cfg b) b) := by
  by_cases here : bytes ≠ 0 ∧ b / cfg.clusterSize = offset / cfg.clusterSize
  · obtain ⟨subclusters, bound, standard⟩ := fits here.1
    have size : cfg.subclustersPerCluster = 32 := if_pos subclusters
    have range := part_bytes (b := b) aligned bound
    rw [size] at bound
    rw [← here.2] at standard
    rw [zeroedPart, if_pos here, readEntry_zeroedBitmap subclusters bound standard valid]
    constructor
    · rintro ⟨-, inside⟩
      rw [if_pos (range.mpr inside).2]
    · intro outside
      rw [if_neg fun inside => outside ⟨here.1, range.mp ⟨here.2, inside⟩⟩]
  · rw [zeroedPart, if_neg here]
    refine ⟨fun inside => ?_, fun _ => rfl⟩
    obtain ⟨-, bound, -⟩ := fits inside.1
    exact absurd ⟨inside.1, ((part_bytes aligned bound).mpr inside.2).1⟩ here

theorem InPart.cluster (inside : InPart cfg offset bytes b) :
    b / cfg.clusterSize = offset / cfg.clusterSize :=
  ((part_bytes aligned (fits inside.1).2.1).mpr inside.2).1

end

/-- The whole effect of zeroing on reads. -/
theorem zeroedRange_reads (env : Environment) (disk : Nat → UInt8) (ordered : offset ≤ endOffset)
    (startAligned : offset % cfg.subclusterSize = 0)
    (headFits : PartFits cfg offset (zeroHead cfg offset endOffset) s)
    (tailFits : PartFits cfg (bodyEnd cfg offset endOffset) (tailBytes cfg offset endOffset) s)
    (valid : ValidEntry cfg (s.entryAt cfg b))
    (afterIs : after = zeroedRange cfg mayUnmap offset (zeroHead cfg offset endOffset)
      (bodyStart cfg offset endOffset / cfg.clusterSize) (bodyClusters cfg offset endOffset)
      (bodyEnd cfg offset endOffset) (tailBytes cfg offset endOffset) (b / cfg.clusterSize)
      (s.entryAt cfg b)) :
    (Zeroed cfg offset endOffset b → readEntry cfg env disk after b = some 0) ∧
    (¬ Zeroed cfg offset endOffset b →
        readEntry cfg env disk after b = readEntry cfg env disk (s.entryAt cfg b) b) := by
  rw [zeroedRange] at afterIs
  by_cases body : InBody cfg offset endOffset b
  · have noTail : ¬ (tailBytes cfg offset endOffset ≠ 0 ∧
        b / cfg.clusterSize = bodyEnd cfg offset endOffset / cfg.clusterSize) := by
      rintro ⟨tail, here⟩
      have apart := (tail_outside ordered tail).1
      have bound := body.2
      omega
    rw [onRange_of_mem body, zeroedPart, if_neg noTail] at afterIs
    rw [afterIs]
    exact ⟨fun _ => zeroedEntry_reads mayUnmap _ b, fun none => absurd (.inr (.inl body)) none⟩
  rw [onRange_of_not_mem body] at afterIs
  by_cases tail : tailBytes cfg offset endOffset ≠ 0 ∧
      b / cfg.clusterSize = bodyEnd cfg offset endOffset / cfg.clusterSize
  · obtain ⟨-, other, aligned⟩ := tail_outside ordered tail.1
    have noHead : ¬ (zeroHead cfg offset endOffset ≠ 0 ∧
      b / cfg.clusterSize = offset / cfg.clusterSize) :=
      fun head => other head.1 (tail.2.symm.trans head.2)
    rw [show zeroedPart cfg offset _ (b / cfg.clusterSize) _ = _ from if_neg noHead] at afterIs
    rw [afterIs]
    obtain ⟨zero, same⟩ := zeroedPart_reads (mod_subclusterSize_of_mod aligned) tailFits valid
    refine ⟨fun zeroed => zero ?_, fun none => same fun part => none (.inr (.inr part))⟩
    rcases zeroed with head | inBody | part
    · exact absurd ⟨head.1, head.cluster startAligned headFits⟩ noHead
    · exact absurd inBody body
    · exact part
  · rw [show zeroedPart cfg (bodyEnd cfg offset endOffset) _ (b / cfg.clusterSize) _ =
      _ from if_neg tail] at afterIs
    rw [afterIs]
    obtain ⟨zero, same⟩ := zeroedPart_reads startAligned headFits valid
    refine ⟨fun zeroed => zero ?_, fun none => same fun part => none (.inl part)⟩
    rcases zeroed with part | inBody | part
    · exact part
    · exact absurd inBody body
    · have aligned := (tail_outside ordered part.1).2.2
      exact absurd ⟨part.1, part.cluster (mod_subclusterSize_of_mod aligned) tailFits⟩ tail

theorem zeroedRange_entry (outside : ¬ (bodyStart cfg offset endOffset / cfg.clusterSize ≤ g ∧
      g < bodyStart cfg offset endOffset / cfg.clusterSize + bodyClusters cfg offset endOffset)) :
    (zeroedRange cfg mayUnmap offset (zeroHead cfg offset endOffset)
      (bodyStart cfg offset endOffset / cfg.clusterSize) (bodyClusters cfg offset endOffset)
      (bodyEnd cfg offset endOffset) (tailBytes cfg offset endOffset) g e).entry = e.entry := by
  rw [zeroedRange, onRange_of_not_mem outside, zeroedPart, zeroedPart]
  split <;> split <;> rfl

theorem subclusterZeroize_reads (version : 3 ≤ cfg.version)
    (tables : s.ValidTables cfg) (apart : s.Apart cfg)
    (done : subclusterZeroize cfg alloc offset bytes mayUnmap s = .ok (s₂, 0)) :
    RangeReads cfg offset bytes (fun _ _ => 0) s s₂ := by
  have ordered := Nat.le_add_right offset bytes
  obtain ⟨startAligned, endAligned⟩ := subclusterZeroize_aligned done
  obtain ⟨s₁, head, n, tail, rfl, success, rewrites⟩ :=
    subclusterZeroize_rewrites version tables.consistent done
  obtain ⟨-, rfl, rfl, rfl, headFits, tailFits⟩ := success le_rfl
  have tailFits : PartFits cfg (bodyEnd cfg offset (offset + bytes))
    (tailBytes cfg offset (offset + bytes)) s := by
    intro some
    obtain ⟨subclusters, bound, standard⟩ := tailFits some
    refine ⟨subclusters, bound, ?_⟩
    have apart := (tail_outside ordered some).1
    rwa [rewrites.active, zeroedRange_entry (by omega)] at standard
  refine ⟨fun env disk' b low high => ?_, fun env disk disk' b same outside image => ?_, fun c => ?_⟩
  · have reads := zeroedRange_reads env disk' ordered startAligned headFits tailFits
      (tables.valid (b / cfg.clusterSize)) (rewrites.active _)
    exact reads.1 (zeroed_of_inside low high)
  · have untouched : ¬ Zeroed cfg offset (offset + bytes) b := fun zeroed =>
      outside (inside_of_zeroed ordered startAligned endAligned image zeroed)
    have away : ¬ InBody cfg offset (offset + bytes) b := fun body => untouched (.inr (.inl body))
    have reads := zeroedRange_reads env disk' ordered startAligned headFits tailFits
      (tables.valid (b / cfg.clusterSize)) (rewrites.active _)
    exact (reads.2 untouched).trans
      (reads_outside tables apart rewrites (fun _ => ZeroKeeps.discardable) away image
      (zeroedRange_entry away) fun byte idle => same byte fun covered =>
        idle ((finish_discards 0 s₁).1 byte covered))
  · have balanced := rewrites.balanced c
    rw [List.count_nil] at balanced
    exact balanced

/-- What a request of either kind should do when it succeeds: zeroing makes exactly the range read
as zeroes, and so does a discard; a full discard makes it read as the backing file. -/
def RequestsExact (cfg : Config) (s : Metadata) : Prop :=
  ∀ (alloc : Allocator cfg.toFormat) (offset bytes : Nat) (s' : Metadata),
    (∀ mayUnmap, subclusterZeroize cfg alloc offset bytes mayUnmap s = .ok (s', 0) →
      RangeReads cfg offset bytes (fun _ _ => 0) s s') ∧
    (∀ type, clusterDiscard cfg alloc offset bytes type false s = .ok (s', 0) →
      RangeReads cfg offset bytes (fun _ _ => 0) s s') ∧
    (∀ type, clusterDiscard cfg alloc offset bytes type true s = .ok (s', 0) →
      RangeReads cfg offset bytes (fun env b => if cfg.backing then env.backingFile b else 0) s s')

/-- The bytes that share the cluster of a discarded entry do not read as before. -/
theorem apart_of_exact (atRest : s.AtRest cfg) (exact : s.RequestsExact cfg) : s.Apart cfg := by
  rintro ⟨noUnref, passes, g, b, discardable, other, image, byte, here, cluster⟩
  obtain ⟨alloc, s₂, done, entries, covered⟩ := clusterDiscard_covers atRest noUnref passes discardable
  obtain ⟨env, differs⟩ := readEntry_depends here
  have outside : ¬ (g * cfg.clusterSize ≤ b ∧ b < g * cfg.clusterSize + cfg.clusterSize) := by
    rintro ⟨low, high⟩
    refine other (Nat.div_eq_of_lt_le low ?_)
    rwa [Nat.add_mul, Nat.one_mul]
  have same := ((exact alloc _ _ s₂).2.1 .request done).outside env (fun _ => 0)
    (fun x => if x = byte then 1 else 0) b
    (fun x idle => if_neg (by rintro rfl; exact idle (covered x cluster))) outside image
  rw [readByte, readByte, entries 0 _ (by simpa using other)] at same
  exact differs same

/-- Requests are exact unless `discard-no-unref` and the discard of requests are both on and some
byte depends on the cluster of another entry; on an image at rest they are not exact then. -/
theorem zero_and_discard_exact (version : 3 ≤ cfg.version) (tables : s.ValidTables cfg) :
    (s.Apart cfg → s.RequestsExact cfg) ∧ (s.AtRest cfg → s.RequestsExact cfg → s.Apart cfg) :=
  ⟨fun apart _ _ _ _ => ⟨fun _ done => subclusterZeroize_reads version tables apart done,
    fun type done => clusterDiscard_reads tables apart
      (fun _ _ _ b valid => discardedEntry_reads version type valid b) done,
    fun type done => clusterDiscard_reads tables apart (fun _ _ e b _ => fullDiscard_reads type e b)
      done⟩,
    apart_of_exact⟩

/-- An image without snapshots that maps guest clusters 0 and 1 to host cluster 4. -/
def sharedImage : Metadata where
  l1Table := [0x8000000000000400]
  snapshots := []
  l2 := firstClusters 2
  refcount c := if c < 3 then 1 else if c = 4 then 2 else 0
  cacheDiscards := false
  discards := []
  pdiscards := []

/-- The configuration with `discard-no-unref` off. -/
def unrefConfig : Config := { snapshotConfig with discardNoUnref := false, noUnrefVersion := nofun }

theorem sharedImage_refs (c : Nat) :
    sharedImage.refs snapshotConfig c = (if c = 2 then 1 else 0) + if c = 4 then 2 else 0 := by
  rw [refs, tableRefs_eq, dataRefs_eq]
  simp only [sharedImage, List.map_nil, List.sum_nil, Nat.add_zero]
  rw [snapshotConfig_tableRefs (t := 2) (by decide) (by decide), dataRefs_first (by decide) (by decide)]

theorem sharedImage_atRest : sharedImage.AtRest snapshotConfig := by
  refine atRest_first (n := 2) (by decide) rfl rfl (fun c => ?_) ?_ rfl rfl rfl
    ⟨3, by decide, rfl, by decide⟩
  · rw [sharedImage_refs]
    simp only [sharedImage]
    split_ifs <;> omega
  · rw [sharedImage_refs]
    decide

theorem sharedImage_validTables : sharedImage.ValidTables snapshotConfig := by
  refine ⟨sharedImage_atRest.consistent, fun g => ?_, rfl, rfl⟩
  rw [entries_zero, show sharedImage.l1Table = [_] from rfl,
    show sharedImage.l2 = firstClusters 2 from rfl, lookup_first (by decide) (by decide), ValidEntry]
  split <;> decide

/-- Guest cluster 1 depends on host cluster 4, which guest cluster 0 can have discarded. -/
theorem sharedImage_shares : sharedImage.SharesBytes snapshotConfig :=
  ⟨0, 512, by decide +kernel, by decide, by decide, 0x800, by decide +kernel, by decide +kernel⟩

/-- Without `discard-no-unref` zeroing the first cluster is exact; with it no request need be. -/
theorem zeroize_first_cluster :
    (∃ s', subclusterZeroize unrefConfig (noAllocation _) 0 512 true sharedImage =
      .ok (s', 0) ∧ RangeReads unrefConfig 0 512 (fun _ _ => 0) sharedImage s') ∧
    ¬ sharedImage.RequestsExact snapshotConfig := by
  have success : (subclusterZeroize unrefConfig (noAllocation _) 0 512 true sharedImage).map
    Prod.snd = .ok 0 := by
    decide +kernel
  obtain ⟨⟨s', ret⟩, done, rfl⟩ := Checked.map_ok.mp success
  -- validity does not depend on the options
  have tables : sharedImage.ValidTables unrefConfig := by
    obtain ⟨⟨covered, header, copied, tableAligned, aligned⟩, valid, discards, pdiscards⟩ :=
      sharedImage_validTables
    exact ⟨⟨covered, header, copied, tableAligned, aligned⟩, valid, discards, pdiscards⟩
  exact ⟨⟨s', done, ((zero_and_discard_exact (le_refl 3) tables).1 (by rintro ⟨⟨⟩, _⟩) _ 0 512 s').1
    true done⟩,
    fun exact => (zero_and_discard_exact (le_refl 3) sharedImage_validTables).2 sharedImage_atRest exact
      ⟨rfl, rfl, sharedImage_shares⟩⟩

/-- A discard of guest cluster 0 passes host cluster 4 on, from which guest cluster 1 still
reads. -/
theorem discard_changes_neighbour : sharedImage.ValidTables snapshotConfig ∧
    ((clusterDiscard snapshotConfig (noAllocation _) 0 512 .request false sharedImage).map fun result =>
      (result.2, result.1.pdiscards,
      hostBytes snapshotConfig (result.1.entryAt snapshotConfig 512) 512)) =
      .ok (0, [⟨0x800, 512⟩], [0x800]) :=
  ⟨sharedImage_validTables, by decide +kernel⟩

end Qemu.Qcow2.Metadata
