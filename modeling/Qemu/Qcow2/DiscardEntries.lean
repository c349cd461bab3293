import Qemu.Qcow2.ClusterTable
import Qemu.Qcow2.Discard

namespace Qemu.Qcow2

namespace Format

variable (fmt : Format)

theorem parseCompressedL2Entry_pos (word : BitVec 64) : 0 < (fmt.parseCompressedL2Entry word).2 := by
  simp only [parseCompressedL2Entry]
  omega

@[simp] theorem offsetField_zeroFlag (word : BitVec 64) :
    offsetField (word ||| oflagZero) = offsetField word := by
  rw [offsetField, offsetField, or_zero_and_offsetMask]

theorem getClusterType_or_zero (plain : fmt.hasSubclusters = false)
    (standard : fmt.getClusterType word ≠ .compressed) :
    fmt.getClusterType (word ||| oflagZero) = if word &&& offsetMask ≠ 0 then .zeroAlloc
    else .zeroPlain := by
  have compressed : (word ||| oflagZero) &&& oflagCompressed = 0 := by
    rw [BitVec.and_or_distrib_right]
    have clear : word &&& oflagCompressed = 0 := by
      by_contra set
      exact standard (by rw [getClusterType, if_pos set])
    rw [clear]
    decide
  have zero : (word ||| oflagZero) &&& oflagZero ≠ 0 := by
    intro clear
    have bit := congrArg (BitVec.getLsbD · 0) clear
    simp [oflagZero] at bit
  rw [getClusterType, if_neg (not_not.mpr compressed), if_pos ⟨zero, by simp [plain]⟩,
    or_zero_and_offsetMask]

/-- An entry that is not compressed refers to the cluster in its offset field. -/
theorem entryClusters_of_standard (standard : fmt.getClusterType word ≠ .compressed) :
    fmt.entryClusters word = if word &&& offsetMask = 0 then []
    else [offsetField word / fmt.clusterSize] := by
  rw [entryClusters, getClusterType]
  by_cases compressed : word &&& oflagCompressed = 0
  · rw [if_neg (not_not.mpr compressed)]
    by_cases zero : word &&& oflagZero ≠ 0 ∧ (!fmt.hasSubclusters) = true
    · rw [if_pos zero]
      by_cases offset : word &&& offsetMask = 0
      · rw [if_neg (not_not.mpr offset), if_pos offset]
      · rw [if_pos offset, if_neg offset]
    · rw [if_neg zero]
      by_cases offset : word &&& offsetMask = 0
      · rw [if_pos offset, if_pos offset]
      · rw [if_neg offset, if_neg offset]
  · exact absurd (if_pos compressed) standard

theorem entryClusters_or_zero (plain : fmt.hasSubclusters = false)
    (standard : fmt.getClusterType word ≠ .compressed) :
    fmt.entryClusters (word ||| oflagZero) = fmt.entryClusters word := by
  have still : fmt.getClusterType (word ||| oflagZero) ≠ .compressed := by
    rw [getClusterType_or_zero fmt plain standard]
    split <;> nofun
  rw [entryClusters_of_standard fmt still, entryClusters_of_standard fmt standard, or_zero_and_offsetMask,
    offsetField_zeroFlag]

theorem entryClusters_zeroFlag (plain : fmt.hasSubclusters = false) :
    fmt.entryClusters oflagZero = [] := by
  have same := fmt.entryClusters_or_zero plain (show fmt.getClusterType 0#64 ≠ .compressed by
    simp [getClusterType])
  rwa [entryClusters_zero] at same

end Format

namespace Metadata

variable {cfg : Config} {s s₁ s₂ : Metadata}

variable {type : DiscardType}

theorem freeAnyCluster_freed
    (aligned : cfg.getClusterType word ≠ .compressed → offsetField word % cfg.clusterSize = 0)
    (enough : ∀ c ∈ cfg.entryClusters word, 1 ≤ s.refcount c)
    (done : freeAnyCluster cfg word type s = .ok s₁) : Freed cfg (cfg.entryClusters word) s s₁ := by
  have standard : cfg.getClusterType word ≠ .compressed →
      (if offsetField word % cfg.clusterSize ≠ 0 then .ok s
        else freeClusters cfg (offsetField word) cfg.clusterSize type s) = .ok s₁ →
      (∀ c ∈ [offsetField word / cfg.clusterSize], 1 ≤ s.refcount c) →
      Freed cfg [offsetField word / cfg.clusterSize] s s₁ := by
    intro kind done enough
    rw [if_neg (not_not.mpr (aligned kind))] at done
    rw [← cfg.clustersOf_cluster (aligned kind)] at enough ⊢
    exact freeClusters_freed cfg.clusterSize_pos done enough
  rw [freeAnyCluster] at done
  rw [Format.entryClusters] at enough ⊢
  cases kind : cfg.getClusterType word with
  | compressed =>
    rw [kind] at done enough
    exact freeClusters_freed (cfg.parseCompressedL2Entry_pos word) done enough
  | normal | zeroAlloc =>
    rw [kind] at done enough
    exact standard (by simp [kind]) done enough
  | zeroPlain | unallocated =>
    rw [kind] at done
    cases Except.ok.inj done
    exact Freed.refl

/-- What `qcow2_discard_cluster` passes on. -/
def PassesOn (cfg : Config) (dtype : DiscardType) (e : L2Entry) : Prop :=
  cfg.discardPassthrough dtype = true ∧
    (cfg.getClusterType e.entry = .normal ∨ cfg.getClusterType e.entry = .zeroAlloc)

variable {e : L2Entry}

theorem discardCluster_rewrites
    (rewrites : Rewrites cfg [] update noneKept s s₁)
    (aligned : cfg.getClusterType e.entry ≠ .compressed → offsetField e.entry % cfg.clusterSize = 0)
    (done : discardCluster cfg (offsetField e.entry) cfg.clusterSize (cfg.getClusterType e.entry)
    dtype s₁ = .ok s₂) :
    Rewrites cfg [] update (fun c => PassesOn cfg dtype e ∧
    offsetField e.entry / cfg.clusterSize = c) s s₂ ∧
      s₂.l1Table = s₁.l1Table := by
  by_cases passes : PassesOn cfg dtype e
  · have condition := passes
    rw [PassesOn] at condition
    rw [discardCluster, if_pos condition] at done
    obtain ⟨discards, queued, ⟨⟩⟩ := Checked.bind_ok.mp done
    have covers : ∀ byte, (⟨offsetField e.entry, cfg.clusterSize⟩ : DiscardRegion).Covers byte ↔
        offsetField e.entry / cfg.clusterSize = byte / cfg.clusterSize := by
      intro byte
      have standard : cfg.getClusterType e.entry ≠ .compressed := by
        rcases passes.2 with kind | kind <;> rw [kind] <;> nofun
      have start : offsetField e.entry = offsetField e.entry / cfg.clusterSize * cfg.clusterSize :=
        (Nat.div_mul_cancel (Nat.dvd_of_mod_eq_zero (aligned standard))).symm
      rw [start, covers_cluster, Nat.mul_div_cancel _ cfg.clusterSize_pos]
      exact eq_comm
    refine ⟨⟨⟨rewrites.consistent.covered, rewrites.consistent.header, rewrites.consistent.copied,
      rewrites.consistent.tableAligned, rewrites.consistent.aligned⟩, rewrites.balanced, rewrites.active,
      rewrites.snapshot, rewrites.dataRefs_le, ?_, ?_⟩, rfl⟩
    · intro byte later
      rcases later with later | later
      · rcases (queueDiscard_covered queued byte).mp later with earlier | new
        · exact (rewrites.discarding byte (.inl earlier)).imp_right (·.imp_right False.elim)
        · exact .inr (.inr ⟨passes, (covers byte).mp new⟩)
      · exact (rewrites.discarding byte (.inr later)).imp_right (·.imp_right False.elim)
    · rintro byte (earlier | ⟨-, here⟩)
      · rcases rewrites.discarded byte (.inl earlier) with queue | passed
        · exact .inl ((queueDiscard_covered queued byte).mpr (.inl queue))
        · exact .inr passed
      · exact .inl ((queueDiscard_covered queued byte).mpr (.inr ((covers byte).mpr here)))
  · have condition := passes
    rw [PassesOn] at condition
    rw [discardCluster, if_neg condition] at done
    cases Except.ok.inj done
    exact ⟨rewrites.congr (fun _ => rfl) fun c => ⟨fun kept => passes kept.1, False.elim⟩, rfl⟩

/-- The entries of `n` guest clusters from `a` change by `f`. -/
def onRange (a n : Nat) (f : L2Entry → L2Entry) (g : Nat) (e : L2Entry) : L2Entry :=
  if a ≤ g ∧ g < a + n then f e else e

variable {f : L2Entry → L2Entry}

theorem onRange_of_mem (inside : a ≤ g ∧ g < a + n) : onRange a n f g e = f e := if_pos inside

theorem onRange_of_not_mem (outside : ¬ (a ≤ g ∧ g < a + n)) : onRange a n f g e = e := if_neg outside

/-- The clusters of the entries in a range that are discarded with their reference. -/
def keptOn (cfg : Config) (keeps : L2Entry → Prop) (a n : Nat) (s : Metadata) (c : Nat) : Prop :=
  ∃ g, a ≤ g ∧ g < a + n ∧ keeps (s.entries cfg 0 g) ∧
    offsetField (s.entries cfg 0 g).entry / cfg.clusterSize = c

theorem keptOn_one : keptOn cfg keeps g 1 s c ↔
    keeps (s.entries cfg 0 g) ∧ offsetField (s.entries cfg 0 g).entry / cfg.clusterSize = c := by
  constructor
  · rintro ⟨g', low, high, keep⟩
    have same : g' = g := by omega
    rwa [same] at keep
  · exact fun keep => ⟨g, le_rfl, by omega, keep⟩

/-- The body of a loop rewrites one entry by `f`, and discards its cluster without releasing it
where `keeps`. -/
def RewritesEntry (cfg : Config) (f : L2Entry → L2Entry) (keeps : L2Entry → Prop)
    (body : Nat → Nat → Metadata → Except Stop Metadata) : Prop :=
  ∀ ⦃s s' : Metadata⦄ ⦃i j : Nat⦄, s.Consistent cfg [] → j < cfg.l2Size → s.Copied i →
    body (s.l2At i) j s = .ok s' →
    Rewrites cfg [] (onRange (i * cfg.l2Size + j) 1 f)
      (keptOn cfg keeps (i * cfg.l2Size + j) 1 s) s s' ∧ s'.l1Table = s.l1Table

theorem onRange_one (g : Nat) (f : L2Entry → L2Entry) (g' : Nat) (e : L2Entry) :
    onRange g 1 f g' e = if g' = g then f e else e := by
  rw [onRange]
  by_cases same : g' = g
  · rw [if_pos (by omega), if_pos same]
  · rw [if_neg (by omega), if_neg same]

section

variable {i j : Nat} (consistent : s.Consistent cfg []) (small : j < cfg.l2Size) (copied : s.Copied i)

include consistent small copied

theorem l2_eq_entries : s.l2 (s.l2At i) j = s.entries cfg 0 (i * cfg.l2Size + j) := by
  rw [entries_row i small, if_neg (consistent.copied i copied).1]

variable {f : L2Entry → L2Entry}

/-- An entry that is not changed. -/
theorem unchanged_rewrites (same : s.l2 (s.l2At i) j = f (s.l2 (s.l2At i) j))
    (changes : ∀ e, keeps e → e ≠ f e) :
    Rewrites cfg [] (onRange (i * cfg.l2Size + j) 1 f) (keptOn cfg keeps (i * cfg.l2Size + j) 1 s) s
    s := by
  rw [l2_eq_entries consistent small copied] at same
  refine (Rewrites.refl consistent).congr (fun g => ?_) (fun c => ?_)
  · rw [onRange_one]
    split
    next here => rw [here, ← same]
    · rfl
  · rw [keptOn_one]
    exact ⟨fun keep => changes _ keep.1 same, False.elim⟩

/-- An entry that is replaced by one without a reference, with the old one released. -/
theorem free_rewrites (unmapped : cfg.entryClusters (f (s.l2 (s.l2At i) j)).entry = [])
    (offset : offsetField (f (s.l2 (s.l2At i) j)).entry = 0) (released : ¬ keeps (s.l2 (s.l2At i) j))
    (done : freeAnyCluster cfg (s.l2 (s.l2At i) j).entry type
      (s.setL2 (s.l2At i) j (f (s.l2 (s.l2At i) j))) = .ok s₁) :
    Rewrites cfg [] (onRange (i * cfg.l2Size + j) 1 f)
      (keptOn cfg keeps (i * cfg.l2Size + j) 1 s) s s₁ ∧ s₁.l1Table = s.l1Table := by
  have old := l2_eq_entries consistent small copied
  generalize s.l2 (s.l2At i) j = e at old unmapped offset released done
  have written : Rewrites cfg (cfg.entryClusters e.entry) (updateAt _ (f e)) _ s _ :=
    setL2_rewrites consistent small copied (by simp [unmapped, ← old]) (fun _ => by simp [offset])
  have freed := freeAnyCluster_freed (old ▸ consistent.aligned _) written.owed_le done
  refine ⟨(written.release freed).congr (fun g => ?_) (fun c => ?_), freed.l1Table⟩
  · rw [onRange_one, updateAt]
    split
    next here => rw [here, old]
    · rfl
  · rw [keptOn_one, ← old]
    exact ⟨fun keep => released keep.1, False.elim⟩

section

variable (same : cfg.entryClusters (f (s.l2 (s.l2At i) j)).entry = cfg.entryClusters
  (s.l2 (s.l2At i) j).entry)
  (offset : offsetField (f (s.l2 (s.l2At i) j)).entry = offsetField (s.l2 (s.l2At i) j).entry)
  (standard : cfg.getClusterType (s.l2 (s.l2At i) j).entry ≠ .compressed)
include same offset standard

theorem write_rewrites :
    Rewrites cfg [] (onRange (i * cfg.l2Size + j) 1 f) noneKept s
    (s.setL2 (s.l2At i) j (f (s.l2 (s.l2At i) j))) := by
  have old := l2_eq_entries consistent small copied
  generalize s.l2 (s.l2At i) j = e at old same offset standard ⊢
  have aligned : offsetField (f e).entry % cfg.clusterSize = 0 := by
    rw [offset, old]
    exact consistent.aligned _ (old ▸ standard)
  have written : Rewrites cfg [] (updateAt _ (f e)) _ s _ :=
    setL2_rewrites consistent small copied (by simp [same, ← old]) (fun _ => aligned)
  refine written.congr (fun g => ?_) (fun c => Iff.rfl)
  rw [onRange_one, updateAt]
  split
  next here => rw [here, old]
  · rfl

theorem keep_rewrites
    (kept : keeps (s.l2 (s.l2At i) j) ↔ PassesOn cfg dtype (s.l2 (s.l2At i) j))
    (done : discardCluster cfg (offsetField (s.l2 (s.l2At i) j).entry) cfg.clusterSize
      (cfg.getClusterType (s.l2 (s.l2At i) j).entry) dtype
      (s.setL2 (s.l2At i) j (f (s.l2 (s.l2At i) j))) = .ok s₁) :
    Rewrites cfg [] (onRange (i * cfg.l2Size + j) 1 f)
      (keptOn cfg keeps (i * cfg.l2Size + j) 1 s) s s₁ ∧ s₁.l1Table = s.l1Table := by
  have old := l2_eq_entries consistent small copied
  have written := write_rewrites consistent small copied same offset standard
  obtain ⟨passed, table⟩ := discardCluster_rewrites written (old ▸ consistent.aligned _) done
  refine ⟨passed.congr (fun _ => rfl) (fun c => ?_), table⟩
  rw [keptOn_one, ← old, kept]

end

end

/-- The entries whose cluster `discard_in_l2_slice` passes on without releasing it. -/
def DiscardKeeps (cfg : Config) (type : DiscardType) (fullDiscard : Bool) (e : L2Entry) : Prop :=
  e ≠ discardedEntry cfg type fullDiscard e ∧ discardKeepsReference cfg type fullDiscard e = true ∧
    PassesOn cfg type e

def ZeroKeeps (cfg : Config) (mayUnmap : Bool) (e : L2Entry) : Prop :=
  e ≠ zeroedEntry cfg mayUnmap e ∧ zeroUnmaps cfg mayUnmap e = true ∧
    zeroKeepsReference cfg e = true ∧ PassesOn cfg .request e

theorem discardKeepsReference_iff :
    discardKeepsReference cfg type fullDiscard e = true ↔ cfg.getClusterType e.entry ≠ .compressed ∧
      fullDiscard = false ∧ cfg.discardNoUnref = true ∧ type = .request := by
  simp [discardKeepsReference, and_assoc]

theorem discardedEntry_kept (keep : discardKeepsReference cfg type fullDiscard e = true) :
    cfg.getClusterType e.entry ≠ .compressed ∧
      cfg.entryClusters (discardedEntry cfg type fullDiscard e).entry = cfg.entryClusters e.entry ∧
      offsetField (discardedEntry cfg type fullDiscard e).entry = offsetField e.entry := by
  obtain ⟨standard, partial_, noUnref, -⟩ := discardKeepsReference_iff.mp keep
  refine ⟨standard, ?_⟩
  rw [discardedEntry, partial_, if_neg Bool.false_ne_true]
  rw [partial_] at keep
  rw [if_pos (cfg.noUnrefVersion noUnref)]
  split
  · by_cases plain : cfg.hasSubclusters = false
    · simp [plain, Format.entryClusters_or_zero _ plain standard]
    · simp [plain]
  · exact ⟨rfl, rfl⟩

theorem discardedEntry_released (changed : e ≠ discardedEntry cfg type fullDiscard e)
    (released : discardKeepsReference cfg type fullDiscard e ≠ true) :
    cfg.entryClusters (discardedEntry cfg type fullDiscard e).entry = [] ∧
      offsetField (discardedEntry cfg type fullDiscard e).entry = 0 := by
  have empty : cfg.entryClusters 0#64 = [] ∧ offsetField 0#64 = 0 := by simp [offsetField]
  rw [discardedEntry] at changed ⊢
  by_cases full : fullDiscard = true
  · rw [if_pos full]
    exact empty
  rw [if_neg full] at changed ⊢
  by_cases mapped : (cfg.backing || (cfg.getClusterType e.entry).isAllocated) = true
  · rw [if_pos mapped]
    split
    · exact empty
    next plain =>
      split
      · exact ⟨cfg.entryClusters_zeroFlag (by simpa using plain), show offsetField oflagZero = 0 by
          decide⟩
      · exact empty
  · rw [if_neg mapped] at changed
    exact absurd rfl changed

theorem discardEntry_rewrites (type : DiscardType) (fullDiscard : Bool) :
    RewritesEntry cfg (discardedEntry cfg type fullDiscard) (DiscardKeeps cfg type fullDiscard)
      (discardEntry cfg type fullDiscard) := by
  intro s s' i j consistent small copied done
  rw [discardEntry] at done
  by_cases same : s.l2 (s.l2At i) j = discardedEntry cfg type fullDiscard (s.l2 (s.l2At i) j)
  · rw [if_pos same] at done
    cases Except.ok.inj done
    exact ⟨unchanged_rewrites consistent small copied same (fun e keep => keep.1), rfl⟩
  rw [if_neg same] at done
  by_cases keep : discardKeepsReference cfg type fullDiscard (s.l2 (s.l2At i) j) = true
  · rw [if_pos keep] at done
    obtain ⟨standard, clusters, offset⟩ := discardedEntry_kept keep
    exact keep_rewrites consistent small copied clusters offset standard
      ⟨fun kept => kept.2.2, fun passes => ⟨same, keep, passes⟩⟩ done
  · rw [if_neg keep] at done
    obtain ⟨unmapped, offset⟩ := discardedEntry_released same keep
    exact free_rewrites consistent small copied unmapped offset (fun kept => keep kept.2.1) done

theorem zeroedEntry_unmapped (unmap : zeroUnmaps cfg mayUnmap e = true)
    (released : zeroKeepsReference cfg e ≠ true) :
    cfg.entryClusters (zeroedEntry cfg mayUnmap e).entry = [] ∧
      offsetField (zeroedEntry cfg mayUnmap e).entry = 0 := by
  have removed : (zeroUnmaps cfg mayUnmap e && !zeroKeepsReference cfg e) = true := by
    simp [unmap, released]
  rw [zeroedEntry]
  rw [if_pos removed]
  by_cases plain : cfg.hasSubclusters = false
  · simpa [plain] using ⟨cfg.entryClusters_zeroFlag plain, by decide⟩
  · simp [plain, offsetField]

theorem zeroedEntry_mapped
    (mapped : ¬ (zeroUnmaps cfg mayUnmap e = true ∧ zeroKeepsReference cfg e ≠ true)) :
    cfg.getClusterType e.entry ≠ .compressed ∧
      cfg.entryClusters (zeroedEntry cfg mayUnmap e).entry = cfg.entryClusters e.entry ∧
      offsetField (zeroedEntry cfg mayUnmap e).entry = offsetField e.entry := by
  have standard : cfg.getClusterType e.entry ≠ .compressed := by
    intro compressed
    exact mapped (by simp [zeroUnmaps, zeroKeepsReference, compressed])
  have stays : ¬ (zeroUnmaps cfg mayUnmap e && !zeroKeepsReference cfg e) = true := by
    simpa using mapped
  refine ⟨standard, ?_⟩
  rw [zeroedEntry]
  rw [if_neg stays]
  by_cases plain : cfg.hasSubclusters = false
  · simp [plain, Format.entryClusters_or_zero _ plain standard]
  · simp [plain]

theorem zeroEntry_rewrites (mayUnmap : Bool) :
    RewritesEntry cfg (zeroedEntry cfg mayUnmap) (ZeroKeeps cfg mayUnmap) (zeroEntry cfg mayUnmap) := by
  intro s s' i j consistent small copied done
  rw [zeroEntry] at done
  by_cases same : s.l2 (s.l2At i) j = zeroedEntry cfg mayUnmap (s.l2 (s.l2At i) j)
  · rw [if_pos same] at done
    cases Except.ok.inj done
    exact ⟨unchanged_rewrites consistent small copied same (fun e keep => keep.1), rfl⟩
  rw [if_neg same] at done
  by_cases unmap : zeroUnmaps cfg mayUnmap (s.l2 (s.l2At i) j) = true
  · rw [if_pos unmap] at done
    by_cases keep : zeroKeepsReference cfg (s.l2 (s.l2At i) j) = true
    · rw [if_pos keep] at done
      obtain ⟨standard, clusters, offset⟩ := zeroedEntry_mapped fun released => released.2 keep
      exact keep_rewrites consistent small copied clusters offset standard
        ⟨fun kept => kept.2.2.2, fun passes => ⟨same, unmap, keep, passes⟩⟩ done
    · rw [if_neg keep] at done
      obtain ⟨unmapped, offset⟩ := zeroedEntry_unmapped unmap keep
      exact free_rewrites consistent small copied unmapped offset (fun kept => keep kept.2.2.1) done
  · rw [if_neg unmap] at done
    cases Except.ok.inj done
    obtain ⟨standard, clusters, offset⟩ := zeroedEntry_mapped fun released => unmap released.1
    have old := l2_eq_entries consistent small copied
    refine ⟨(write_rewrites consistent small copied clusters offset standard).congr
      (fun _ => rfl) fun c => ?_, rfl⟩
    rw [keptOn_one, ← old]
    exact ⟨fun kept => unmap kept.1.2.1, False.elim⟩

end Metadata

end Qemu.Qcow2
