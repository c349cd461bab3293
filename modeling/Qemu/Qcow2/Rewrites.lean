import Qemu.Qcow2.References

namespace Qemu.Qcow2.Metadata

open List Function

variable {cfg : Config} {s s₁ s₂ : Metadata}

/-- The active entries change by `update` and the snapshots' do not; `owed` are the clusters
that lost a reference and are not released yet, `kept` those discarded with their reference. -/
structure Rewrites (cfg : Config) (owed : List Nat) (update : Nat → L2Entry → L2Entry)
    (kept : Nat → Prop) (s s' : Metadata) : Prop where
  consistent : s'.Consistent cfg owed
  balanced : ∀ c, s'.refcount c + s.refs cfg c = s.refcount c + s'.refs cfg c + owed.count c
  active : ∀ g, s'.entries cfg 0 g = update g (s.entries cfg 0 g)
  snapshot : ∀ k g, s'.entries cfg (k + 1) g = s.entries cfg (k + 1) g
  dataRefs_le : ∀ c, s'.dataRefs cfg c ≤ s.dataRefs cfg c
  discarding : ∀ byte, s'.Discarding byte →
    s.Discarding byte ∨ s'.dataRefs cfg (byte / cfg.clusterSize) = 0 ∨ kept (byte / cfg.clusterSize)
  discarded : ∀ byte, s.Discarding byte ∨ kept (byte / cfg.clusterSize) → s'.Discarding byte

/-- Entries are left as they are. -/
abbrev sameEntries (_ : Nat) (e : L2Entry) : L2Entry := e

abbrev noneKept (_ : Nat) : Prop := False

theorem Rewrites.refl (consistent : s.Consistent cfg []) : Rewrites cfg [] sameEntries noneKept s s where
  consistent := consistent
  balanced c := by simp
  active _ := rfl
  snapshot _ _ := rfl
  dataRefs_le _ := Nat.le_refl _
  discarding _ before := .inl before
  discarded _ before := before.resolve_right id

variable {owed : List Nat}

theorem Rewrites.trans
    (first : Rewrites cfg [] update₁ kept₁ s s₁) (second : Rewrites cfg owed update₂ kept₂ s₁ s₂) :
    Rewrites cfg owed (fun g e => update₂ g (update₁ g e)) (fun c => kept₁ c ∨ kept₂ c) s s₂ where
  consistent := second.consistent
  balanced c := by
    have before := first.balanced c
    have after := second.balanced c
    simp only [count_nil] at before
    omega
  active g := by rw [second.active, first.active]
  snapshot k g := by rw [second.snapshot, first.snapshot]
  dataRefs_le c := (second.dataRefs_le c).trans (first.dataRefs_le c)
  discarding byte later := by
    rcases second.discarding byte later with earlier | dead | kept
    · rcases first.discarding byte earlier with earlier | dead | kept
      · exact .inl earlier
      · have fewer := second.dataRefs_le (byte / cfg.clusterSize)
        exact .inr (.inl (by omega))
      · exact .inr (.inr (.inl kept))
    · exact .inr (.inl dead)
    · exact .inr (.inr (.inr kept))
  discarded byte earlier := by
    apply second.discarded
    rcases earlier with earlier | kept | kept
    · exact .inl (first.discarded byte (.inl earlier))
    · exact .inl (first.discarded byte (.inr kept))
    · exact .inr kept

variable {update : Nat → L2Entry → L2Entry} {kept : Nat → Prop}

/-- The same operation described with other words. -/
theorem Rewrites.congr
    (rewrites : Rewrites cfg owed update kept s s₁)
    (entry : ∀ g, update' g (s.entries cfg 0 g) = update g (s.entries cfg 0 g))
    (clusters : ∀ c, kept' c ↔ kept c) : Rewrites cfg owed update' kept' s s₁ where
  consistent := rewrites.consistent
  balanced := rewrites.balanced
  active g := by rw [rewrites.active, entry]
  snapshot := rewrites.snapshot
  dataRefs_le := rewrites.dataRefs_le
  discarding byte later := by
    rw [clusters]
    exact rewrites.discarding byte later
  discarded byte earlier := by
    rw [clusters] at earlier
    exact rewrites.discarded byte earlier

theorem Rewrites.after {owed : List Nat} {update : Nat → L2Entry → L2Entry} {kept : Nat → Prop}
    (second : Rewrites cfg owed update kept s₁ s₂)
    (first : Rewrites cfg [] sameEntries noneKept s s₁) : Rewrites cfg owed update kept s s₂ :=
  (first.trans second).congr (fun _ => rfl) fun c => (iff_of_eq (false_or (kept c))).symm

/-- The refcounts of the clusters drop by one each; those that become free may be discarded. -/
structure Freed (cfg : Config) (clusters : List Nat) (s s' : Metadata) : Prop where
  refcount : ∀ c, s'.refcount c + clusters.count c = s.refcount c
  l1Table : s'.l1Table = s.l1Table
  snapshots : s'.snapshots = s.snapshots
  l2 : s'.l2 = s.l2
  discarding : ∀ byte, s'.Discarding byte → s.Discarding byte ∨ s'.refcount (byte / cfg.clusterSize) = 0
  discarded : ∀ byte, s.Discarding byte → s'.Discarding byte

namespace Freed

variable {clusters more : List Nat}

theorem refl : Freed cfg [] s s :=
  ⟨fun _ => rfl, rfl, rfl, rfl, fun _ before => .inl before, fun _ before => before⟩

theorem trans (first : Freed cfg clusters s s₁) (second : Freed cfg more s₁ s₂) :
    Freed cfg (clusters ++ more) s s₂ where
  refcount c := by
    have before := first.refcount c
    have after := second.refcount c
    rw [count_append]
    omega
  l1Table := second.l1Table.trans first.l1Table
  snapshots := second.snapshots.trans first.snapshots
  l2 := second.l2.trans first.l2
  discarding byte later := by
    rcases second.discarding byte later with earlier | free
    · rcases first.discarding byte earlier with earlier | free
      · exact .inl earlier
      · have after := second.refcount (byte / cfg.clusterSize)
        exact .inr (by omega)
    · exact .inr free
  discarded byte earlier := second.discarded byte (first.discarded byte earlier)

section

variable (freed : Freed cfg clusters s s₁)
include freed

theorem entries (k g : Nat) : s₁.entries cfg k g = s.entries cfg k g := by
  rw [Metadata.entries, Metadata.entries, trees, trees, freed.l1Table, freed.snapshots, freed.l2]

theorem tableRefs (c : Nat) : s₁.tableRefs cfg c = s.tableRefs cfg c := by
  rw [Metadata.tableRefs, Metadata.tableRefs, trees, trees, freed.l1Table, freed.snapshots]

theorem dataRefs (c : Nat) : s₁.dataRefs cfg c = s.dataRefs cfg c := by
  rw [Metadata.dataRefs, Metadata.dataRefs, trees, trees, freed.l1Table, freed.snapshots, freed.l2]

theorem refs (c : Nat) : s₁.refs cfg c = s.refs cfg c := by
  rw [Metadata.refs, Metadata.refs, freed.tableRefs, freed.dataRefs]

theorem l2At (i : Nat) : s₁.l2At i = s.l2At i := by
  rw [Metadata.l2At, Metadata.l2At, freed.l1Table]

theorem copied (i : Nat) : s₁.Copied i ↔ s.Copied i := by
  rw [Copied, Copied, freed.l1Table]

end

end Freed

theorem discarding_processDiscards (byte : Nat) : (s.processDiscards 0).Discarding byte ↔
    s.Discarding byte := by
  simp [Discarding, processDiscards, or_comm]

theorem freed_processDiscards : Freed cfg [] s (s.processDiscards 0) :=
  ⟨fun _ => rfl, rfl, rfl, rfl, fun _ later => .inl ((discarding_processDiscards _).mp later),
    fun _ => (discarding_processDiscards _).mpr⟩

theorem covers_cluster (c byte : Nat) :
    (⟨c * cfg.clusterSize, cfg.clusterSize⟩ : DiscardRegion).Covers byte ↔
    byte / cfg.clusterSize = c := by
  rw [DiscardRegion.Covers, Nat.div_eq_iff cfg.clusterSize_pos]
  have positive := cfg.clusterSize_pos
  simp only
  omega

theorem updateCluster_freed {next : Option Metadata}
    (done : updateCluster cfg 1 true type c s = .ok next) (enough : 1 ≤ s.refcount c) :
    ∃ s', next = some s' ∧ Freed cfg [c] s s' := by
  have fits : ¬ s.refcount c < 1 := by omega
  have drop : ∀ c', Function.update s.refcount c (s.refcount c - 1) c' + [c].count c' =
    s.refcount c' := by
    intro c'
    by_cases same : c' = c
    · rw [same, update_self, count_singleton_self]
      omega
    · rw [update_of_ne same, count_singleton, if_neg (by simpa using Ne.symm same)]
      rfl
  rw [updateCluster] at done
  simp only [if_true, if_neg fits] at done
  split at done
  next free =>
    obtain ⟨discards, queued, done⟩ := Checked.bind_ok.mp done
    refine ⟨_, (Except.ok.inj done).symm, ⟨drop, rfl, rfl, rfl, ?_, ?_⟩⟩
    · intro byte later
      rcases later with later | later
      · rcases (queueDiscard_covered queued byte).mp later with earlier | new
        · exact .inl (.inl earlier)
        · rw [covers_cluster] at new
          right
          simpa [new] using free.1
      · exact .inl (.inr later)
    · intro byte earlier
      rcases earlier with earlier | earlier
      · exact .inl ((queueDiscard_covered queued byte).mpr (.inl earlier))
      · exact .inr earlier
  · exact ⟨_, (Except.ok.inj done).symm,
      ⟨drop, rfl, rfl, rfl, fun _ later => .inl later, fun _ earlier => earlier⟩⟩

theorem updateClusters_freed (done : updateClusters cfg 1 true type n c s = .ok (s₁, left))
    (enough : ∀ c' ∈ range' c n, 1 ≤ s.refcount c') :
    left = 0 ∧ Freed cfg (range' c n) s s₁ := by
  induction n generalizing c s with
  | zero =>
    cases Except.ok.inj done
    exact ⟨rfl, Freed.refl⟩
  | succ n ih => ?_
  obtain ⟨next, updated, more⟩ := Checked.bind_ok.mp done
  obtain ⟨s', rfl, first⟩ := updateCluster_freed updated (enough c (by simp))
  have later : ∀ c' ∈ range' (c + 1) n, 1 ≤ s'.refcount c' := by
    intro c' member
    have before := enough c' (by exact mem_cons_of_mem _ member)
    have same := first.refcount c'
    have away : c ≠ c' := by
      have above := (mem_range'_1.mp member).1
      omega
    rw [count_singleton, if_neg (by simpa using away)] at same
    omega
  obtain ⟨finished, rest⟩ := ih more later
  exact ⟨finished, by exact first.trans rest⟩

theorem freeClusters_freed (positive : 0 < size)
    (done : freeClusters cfg offset size type s = .ok s₁)
    (enough : ∀ c ∈ cfg.clustersOf offset size, 1 ≤ s.refcount c) :
    Freed cfg (cfg.clustersOf offset size) s s₁ := by
  obtain ⟨⟨s', ret⟩, updated, rfl⟩ := Checked.map_ok.mp done
  rw [updateRefcount, if_neg positive.ne'] at updated
  obtain ⟨⟨s'', left⟩, loop, updated⟩ := Checked.bind_ok.mp updated
  obtain ⟨rfl, freed⟩ := updateClusters_freed loop enough
  cases Except.ok.inj updated
  split
  · exact freed
  · have processed := freed.trans freed_processDiscards
    rwa [append_nil] at processed

/-- Releasing what is owed settles the account. -/
theorem Rewrites.release (rewrites : Rewrites cfg owed update kept s s₁)
    (freed : Freed cfg owed s₁ s₂) : Rewrites cfg [] update kept s s₂ where
  consistent := by
    have settled : ∀ c, s₂.refcount c + owed.count c = s₁.refcount c := freed.refcount
    refine ⟨?_, ?_, ?_, ?_, ?_⟩
    · intro c
      have covered := rewrites.consistent.covered c
      have drop := settled c
      rw [freed.refs, count_nil]
      omega
    · have header := rewrites.consistent.header
      have drop := settled 0
      rw [freed.refs, count_nil]
      omega
    · intro i copied
      obtain ⟨nonzero, once⟩ := rewrites.consistent.copied i ((freed.copied i).mp copied)
      rw [freed.l2At]
      refine ⟨nonzero, ?_⟩
      -- the L1 entry itself is the one reference, so the cluster is not among those released
      have used : 0 < s₁.tableRefs cfg (s₁.l2At i / cfg.clusterSize) :=
        tableRefs_pos (mem_cons_self : s₁.l1Table ∈ s₁.trees) nonzero
      have covered := rewrites.consistent.covered (s₁.l2At i / cfg.clusterSize)
      have drop := settled (s₁.l2At i / cfg.clusterSize)
      rw [Metadata.refs] at covered
      omega
    · intro i
      rw [freed.l2At]
      exact rewrites.consistent.tableAligned i
    · intro g
      rw [freed.entries]
      exact rewrites.consistent.aligned g
  balanced c := by
    have before := rewrites.balanced c
    have drop := freed.refcount c
    rw [freed.refs, count_nil]
    omega
  active g := by rw [freed.entries, rewrites.active]
  snapshot k g := by rw [freed.entries, rewrites.snapshot]
  dataRefs_le c := by
    rw [freed.dataRefs]
    exact rewrites.dataRefs_le c
  discarding byte later := by
    rw [freed.dataRefs]
    rcases freed.discarding byte later with earlier | free
    · exact rewrites.discarding byte earlier
    · have covered := rewrites.consistent.covered (byte / cfg.clusterSize)
      have drop := freed.refcount (byte / cfg.clusterSize)
      rw [Metadata.refs] at covered
      exact .inr (.inl (by omega))
  discarded byte earlier := freed.discarded byte (rewrites.discarded byte earlier)

theorem Rewrites.owed_le (rewrites : Rewrites cfg owed update kept s s₁) :
    ∀ c ∈ owed, 1 ≤ s₁.refcount c := by
  intro c member
  have covered := rewrites.consistent.covered c
  have positive := count_pos_iff.mpr member
  omega

def updateAt (g : Nat) (new : L2Entry) (g' : Nat) (e : L2Entry) : L2Entry := if g' = g then new else e

theorem setL2_rewrites (consistent : s.Consistent cfg []) (small : j < cfg.l2Size)
    (copied : s.Copied i)
    (released : ∀ c, (cfg.entryClusters (s.entries cfg 0 (i * cfg.l2Size + j)).entry).count c =
      (cfg.entryClusters new.entry).count c + owed.count c)
    (aligned : cfg.getClusterType new.entry ≠ .compressed → offsetField new.entry % cfg.clusterSize = 0) :
    Rewrites cfg owed (updateAt (i * cfg.l2Size + j) new) noneKept s (s.setL2 (s.l2At i) j new) := by
  set s' := s.setL2 (s.l2At i) j new
  obtain ⟨nonzero, once⟩ := consistent.copied i copied
  obtain ⟨only, apart⟩ := consistent.alone copied
  have lookup : cfg.tree.lookup s.l1Table s'.l2 =
      Function.update (cfg.tree.lookup s.l1Table s.l2) (i * cfg.l2Size + j) new :=
    TwoLevel.lookup_update_entry new j small rfl nonzero only
  have others : ∀ l1 ∈ s.snapshots, cfg.tree.lookup l1 s'.l2 = cfg.tree.lookup l1 s.l2 :=
    fun l1 snapshot => TwoLevel.lookup_update_unused _ (apart l1 snapshot)
  have inside : i * cfg.l2Size + j < s.l1Table.length * cfg.l2Size := by
    have used : cfg.tree.tableAt s.l1Table i ≠ 0 := nonzero
    have row := TwoLevel.lt_length_of_tableAt used
    calc i * cfg.l2Size + j < (i + 1) * cfg.l2Size := by rw [Nat.succ_mul]; omega
      _ ≤ s.l1Table.length * cfg.l2Size := Nat.mul_le_mul_right _ row
  have data : ∀ c, s'.dataRefs cfg c + owed.count c = s.dataRefs cfg c := by
    intro c
    have active := TwoLevel.dataRefs_update (c := c) rfl inside lookup
    have rest : (s.snapshots.map fun l1 => cfg.tree.dataRefs l1 s'.l2 c) =
        s.snapshots.map fun l1 => cfg.tree.dataRefs l1 s.l2 c :=
      map_congr_left fun l1 snapshot => TwoLevel.dataRefs_congr rfl (others l1 snapshot)
    have change := released c
    rw [dataRefs_eq, dataRefs_eq]
    rw [show s'.snapshots = s.snapshots from rfl, show s'.l1Table = s.l1Table from rfl, rest]
    change _ + (cfg.entryClusters _).count c = _ + (cfg.entryClusters new.entry).count c at active
    rw [entries_zero] at change
    omega
  have total : ∀ c, s'.refs cfg c + owed.count c = s.refs cfg c := by
    intro c
    have fewer := data c
    rw [refs, refs, show s'.tableRefs cfg c = s.tableRefs cfg c from rfl]
    omega
  have active : ∀ g, s'.entries cfg 0 g = updateAt (i * cfg.l2Size + j) new g (s.entries cfg 0 g) := by
    intro g
    rw [entries_zero, entries_zero, updateAt, show s'.l1Table = s.l1Table from rfl, lookup, update_apply]
  refine ⟨⟨?_, ?_, consistent.copied, consistent.tableAligned, ?_⟩, ?_, active, ?_, ?_, ?_, ?_⟩
  · intro c
    rw [total]
    have covered := consistent.covered c
    rwa [count_nil] at covered
  · rw [total]
    have header := consistent.header
    rwa [count_nil] at header
  · intro g
    rw [active, updateAt]
    split
    · exact aligned
    · exact consistent.aligned g
  · intro c
    rw [← total c, show s'.refcount = s.refcount from rfl, Nat.add_assoc]
  · exact entries_succ_congr rfl others
  · intro c
    have fewer := data c
    omega
  · exact fun byte later => .inl later
  · exact fun byte earlier => earlier.resolve_right id

end Qemu.Qcow2.Metadata
