import Qemu.Qcow2.Rewrites

namespace Qemu.Qcow2

open List TwoLevel Function

theorem offsetField_or_copied (word : BitVec 64) :
    offsetField (word ||| oflagCopied) = offsetField word := by
  rw [offsetField, BitVec.and_or_distrib_right]
  simp [oflagCopied, offsetMask, offsetField]

theorem or_copied_and_copied (word : BitVec 64) : (word ||| oflagCopied) &&& oflagCopied ≠ 0 := by
  intro zero
  have bit := congrArg (BitVec.getLsbD · 63) zero
  simp [oflagCopied] at bit

namespace Metadata

variable {cfg : Config} {s s₁ s₂ : Metadata}

theorem le_bumpL1Size (positive : 1 ≤ size) (enough : minSize ≤ fuel + size) :
    minSize ≤ bumpL1Size minSize fuel size := by
  induction fuel generalizing size with
  | zero => simpa [bumpL1Size] using enough
  | succ fuel ih =>
    rw [bumpL1Size]
    split
    · exact ih (by omega) (by omega)
    · omega

theorem append_rewrites (consistent : s.Consistent cfg []) (n : Nat) :
    Rewrites cfg [] sameEntries noneKept s { s with l1Table := s.l1Table ++ replicate n 0 } := by
  have word : ∀ i, (s.l1Table ++ replicate n (0 : BitVec 64)).getD i 0 = s.l1Table.getD i 0 := by
    intro i
    by_cases inside : i < s.l1Table.length
    · rw [getD_append _ _ _ _ inside]
    · rw [getD_append_right _ _ _ _ (Nat.le_of_not_lt inside), getD_eq_getElem?_getD,
        getElem?_getD_replicate_default_eq, getD_eq_default _ _ (Nat.le_of_not_lt inside)]
  have lookup : cfg.tree.lookup (s.l1Table ++ replicate n 0) s.l2 = cfg.tree.lookup s.l1Table s.l2 :=
    lookup_append n
  have data : ∀ c, cfg.tree.dataRefs (s.l1Table ++ replicate n 0) s.l2 c =
      cfg.tree.dataRefs s.l1Table s.l2 c := fun c => dataRefs_append n
  have table : ∀ c, cfg.tree.tableRefs (s.l1Table ++ replicate n 0) c = cfg.tree.tableRefs s.l1Table c :=
    fun c => tableRefs_append n
  have total : ∀ c, ({ s with l1Table := s.l1Table ++ replicate n 0 } : Metadata).refs cfg c =
    s.refs cfg c := by
    intro c
    rw [refs, refs, tableRefs_eq, tableRefs_eq, dataRefs_eq, dataRefs_eq, data, table]
  refine ⟨⟨?_, ?_, ?_, ?_, ?_⟩, ?_, ?_, fun _ _ => rfl, ?_, fun _ later => .inl later,
    fun _ earlier => earlier.resolve_right id⟩
  · intro c
    rw [total]
    exact consistent.covered c
  · rw [total]
    exact consistent.header
  · intro i
    rw [Copied, l2At, word]
    exact consistent.copied i
  · intro i
    rw [l2At, word]
    exact consistent.tableAligned i
  · intro g
    rw [entries_zero, lookup]
    exact consistent.aligned g
  · intro c
    rw [total]
    rfl
  · intro g
    rw [entries_zero, lookup]
    rfl
  · intro c
    rw [dataRefs_eq, dataRefs_eq, data]

theorem growL1Table_rewrites (consistent : s.Consistent cfg [])
    (grown : growL1Table minSize s = (s₁, ret)) :
    Rewrites cfg [] sameEntries noneKept s s₁ ∧ (0 ≤ ret → minSize ≤ s₁.l1Table.length) := by
  rw [growL1Table] at grown
  split at grown
  next enough =>
    cases grown
    exact ⟨Rewrites.refl consistent, fun _ => enough⟩
  · dsimp only at grown
    split at grown
    · cases grown
      exact ⟨Rewrites.refl consistent, fun success => absurd success (by decide)⟩
    cases grown
    refine ⟨append_rewrites consistent _, fun _ => ?_⟩
    have size := le_bumpL1Size (Nat.le_max_right s.l1Table.length 1) (Nat.le_add_right minSize _)
    simp only [length_append, length_replicate]
    omega

/-- The table of an L1 entry in cluster `c`. -/
def moveTable (cfg : Config) (i c : Nat) (table : Nat → L2Entry) (s : Metadata) : Metadata :=
  { s with
    refcount := update s.refcount c 1
    l2 := update s.l2 (c * cfg.clusterSize) table
    l1Table := s.l1Table.set i (BitVec.ofNat 64 (c * cfg.clusterSize) ||| oflagCopied) }

/-- The cluster an L1 entry refers to. -/
def tableCluster (cfg : Config) (i : Nat) (s : Metadata) : List Nat :=
  if s.l2At i = 0 then [] else [s.l2At i / cfg.clusterSize]

section

variable {i c : Nat} {table : Nat → L2Entry} (consistent : s.Consistent cfg [])
  (inside : i < s.l1Table.length) (free : s.refcount c = 0) (nonzero : c ≠ 0)
  (fits : offsetField (BitVec.ofNat 64 (c * cfg.clusterSize)) = c * cfg.clusterSize)
  (contents : ∀ j < cfg.l2Size, table j = s.entries cfg 0 (i * cfg.l2Size + j))

include inside fits in
theorem moveTable_l2At (i' : Nat) :
    (moveTable cfg i c table s).l2At i' = if i' = i then c * cfg.clusterSize else s.l2At i' := by
  have target : cfg.tree.target (BitVec.ofNat 64 (c * cfg.clusterSize) ||| oflagCopied) =
    c * cfg.clusterSize :=
    (offsetField_or_copied _).trans fits
  have word : cfg.tree.tableAt (moveTable cfg i c table s).l1Table i' =
      if i' = i then _ else cfg.tree.tableAt s.l1Table i' := tableAt_set _ inside i'
  rw [target] at word
  exact word

include free in
theorem moveTable_refcount (c' : Nat) :
    (moveTable cfg i c table s).refcount c' = s.refcount c' + if c' = c then 1 else 0 := by
  rw [show (moveTable cfg i c table s).refcount = update s.refcount c 1 from rfl, update_apply]
  split
  next same => rw [same, free]
  · rfl

include inside in
theorem moveTable_copied : (moveTable cfg i c table s).Copied i := by
  simp only [Copied, moveTable, getD_eq_getElem?_getD, getElem?_set_self inside]
  exact or_copied_and_copied _

theorem copied_of_moveTable (other : i' ≠ i) (copied : (moveTable cfg i c table s).Copied i') :
    s.Copied i' := by
  rwa [Copied, moveTable, getD_eq_getElem?_getD, getElem?_set_ne (Ne.symm other)] at copied

include consistent free nonzero in
theorem moveTable_lookup_snapshot (snapshot : l1 ∈ s.snapshots) :
    cfg.tree.lookup l1 (moveTable cfg i c table s).l2 = cfg.tree.lookup l1 s.l2 :=
  lookup_update_unused _
    (consistent.unused_of_free free (Nat.pos_of_ne_zero nonzero) (mem_cons_of_mem _ snapshot))

include consistent inside free nonzero fits contents in
theorem moveTable_lookup : cfg.tree.lookup (moveTable cfg i c table s).l1Table
    (moveTable cfg i c table s).l2 = cfg.tree.lookup s.l1Table s.l2 := by
  have target : cfg.tree.target (BitVec.ofNat 64 (c * cfg.clusterSize) ||| oflagCopied) =
    c * cfg.clusterSize :=
    (offsetField_or_copied _).trans fits
  have unused := consistent.unused_of_free free (Nat.pos_of_ne_zero nonzero)
    (mem_cons_self : s.l1Table ∈ s.trees)
  have away : c * cfg.clusterSize ≠ 0 := Nat.mul_ne_zero nonzero cfg.clusterSize_pos.ne'
  rw [← target] at unused away
  have moved := lookup_move inside away unused contents
  rwa [target] at moved

include consistent inside free nonzero fits contents in
theorem moveTable_dataRefs (c' : Nat) :
    (moveTable cfg i c table s).dataRefs cfg c' = s.dataRefs cfg c' := by
  have snapshots : (s.snapshots.map fun l1 => cfg.tree.dataRefs l1 (moveTable cfg i c table s).l2 c') =
      s.snapshots.map fun l1 => cfg.tree.dataRefs l1 s.l2 c' :=
    map_congr_left fun l1 snapshot =>
      dataRefs_congr rfl (moveTable_lookup_snapshot consistent free nonzero snapshot)
  have length : (moveTable cfg i c table s).l1Table.length = s.l1Table.length := length_set ..
  rw [dataRefs_eq, dataRefs_eq, dataRefs_congr length
    (moveTable_lookup consistent inside free nonzero fits contents),
    show (moveTable cfg i c table s).snapshots = s.snapshots from rfl, snapshots]

include inside nonzero fits in
theorem moveTable_tableRefs (c' : Nat) :
    (moveTable cfg i c table s).tableRefs cfg c' + (tableCluster cfg i s).count c' =
      s.tableRefs cfg c' + if c' = c then 1 else 0 := by
  have unit : c * cfg.clusterSize / cfg.clusterSize = c := Nat.mul_div_cancel _ cfg.clusterSize_pos
  have away : c * cfg.clusterSize ≠ 0 := Nat.mul_ne_zero nonzero cfg.clusterSize_pos.ne'
  have words : cfg.tree.tableRefs (moveTable cfg i c table s).l1Table c' +
      (if cfg.tree.refersTo c' (s.l1Table.getD i 0) then 1 else 0) = cfg.tree.tableRefs s.l1Table
      c' + _ :=
    tableRefs_set _ inside
  have new : cfg.tree.refersTo c' (BitVec.ofNat 64 (c * cfg.clusterSize) ||| oflagCopied) =
    decide (c' = c) := by
    simp [TwoLevel.Shape.refersTo, Format.tree, offsetField_or_copied, fits, away, unit, eq_comm]
  have old : (if cfg.tree.refersTo c' (s.l1Table.getD i 0) then 1 else 0) =
    (tableCluster cfg i s).count c' := by
    rw [show cfg.tree.refersTo c' (s.l1Table.getD i 0) =
      decide (s.l2At i ≠ 0 ∧ s.l2At i / cfg.clusterSize = c') from rfl, tableCluster]
    by_cases none : s.l2At i = 0
    · simp [none]
    · simp [none, count_singleton]
  rw [new] at words
  rw [tableRefs_eq, tableRefs_eq, show (moveTable cfg i c table s).snapshots = s.snapshots from rfl]
  simp only [decide_eq_true_eq] at words
  omega

include consistent inside free nonzero fits contents in
/-- Moving a table to a free cluster keeps the mapping; the old cluster is to be released. -/
theorem moveTable_rewrites :
    Rewrites cfg (tableCluster cfg i s) sameEntries noneKept s (moveTable cfg i c table s) := by
  have account : ∀ c', (moveTable cfg i c table s).refs cfg c' + (tableCluster cfg i s).count c' =
      s.refs cfg c' + if c' = c then 1 else 0 := by
    intro c'
    have tables : (moveTable cfg i c table s).tableRefs cfg c' + _ = _ :=
      moveTable_tableRefs inside nonzero fits c'
    rw [refs, refs, moveTable_dataRefs consistent inside free nonzero fits contents]
    omega
  have lookup := moveTable_lookup consistent inside free nonzero fits contents
  refine ⟨⟨?_, ?_, ?_, ?_, ?_⟩, ?_, ?_, ?_, ?_, fun _ later => .inl later,
    fun _ earlier => earlier.resolve_right id⟩
  · intro c'
    have covered := consistent.covered c'
    rw [account, moveTable_refcount free]
    omega
  · have header := consistent.header
    rw [account, moveTable_refcount free]
    omega
  · intro i' copied
    rw [moveTable_l2At inside fits, moveTable_refcount free]
    by_cases same : i' = i
    · rw [if_pos same, Nat.mul_div_cancel _ cfg.clusterSize_pos, free]
      exact ⟨Nat.mul_ne_zero nonzero cfg.clusterSize_pos.ne', by simp⟩
    obtain ⟨used, once⟩ := consistent.copied i' (copied_of_moveTable same copied)
    have other : s.l2At i' / cfg.clusterSize ≠ c := by
      intro here
      rw [here, free] at once
      cases once
    rw [if_neg same, if_neg other]
    exact ⟨used, once⟩
  · intro i'
    rw [moveTable_l2At inside fits]
    split
    · exact Nat.mul_mod_left _ _
    · exact consistent.tableAligned i'
  · intro g
    rw [entries_zero, lookup]
    exact consistent.aligned g
  · intro c'
    have total := account c'
    rw [moveTable_refcount free]
    omega
  · intro g
    rw [entries_zero, lookup]
    rfl
  · exact entries_succ_congr rfl fun l1 => moveTable_lookup_snapshot consistent free nonzero
  · exact fun c' => (moveTable_dataRefs consistent inside free nonzero fits contents c').le

end

theorem l2Allocate_rewrites (consistent : s.Consistent cfg []) (inside : i < s.l1Table.length)
    (done : l2Allocate cfg alloc i s = .ok (s₁, ret)) :
    (ret < 0 ∧ Rewrites cfg [] sameEntries noneKept s s₁) ∨
      (0 ≤ ret ∧ s₁.Copied i ∧ Rewrites cfg (tableCluster cfg i s) sameEntries noneKept s s₁) := by
  rw [l2Allocate] at done
  have freed : Freed cfg [] s (if s.cacheDiscards then s.processDiscards 0 else s) := by
    split
    · exact freed_processDiscards
    · exact Freed.refl
  have processed := (Rewrites.refl consistent).release freed
  generalize (if s.cacheDiscards then s.processDiscards 0 else s) = s' at done freed processed
  cases allocated : alloc.allocCluster s'.refcount with
  | none =>
    rw [allocated] at done
    cases Except.ok.inj done
    exact .inl ⟨by decide, processed⟩
  | some c => ?_
  rw [allocated] at done
  dsimp only at done
  have free := alloc.free allocated
  have nonzero : c ≠ 0 := by
    rintro rfl
    have header := processed.consistent.header
    omega
  by_cases fits : offsetField (BitVec.ofNat 64 (c * cfg.clusterSize)) = c * cfg.clusterSize
  · rw [if_neg (not_not.mpr fits), if_neg (Nat.mul_ne_zero nonzero cfg.clusterSize_pos.ne')] at done
    cases Except.ok.inj done
    rw [← freed.l1Table] at inside
    have contents : ∀ j < cfg.l2Size, (if s'.l2At i = 0 then fun _ => ⟨0, 0⟩ else s'.l2 (s'.l2At i)) j =
        s'.entries cfg 0 (i * cfg.l2Size + j) := by
      intro j small
      rw [entries_row i small]
      split <;> rfl
    have moved := moveTable_rewrites processed.consistent inside free nonzero fits contents
    have owed : tableCluster cfg i s' = tableCluster cfg i s := by
      rw [tableCluster, tableCluster, freed.l2At]
    rw [owed] at moved
    exact .inr ⟨le_rfl, moveTable_copied inside, moved.after processed⟩
  · rw [if_pos fits] at done
    cases done

theorem getClusterTable_rewrites (consistent : s.Consistent cfg [])
    (done : getClusterTable cfg alloc guest s = .ok (s₁, ret, l2Offset)) :
    Rewrites cfg [] sameEntries noneKept s s₁ ∧
      (0 ≤ ret → s₁.Copied (guest / cfg.l2Size) ∧ l2Offset = s₁.l2At (guest / cfg.l2Size)) := by
  rw [getClusterTable] at done
  generalize grown : growL1Table (guest / cfg.l2Size + 1) s = result at done
  obtain ⟨s', ret'⟩ := result
  obtain ⟨growth, enough⟩ := growL1Table_rewrites consistent grown
  simp only at done
  by_cases failed : ret' < 0
  · rw [if_pos failed] at done
    cases Except.ok.inj done
    exact ⟨growth, fun success => absurd failed (by omega)⟩
  rw [if_neg failed] at done
  have inside : guest / cfg.l2Size < s'.l1Table.length := enough (by omega)
  have aligned : s'.l2At (guest / cfg.l2Size) % cfg.clusterSize = 0 :=
    growth.consistent.tableAligned (guest / cfg.l2Size)
  rw [if_neg (by simpa [l2At] using aligned)] at done
  by_cases shared : s'.l1Table.getD (guest / cfg.l2Size) 0 &&& oflagCopied = 0
  · rw [if_pos shared] at done
    obtain ⟨⟨s'', ret''⟩, allocated, done⟩ := Checked.bind_ok.mp done
    rcases l2Allocate_rewrites growth.consistent inside allocated with ⟨negative, copy⟩ |
      ⟨positive, copied, copy⟩
    · simp only [if_pos negative] at done
      cases Except.ok.inj done
      exact ⟨copy.after growth, fun success => absurd negative (by omega)⟩
    simp only [if_neg (not_lt.mpr positive)] at done
    obtain ⟨s₃, released, ⟨⟩⟩ := Checked.bind_ok.mp done
    have both := copy.after growth
    by_cases fresh : s'.l2At (guest / cfg.l2Size) = 0
    · have keep : ¬ offsetField (s'.l1Table.getD (guest / cfg.l2Size) 0) ≠ 0 := not_not.mpr fresh
      rw [if_neg keep] at released
      cases Except.ok.inj released
      rw [tableCluster, if_pos fresh] at both
      exact ⟨both, fun _ => ⟨copied, rfl⟩⟩
    · have old : offsetField (s'.l1Table.getD (guest / cfg.l2Size) 0) ≠ 0 := fresh
      rw [if_pos old] at released
      rw [tableCluster, if_neg fresh, ← cfg.clustersOf_cluster aligned] at both
      have freed := freeClusters_freed cfg.clusterSize_pos released both.owed_le
      exact ⟨both.release freed, fun _ => ⟨(freed.copied _).mpr copied, rfl⟩⟩
  · rw [if_neg shared] at done
    cases Except.ok.inj done
    exact ⟨growth, fun _ => ⟨shared, rfl⟩⟩

end Metadata

end Qemu.Qcow2
