import Qemu.Lib.TwoLevel
import Qemu.Qcow2.Metadata

namespace Qemu.Qcow2

open List Nat TwoLevel

namespace Format

variable (fmt : Format)

theorem clusterSize_pos : 0 < fmt.clusterSize := Nat.two_pow_pos _

theorem l2Size_pos : 0 < fmt.l2Size := Nat.two_pow_pos _

/-- The clusters that a non-empty range of the file touches. -/
def clustersOf (offset length : Nat) : List Nat :=
  range' (offset / fmt.clusterSize)
    ((offset + length - 1) / fmt.clusterSize + 1 - offset / fmt.clusterSize)

/-- The host clusters that an L2 entry refers to. -/
def entryClusters (l2Entry : BitVec 64) : List Nat :=
  match fmt.getClusterType l2Entry with
  | .compressed =>
    fmt.clustersOf (fmt.parseCompressedL2Entry l2Entry).1 (fmt.parseCompressedL2Entry l2Entry).2
  | .normal | .zeroAlloc => [offsetField l2Entry / fmt.clusterSize]
  | .zeroPlain | .unallocated => []

@[simp] theorem entryClusters_zero : fmt.entryClusters 0#64 = [] := by
  simp [entryClusters, getClusterType]

/-- L1 tables over L2 tables. -/
def tree : TwoLevel.Shape (BitVec 64) L2Entry where
  target := offsetField
  empty := 0
  target_empty := by simp [offsetField]
  size := fmt.l2Size
  size_pos := Nat.two_pow_pos _
  blank := ⟨0, 0⟩
  weight e c := (fmt.entryClusters e.entry).count c
  weight_blank := by simp
  unit := fmt.clusterSize

theorem clustersOf_cluster (aligned : offset % fmt.clusterSize = 0) :
    fmt.clustersOf offset fmt.clusterSize = [offset / fmt.clusterSize] := by
  have positive := fmt.clusterSize_pos
  obtain ⟨c, rfl⟩ := dvd_of_mod_eq_zero aligned
  have last : (fmt.clusterSize * c + fmt.clusterSize - 1) / fmt.clusterSize = c := by
    rw [Nat.add_sub_assoc positive, mul_add_div positive, div_eq_of_lt (by omega), Nat.add_zero]
  rw [clustersOf, last, Nat.mul_div_cancel_left _ positive]
  simp

end Format

namespace Metadata

variable (cfg : Config) (s : Metadata)

def trees : List (List (BitVec 64)) := s.l1Table :: s.snapshots

/-- The L2 entry of a guest cluster in a tree; tree 0 is the active one. -/
def entries (k g : Nat) : L2Entry := cfg.tree.lookup (s.trees.getD k []) s.l2 g

def tableRefs (c : Nat) : Nat := (s.trees.map fun l1 => cfg.tree.tableRefs l1 c).sum

def dataRefs (c : Nat) : Nat := (s.trees.map fun l1 => cfg.tree.dataRefs l1 s.l2 c).sum

/-- The references to a cluster from all L1 and L2 tables. -/
def refs (c : Nat) : Nat := s.tableRefs cfg c + s.dataRefs cfg c

/-- The bytes that were passed to `bdrv_pdiscard` or will be. -/
def Discarding (byte : Nat) : Prop := Covered s.discards byte ∨ Covered s.pdiscards byte

def l2At (i : Nat) : Nat := offsetField (s.l1Table.getD i 0)

def Copied (i : Nat) : Prop := s.l1Table.getD i 0 &&& oflagCopied ≠ 0

instance (i : Nat) : Decidable (s.Copied i) := inferInstanceAs (Decidable (_ ≠ _))

/-- The refcounts cover the references, the clusters in `owed` once more than that; cluster 0
holds the header. -/
structure Consistent (owed : List Nat) : Prop where
  covered : ∀ c, s.refs cfg c + owed.count c ≤ s.refcount c
  header : s.refs cfg 0 + owed.count 0 < s.refcount 0
  copied : ∀ i, s.Copied i → s.l2At i ≠ 0 ∧ s.refcount (s.l2At i / cfg.clusterSize) = 1
  tableAligned : ∀ i, s.l2At i % cfg.clusterSize = 0
  aligned : ∀ g, cfg.getClusterType (s.entries cfg 0 g).entry ≠ .compressed →
    offsetField (s.entries cfg 0 g).entry % cfg.clusterSize = 0

variable {cfg} {s}

theorem entries_zero (g : Nat) : s.entries cfg 0 g = cfg.tree.lookup s.l1Table s.l2 g := rfl

theorem entries_succ (k g : Nat) :
    s.entries cfg (k + 1) g = cfg.tree.lookup (s.snapshots.getD k []) s.l2 g := rfl

theorem entries_row (i : Nat) (small : j < cfg.l2Size) :
    s.entries cfg 0 (i * cfg.l2Size + j) = if s.l2At i = 0 then ⟨0, 0⟩ else s.l2 (s.l2At i) j := by
  have row : (i * cfg.l2Size + j) / cfg.l2Size = i := by
    rw [mul_comm, mul_add_div cfg.l2Size_pos, div_eq_of_lt small, add_zero]
  have column : (i * cfg.l2Size + j) % cfg.l2Size = j := by
    rw [mul_comm, mul_add_mod, mod_eq_of_lt small]
  rw [entries_zero, TwoLevel.Shape.lookup, show cfg.tree.size = cfg.l2Size from rfl, row, column]
  rfl

theorem tableRefs_eq (c : Nat) : s.tableRefs cfg c = cfg.tree.tableRefs s.l1Table c +
    (s.snapshots.map fun l1 => cfg.tree.tableRefs l1 c).sum := rfl

theorem dataRefs_eq (c : Nat) : s.dataRefs cfg c = cfg.tree.dataRefs s.l1Table s.l2 c +
    (s.snapshots.map fun l1 => cfg.tree.dataRefs l1 s.l2 c).sum := rfl

theorem le_sum_map {f : List (BitVec 64) → Nat} {l1 : List (BitVec 64)}
    {roots : List (List (BitVec 64))} (member : l1 ∈ roots) : f l1 ≤ (roots.map f).sum :=
  single_le_sum (fun _ _ => zero_le _) _ (mem_map_of_mem member)

/-- The entries of the snapshots do not change if no L1 table of theirs sees a change. -/
theorem entries_succ_congr {s' : Metadata} (roots : s'.snapshots = s.snapshots)
    (same : ∀ l1 ∈ s.snapshots, cfg.tree.lookup l1 s'.l2 = cfg.tree.lookup l1 s.l2) (k g : Nat) :
    s'.entries cfg (k + 1) g = s.entries cfg (k + 1) g := by
  rw [entries_succ, entries_succ, roots]
  by_cases snapshot : k < s.snapshots.length
  · rw [getD_eq_getElem _ _ snapshot, same _ (getElem_mem snapshot)]
  · rw [getD_eq_default _ _ (Nat.le_of_not_lt snapshot), lookup_of_length_le (by simp),
      lookup_of_length_le (by simp)]

theorem count_le_dataRefs (k g c : Nat) :
    (cfg.entryClusters (s.entries cfg k g).entry).count c ≤ s.dataRefs cfg c := by
  by_cases inside : k < s.trees.length
  · have tree : s.trees.getD k [] ∈ s.trees := by
      rw [getD_eq_getElem _ _ inside]
      exact getElem_mem inside
    exact (weight_le_dataRefs cfg.tree _ _ g c).trans
      (le_sum_map (f := fun l1 => cfg.tree.dataRefs l1 s.l2 c) tree)
  · have none : s.trees.getD k [] = [] := getD_eq_default _ _ (Nat.le_of_not_lt inside)
    have blank : s.entries cfg k g = ⟨0, 0⟩ := by
      rw [entries, none]
      exact lookup_of_length_le (by simp)
    simp [blank]

theorem tableRefs_pos (tree : l1 ∈ s.trees)
    (used : cfg.tree.tableAt l1 i ≠ 0) : 0 < s.tableRefs cfg (cfg.tree.tableAt l1 i / cfg.clusterSize) :=
  lt_of_lt_of_le (TwoLevel.tableRefs_pos used)
    (le_sum_map (f := fun l1 => cfg.tree.tableRefs l1 (cfg.tree.tableAt _ i / cfg.clusterSize)) tree)

namespace Consistent

variable {owed : List Nat} (consistent : s.Consistent cfg owed)

include consistent

theorem tableRefs_le (c : Nat) : s.tableRefs cfg c ≤ s.refcount c := by
  have covered := consistent.covered c
  rw [refs] at covered
  omega

/-- No L1 table has an L2 table in a free cluster. -/
theorem unused_of_free (free : s.refcount c = 0) (positive : 0 < c) (tree : l1 ∈ s.trees)
    (i : Nat) : cfg.tree.tableAt l1 i ≠ c * cfg.clusterSize := by
  intro here
  have nonzero : cfg.tree.tableAt l1 i ≠ 0 := by
    rw [here]
    exact (mul_pos positive cfg.clusterSize_pos).ne'
  have counted := tableRefs_pos tree nonzero
  rw [here, Nat.mul_div_cancel _ cfg.clusterSize_pos] at counted
  have bound := consistent.tableRefs_le c
  omega

/-- The L2 table of a `COPIED` L1 entry belongs to that entry alone. -/
theorem alone (copied : s.Copied i) :
    (∀ i', cfg.tree.tableAt s.l1Table i' = s.l2At i → i' = i) ∧
      ∀ l1 ∈ s.snapshots, ∀ i', cfg.tree.tableAt l1 i' ≠ s.l2At i := by
  obtain ⟨nonzero, once⟩ := consistent.copied i copied
  have bound := consistent.tableRefs_le (s.l2At i / cfg.clusterSize)
  rw [tableRefs_eq] at bound
  constructor
  · intro i' same
    have active : cfg.tree.tableRefs s.l1Table (s.l2At i / cfg.clusterSize) ≤ 1 := by omega
    have used : cfg.tree.tableAt s.l1Table i ≠ 0 := nonzero
    exact eq_of_tableRefs_le_one active used rfl (same ▸ nonzero)
      (congrArg (· / cfg.clusterSize) same)
  · intro l1 snapshot i' same
    have active : 0 < cfg.tree.tableRefs s.l1Table (s.l2At i / cfg.clusterSize) :=
      TwoLevel.tableRefs_pos nonzero
    have here : 0 < cfg.tree.tableRefs l1 (cfg.tree.tableAt l1 i' / cfg.clusterSize) :=
      TwoLevel.tableRefs_pos (same ▸ nonzero)
    have there := le_sum_map (f := fun l1 => cfg.tree.tableRefs l1 (s.l2At i / cfg.clusterSize)) snapshot
    rw [same] at here
    omega

end Consistent

end Metadata

end Qemu.Qcow2
