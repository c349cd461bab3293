import Qemu.Block.Limits
import Qemu.Util.HBitmapOps

/-! Which cluster sizes a block-copy state is made with, and what becomes of them in the copy
path. -/

namespace Qemu.BlockCopy

open Block

inductive BlockCopyMethod where
  | copyReadWriteCluster
  | copyReadWrite
  | copyWriteZeroes
  | copyRangeSmall
  | copyRangeFull
  deriving DecidableEq, Repr

inductive Assertion where
  | granularity
  | bitmap
  | method
  | bounds
  | offsetAligned
  | bytesAligned
  | inside
  | tail
  | size
  deriving DecidableEq, Repr

structure BlockCopyState where
  clusterSize : Nat
  maxTransfer : Nat
  len : Nat
  method : BlockCopyMethod
  deriving DecidableEq

inductive InfoError where
  | notSup
  | other

/-- What `block_copy_state_new` asks of its nodes: the target's cluster size is a power of two in an
`int`, and a length is at most `BDRV_MAX_LENGTH`. -/
structure Nodes where
  targetInfo : Except InfoError (Fin 31)
  targetDoesCow : Bool
  sourceMaxTransfer : BitVec 32
  targetMaxTransfer : BitVec 32
  length : Option (Fin (bdrvMaxLength + 1))
  merges : Bool

def isPowerOf2 (value : Nat) : Bool := value ≠ 0 && value &&& (value - 1) = 0

def blockCopyClusterSizeDefault : Nat := 2 ^ 16

def blockCopyMaxBuffer : Nat := 2 ^ 20

def blockCopyMaxCopyRange : Nat := 2 ^ 24

def blockCopyChunkSize (s : BlockCopyState) : Except Assertion Nat :=
  match s.method with
  | .copyReadWriteCluster => .ok s.clusterSize
  | .copyReadWrite | .copyRangeSmall => .ok (min (max s.clusterSize blockCopyMaxBuffer) s.maxTransfer)
  | .copyRangeFull => .ok (min (max s.clusterSize blockCopyMaxCopyRange) s.maxTransfer)
  | .copyWriteZeroes => .error .method

def blockCopyMaxTransfer (nodes : Nodes) : Nat :=
  minNonZero intMax (minNonZero nodes.sourceMaxTransfer.toNat nodes.targetMaxTransfer.toNat)

def blockCopySetCopyOpts (useCopyRange compress : Bool) (s : BlockCopyState) : BlockCopyState :=
  { s with
    method :=
      if s.maxTransfer < s.clusterSize then .copyReadWriteCluster
      else if compress then .copyReadWriteCluster
      else if useCopyRange then .copyRangeSmall else .copyReadWrite }

def blockCopyCalculateClusterSize (nodes : Nodes) (minClusterSize : Nat) : Option Nat :=
  let minClusterSize := max minClusterSize blockCopyClusterSizeDefault
  match nodes.targetInfo, nodes.targetDoesCow with
  | .error .notSup, false => some minClusterSize
  | .error _, false => none
  | .error _, true => some minClusterSize
  | .ok bits, _ => some (max minClusterSize (2 ^ bits.val))

/-- The granularity is a `uint32_t`; what is returned is the size of the bitmap. -/
def bdrvCreateDirtyBitmap (nodes : Nodes) (granularity : BitVec 32) : Except Assertion (Option Nat) :=
  if ¬ (isPowerOf2 granularity.toNat = true ∧ granularity.toNat ≥ 512) then .error .granularity
  else match nodes.length with
    | none => .ok none
    | some len => match HBitmap.alloc len granularity.ctz.toNat with
      | none => .error .bitmap
      | some _ => .ok (some len)

/-- The cluster size, if the checks of the requested one pass. -/
def requestedClusterSize (nodes : Nodes) (minClusterSize : BitVec 64) : Option Nat :=
  if minClusterSize.toNat > 2 ^ 63 - 1 then none
  else if minClusterSize ≠ 0 ∧ isPowerOf2 minClusterSize.toNat = false then none
  else blockCopyCalculateClusterSize nodes minClusterSize.toNat

def blockCopyStateNew (nodes : Nodes) (minClusterSize : BitVec 64) :
    Except Assertion (Option BlockCopyState) :=
  match requestedClusterSize nodes minClusterSize with
  | none => .ok none
  | some clusterSize => (bdrvCreateDirtyBitmap nodes (BitVec.ofNat 32 clusterSize)).map fun
    | none => none
    | some len => if nodes.merges = false then none else some (blockCopySetCopyOpts false false
      ⟨clusterSize, alignDown (blockCopyMaxTransfer nodes) clusterSize, len, .copyReadWriteCluster⟩)

/-- The assertions before anything is copied. -/
def blockCopyDoCopy (s : BlockCopyState) (offset bytes : Nat) : Except Assertion Unit :=
  let nbytes := min (offset + bytes) s.len - offset
  if ¬ (bytes > 0 ∧ 2 ^ 63 - 1 - offset ≥ bytes) then .error .bounds
  else if offset % s.clusterSize ≠ 0 then .error .offsetAligned
  else if bytes % s.clusterSize ≠ 0 then .error .bytesAligned
  else if ¬ offset < s.len then .error .inside
  else if ¬ (offset + bytes ≤ s.len ∨ offset + bytes = roundUp s.len s.clusterSize) then .error .tail
  else if ¬ nbytes < intMax then .error .size
  else .ok ()

/-- A task for a part of the image: `copy_range` may be extended or given up while the job runs. -/
structure Task (s : BlockCopyState) (offset bytes : Nat) : Prop where
  offsetAligned : s.clusterSize ∣ offset
  bytesAligned : s.clusterSize ∣ bytes
  nonempty : 0 < bytes
  inside : offset < s.len
  tail : offset + bytes ≤ roundUp s.len s.clusterSize
  chunk : ∃ useCopyRange compress method size, let s := blockCopySetCopyOpts useCopyRange compress s
    (method = s.method ∨ s.method ≠ .copyReadWriteCluster ∧ method ≠ .copyReadWriteCluster) ∧
    blockCopyChunkSize { s with method } = .ok size ∧ bytes ≤ size

theorem isPowerOf2_two_pow (k : Nat) : isPowerOf2 (2 ^ k) = true := by
  have positive := Nat.two_pow_pos k
  simp [isPowerOf2, Nat.and_two_pow_sub_one_eq_mod]

theorem exists_two_pow (power : isPowerOf2 value = true) : ∃ k, value = 2 ^ k := by
  simp only [isPowerOf2, Bool.and_eq_true, decide_eq_true_eq] at power
  exact (Nat.and_sub_one_eq_zero_iff_isPowerOfTwo power.1).mp power.2

theorem max_two_pow (j k : Nat) : max (2 ^ j) (2 ^ k) = 2 ^ max j k := by
  rcases le_total j k with le | le
  · rw [max_eq_right le, max_eq_right (Nat.pow_le_pow_right two_pos le)]
  · rw [max_eq_left le, max_eq_left (Nat.pow_le_pow_right two_pos le)]

/-- The cluster size of the target, 0 if it gives none. -/
def Nodes.targetCluster (nodes : Nodes) : Nat :=
  match nodes.targetInfo with
  | .ok bits => 2 ^ bits.val
  | .error _ => 0

/-- A requested size or a target that is answered with an error. -/
def Refused (nodes : Nodes) (minClusterSize : BitVec 64) : Prop :=
  2 ^ 63 ≤ minClusterSize.toNat ∨ (minClusterSize.toNat ≠ 0 ∧ ∀ k, minClusterSize.toNat ≠ 2 ^ k) ∨
    (nodes.targetInfo = .error .other ∧ nodes.targetDoesCow = false)

theorem requestedClusterSize_refused (refused : Refused nodes minClusterSize) :
    requestedClusterSize nodes minClusterSize = none := by
  unfold requestedClusterSize
  split_ifs with large odd
  · rfl
  · rfl
  rcases refused with large' | ⟨nonzero, odd'⟩ | ⟨error, plain⟩
  · omega
  · refine absurd ⟨fun zero => nonzero (by rw [zero]; rfl), Bool.eq_false_iff.mpr fun power => ?_⟩ odd
    obtain ⟨k, same⟩ := exists_two_pow power
    exact odd' k same
  · simp [blockCopyCalculateClusterSize, error, plain]

theorem requestedClusterSize_accepted (accepted : ¬ Refused nodes minClusterSize) :
    requestedClusterSize nodes minClusterSize =
      some (max (max minClusterSize.toNat blockCopyClusterSizeDefault) nodes.targetCluster) := by
  simp only [Refused, not_or, not_le, not_and, not_forall, not_not] at accepted
  obtain ⟨small, power, known⟩ := accepted
  unfold requestedClusterSize
  rw [if_neg (by omega), if_neg]
  · unfold blockCopyCalculateClusterSize Nodes.targetCluster
    rcases info : nodes.targetInfo with (_ | _) | bits <;> cases cow : nodes.targetDoesCow <;> simp_all
  · rintro ⟨nonzero, odd⟩
    obtain ⟨k, same⟩ := power fun zero => nonzero (BitVec.eq_of_toNat_eq zero)
    rw [same, isPowerOf2_two_pow] at odd
    exact Bool.noConfusion odd

/-- A cluster size that is accepted is a power of two, and 2 GiB or more only if that much was
requested. -/
theorem accepted_power (accepted : ¬ Refused nodes minClusterSize) : ∃ k, 16 ≤ k ∧
    max (max minClusterSize.toNat blockCopyClusterSizeDefault) nodes.targetCluster = 2 ^ k ∧
    (minClusterSize.toNat ≤ 2 ^ 31 ↔ k < 32) ∧ (minClusterSize.toNat = 2 ^ 31 ↔ k = 31) := by
  obtain ⟨j, large, floor, below, two⟩ : ∃ j, 16 ≤ j ∧
      max minClusterSize.toNat blockCopyClusterSizeDefault = 2 ^ j ∧
      (minClusterSize.toNat ≤ 2 ^ 31 ↔ j < 32) ∧ (minClusterSize.toNat = 2 ^ 31 ↔ j = 31) := by
    by_cases zero : minClusterSize.toNat = 0
    · exact ⟨16, le_rfl, by rw [zero]; rfl, by omega, by omega⟩
    obtain ⟨i, same⟩ : ∃ i, minClusterSize.toNat = 2 ^ i := by
      by_contra! odd
      exact accepted (.inr (.inl ⟨zero, odd⟩))
    have le : 2 ^ i ≤ 2 ^ 31 ↔ i ≤ 31 := Nat.pow_le_pow_iff_right one_lt_two
    have eq : 2 ^ i = 2 ^ 31 ↔ i = 31 := Nat.pow_right_inj (by norm_num)
    rw [same]
    exact ⟨max i 16, le_max_right _ _, max_two_pow i 16, by omega, by omega⟩
  rw [floor, Nodes.targetCluster]
  split
  next bits _ =>
    have small := bits.isLt
    exact ⟨max j bits, by omega, max_two_pow _ _, by omega, by omega⟩
  · exact ⟨j, large, Nat.max_zero _, below, two⟩

theorem ctz_two_pow : ∀ k : Fin 32, (BitVec.ofNat 32 (2 ^ k.val)).ctz.toNat = k.val := by decide +kernel

theorem groups_le_iff : HBitmap.groups len k ≤ 2 ^ 41 ↔ len ≤ 2 ^ 41 * 2 ^ k := by
  have positive := Nat.two_pow_pos k
  rw [HBitmap.groups, Nat.div_le_iff_le_mul_add_pred positive]
  omega

theorem alloc_none_iff {len : Fin (bdrvMaxLength + 1)} (small : k < 32) :
    HBitmap.alloc len k = none ↔ ¬ len.val ≤ 2 ^ 41 * 2 ^ k := by
  have short : len.val < 2 ^ 63 := len.isLt.trans (by decide)
  rw [← groups_le_iff, ← Option.not_isSome_iff_eq_none, HBitmap.alloc_isSome_iff]
  exact not_congr ⟨fun made => made.2.2, fun bounded => ⟨short, by omega, bounded⟩⟩

/-- The copy bitmap of a cluster size below 4 GiB exists if it has at most `2 ^ 41` bits. -/
theorem bdrvCreateDirtyBitmap_two_pow (large : 16 ≤ k) (small : k < 32) :
    bdrvCreateDirtyBitmap nodes (BitVec.ofNat 32 (2 ^ k)) = match nodes.length with
      | none => .ok none
      | some len => if len.val ≤ 2 ^ 41 * 2 ^ k then .ok (some len) else .error .bitmap := by
  have sector : 2 ^ 9 ≤ 2 ^ k := Nat.pow_le_pow_right two_pos (by omega)
  have zeros : (BitVec.ofNat 32 (2 ^ k)).ctz.toNat = k := ctz_two_pow ⟨k, small⟩
  unfold bdrvCreateDirtyBitmap
  rw [BitVec.toNat_ofNat, Nat.mod_eq_of_lt (Nat.pow_lt_pow_right one_lt_two small),
    if_neg (not_not.mpr ⟨isPowerOf2_two_pow k, sector⟩), zeros]
  cases nodes.length with
  | none => rfl
  | some len => ?_
  have refused := @alloc_none_iff k len small
  by_cases fits : len.val ≤ 2 ^ 41 * 2 ^ k
  · obtain ⟨hb, made⟩ := Option.ne_none_iff_exists'.mp fun no => refused.mp no fits
    simp only [made, if_pos fits]
  · simp only [refused.mpr fits, if_neg fits]

theorem bdrvCreateDirtyBitmap_wide (wide : 32 ≤ k) :
    bdrvCreateDirtyBitmap nodes (BitVec.ofNat 32 (2 ^ k)) = .error .granularity := by
  have wraps : 2 ^ k % 2 ^ 32 = 0 := Nat.mod_eq_zero_of_dvd (Nat.pow_dvd_pow 2 wide)
  unfold bdrvCreateDirtyBitmap
  rw [BitVec.toNat_ofNat, wraps, if_pos (by decide)]

variable {s : BlockCopyState} {offset bytes : Nat}

theorem chunkSize_le (chunk : blockCopyChunkSize s = .ok size) :
    size ≤ max s.clusterSize s.maxTransfer := by
  unfold blockCopyChunkSize at chunk
  split at chunk <;> cases chunk
  · exact le_max_left _ _
  all_goals exact (min_le_right _ _).trans (le_max_right _ _)

theorem Task.doCopy (task : Task s offset bytes) (last : roundUp s.len s.clusterSize < 2 ^ 63)
    (short : min (offset + bytes) s.len - offset < intMax) : blockCopyDoCopy s offset bytes = .ok () := by
  have tail := task.tail
  have whole : offset + bytes ≤ s.len ∨ offset + bytes = roundUp s.len s.clusterSize := by
    refine or_iff_not_imp_left.mpr fun beyond => le_antisymm tail ?_
    have positive := Nat.pos_of_dvd_of_pos task.bytesAligned task.nonempty
    exact roundUp_le positive (dvd_add task.offsetAligned task.bytesAligned) (by omega)
  have bounds : bytes > 0 ∧ 2 ^ 63 - 1 - offset ≥ bytes := ⟨task.nonempty, by omega⟩
  unfold blockCopyDoCopy
  simp only [Nat.mod_eq_zero_of_dvd task.offsetAligned, Nat.mod_eq_zero_of_dvd task.bytesAligned,
    task.inside, whole, short, bounds, and_self, not_true_eq_false, ne_eq, if_false]

variable (large : 16 ≤ k) (cluster : s.clusterSize = 2 ^ k) (transfer : s.maxTransfer ≤ intMax)

include large cluster transfer in
/-- Up to 1 GiB a chunk ends before `INT_MAX`, since it is even. -/
theorem Task.short (task : Task s offset bytes) (small : k ≤ 30) : bytes < intMax := by
  obtain ⟨useCopyRange, compress, method, size, -, chunk, le⟩ := task.chunk
  have bound := le.trans (chunkSize_le chunk)
  have even : 2 ∣ bytes := (Dvd.intro_left _ (Nat.pow_succ ..).symm : 2 ∣ 2 ^ (k - 1 + 1)).trans
    (by simpa [cluster, Nat.sub_add_cancel (by omega : 1 ≤ k)] using task.bytesAligned)
  have top : 2 ^ k ≤ 2 ^ 30 := Nat.pow_le_pow_right two_pos small
  simp only [blockCopySetCopyOpts, cluster] at bound
  unfold intMax at *
  omega

include cluster transfer in
/-- The first cluster of 2 GiB is a chunk of its own. -/
theorem Task.first (two : k = 31) (long : intMax ≤ s.len) : Task s 0 (2 ^ 31) where
  offsetAligned := dvd_zero _
  bytesAligned := by rw [cluster, two]
  nonempty := by norm_num
  inside := lt_of_lt_of_le (by decide) long
  tail := by
    have above := le_roundUp s.len (cluster ▸ Nat.two_pow_pos k)
    have positive : 0 < roundUp s.len s.clusterSize := above.trans_lt' (lt_of_lt_of_le (by decide) long)
    simpa [cluster, two] using Nat.le_of_dvd positive (roundUp_dvd s.len s.clusterSize)
  chunk := by
    have below : s.maxTransfer < s.clusterSize := by
      rw [cluster, two]
      exact transfer.trans_lt (by decide)
    refine ⟨false, false, _, s.clusterSize, Or.inl rfl, ?_, (cluster.trans (two ▸ rfl)).ge⟩
    simp [blockCopySetCopyOpts, blockCopyChunkSize, below]

/-- Every chunk of every task passes the assertions of the copy path. -/
def Copies (s : BlockCopyState) : Prop := ∀ offset bytes, Task s offset bytes →
    blockCopyDoCopy s offset bytes = .ok ()

include large cluster transfer in
theorem copies_iff (small : k < 32) (length : s.len ≤ bdrvMaxLength) : Copies s ↔ k ≤ 30 ∨
    s.len < intMax := by
  constructor
  · intro copies
    by_contra! large
    have two : k = 31 := by omega
    have copied := copies 0 (2 ^ 31) (Task.first cluster transfer two large.2)
    have size : ¬ min (0 + 2 ^ 31) s.len - 0 < intMax := by
      unfold intMax at *
      omega
    simp only [blockCopyDoCopy, size, not_false_eq_true, if_true] at copied
    split_ifs at copied
  · intro fits offset bytes task
    refine task.doCopy ?_ ?_
    · rcases fits with low | short
      · have unit : 2 ^ k ∣ bdrvMaxLength := (Nat.pow_dvd_pow 2 low).trans (by decide)
        have last := roundUp_le (Nat.two_pow_pos k) unit length
        rw [cluster]
        exact last.trans_lt (by decide)
      · have unit : 2 ^ k ∣ 2 ^ 31 := Nat.pow_dvd_pow 2 (by omega)
        have last := roundUp_le (Nat.two_pow_pos k) unit (short.le.trans (by decide))
        rw [cluster]
        exact last.trans_lt (by decide)
    · rcases fits with low | short
      · have few := task.short large cluster transfer low
        omega
      · omega

/-- A state is made, or an error reported, and the copy path accepts what the state gives it. -/
def Usable (nodes : Nodes) (minClusterSize : BitVec 64) : Prop :=
  ∃ created, blockCopyStateNew nodes minClusterSize = .ok created ∧ ∀ s, created = some s → Copies s

theorem maxTransfer_le (nodes : Nodes) : blockCopyMaxTransfer nodes ≤ intMax := by
  unfold blockCopyMaxTransfer minNonZero
  split_ifs <;> first | exact le_rfl | exact min_le_left _ _ | contradiction

/-- A request that is not answered with an error is usable exactly if it is for at most 2 GiB, the
clusters are large enough for the image's bitmap, and at 2 GiB the image ends before `INT_MAX`. -/
theorem usable_iff (nodes : Nodes) (minClusterSize : BitVec 64) :
    Usable nodes minClusterSize ↔ Refused nodes minClusterSize ∨
      minClusterSize.toNat ≤ 2 ^ 31 ∧ ∀ len, nodes.length = some len →
        len.val ≤ 2 ^ 41 * max (max minClusterSize.toNat (2 ^ 16)) nodes.targetCluster ∧
          (minClusterSize.toNat = 2 ^ 31 → nodes.merges = true → len.val < intMax) := by
  unfold Usable blockCopyStateNew
  by_cases refused : Refused nodes minClusterSize
  · simp [requestedClusterSize_refused refused, refused]
  obtain ⟨k, large, cluster, giga, two⟩ := accepted_power refused
  rw [requestedClusterSize_accepted refused, or_iff_right refused, giga, two]
  rw [blockCopyClusterSizeDefault] at cluster
  rw [show blockCopyClusterSizeDefault = 2 ^ 16 from rfl, cluster]
  by_cases small : k < 32
  · simp only [bdrvCreateDirtyBitmap_two_pow large small, small, true_and]
    cases length : nodes.length with
    | none => simp [Except.map]
    | some len => ?_
    by_cases fits : len.val ≤ 2 ^ 41 * 2 ^ k
    · simp only [fits, if_true, Except.map, Except.ok.injEq, exists_eq_left', Option.some.injEq,
        forall_eq', true_and]
      cases merges : nodes.merges with
      | false => simp
      | true => ?_
      have below := (alignDown_le (blockCopyMaxTransfer nodes) (2 ^ k)).trans (maxTransfer_le nodes)
      simp only [Bool.true_eq_false, if_false, Option.some.injEq, forall_eq', forall_const]
      rw [copies_iff large rfl below small (Nat.lt_succ_iff.mp len.isLt)]
      simp only [blockCopySetCopyOpts]
      clear fits
      omega
    · simp only [Option.some.injEq, forall_eq', fits, if_false, Except.map, reduceCtorEq, false_and,
        exists_false]
  · simp only [bdrvCreateDirtyBitmap_wide (not_lt.mp small)]
    simp [small, Except.map]

/-- The granularity of the copy bitmap is the cluster size in 32 bits, a cluster of 2 GiB is one
chunk, and an image of `2 ^ 58` bytes has more clusters of 64 KiB than a bitmap has bits. -/
theorem usable_four_gib : ¬ Usable ⟨.ok 16, false, 0, 0, some 0, true⟩ 0x100000000 ∧
    ¬ Usable ⟨.ok 16, false, 0, 0, some ⟨2 ^ 31, by decide⟩, true⟩ 0x80000000 ∧
    ¬ Usable ⟨.ok 16, false, 0, 0, some ⟨2 ^ 58, by decide⟩, true⟩ 0 := by
  refine ⟨?_, ?_, ?_⟩
  · rintro ⟨created, same, -⟩
    contradiction
  · have made : blockCopyStateNew ⟨.ok 16, false, 0, 0, some ⟨2 ^ 31, by decide⟩, true⟩ 0x80000000 =
        .ok (some ⟨2 ^ 31, 0, 2 ^ 31, .copyReadWriteCluster⟩) := by decide +kernel
    rintro ⟨created, same, copies⟩
    cases made.symm.trans same
    have copied := copies _ rfl 0 (2 ^ 31) (Task.first (k := 31) rfl (by decide) rfl (by decide))
    exact absurd copied (by decide)
  · have stopped : blockCopyStateNew ⟨.ok 16, false, 0, 0, some ⟨2 ^ 58, by decide⟩, true⟩ 0 =
        .error .bitmap := by decide +kernel
    rintro ⟨created, same, -⟩
    cases stopped.symm.trans same

end Qemu.BlockCopy
