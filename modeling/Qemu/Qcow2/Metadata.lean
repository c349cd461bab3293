import Qemu.Qcow2.DiscardQueue
import Qemu.Qcow2.L2Entry

/-! The mapping metadata of an image: L1 tables, L2 tables and refcounts, and the functions
that change them.  The metadata caches are transparent, I/O does not fail, and the refcount
blocks of clusters in use exist. -/

namespace Qemu.Qcow2

open Function

structure Config extends Format where
  version : Nat
  refcountMax : Nat
  /-- the image has a backing file -/
  backing : Bool
  /-- the length of the image in bytes -/
  imageSize : Nat
  discardNoUnref : Bool
  discardPassthrough : DiscardType → Bool
  never : discardPassthrough .never = false
  noUnrefVersion : discardNoUnref = true → 3 ≤ version
  subclusterVersion : hasSubclusters = true → 3 ≤ version

/-- `l2` holds the L2 tables by their offset, `refcount` the refcounts by cluster;
`pdiscards` is what was passed to `bdrv_pdiscard`. -/
structure Metadata where
  l1Table : List (BitVec 64)
  snapshots : List (List (BitVec 64))
  l2 : Nat → Nat → L2Entry
  refcount : Nat → Nat
  cacheDiscards : Bool
  discards : List DiscardRegion
  pdiscards : List DiscardRegion

/-- The allocation of one cluster: the cluster it returns, given the refcounts, or `none` if it
fails.  `bounded` is the check against `QCOW_MAX_CLUSTER_OFFSET`. -/
structure Allocator (fmt : Format) where
  allocCluster : (Nat → Nat) → Option Nat
  free : allocCluster refcount = some c → refcount c = 0
  bounded : allocCluster refcount = some c → c * fmt.clusterSize < 2 ^ 56

namespace Metadata

def processDiscards (ret : Int) (s : Metadata) : Metadata :=
  let (issued, discards) := processQueue ret s.discards
  { s with discards, pdiscards := s.pdiscards ++ issued }

def setL2 (l2Offset index : Nat) (e : L2Entry) (s : Metadata) : Metadata :=
  { s with l2 := update s.l2 l2Offset (update (s.l2 l2Offset) index e) }

section

variable (cfg : Config)

/-- One pass of the loop of `update_refcount`; `none` is an error. -/
def updateCluster (addend : Nat) (decrease : Bool) (type : DiscardType) (c : Nat) (s : Metadata) :
    Except Stop (Option Metadata) :=
  if (if decrease then s.refcount c < addend else cfg.refcountMax < s.refcount c + addend) then .ok none
  else
    let refcount := if decrease then s.refcount c - addend else s.refcount c + addend
    let s := { s with refcount := update s.refcount c refcount }
    if refcount = 0 ∧ cfg.discardPassthrough type then do
      let discards ← queueDiscard s.discards (c * cfg.clusterSize) cfg.clusterSize
      return some { s with discards }
    else .ok (some s)

/-- The loop over `n` clusters; returns how many are left when it stops. -/
def updateClusters (addend : Nat) (decrease : Bool) (type : DiscardType) :
    Nat → Nat → Metadata → Except Stop (Metadata × Nat)
  | 0, _, s => .ok (s, 0)
  | n + 1, c, s => do
    match ← updateCluster cfg addend decrease type c s with
    | none => return (s, n + 1)
    | some s => updateClusters addend decrease type n (c + 1) s

def updateRefcount (offset length addend : Nat) (decrease : Bool) (type : DiscardType)
    (s : Metadata) : Except Stop (Metadata × Int) :=
  if length = 0 then .ok (s, 0)
  else do
    let first := offset / cfg.clusterSize
    let count := (offset + length - 1) / cfg.clusterSize + 1 - first
    let (s, left) ← updateClusters cfg addend decrease type count first s
    let ret := if left = 0 then 0 else -einval
    let s := if s.cacheDiscards then s else s.processDiscards ret
    if left = 0 then
      return (s, 0)
    -- undo the clusters done; taking back what succeeded does not fail
    let (s, _) ← updateClusters cfg addend (!decrease) .never (count - left) first s
    return (s, ret)

def freeClusters (offset size : Nat) (type : DiscardType) (s : Metadata) : Except Stop Metadata :=
  Prod.fst <$> updateRefcount cfg offset size 1 true type s

def freeAnyCluster (l2Entry : BitVec 64) (type : DiscardType) (s : Metadata) : Except Stop Metadata :=
  match cfg.getClusterType l2Entry with
  | .compressed =>
    let (coffset, csize) := cfg.parseCompressedL2Entry l2Entry
    freeClusters cfg coffset csize type s
  | .normal | .zeroAlloc =>
    -- an unaligned cluster is reported and not freed
    if offsetField l2Entry % cfg.clusterSize ≠ 0 then .ok s
    else freeClusters cfg (offsetField l2Entry) cfg.clusterSize type s
  | .zeroPlain | .unallocated => .ok s

def discardCluster (offset length : Nat) (ctype : ClusterType) (dtype : DiscardType)
    (s : Metadata) : Except Stop Metadata :=
  if cfg.discardPassthrough dtype ∧ (ctype = .normal ∨ ctype = .zeroAlloc) then do
    let discards ← queueDiscard s.discards offset length
    return { s with discards }
  else .ok s

variable (alloc : Allocator cfg.toFormat)

/-- A new table for an L1 entry, with the contents of the old one. -/
def l2Allocate (l1Index : Nat) (s : Metadata) : Except Stop (Metadata × Int) :=
  let s := if s.cacheDiscards then s.processDiscards 0 else s
  match alloc.allocCluster s.refcount with
  | none => .ok (s, -enospc)
  | some c =>
    let l2Offset := c * cfg.clusterSize
    let s := { s with refcount := update s.refcount c 1 }
    if offsetField (BitVec.ofNat 64 l2Offset) ≠ l2Offset then .error .abort
    else if l2Offset = 0 then .ok (s, -eio)
    else
      let oldL2Offset := offsetField (s.l1Table.getD l1Index 0)
      let table := if oldL2Offset = 0 then fun _ => ⟨0, 0⟩ else s.l2 oldL2Offset
      .ok ({ s with
        l2 := update s.l2 l2Offset table
        l1Table := s.l1Table.set l1Index (BitVec.ofNat 64 l2Offset ||| oflagCopied) }, 0)

/-- The size of an L1 table that has to hold `minSize` entries. -/
def bumpL1Size (minSize : Nat) : Nat → Nat → Nat
  | 0, size => size
  | fuel + 1, size => if minSize > size then bumpL1Size minSize fuel ((size * 3 + 1) / 2) else size

/-- The entries of `qcow2_grow_l1_table`; the clusters of the L1 table itself are not modelled. -/
def growL1Table (minSize : Nat) (s : Metadata) : Metadata × Int :=
  if minSize ≤ s.l1Table.length then (s, 0)
  else
    let size := bumpL1Size minSize minSize (max s.l1Table.length 1)
    if size > 2 ^ 22 then (s, -efbig)
    else ({ s with l1Table := s.l1Table ++ List.replicate (size - s.l1Table.length) 0 }, 0)

/-- The L2 table that maps a guest cluster, for writing; returns its offset. -/
def getClusterTable (guest : Nat) (s : Metadata) : Except Stop (Metadata × Int × Nat) :=
  let l1Index := guest / cfg.l2Size
  let (s, ret) := growL1Table (l1Index + 1) s
  if ret < 0 then .ok (s, ret, 0)
  else
    let l1Entry := s.l1Table.getD l1Index 0
    let l2Offset := offsetField l1Entry
    if l2Offset % cfg.clusterSize ≠ 0 then .ok (s, -eio, 0)
    else if l1Entry &&& oflagCopied = 0 then do
      let (s, ret) ← l2Allocate cfg alloc l1Index s
      if ret < 0 then
        return (s, ret, 0)
      let s ← (if l2Offset ≠ 0 then freeClusters cfg l2Offset cfg.clusterSize .other s else .ok s)
      return (s, 0, offsetField (s.l1Table.getD l1Index 0))
    else .ok (s, 0, l2Offset)

end

end Metadata

end Qemu.Qcow2
