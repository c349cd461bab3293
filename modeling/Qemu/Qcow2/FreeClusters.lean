import Qemu.Qcow2.DiscardQueue

/-! Freeing clusters through the metadata caches: `update_refcount` with the refcount
block cache it goes through and the tables it drops from the caches, and the functions
that free with it.  Every cluster whose refcount reaches 0 is recorded in `released`. -/

namespace Qemu.Qcow2

/-- A table in a cache, by its offset. -/
abbrev TableAt := CacheId × Nat

/-- A refcount that became 0 in `update_refcount(offset, ..)`: the dirty tables cached inside
the cluster at that moment, and those left after `update_refcount` has dropped tables. -/
structure Release where
  offset : Nat
  cluster : Nat
  dirty : List TableAt
  left : List TableAt
  deriving DecidableEq, Repr

/-- The refcounts are what the refcount blocks say, cached or not. -/
structure FreeState where
  caches : CacheState
  clusterBits : Nat
  refcountBlockBits : Nat
  refcountMax : Nat
  refcountTable : List Nat
  refcount : Nat → Nat
  freeClusterIndex : Nat
  l1Table : List Nat
  discardPassthrough : DiscardType → Bool
  cacheDiscards : Bool
  discards : List DiscardRegion
  pdiscards : List DiscardRegion
  released : List Release

def reftOffsetMask (entry : Nat) : Nat := entry / 512 * 512

def l1eOffsetMask (entry : Nat) : Nat := entry % 2 ^ 56 / 512 * 512

namespace FreeState

def clusterSize (s : FreeState) : Nat := 2 ^ s.clusterBits

/-- The image just opened, with empty caches. -/
def mount (s : FreeState) (l2Tables l2TableSize refcountTables : Nat) : FreeState :=
  { s with
    caches := .fresh l2Tables l2TableSize refcountTables s.clusterSize
    discards := []
    pdiscards := []
    released := [] }

def startOfCluster (s : FreeState) (offset : Nat) : Nat := offset / s.clusterSize * s.clusterSize

end FreeState

/-- The dirty tables of both caches that start inside a cluster. -/
def dirtyInside (caches : CacheState) (clusterSize cluster : Nat) : List TableAt :=
  [CacheId.l2Table, .refcountBlock].flatMap fun c =>
    ((List.range (caches.cache c).size).filter fun i =>
      (caches.entry c i).dirty && (caches.entry c i).offset / clusterSize == cluster).map
        fun i => (c, (caches.entry c i).offset)

def cacheIsTableOffset (c : CacheId) (offset : Nat) (s : CacheState) : Option Nat :=
  (List.range (s.cache c).size).find? fun i => (s.entry c i).offset == offset

def cacheDiscard (c : CacheId) (i : Nat) (s : CacheState) : Except Stop CacheState :=
  if (s.entry c i).ref = 0 then .ok (s.setEntry c i ⟨0, 0, 0, false, []⟩) else .error .abort

/-- The loop variables of `update_refcount`; a refcount block is named by its entry. -/
structure UpdateCursor where
  state : FreeState
  refcountBlock : Option Nat
  oldTableIndex : Option Nat

section

variable (io : Nat → Int) (fuel : Nat)

/-- `alloc_refcount_block` for a block that exists, which is the case for every cluster
with a reference. -/
def loadRefcountBlock (clusterIndex : Nat) (s : FreeState) : Except Stop (FreeState × Int × Nat) :=
  match s.refcountTable[clusterIndex / 2 ^ s.refcountBlockBits]? with
  | none => .error .noRefcountBlock
  | some entry =>
    let offset := reftOffsetMask entry
    if offset = 0 then .error .noRefcountBlock
    else if offset % s.clusterSize ≠ 0 then .ok (s, -eio, 0)
    else do
      let (caches, ret) ← cacheDoGet io fuel .refcountBlock offset true s.caches
      return ({ s with caches }, ret, (cacheIsTableOffset .refcountBlock offset caches).getD 0)

def putRefcountBlock (block : Option Nat) (s : FreeState) : Except Stop FreeState :=
  match block with
  | none => .ok s
  | some i => do
    let caches ← cachePut .refcountBlock i s.caches
    return { s with caches }

/-- Put the old block and get the one for `clusterIndex`, unless it is the same. -/
def switchBlock (clusterIndex : Nat) (cursor : UpdateCursor) : Except Stop (UpdateCursor × Int) :=
  let tableIndex := clusterIndex / 2 ^ cursor.state.refcountBlockBits
  if some tableIndex = cursor.oldTableIndex then .ok (cursor, 0)
  else do
    let s ← putRefcountBlock cursor.refcountBlock cursor.state
    let (s, ret, i) ← loadRefcountBlock io fuel clusterIndex s
    if ret < 0 then
      return (⟨s, none, cursor.oldTableIndex⟩, ret)
    return (⟨s, some i, some tableIndex⟩, 0)

/-- Drop the table at `offset` from the refcount block cache. -/
def dropRefcountBlock (offset : Nat) (cursor : UpdateCursor) : Except Stop UpdateCursor :=
  match cacheIsTableOffset .refcountBlock offset cursor.state.caches with
  | none => .ok cursor
  | some table => do
    let s ← putRefcountBlock cursor.refcountBlock cursor.state
    let caches ← cacheDiscard .refcountBlock table s.caches
    return ⟨{ s with caches }, none, none⟩

def dropL2Table (offset : Nat) (caches : CacheState) : Except Stop CacheState :=
  match cacheIsTableOffset .l2Table offset caches with
  | none => .ok caches
  | some table => cacheDiscard .l2Table table caches

/-- What `update_refcount` does when a refcount becomes 0. -/
def releaseCluster (offset clusterOffset : Nat) (type : DiscardType) (cursor : UpdateCursor) :
    Except Stop UpdateCursor := do
  let cluster := clusterOffset / cursor.state.clusterSize
  let dirty := dirtyInside cursor.state.caches cursor.state.clusterSize cluster
  let cursor ← dropRefcountBlock offset cursor
  let caches ← dropL2Table offset cursor.state.caches
  let s := { cursor.state with
    caches, released := cursor.state.released ++
      [⟨offset, cluster, dirty, dirtyInside caches cursor.state.clusterSize cluster⟩] }
  if s.discardPassthrough type then
    let discards ← queueDiscard s.discards clusterOffset s.clusterSize
    return { cursor with state := { s with discards } }
  return { cursor with state := s }

/-- The new refcount; `none` is the overflow or underflow. -/
def newRefcount (s : FreeState) (refcount addend : Nat) (decrease : Bool) : Option Nat :=
  if decrease then
    if refcount < addend then none else some (refcount - addend)
  else if refcount + addend > s.refcountMax then none else some (refcount + addend)

/-- One pass of the loop of `update_refcount`. -/
def updateCluster (offset addend : Nat) (decrease : Bool) (type : DiscardType)
    (clusterOffset : Nat) (cursor : UpdateCursor) : Except Stop (UpdateCursor × Int) := do
  let clusterIndex := clusterOffset / cursor.state.clusterSize
  let (cursor, ret) ← switchBlock io fuel clusterIndex cursor
  if ret < 0 then
    return (cursor, ret)
  let caches ← cacheEntryMarkDirty .refcountBlock (cursor.refcountBlock.getD 0) cursor.state.caches
  let s := { cursor.state with caches }
  match newRefcount s (s.refcount clusterIndex) addend decrease with
  | none => return ({ cursor with state := s }, -einval)
  | some refcount =>
    let s := { s with
      freeClusterIndex :=
        if refcount = 0 ∧ clusterIndex < s.freeClusterIndex then clusterIndex
        else s.freeClusterIndex
      refcount := Function.update s.refcount clusterIndex refcount }
    if refcount = 0 then
      let cursor ← releaseCluster offset clusterOffset type { cursor with state := s }
      return (cursor, 0)
    return ({ cursor with state := s }, 0)

/-- The loop; with a failure it also returns the cluster it stopped at. -/
def updateClusters (offset addend : Nat) (decrease : Bool) (type : DiscardType) :
    List Nat → UpdateCursor → Except Stop (UpdateCursor × Int × Nat)
  | [], cursor => .ok (cursor, 0, 0)
  | clusterOffset :: rest, cursor => do
    let (cursor, ret) ← updateCluster io fuel offset addend decrease type clusterOffset cursor
    if ret < 0 then
      return (cursor, ret, clusterOffset)
    updateClusters offset addend decrease type rest cursor

def processDiscards (ret : Int) (s : FreeState) : FreeState :=
  let (issued, discards) := processQueue ret s.discards
  { s with discards, pdiscards := s.pdiscards ++ issued }

/-- A range lowers refcounts only after the L2 tables are on disk. -/
def orderDecrease (decrease : Bool) (s : FreeState) : Except Stop FreeState :=
  if decrease then do
    let (caches, _) ← cacheSetDependency io fuel .refcountBlock .l2Table s.caches
    return { s with caches }
  else .ok s

/-- The clusters of a range, by their offsets. -/
def FreeState.clusters (s : FreeState) (offset length : Nat) : List Nat :=
  let start := s.startOfCluster offset
  let last := s.startOfCluster (offset + length - 1)
  (List.range ((last - start) / s.clusterSize + 1)).map fun k => start + k * s.clusterSize

/-- `update_refcount`; `depth` bounds the calls that undo a failed update. -/
def updateRefcount : Nat → Nat → Int → Nat → Bool → DiscardType → FreeState →
    Except Stop (FreeState × Int)
  | 0, _, _, _, _, _, _ => .error .outOfFuel
  | depth + 1, offset, length, addend, decrease, type, s =>
    if length < 0 then .ok (s, -einval)
    else if length = 0 then .ok (s, 0)
    else do
      let s ← orderDecrease io fuel decrease s
      let (cursor, ret, stopped) ← updateClusters io fuel offset addend decrease type
        (s.clusters offset length.toNat) ⟨s, none, none⟩
      let s := if cursor.state.cacheDiscards then cursor.state else processDiscards ret cursor.state
      let s ← putRefcountBlock cursor.refcountBlock s
      if ret < 0 then
        let (s, _) ← updateRefcount depth offset (stopped - offset) addend (!decrease) .never s
        return (s, ret)
      return (s, ret)

variable (depth : Nat)

/-- The failure of `update_refcount` is only reported. -/
def freeClusters (offset size : Nat) (type : DiscardType) (s : FreeState) : Except Stop FreeState :=
  Prod.fst <$> updateRefcount io fuel depth offset size 1 true type s

/-- The loop of `qcow2_shrink_l1_table`, over the entries from the last one down. -/
def freeL2Tables : List Nat → FreeState → Except Stop FreeState
  | [], s => .ok s
  | i :: rest, s =>
    let offset := l1eOffsetMask (s.l1Table.getD i 0)
    if offset = 0 then freeL2Tables rest s
    else do
      let s ← freeClusters io fuel depth offset s.clusterSize .always s
      freeL2Tables rest { s with l1Table := s.l1Table.set i 0 }

def shrinkL1Table (exactSize : Nat) (s : FreeState) : Except Stop (FreeState × Int) :=
  if exactSize ≥ s.l1Table.length then .ok (s, 0)
  else
    let cleared := s.l1Table.take exactSize ++ List.replicate (s.l1Table.length - exactSize) 0
    let (caches, ret) := fileCall io s.caches
    if ret < 0 then .ok ({ s with caches, l1Table := cleared }, ret)
    else
      let (caches, ret) := bdrvFlush io caches
      if ret < 0 then .ok ({ s with caches, l1Table := cleared }, ret)
      else do
        let indices := (List.range (s.l1Table.length - exactSize)).map fun k =>
          s.l1Table.length - 1 - k
        let s ← freeL2Tables io fuel depth indices { s with caches }
        return (s, 0)

/-- Calls that free clusters, between any use of the caches. -/
inductive FreeOp where
  | cache (op : CacheOp)
  | updateRefcount (offset : Nat) (length : Int) (addend : Nat) (decrease : Bool)
      (type : DiscardType)
  | freeClusters (offset size : Nat) (type : DiscardType)
  | shrinkL1Table (exactSize : Nat)

def freeStep (s : FreeState) : FreeOp → Except Stop FreeState
  | .cache op => do
    let caches ← cacheStep io fuel s.caches op
    return { s with caches }
  | .updateRefcount offset length addend decrease type =>
    Prod.fst <$> updateRefcount io fuel depth offset length addend decrease type s
  | .freeClusters offset size type => freeClusters io fuel depth offset size type s
  | .shrinkL1Table exactSize => Prod.fst <$> shrinkL1Table io fuel depth exactSize s

def freeRun (ops : List FreeOp) (s : FreeState) : Except Stop FreeState :=
  ops.foldlM (freeStep io fuel depth) s

end

end Qemu.Qcow2
