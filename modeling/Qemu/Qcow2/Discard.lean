import Qemu.Qcow2.Metadata

/-! Discarding and zeroing guest clusters. -/

namespace Qemu.Qcow2.Metadata

variable (cfg : Config)

/-- Whether `discard_in_l2_slice` leaves the reference of an entry in place. -/
def discardKeepsReference (type : DiscardType) (fullDiscard : Bool) (old : L2Entry) : Bool :=
  cfg.getClusterType old.entry ≠ .compressed && !fullDiscard &&
    (cfg.discardNoUnref && type = .request)

/-- The entry that `discard_in_l2_slice` writes. -/
def discardedEntry (type : DiscardType) (fullDiscard : Bool) (old : L2Entry) : L2Entry :=
  let keepReference := discardKeepsReference cfg type fullDiscard old
  if fullDiscard then ⟨0, if cfg.hasSubclusters then 0 else old.bitmap⟩
  else if cfg.backing || (cfg.getClusterType old.entry).isAllocated then
    if cfg.hasSubclusters then ⟨if keepReference then old.entry else 0, bitmapAllZeroes⟩
    else if cfg.version ≥ 3 then
      ⟨if keepReference then old.entry ||| oflagZero else oflagZero, old.bitmap⟩
    else ⟨0, old.bitmap⟩
  else old

/-- One pass of the loop of `discard_in_l2_slice`. -/
def discardEntry (type : DiscardType) (fullDiscard : Bool) (l2Offset index : Nat) (s : Metadata) :
    Except Stop Metadata :=
  let old := s.l2 l2Offset index
  let new := discardedEntry cfg type fullDiscard old
  if old = new then .ok s
  else
    let s := s.setL2 l2Offset index new
    if discardKeepsReference cfg type fullDiscard old then
      discardCluster cfg (offsetField old.entry) cfg.clusterSize (cfg.getClusterType old.entry) type s
    else freeAnyCluster cfg old.entry type s

/-- Whether `zero_in_l2_slice` unmaps an entry. -/
def zeroUnmaps (mayUnmap : Bool) (old : L2Entry) : Bool :=
  cfg.getClusterType old.entry = .compressed ||
    (mayUnmap && (cfg.getClusterType old.entry).isAllocated)

def zeroKeepsReference (old : L2Entry) : Bool :=
  cfg.discardNoUnref && cfg.getClusterType old.entry ≠ .compressed

/-- The entry that `zero_in_l2_slice` writes. -/
def zeroedEntry (mayUnmap : Bool) (old : L2Entry) : L2Entry :=
  let entry := if zeroUnmaps cfg mayUnmap old && !zeroKeepsReference cfg old then 0 else old.entry
  if cfg.hasSubclusters then ⟨entry, bitmapAllZeroes⟩ else ⟨entry ||| oflagZero, old.bitmap⟩

/-- One pass of the loop of `zero_in_l2_slice`. -/
def zeroEntry (mayUnmap : Bool) (l2Offset index : Nat) (s : Metadata) : Except Stop Metadata :=
  let old := s.l2 l2Offset index
  let new := zeroedEntry cfg mayUnmap old
  if old = new then .ok s
  else
    let s := s.setL2 l2Offset index new
    if zeroUnmaps cfg mayUnmap old then
      if zeroKeepsReference cfg old then
        discardCluster cfg (offsetField old.entry) cfg.clusterSize (cfg.getClusterType old.entry)
          .request s
      else freeAnyCluster cfg old.entry .request s
    else .ok s

/-- A loop over the entries of one slice. -/
def forEntries (body : Nat → Metadata → Except Stop Metadata) : Nat → Nat → Metadata →
    Except Stop Metadata
  | 0, _, s => .ok s
  | n + 1, index, s => do forEntries body n (index + 1) (← body index s)

variable (alloc : Allocator cfg.toFormat)

/-- What `discard_in_l2_slice` and `zero_in_l2_slice` share: as many of `nbClusters` clusters as
lie in the slice of the first. Returns their number, or an error. -/
def inL2Slice (body : Nat → Nat → Metadata → Except Stop Metadata) (guest nbClusters : Nat)
    (s : Metadata) : Except Stop (Metadata × Int) := do
  let (s, ret, l2Offset) ← getClusterTable cfg alloc guest s
  if ret < 0 then
    return (s, ret)
  let nbClusters := min nbClusters (cfg.l2SliceSize - guest % cfg.l2SliceSize)
  let s ← forEntries (body l2Offset) nbClusters (guest % cfg.l2Size) s
  return (s, nbClusters)

/-- The loop of `qcow2_cluster_discard` and of `qcow2_subcluster_zeroize`, one slice at a time. -/
def overSlices (body : Nat → Nat → Metadata → Except Stop Metadata) :
    Nat → Nat → Nat → Metadata → Except Stop (Metadata × Int)
  | _, _, 0, s => .ok (s, 0)
  | 0, _, _ + 1, _ => .error .outOfFuel
  | fuel + 1, guest, nbClusters + 1, s => do
    let (s, cleared) ← inL2Slice cfg alloc body guest (nbClusters + 1) s
    if cleared < 0 then
      return (s, cleared)
    overSlices body fuel (guest + cleared.toNat) (nbClusters + 1 - cleared.toNat) s

def sizeToClusters (size : Nat) : Nat := (size + (cfg.clusterSize - 1)) / cfg.clusterSize

def sizeToSubclusters (size : Nat) : Nat := (size + (cfg.subclusterSize - 1)) / cfg.subclusterSize

def offsetToScIndex (offset : Nat) : Nat := offset / cfg.subclusterSize % cfg.subclustersPerCluster

def finish (ret : Int) (s : Metadata) : Metadata × Int :=
  (({ s with cacheDiscards := false } : Metadata).processDiscards ret, ret)

def clusterDiscard (offset bytes : Nat) (type : DiscardType) (fullDiscard : Bool) (s : Metadata) :
    Except Stop (Metadata × Int) :=
  let endOffset := offset + bytes
  if offset % cfg.clusterSize ≠ 0 then .error .abort
  else if endOffset % cfg.clusterSize ≠ 0 ∧ endOffset ≠ cfg.imageSize then .error .abort
  else do
    let nbClusters := sizeToClusters cfg bytes
    let s := { s with cacheDiscards := true }
    let (s, ret) ← overSlices cfg alloc (discardEntry cfg type fullDiscard) nbClusters
      (offset / cfg.clusterSize) nbClusters s
    return finish ret s

/-- The bitmap that `zero_l2_subclusters` writes. -/
def zeroedBitmap (sc nbSubclusters : Nat) (bitmap : BitVec 64) : BitVec 64 :=
  (bitmap ||| oflagSubZeroRange sc (sc + nbSubclusters)) &&&
    ~~~oflagSubAllocRange sc (sc + nbSubclusters)

def zeroL2Subclusters (offset nbSubclusters : Nat) (s : Metadata) : Except Stop (Metadata × Int) :=
  let sc := offsetToScIndex cfg offset
  let guest := offset / cfg.clusterSize
  if ¬ (0 < nbSubclusters ∧ nbSubclusters < cfg.subclustersPerCluster) then .error .abort
  else if sc + nbSubclusters > cfg.subclustersPerCluster then .error .abort
  else if offset % cfg.subclusterSize ≠ 0 then .error .abort
  else do
    let (s, ret, l2Offset) ← getClusterTable cfg alloc guest s
    if ret < 0 then
      return (s, ret)
    let old := s.l2 l2Offset (guest % cfg.l2Size)
    match cfg.getClusterType old.entry with
    | .compressed => return (s, -enotsup)
    | .normal | .unallocated =>
      return (s.setL2 l2Offset (guest % cfg.l2Size)
        ⟨old.entry, zeroedBitmap sc nbSubclusters old.bitmap⟩, 0)
    | .zeroPlain | .zeroAlloc => .error .abort

/-- The head and the tail of `qcow2_subcluster_zeroize`: nothing if there are no bytes. -/
def zeroPartial (offset bytes : Nat) (s : Metadata) : Except Stop (Metadata × Int) :=
  if bytes = 0 then .ok (s, 0)
  else zeroL2Subclusters cfg alloc offset (sizeToSubclusters cfg bytes) s

/-- The bytes before the first cluster boundary of a range. -/
def zeroHead (offset endOffset : Nat) : Nat := min endOffset (roundUp offset cfg.clusterSize) - offset

/-- The bytes after the last cluster boundary; `offset` is the end of the head. -/
def zeroTail (offset endOffset : Nat) : Nat :=
  if endOffset ≥ cfg.imageSize then 0
  else endOffset - max offset (endOffset - endOffset % cfg.clusterSize)

/-- The three parts of `qcow2_subcluster_zeroize` on a version 3 image. -/
def zeroParts (offset endOffset : Nat) (mayUnmap : Bool) (s : Metadata) :
    Except Stop (Metadata × Int) := do
  let head := zeroHead cfg offset endOffset
  let bodyStart := offset + head
  let tail := zeroTail cfg bodyStart endOffset
  let bodyEnd := endOffset - tail
  let (s, ret) ← zeroPartial cfg alloc offset head s
  if ret < 0 then
    return (s, ret)
  let nbClusters := sizeToClusters cfg (bodyEnd - bodyStart)
  let (s, ret) ← overSlices cfg alloc (zeroEntry cfg mayUnmap) nbClusters
    (bodyStart / cfg.clusterSize) nbClusters s
  if ret < 0 then
    return (s, ret)
  zeroPartial cfg alloc bodyEnd tail s

/-- The image has no external data file. -/
def subclusterZeroize (offset bytes : Nat) (mayUnmap : Bool) (s : Metadata) :
    Except Stop (Metadata × Int) :=
  let endOffset := offset + bytes
  if offset % cfg.subclusterSize ≠ 0 then .error .abort
  else if endOffset % cfg.subclusterSize ≠ 0 ∧ endOffset < cfg.imageSize then .error .abort
  else if cfg.version < 3 then
    if cfg.backing then .ok (s, -enotsup) else clusterDiscard cfg alloc offset bytes .request false s
  else do
    let (s, ret) ← zeroParts cfg alloc offset endOffset mayUnmap { s with cacheDiscards := true }
    return finish ret s

end Qemu.Qcow2.Metadata
