import Mathlib.Tactic

/-! L2 entries: how the two words of an entry say where the data of a guest cluster is. -/

namespace Qemu.Qcow2

/-- What is fixed while an image is open. The image has no external data file. -/
structure Format where
  clusterBits : Nat
  /-- extended L2 entries, with subclusters -/
  hasSubclusters : Bool
  /-- the binary logarithm of the number of entries in a slice -/
  sliceBits : Nat
  clusterRange : 9 ≤ clusterBits ∧ clusterBits ≤ 21
  subclusterRange : hasSubclusters = true → 14 ≤ clusterBits
  sliceRange : sliceBits ≤ clusterBits - if hasSubclusters then 4 else 3

structure L2Entry where
  entry : BitVec 64
  bitmap : BitVec 64
  deriving DecidableEq, Repr

def oflagCopied : BitVec 64 := 0x8000000000000000

def oflagCompressed : BitVec 64 := 0x4000000000000000

def oflagZero : BitVec 64 := 1

def offsetMask : BitVec 64 := 0x00fffffffffffe00

def oflagSubAlloc (x : Nat) : BitVec 64 := 1#64 <<< x

def oflagSubZero (x : Nat) : BitVec 64 := oflagSubAlloc x <<< 32

def oflagSubAllocRange (x y : Nat) : BitVec 64 := oflagSubAlloc y - oflagSubAlloc x

def oflagSubZeroRange (x y : Nat) : BitVec 64 := oflagSubAllocRange x y <<< 32

def bitmapAllAlloc : BitVec 64 := 0x00000000ffffffff

def bitmapAllZeroes : BitVec 64 := 0xffffffff00000000

/-- The offset field of an L1 or L2 entry. -/
def offsetField (word : BitVec 64) : Nat := (word &&& offsetMask).toNat

inductive ClusterType where
  | unallocated
  | zeroPlain
  | zeroAlloc
  | normal
  | compressed
  deriving DecidableEq, Repr

inductive SubclusterType where
  | unallocatedPlain
  | unallocatedAlloc
  | zeroPlain
  | zeroAlloc
  | normal
  | compressed
  | invalid
  deriving DecidableEq, Repr

namespace Format

variable (fmt : Format)

def clusterSize : Nat := 2 ^ fmt.clusterBits

def l2Bits : Nat := fmt.clusterBits - if fmt.hasSubclusters then 4 else 3

def l2Size : Nat := 2 ^ fmt.l2Bits

def l2SliceSize : Nat := 2 ^ fmt.sliceBits

def subclustersPerCluster : Nat := if fmt.hasSubclusters then 32 else 1

def subclusterSize : Nat := fmt.clusterSize / fmt.subclustersPerCluster

def getClusterType (l2Entry : BitVec 64) : ClusterType :=
  if l2Entry &&& oflagCompressed ≠ 0 then .compressed
  else if l2Entry &&& oflagZero ≠ 0 ∧ !fmt.hasSubclusters then
    if l2Entry &&& offsetMask ≠ 0 then .zeroAlloc else .zeroPlain
  else if l2Entry &&& offsetMask = 0 then .unallocated
  else .normal

def getSubclusterType (e : L2Entry) (scIndex : Nat) : SubclusterType :=
  if fmt.hasSubclusters then
    match fmt.getClusterType e.entry with
    | .compressed => .compressed
    | .normal =>
      if (e.bitmap >>> 32) &&& e.bitmap ≠ 0 then .invalid
      else if e.bitmap &&& oflagSubZero scIndex ≠ 0 then .zeroAlloc
      else if e.bitmap &&& oflagSubAlloc scIndex ≠ 0 then .normal
      else .unallocatedAlloc
    | _ =>
      if e.bitmap &&& bitmapAllAlloc ≠ 0 then .invalid
      else if e.bitmap &&& oflagSubZero scIndex ≠ 0 then .zeroPlain
      else .unallocatedPlain
  else
    match fmt.getClusterType e.entry with
    | .compressed => .compressed
    | .zeroPlain => .zeroPlain
    | .zeroAlloc => .zeroAlloc
    | .normal => .normal
    | .unallocated => .unallocatedPlain

def csizeShift : Nat := 62 - (fmt.clusterBits - 8)

/-- The first byte and the length of a compressed cluster. -/
def parseCompressedL2Entry (l2Entry : BitVec 64) : Nat × Nat :=
  let coffset := l2Entry.toNat % 2 ^ fmt.csizeShift
  let nbCsectors := l2Entry.toNat / 2 ^ fmt.csizeShift % 2 ^ (fmt.clusterBits - 8) + 1
  (coffset, nbCsectors * 512 - coffset % 512)

end Format

def ClusterType.isAllocated : ClusterType → Bool
  | .compressed | .normal | .zeroAlloc => true
  | .unallocated | .zeroPlain => false

theorem or_zero_and_offsetMask (word : BitVec 64) :
    (word ||| oflagZero) &&& offsetMask = word &&& offsetMask := by
  rw [BitVec.and_or_distrib_right]
  simp [oflagZero, offsetMask]

end Qemu.Qcow2
