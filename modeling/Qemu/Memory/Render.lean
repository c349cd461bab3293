import Qemu.Lib.Checked

/-! Rendering a tree of memory regions into the flat list of ranges that the guest sees, as
`system/memory.c` does it. -/

namespace Qemu.Memory

/-- The assertions that can stop the construction of a `FlatView`. -/
inductive Assertion where
  | int128Get64
  | sectionsNb
  | existingSubpage
  | nodeNil
  | nodesAllocated
  | numPages
  deriving DecidableEq, Repr

def int128Wrap (x : Int) : Int := x.bmod (2 ^ 128)

def int128Add (a b : Int) : Int := int128Wrap (a + b)

def int128Sub (a b : Int) : Int := int128Wrap (a - b)

def int128Get64 (a : Int) : Except Assertion Nat :=
  if 0 ≤ a ∧ a < 2 ^ 64 then .ok a.toNat else .error .int128Get64

structure AddrRange where
  start : Int
  size : Int
  deriving DecidableEq, Repr

namespace AddrRange

def addrrangeEnd (r : AddrRange) : Int := int128Add r.start r.size

def addrrangeContains (r : AddrRange) (addr : Int) : Bool := addr ≥ r.start && addr < r.addrrangeEnd

def addrrangeIntersects (r1 r2 : AddrRange) : Bool :=
  r1.addrrangeContains r2.start || r2.addrrangeContains r1.start

def addrrangeIntersection (r1 r2 : AddrRange) : AddrRange :=
  let start := max r1.start r2.start
  let last := min r1.addrrangeEnd r2.addrrangeEnd
  ⟨start, int128Sub last start⟩

end AddrRange

/-- The fields of a `MemoryRegion` that rendering reads, `id` standing for its address.
A size of 2^64 is allowed. -/
structure Fields where
  id : Nat
  addr : Nat
  size : Nat
  aliasOffset : Nat := 0
  enabled : Bool := true
  terminates : Bool := true
  readonly : Bool := false
  nonvolatile : Bool := false
  unmergeable : Bool := false
  romdMode : Bool := true
  dirtyLogMask : BitVec 8 := 0
  addr_lt : addr < 2 ^ 64 := by decide
  size_le : size ≤ 2 ^ 64 := by decide
  aliasOffset_lt : aliasOffset < 2 ^ 64 := by decide
  deriving DecidableEq

/-- A region with the regions below it: the target of an alias, or the subregions in the order
of their list. -/
inductive MemoryRegion where
  | aliasOf (fields : Fields) (target : MemoryRegion)
  | region (fields : Fields) (subregions : List MemoryRegion)

def MemoryRegion.fields : MemoryRegion → Fields
  | .aliasOf fields _ => fields
  | .region fields _ => fields

/-- The flags that add up from the root to a terminating region. -/
structure Flags where
  readonly : Bool
  nonvolatile : Bool
  unmergeable : Bool
  deriving DecidableEq, Repr

def Fields.flags (f : Fields) : Flags := ⟨f.readonly, f.nonvolatile, f.unmergeable⟩

def Flags.join (a b : Flags) : Flags :=
  ⟨a.readonly || b.readonly, a.nonvolatile || b.nonvolatile, a.unmergeable || b.unmergeable⟩

structure FlatRange where
  mr : Nat
  offsetInRegion : Nat
  addr : AddrRange
  dirtyLogMask : BitVec 8
  romdMode : Bool
  readonly : Bool
  nonvolatile : Bool
  unmergeable : Bool
  deriving DecidableEq, Repr

/-- The range that `render_memory_region` prepares in `fr`, placed. -/
def Fields.flatRange (f : Fields) (flags : Flags) (addr : AddrRange) (offsetInRegion : Nat) :
    FlatRange where
  mr := f.id
  offsetInRegion := offsetInRegion
  addr := addr
  dirtyLogMask := f.dirtyLogMask
  romdMode := f.romdMode
  readonly := flags.readonly
  nonvolatile := flags.nonvolatile
  unmergeable := flags.unmergeable

/-- The part of the region that comes before a range of the view, and what is left of it. -/
def gapBefore (fr : AddrRange → Nat → FlatRange) (range : FlatRange) (base remain : Int)
    (offset : Nat) : Except Assertion (List FlatRange × Int × Int × Nat) :=
  if base < range.addr.start then do
    let now := min remain (int128Sub range.addr.start base)
    let offset' := (offset + (← int128Get64 now)) % 2 ^ 64
    return ([fr ⟨base, now⟩ offset], int128Add base now, int128Sub remain now, offset')
  else .ok ([], base, remain, offset)

/-- The loop that renders a region into the gaps of the view, over the ranges from index `i` on. -/
def renderGaps (fr : AddrRange → Nat → FlatRange) :
    List FlatRange → Int → Int → Nat → Except Assertion (List FlatRange)
  | [], base, remain, offset => .ok (if remain ≠ 0 then [fr ⟨base, remain⟩ offset] else [])
  | range :: rest, base, remain, offset =>
    if remain = 0 then .ok (range :: rest)
    else if base ≥ range.addr.addrrangeEnd then
      (range :: ·) <$> renderGaps fr rest base remain offset
    else do
      let (gap, base, remain, offset) ← gapBefore fr range base remain offset
      let now := int128Sub (min (int128Add base remain) range.addr.addrrangeEnd) base
      let offset := (offset + (← int128Get64 now)) % 2 ^ 64
      let rest ← renderGaps fr rest (int128Add base now) (int128Sub remain now) offset
      return gap ++ range :: rest

mutual

def renderMemoryRegion : MemoryRegion → Int → AddrRange → Flags → List FlatRange →
    Except Assertion (List FlatRange)
  | .aliasOf f target, base, clip, flags, view =>
    if !f.enabled then .ok view
    else
      let base := int128Add base f.addr
      let flags := flags.join f.flags
      let tmp : AddrRange := ⟨base, f.size⟩
      if !tmp.addrrangeIntersects clip then .ok view
      else
        let clip := tmp.addrrangeIntersection clip
        let base := int128Sub (int128Sub base target.fields.addr) f.aliasOffset
        renderMemoryRegion target base clip flags view
  | .region f subregions, base, clip, flags, view =>
    if !f.enabled then .ok view
    else
      let base := int128Add base f.addr
      let flags := flags.join f.flags
      let tmp : AddrRange := ⟨base, f.size⟩
      if !tmp.addrrangeIntersects clip then .ok view
      else do
        let clip := tmp.addrrangeIntersection clip
        let view ← renderSubregions subregions base clip flags view
        if !f.terminates then return view
        let offset ← int128Get64 (int128Sub clip.start base)
        renderGaps (f.flatRange flags) view clip.start clip.size offset

/-- The subregions in priority order. -/
def renderSubregions : List MemoryRegion → Int → AddrRange → Flags → List FlatRange →
    Except Assertion (List FlatRange)
  | [], _, _, _, view => .ok view
  | subregion :: rest, base, clip, flags, view => do
    let view ← renderMemoryRegion subregion base clip flags view
    renderSubregions rest base clip flags view

end

def canMerge (r1 r2 : FlatRange) : Bool :=
  r1.addr.addrrangeEnd = r2.addr.start && r1.mr = r2.mr &&
    int128Add r1.offsetInRegion r1.addr.size = r2.offsetInRegion &&
    r1.dirtyLogMask = r2.dirtyLogMask && r1.romdMode = r2.romdMode && r1.readonly = r2.readonly &&
    r1.nonvolatile = r2.nonvolatile && !r1.unmergeable && !r2.unmergeable

/-- `head` is the range at index `i`, which has taken in the ranges up to `previous` at `j - 1`. -/
def simplifyFrom (head previous : FlatRange) : List FlatRange → List FlatRange
  | [] => [head]
  | range :: rest =>
    if canMerge previous range then
      simplifyFrom { head with addr.size := int128Add head.addr.size range.addr.size } range rest
    else head :: simplifyFrom range range rest

def flatviewSimplify : List FlatRange → List FlatRange
  | [] => []
  | range :: rest => simplifyFrom range range rest

/-- The ranges of the view for a root, before the dispatch table is built. -/
def renderTopology (mr : Option MemoryRegion) : Except Assertion (List FlatRange) := do
  let view ← match mr with
    | some mr => renderMemoryRegion mr 0 ⟨0, 2 ^ 64⟩ ⟨false, false, false⟩ []
    | none => pure []
  return flatviewSimplify view

mutual

def memoryRegionGetFlatviewRoot : MemoryRegion → Option MemoryRegion
  | .aliasOf f target =>
    if f.enabled then
      if f.aliasOffset = 0 ∧ f.size ≥ target.fields.size then memoryRegionGetFlatviewRoot target
      else some (.aliasOf f target)
    else none
  | .region f subregions =>
    if f.enabled then
      if !f.terminates then
        match scanChildren f.size subregions 0 none with
        | (0, _) => none
        | (_, some root) => root
        | (_, none) => some (.region f subregions)
      else some (.region f subregions)
    else none

/-- The loop over the children; `next` is the root that the search finds from the child to go on
with, if there is one. -/
def scanChildren (size : Nat) : List MemoryRegion → Nat → Option (Option MemoryRegion) →
    Nat × Option (Option MemoryRegion)
  | [], found, next => (found, next)
  | child :: rest, found, next =>
    if child.fields.enabled then
      if found + 1 > 1 then (found + 1, none)
      else if child.fields.addr = 0 ∧ size ≥ child.fields.size then
        scanChildren size rest (found + 1) (some (memoryRegionGetFlatviewRoot child))
      else scanChildren size rest (found + 1) next
    else scanChildren size rest found next

end

end Qemu.Memory
