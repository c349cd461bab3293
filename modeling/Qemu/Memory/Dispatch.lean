import Qemu.Memory.Render

/-! The dispatch table of a `FlatView`: sections, and a radix tree from pages to sections, as
`system/physmem.c` builds them. -/

namespace Qemu.Memory

structure Target where
  pageBits : Nat
  pageBits_pos : 0 < pageBits := by decide
  pageBits_le : pageBits ≤ 16 := by decide

namespace Target

variable (t : Target)

def pageSize : Nat := 2 ^ t.pageBits

/-- `P_L2_LEVELS` -/
def levels : Nat := (64 - t.pageBits - 1) / 9 + 1

end Target

/-- The region of a section: `io_mem_unassigned`, a subpage, or a region of the topology. -/
inductive SectionRegion where
  | unassigned
  | subpage (index : Nat)
  | region (id : Nat)
  deriving DecidableEq, Repr

structure MemoryRegionSection where
  mr : SectionRegion
  offsetWithinRegion : Nat
  offsetWithinAddressSpace : Nat
  size : Int
  readonly : Bool := false
  nonvolatile : Bool := false
  unmergeable : Bool := false
  deriving DecidableEq, Repr

/-- A section of 2^64 bytes covers every address, else `range_covers_byte` decides. -/
def MemoryRegionSection.sectionCoversAddr (s : MemoryRegionSection) (addr : Nat) : Bool :=
  s.size ≥ 2 ^ 64 || s.offsetWithinAddressSpace ≤ addr &&
    addr ≤ (s.offsetWithinAddressSpace + s.size.toNat + (2 ^ 64 - 1)) % 2 ^ 64

structure PhysPageEntry where
  /-- 0 for a leaf -/
  skip : Nat
  /-- a section for a leaf, else a node -/
  ptr : Nat
  deriving DecidableEq, Repr

def physMapNodeNil : Nat := 2 ^ 26 - 1

def physSectionUnassigned : Nat := 0

structure Subpage where
  base : Nat
  subSection : Nat → Nat

structure AddressSpaceDispatch where
  physMap : PhysPageEntry
  nodes : Nat → Nat → PhysPageEntry
  nodesNb : Nat
  nodesNbAlloc : Nat
  /-- the static `alloc_hint` of `phys_map_node_reserve` -/
  allocHint : Nat
  sections : List MemoryRegionSection
  subpages : List Subpage

namespace AddressSpaceDispatch

/-- Where an entry is stored. -/
inductive Slot where
  | root
  | entry (node index : Nat)
  deriving DecidableEq, Repr

def read (d : AddressSpaceDispatch) : Slot → PhysPageEntry
  | .root => d.physMap
  | .entry node index => d.nodes node index

def write (d : AddressSpaceDispatch) (e : PhysPageEntry) : Slot → AddressSpaceDispatch
  | .root => { d with physMap := e }
  | .entry node index => { d with
      nodes := Function.update d.nodes node (Function.update (d.nodes node) index e) }

variable (t : Target)

def physMapNodeReserve (n : Nat) (d : AddressSpaceDispatch) : AddressSpaceDispatch :=
  if d.nodesNb + n > d.nodesNbAlloc then
    let alloc := max d.allocHint (d.nodesNb + n)
    { d with nodesNbAlloc := alloc, allocHint := alloc }
  else d

def physMapNodeAlloc (leaf : Bool) (d : AddressSpaceDispatch) :
    Except Assertion (AddressSpaceDispatch × Nat) :=
  let ret := d.nodesNb
  let d := { d with nodesNb := d.nodesNb + 1 }
  if ret = physMapNodeNil then .error .nodeNil
  else if ret = d.nodesNbAlloc then .error .nodesAllocated
  else
    let e : PhysPageEntry := ⟨if leaf then 0 else 1, if leaf then physSectionUnassigned
      else physMapNodeNil⟩
    .ok ({ d with nodes := Function.update d.nodes ret fun _ => e }, ret)

/-- The table together with what `index` and `nb` point to. -/
structure Cursor where
  d : AddressSpaceDispatch
  index : Nat
  nb : Nat

/-- The loop over the last `k` entries of a node. -/
def setEntries (leaf step node : Nat) (descend : Slot → Cursor → Except Assertion Cursor) :
    Nat → Cursor → Except Assertion Cursor
  | 0, c => .ok c
  | k + 1, c =>
    if c.nb = 0 then .ok c
    else do
      let lp := Slot.entry node (512 - (k + 1))
      let c ← if c.index % step = 0 ∧ c.nb ≥ step then
          .ok ⟨c.d.write ⟨0, leaf⟩ lp, (c.index + step) % 2 ^ 64, c.nb - step⟩
        else descend lp c
      setEntries leaf step node descend k c

/-- The node below an entry, allocated if there is none. -/
def nodeBelow (leaf : Bool) (lp : Slot) (d : AddressSpaceDispatch) :
    Except Assertion (AddressSpaceDispatch × Nat) :=
  let e := d.read lp
  if e.skip ≠ 0 ∧ e.ptr = physMapNodeNil then do
    let (d, ptr) ← d.physMapNodeAlloc leaf
    return (d.write ⟨e.skip, ptr⟩ lp, ptr)
  else .ok (d, e.ptr)

def physPageSetLevel (leaf : Nat) : Nat → Slot → Cursor → Except Assertion Cursor
  -- at the lowest level every page is a step of its own
  | 0, lp, c => do
    let (d, node) ← nodeBelow true lp c.d
    setEntries leaf 1 node (fun _ c => .ok c) (512 - c.index % 512) { c with d }
  | level + 1, lp, c => do
    let (d, node) ← nodeBelow false lp c.d
    let step := 2 ^ ((level + 1) * 9)
    setEntries leaf step node (physPageSetLevel leaf level) (512 - c.index / step % 512) { c with d }

def physPageSet (index nb leaf : Nat) (d : AddressSpaceDispatch) :
    Except Assertion AddressSpaceDispatch := do
  let d := d.physMapNodeReserve (3 * t.levels)
  let c ← physPageSetLevel leaf (t.levels - 1) .root ⟨d, index, nb⟩
  return c.d

/-- The walk from an entry `i` levels above the pages; `none` if it ends at a missing node. -/
def walk (d : AddressSpaceDispatch) (index : Nat) : Nat → Nat → PhysPageEntry → Option Nat
  | 0, _, lp => some lp.ptr
  | fuel + 1, i, lp =>
    if lp.skip = 0 ∨ i < lp.skip then some lp.ptr
    else if lp.ptr = physMapNodeNil then none
    else walk d index fuel (i - lp.skip) (d.nodes lp.ptr (index / 2 ^ ((i - lp.skip) * 9) % 512))

def unassignedSection : MemoryRegionSection := ⟨.unassigned, 0, 0, 2 ^ 64, false, false, false⟩

def sectionAt (d : AddressSpaceDispatch) (index : Nat) : MemoryRegionSection :=
  d.sections.getD index unassignedSection

def physPageFind (addr : Nat) (d : AddressSpaceDispatch) : MemoryRegionSection :=
  match d.walk (addr / t.pageSize) (t.levels + 1) t.levels d.physMap with
  | none => d.sectionAt physSectionUnassigned
  | some ptr =>
    if (d.sectionAt ptr).sectionCoversAddr addr then d.sectionAt ptr
    else d.sectionAt physSectionUnassigned

def physSectionAdd (s : MemoryRegionSection) (d : AddressSpaceDispatch) :
    Except Assertion (AddressSpaceDispatch × Nat) :=
  if d.sections.length < t.pageSize then .ok ({ d with sections := d.sections ++ [s] }, d.sections.length)
  else .error .sectionsNb

/-- The entries `start` to `last` of a subpage, unless they are outside of it. -/
def subpageRegister (subpage start last sec : Nat) (d : AddressSpaceDispatch) : AddressSpaceDispatch :=
  if start ≥ t.pageSize ∨ last ≥ t.pageSize then d
  else { d with subpages := d.subpages.modify subpage fun p =>
    { p with subSection := fun i => if start ≤ i ∧ i ≤ last then sec else p.subSection i } }

/-- The subpage of the page at `base`, created if the page is unassigned. -/
def subpageOf (base : Nat) (d : AddressSpaceDispatch) : Except Assertion (AddressSpaceDispatch × Nat) :=
  match (d.physPageFind t base).mr with
  | .subpage index => .ok (d, index)
  | .unassigned => do
    let index := d.subpages.length
    let subpage : Subpage := ⟨base, fun _ => physSectionUnassigned⟩
    let d := { d with subpages := d.subpages ++ [subpage] }
    let (d, sec) ← d.physSectionAdd t ⟨.subpage index, 0, base, t.pageSize, false, false, false⟩
    let d ← d.physPageSet t (base / t.pageSize) 1 sec
    return (d, index)
  | .region _ => .error .existingSubpage

def registerSubpage (s : MemoryRegionSection) (d : AddressSpaceDispatch) :
    Except Assertion AddressSpaceDispatch := do
  let base := s.offsetWithinAddressSpace / t.pageSize * t.pageSize
  let (d, subpage) ← d.subpageOf t base
  let start := s.offsetWithinAddressSpace % t.pageSize
  let last := start + (← int128Get64 s.size) - 1
  let (d, sec) ← d.physSectionAdd t s
  return d.subpageRegister t subpage start last sec

def registerMultipage (s : MemoryRegionSection) (d : AddressSpaceDispatch) :
    Except Assertion AddressSpaceDispatch := do
  let (d, sec) ← d.physSectionAdd t s
  let numPages ← int128Get64 (s.size / t.pageSize)
  if numPages = 0 then .error .numPages
  else d.physPageSet t (s.offsetWithinAddressSpace / t.pageSize) numPages sec

/-- A section without its first `n` bytes. -/
def rest (s : MemoryRegionSection) (n : Nat) : MemoryRegionSection :=
  { s with
    size := int128Sub s.size n
    offsetWithinAddressSpace := (s.offsetWithinAddressSpace + n) % 2 ^ 64
    offsetWithinRegion := (s.offsetWithinRegion + n) % 2 ^ 64 }

/-- The whole pages of a section that starts on a page, and the last subpage. -/
def addPages (s : MemoryRegionSection) (d : AddressSpaceDispatch) :
    Except Assertion AddressSpaceDispatch :=
  if s.size ≥ t.pageSize then do
    let now := { s with size := s.size - s.size % t.pageSize }
    let d ← d.registerMultipage t now
    if s.size = now.size then return d
    d.registerSubpage t (rest s (← int128Get64 now.size))
  else d.registerSubpage t s

def flatviewAddToDispatch (s : MemoryRegionSection) (d : AddressSpaceDispatch) :
    Except Assertion AddressSpaceDispatch :=
  if s.offsetWithinAddressSpace % t.pageSize ≠ 0 then do
    let left := t.pageSize - s.offsetWithinAddressSpace % t.pageSize
    let now := { s with size := min (left : Int) s.size }
    let d ← d.registerSubpage t now
    if s.size = now.size then return d
    d.addPages t (rest s (← int128Get64 now.size))
  else d.addPages t s

/-- The loop over the entries of a node from `i` on: compacts the nodes below and returns the
number of entries in use, with the last of them. -/
def compactEntries (compact : Slot → AddressSpaceDispatch → AddressSpaceDispatch) (node : Nat) :
    Nat → Nat → Nat → AddressSpaceDispatch → AddressSpaceDispatch × Nat × Nat
  | 0, valid, validPtr, d => (d, valid, validPtr)
  | k + 1, valid, validPtr, d =>
    let i := 512 - (k + 1)
    if (d.nodes node i).ptr = physMapNodeNil then compactEntries compact node k valid validPtr d
    else
      let d := if (d.nodes node i).skip ≠ 0 then compact (.entry node i) d else d
      compactEntries compact node k (valid + 1) i d

/-- An entry whose node has a single child takes the child's place; `depth` bounds the levels
below it. -/
def physPageCompact : Nat → Slot → AddressSpaceDispatch → AddressSpaceDispatch
  | 0, _, d => d
  | depth + 1, lp, d =>
    if (d.read lp).ptr = physMapNodeNil then d
    else
      let node := (d.read lp).ptr
      let (d, valid, validPtr) := compactEntries (physPageCompact depth) node 512 0 512 d
      if valid ≠ 1 then d
      else
        let child := d.nodes node validPtr
        d.write ⟨if child.skip = 0 then 0 else (d.read lp).skip + child.skip, child.ptr⟩ lp

def addressSpaceDispatchCompact (d : AddressSpaceDispatch) : AddressSpaceDispatch :=
  if d.physMap.skip ≠ 0 then physPageCompact t.levels .root d else d

/-- A table whose only section is the unassigned one. -/
def addressSpaceDispatchNew (allocHint : Nat) : Except Assertion AddressSpaceDispatch := do
  let empty : AddressSpaceDispatch := ⟨⟨1, physMapNodeNil⟩, fun _ _ => ⟨0, 0⟩, 0, 0, allocHint, [], []⟩
  let (d, _) ← empty.physSectionAdd t unassignedSection
  return d

end AddressSpaceDispatch

open AddressSpaceDispatch

structure FlatView where
  ranges : List FlatRange
  dispatch : AddressSpaceDispatch

def sectionFromFlatRange (fr : FlatRange) : Except Assertion MemoryRegionSection := do
  let start ← int128Get64 fr.addr.start
  return ⟨.region fr.mr, fr.offsetInRegion, start, fr.addr.size, fr.readonly, fr.nonvolatile,
    fr.unmergeable⟩

def addRange (t : Target) (d : AddressSpaceDispatch) (fr : FlatRange) :
    Except Assertion AddressSpaceDispatch := do
  d.flatviewAddToDispatch t (← sectionFromFlatRange fr)

/-- Renders the topology under a root; `allocHint` is what earlier views left in `alloc_hint`. -/
def generateMemoryTopology (t : Target) (allocHint : Nat) (mr : Option MemoryRegion) :
    Except Assertion FlatView := do
  let ranges ← renderTopology mr
  let d ← addressSpaceDispatchNew t allocHint
  let d ← ranges.foldlM (addRange t) d
  return ⟨ranges, d.addressSpaceDispatchCompact t⟩

end Qemu.Memory
