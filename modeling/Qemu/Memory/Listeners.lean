import Qemu.Memory.TopologyTotal

/-! How the listeners of an address space learn of a new `FlatView`: one pass over the old and the
new ranges removes, a second one adds. -/

namespace Qemu.Memory

open Spans

inductive Callback where
  | regionAdd (s : MemoryRegionSection)
  | regionDel (s : MemoryRegionSection)
  | regionNop (s : MemoryRegionSection)
  | logStart (s : MemoryRegionSection) (old new : BitVec 8)
  | logStop (s : MemoryRegionSection) (old new : BitVec 8)
  | coalescedIoAdd (s : MemoryRegionSection) (addr : AddrRange)
  | coalescedIoDel (s : MemoryRegionSection) (addr : AddrRange)
  deriving DecidableEq, Repr

/-- The calls that take something back go to the listeners in reverse order. -/
def Callback.reverse : Callback → Bool
  | .regionDel _ | .logStop .. | .coalescedIoDel .. => true
  | _ => false

/-- The part of a coalesced range that a range of the view shows. -/
def shownPart (fr : FlatRange) (cmr : AddrRange) : Option AddrRange :=
  let tmp : AddrRange := ⟨int128Add cmr.start (int128Sub fr.addr.start fr.offsetInRegion), cmr.size⟩
  if tmp.addrrangeIntersects fr.addr then some (tmp.addrrangeIntersection fr.addr) else none

/-- `flat_range_coalesced_io_notify`: it goes on after a range that is not shown. -/
def flatRangeCoalescedIo (call : MemoryRegionSection → AddrRange → Callback)
    (s : MemoryRegionSection) (fr : FlatRange) (coalesced : List AddrRange) : List Callback :=
  coalesced.filterMap fun cmr => (shownPart fr cmr).map (call s)

def flatrangeEqual (a b : FlatRange) : Bool :=
  a.mr = b.mr && a.addr = b.addr && a.offsetInRegion = b.offsetInRegion && a.romdMode = b.romdMode &&
    a.readonly = b.readonly && a.nonvolatile = b.nonvolatile && a.unmergeable = b.unmergeable

/-- The branches of the loop. -/
inductive Change where
  | removed (frold : FlatRange)
  | kept (frold frnew : FlatRange)
  | added (frnew : FlatRange)

/-- The branches that the loop takes from `iold` and `inew` on. -/
def symmetricDifference : List FlatRange → List FlatRange → List Change
  | [], [] => []
  | [], frnew :: new => .added frnew :: symmetricDifference [] new
  | frold :: old, [] => .removed frold :: symmetricDifference old []
  | frold :: old, frnew :: new =>
    if frold.addr.start < frnew.addr.start ∨ frold.addr.start = frnew.addr.start ∧
      !flatrangeEqual frold frnew then
      .removed frold :: symmetricDifference old (frnew :: new)
    else if flatrangeEqual frold frnew then .kept frold frnew :: symmetricDifference old new
    else .added frnew :: symmetricDifference (frold :: old) new

def logCalls (s : MemoryRegionSection) (old new : BitVec 8) : List Callback :=
  (if new &&& ~~~old ≠ 0 then [.logStart s old new] else []) ++
    (if old &&& ~~~new ≠ 0 then [.logStop s old new] else [])

namespace Change

/-- The pass that acts on a branch, by its `adding`. -/
def adding : Change → Bool
  | .removed _ => false
  | .kept .. | .added _ => true

/-- The range that listeners are told of. -/
def range : Change → FlatRange
  | .removed fr | .kept _ fr | .added fr => fr

def calls (coalesced : Nat → List AddrRange) (s : MemoryRegionSection) : Change → List Callback
  | .removed frold => flatRangeCoalescedIo .coalescedIoDel s frold (coalesced frold.mr) ++ [.regionDel s]
  | .kept frold frnew => .regionNop s :: logCalls s frold.dirtyLogMask frnew.dirtyLogMask
  | .added frnew => .regionAdd s :: flatRangeCoalescedIo .coalescedIoAdd s frnew (coalesced frnew.mr)

end Change

def runChanges (coalesced : Nat → List AddrRange) : List Change → Except Assertion (List Callback)
  | [] => .ok []
  | change :: rest => do
    let s ← sectionFromFlatRange change.range
    return change.calls coalesced s ++ (← runChanges coalesced rest)

def addressSpaceUpdateTopologyPass (coalesced : Nat → List AddrRange)
    (oldView newView : List FlatRange) (adding : Bool) : Except Assertion (List Callback) :=
  runChanges coalesced ((symmetricDifference oldView newView).filter (·.adding = adding))

/-- A `FlatView` object, which address spaces can share; `id` stands for its address. -/
structure SharedView where
  id : Nat
  ranges : List FlatRange
  deriving DecidableEq

structure AddressSpace where
  root : Nat
  listeners : List Nat
  currentMap : Option SharedView

namespace AddressSpace

/-- The ranges of the current view, or of the empty one that stands for no view. -/
def ranges (as : AddressSpace) : List FlatRange := (as.currentMap.map SharedView.ranges).getD []

def deliver (as : AddressSpace) (call : Callback) : List (Nat × Callback) :=
  (if call.reverse then as.listeners.reverse else as.listeners).map fun listener => (listener, call)

def setFlatview (coalesced : Nat → List AddrRange) (newView : SharedView) (as : AddressSpace) :
    Except Assertion (AddressSpace × List (Nat × Callback)) :=
  if as.currentMap = some newView then .ok (as, [])
  else if as.listeners.isEmpty then .ok ({ as with currentMap := some newView }, [])
  else do
    let removing ← addressSpaceUpdateTopologyPass coalesced as.ranges newView.ranges false
    let adding ← addressSpaceUpdateTopologyPass coalesced as.ranges newView.ranges true
    return ({ as with currentMap := some newView }, (removing ++ adding).flatMap as.deliver)

end AddressSpace

/-- The calls that one listener gets. -/
def heard (listener : Nat) (calls : List (Nat × Callback)) : List Callback :=
  (calls.filter fun call => call.1 = listener).map Prod.snd

def Callback.about : Callback → MemoryRegionSection
  | .regionAdd s | .regionDel s | .regionNop s | .logStart s _ _ | .logStop s _ _ | .coalescedIoAdd s _
  | .coalescedIoDel s _ => s

/-- The calls that leave the set of sections as it is. -/
def Callback.Stays : Callback → Prop
  | .regionAdd _ | .regionDel _ => False
  | _ => True

/-- The calls for a section that did not change. -/
def Callback.Keeps : Callback → Prop
  | .regionNop _ | .logStart .. | .logStop .. => True
  | _ => False

def MemoryRegionSection.Apart (s other : MemoryRegionSection) : Prop :=
  s.stop ≤ other.offsetWithinAddressSpace ∨ other.stop ≤ s.offsetWithinAddressSpace

/-- The sets of sections of a listener that adds and removes what it is told to: what it removes is
there, and what it adds does not overlap anything. -/
inductive Mirrors : Set MemoryRegionSection → List Callback → Set MemoryRegionSection → Prop where
  | nil (mirror : Set MemoryRegionSection) : Mirrors mirror [] mirror
  | add {mirror last : Set MemoryRegionSection} {s : MemoryRegionSection} {calls : List Callback}
      (apart : ∀ other ∈ mirror, s.Apart other) (more : Mirrors (insert s mirror) calls last) :
      Mirrors mirror (.regionAdd s :: calls) last
  | del {mirror last : Set MemoryRegionSection} {s : MemoryRegionSection} {calls : List Callback}
      (present : s ∈ mirror) (more : Mirrors (mirror \ {s}) calls last) :
      Mirrors mirror (.regionDel s :: calls) last
  | stay {mirror last : Set MemoryRegionSection} {call : Callback} {calls : List Callback}
      (stays : call.Stays) (more : Mirrors mirror calls last) : Mirrors mirror (call :: calls) last

/-- What a call does to the clients that log a section. -/
def Callback.log (s : MemoryRegionSection) (mask : BitVec 8) : Callback → BitVec 8
  | .logStart s' old new => if s' = s then mask ||| (new &&& ~~~old) else mask
  | .logStop s' old new => if s' = s then mask &&& ~~~(old &&& ~~~new) else mask
  | _ => mask

def sections (ranges : List FlatRange) : Set MemoryRegionSection :=
  {s | ∃ fr ∈ ranges, rangeSection fr = s}

end Qemu.Memory
