import Qemu.Block.Io

/-! The block status of a node and of a chain of nodes. -/

namespace Qemu.Block.Status

/-- A failed assertion, a call for no node, or a node that refers to itself without end. -/
inductive StatusFault where
  | assertion
  | nullPointer
  | endless
  deriving DecidableEq, Repr

/-- The node that a driver returns as `file`. -/
inductive FileRef where
  | none
  | self
  | filterOrCow
  | file (k : Nat)
  deriving DecidableEq, Repr

/-- What `bdrv_co_block_status` of a driver returns if it succeeds. -/
structure DriverStatus where
  data : Bool
  zero : Bool
  offsetValid : Bool
  raw : Bool
  recurse : Bool
  pnum : Nat
  map : Nat
  file : FileRef
  deriving DecidableEq, Repr

/-- `is_filter`, `supports_backing`, or neither. -/
inductive DriverKind where
  | filter
  | backing
  | plain
  deriving DecidableEq, Repr

structure Layer where
  /-- `bdrv_co_getlength` -/
  getlength : Int
  requestAlignment : Nat
  kind : DriverKind
  /-- there is a `protocol_name` -/
  protocol : Bool
  /-- `QLIST_EMPTY(&bs->children)` -/
  noChildren : Bool
  /-- the block status cache: start and end of the data, if valid -/
  cache : Option (Nat × Nat)
  /-- the driver's `bdrv_co_block_status` for a mode, an offset and a length -/
  blockStatus : Option (Nat → Nat → Nat → Except Int DriverStatus)
  /-- the bytes that this layer determines -/
  owned : Nat → Bool
  /-- what is read from the layer where it does not ask another node -/
  content : Nat → UInt8

/-- A node with the child that it filters or is based on, and its other children. -/
inductive BlockNode where
  | null
  | mk (layer : Layer) (filterOrCow : BlockNode) (files : Nat → BlockNode)

namespace BlockNode

def isNull : BlockNode → Bool
  | null => true
  | mk .. => false

def getlength : BlockNode → Int
  | null => 0
  | mk layer _ _ => layer.getlength

def bdrvFilterOrCowBs : BlockNode → BlockNode
  | null => null
  | mk _ next _ => next

/-- The layer at some depth below a node. -/
def layerAt (node : BlockNode) : Nat → BlockNode
  | 0 => node
  | depth + 1 => (node.layerAt depth).bdrvFilterOrCowBs

end BlockNode

structure BlockStatus where
  data : Bool := false
  zero : Bool := false
  offsetValid : Bool := false
  allocated : Bool := false
  eof : Bool := false
  recurse : Bool := false
  pnum : Nat := 0
  map : Nat := 0
  file : Option BlockNode := none

abbrev StatusResult := Except StatusFault (Except Int BlockStatus)

def bdrvWantPrecise : Nat := 2 ||| 4 ||| 4

namespace Layer

variable (layer : Layer)

/-- `bdrv_filter_child` is there. -/
def filters (next : BlockNode) : Bool := layer.kind = .filter && !next.isNull

def bdrvBscIsData (offset : Nat) : Option Nat :=
  match layer.cache with
  | none => none
  | some (dataStart, dataEnd) => if dataStart ≤ offset ∧
    offset < dataEnd then some (dataEnd - offset) else none

/-- The result that the cache may be filled with. -/
def cacheable (mode : Nat) (status : DriverStatus) : Bool :=
  mode = bdrvWantPrecise && status.data && status.offsetValid && !status.zero && !status.raw &&
    !status.recurse && layer.noChildren

/-- The cache, the driver, or the default for filters. -/
def queryDriver (mode offset bytes : Nat) : Except StatusFault (Except Int DriverStatus) :=
  match layer.blockStatus with
  | none => .ok (.ok ⟨false, false, true, true, false, bytes, offset, .filterOrCow⟩)
  | some blockStatus =>
    match if layer.noChildren then layer.bdrvBscIsData offset else none with
    | some pnum => .ok (.ok ⟨true, false, true, false, false, pnum, offset, .self⟩)
    | none =>
      match blockStatus mode offset bytes with
      | .error error => .ok (.error error)
      | .ok status =>
        if layer.cacheable mode status ∧ ¬ (status.file = .self ∧ status.map = offset) then
          .error .assertion
        else .ok (.ok status)

end Layer

def childOf (bs next : BlockNode) (files : Nat → BlockNode) : FileRef → BlockNode
  | .none => .null
  | .self => bs
  | .filterOrCow => next
  | .file k => files k

/-- Bytes that are not allocated in a layer read as zero if nothing is below. -/
def zeroBelow (layer : Layer) (next : BlockNode) (mode offset : Nat) : Bool :=
  layer.kind = .backing && (next.isNull ||
    (mode = bdrvWantPrecise && (0 ≤ next.getlength && next.getlength ≤ offset)))

/-- The driver's answer as it is returned, with the zeroes of the file below. `ask` is the block
status of another node. -/
def layerStatus (ask : FileRef → Nat → Nat → StatusResult) (bs next : BlockNode)
    (files : Nat → BlockNode) (layer : Layer)
    (mode offset : Nat) (status : DriverStatus) (pnum map : Nat) : StatusResult :=
  let allocated := status.data || status.zero
  let answer : BlockStatus :=
    { data := status.data, zero := status.zero || (!allocated && zeroBelow layer next mode offset),
      offsetValid := status.offsetValid, allocated := allocated, recurse := status.recurse,
      pnum := pnum, map := map,
      file := (if (childOf bs next files status.file).isNull then none
        else some (childOf bs next files status.file)) }
  if mode = bdrvWantPrecise ∧ status.recurse ∧ !(childOf bs next files status.file).isNull ∧
      status.file ≠ .self ∧ answer.data ∧ !answer.zero ∧ answer.offsetValid then
    match ask status.file map pnum with
    | .error fault => .error fault
    -- errors are ignored, this is extra information
    | .ok (.error _) => .ok (.ok { answer with recurse := false })
    | .ok (.ok below) =>
      if below.eof ∧ (below.pnum = 0 ∨ below.zero) then
        .ok (.ok { answer with recurse := false, zero := true })
      else .ok (.ok { answer with recurse := false, pnum := below.pnum, zero := below.zero })
  else .ok (.ok answer)

/-- A result that covers the end of the node says so. -/
def markEof (total offset : Nat) (status : BlockStatus) : BlockStatus :=
  if offset + status.pnum = total then { status with eof := true } else status

/-- The body of `bdrv_co_do_block_status`. -/
def doBlockStatus (ask : FileRef → Nat → Nat → StatusResult) (bs next : BlockNode)
    (files : Nat → BlockNode) (layer : Layer) (mode offset bytes : Nat) : StatusResult :=
  if layer.getlength < 0 then .ok (.error layer.getlength)
  else
    let total := layer.getlength.toNat
    if offset ≥ total then .ok (.ok { eof := true })
    else if bytes = 0 then .ok (.ok { })
    else
      let bytes := min bytes (total - offset)
      if layer.blockStatus.isNone ∧ !layer.filters next then
        let status : BlockStatus :=
          { data := true, allocated := true, eof := offset + bytes = total, pnum := bytes }
        .ok (.ok (if layer.protocol then
          { status with offsetValid := true, map := offset, file := some bs } else status))
      else
        let align := layer.requestAlignment
        let alignedOffset := alignDown offset align
        match layer.queryDriver mode alignedOffset (roundUp (offset + bytes) align - alignedOffset) with
        | .error fault => .error fault
        | .ok (.error error) => .ok (.error error)
        | .ok (.ok status) =>
          if ¬ (status.pnum ≠ 0 ∧ status.pnum % align = 0 ∧ align > offset - alignedOffset) then
            .error .assertion
          else if status.recurse ∧ ¬ (status.data ∧ status.offsetValid ∧ !status.zero) then
            .error .assertion
          else
            let pnum := min (status.pnum - (offset - alignedOffset)) bytes
            let map := if status.offsetValid then status.map + (offset - alignedOffset) else status.map
            let result :=
              if status.raw then
                if !status.offsetValid ∨ (childOf bs next files status.file).isNull then .error .assertion
                else ask status.file map pnum
              else layerStatus ask bs next files layer mode offset status pnum map
            result.map fun reply => reply.map (markEof total offset)

def bdrvCoDoBlockStatus : BlockNode → Nat → Nat → Nat → StatusResult
  | .null, _, _, _ => .error .nullPointer
  | .mk layer next files, mode, offset, bytes =>
    let ask (file : FileRef) : Nat → Nat → StatusResult :=
      match file with
      | .none => fun _ _ => .error .nullPointer
      | .self => fun _ _ => .error .endless
      | .filterOrCow => bdrvCoDoBlockStatus next mode
      | .file k => bdrvCoDoBlockStatus (files k) mode
    doBlockStatus ask (.mk layer next files) next files layer mode offset bytes

abbrev AboveResult := Except StatusFault (Nat × Except Int BlockStatus)

/-- The layers below the first, with the depth and the last answer so far. `base` is its depth in
the chain, or none for `NULL`. -/
def searchBelow (base : Option Nat) (includeBase : Bool) (mode offset : Nat) : BlockNode → Nat →
    Nat → BlockStatus → AboveResult
  | .null, depth, _, last => if !includeBase ∧ base = none then .ok (depth, .ok last)
    else .error .nullPointer
  | .mk layer next files, depth, bytes, last =>
    if !includeBase ∧ base = some depth then .ok (depth, .ok last)
    else
      match bdrvCoDoBlockStatus (.mk layer next files) mode offset bytes with
      | .error fault => .error fault
      | .ok (.error error) => .ok (depth + 1, .error error)
      | .ok (.ok status) =>
        if status.pnum = 0 then
          -- this layer is short, zeroes beyond its end are as if allocated here
          if !status.eof then .error .assertion
          else
            .ok (depth + 1, .ok
              { zero := true, allocated := true, pnum := bytes, map := status.map,
                file := some (.mk layer next files) })
        else if status.allocated then .ok (depth + 1, .ok { status with eof := false })
        else if base = some depth then .ok (depth + 1, .ok status)
        else if status.pnum > bytes then .error .assertion
        else searchBelow base includeBase mode offset next (depth + 1) status.pnum status

/-- `EOF` of the first layer is that of the result if the result gets as far. -/
def restoreEof (offset : Nat) (first last : BlockStatus) : BlockStatus :=
  let eof := if first.eof then offset + first.pnum else 0
  markEof eof offset last

def bdrvCoCommonBlockStatusAbove (bs : BlockNode) (base : Option Nat) (includeBase : Bool)
    (mode offset bytes : Nat) : AboveResult :=
  if includeBase ∧ base = none then .error .assertion
  else if !includeBase ∧ base = some 0 then .ok (0, .ok { pnum := bytes })
  else
    match bdrvCoDoBlockStatus bs mode offset bytes with
    | .error fault => .error fault
    | .ok (.error error) => .ok (1, .error error)
    | .ok (.ok first) =>
      if first.pnum = 0 ∨ first.allocated ∨ base = some 0 then .ok (1, .ok first)
      else if first.pnum > bytes then .error .assertion
      else
        (searchBelow base includeBase mode offset bs.bdrvFilterOrCowBs 1 first.pnum first).map
          fun (depth, reply) =>
          (depth, reply.map (restoreEof offset first))

def bdrvWantZero : Nat := 2

/-- The chain is known to read as zeroes; the fuel is for the bytes that are left. -/
def bdrvCoIsZeroFast (bs : BlockNode) : Nat → Nat → Nat → Except StatusFault (Except Int Bool)
  | 0, _, bytes => if bytes = 0 then .ok (.ok true) else .error .endless
  | fuel + 1, offset, bytes =>
    if bytes = 0 then .ok (.ok true)
    else
      match bdrvCoCommonBlockStatusAbove bs none false bdrvWantZero offset bytes with
      | .error fault => .error fault
      | .ok (_, .error error) => .ok (.error error)
      | .ok (_, .ok status) =>
        if !status.zero then .ok (.ok false)
        else bdrvCoIsZeroFast bs fuel (offset + status.pnum) (bytes - status.pnum)

end Qemu.Block.Status
