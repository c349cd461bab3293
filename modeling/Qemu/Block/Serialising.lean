import Qemu.Block.Io

/-! Tracked requests on one node: when a request is serialising, whom it waits for, and how requests
interleave. -/

namespace Qemu.Block.Serialising

/-- The units of a node: the request alignment, what `bdrv_get_cluster_size` returns, and the
subcluster size or 0. -/
structure Units where
  align : Nat
  clusterSize : Nat
  subclusterSize : Nat
  alignPower : ∃ k, align = 2 ^ k
  clusterPower : ∃ k, clusterSize = 2 ^ k
  subclusters : subclusterSize ≠ 0 → subclusterSize ∣ clusterSize

inductive Call where
  | read (offset bytes : Nat) (copyOnRead : Bool)
  | write (offset bytes : Nat) (zeroWrite serialising noWait : Bool)
  deriving DecidableEq, Repr

/-- What the driver is given to do; `padding` for the reads of a read-modify-write cycle. -/
structure Transfer where
  write : Bool
  padding : Bool
  offset : Nat
  bytes : Nat
  deriving DecidableEq, Repr

/-- A part of a request: it may become serialising in some unit, waits for conflicting requests and
hands a transfer to the driver. -/
structure Step where
  serialise : Option Nat
  /-- the lock is held already, so that it is not asked first whether any request is serialising -/
  locked : Bool
  noWait : Bool
  transfer : Option Transfer
  deriving DecidableEq, Repr

def bdrvRoundToSubclusters (subclusterSize offset bytes : Nat) : Nat × Nat :=
  if subclusterSize = 0 then (offset, bytes)
  else
    let alignOffset := alignDown offset subclusterSize
    (alignOffset, roundUp (offset - alignOffset + bytes) subclusterSize)

section

variable (units : Units)

def padHead (offset : Nat) : Nat := offset % units.align

def padTail (offset bytes : Nat) : Nat :=
  if (offset + bytes) % units.align = 0 then 0 else units.align - (offset + bytes) % units.align

def padded (offset bytes : Nat) : Bool := padHead units offset ≠ 0 ∨ padTail units offset bytes ≠ 0

def padBufLen (offset bytes : Nat) : Nat :=
  let sum := padHead units offset + bytes + padTail units offset bytes
  if sum > units.align ∧ padHead units offset ≠ 0 ∧
    padTail units offset bytes ≠ 0 then 2 * units.align else units.align

def mergeReads (offset bytes : Nat) : Bool :=
  padHead units offset + bytes + padTail units offset bytes = padBufLen units offset bytes

/-- The aligned range around a request. -/
def alignedOffset (offset : Nat) : Nat := alignDown offset units.align

def alignedBytes (offset bytes : Nat) : Nat :=
  roundUp (offset + bytes) units.align - alignedOffset units offset

def bdrvMakeRequestSerialising (unit : Nat) : Step := ⟨some unit, true, false, none⟩

/-- `bdrv_aligned_preadv` without copy-on-read. -/
def readStep (padding : Bool) (offset bytes : Nat) : Step :=
  ⟨none, false, false, some ⟨false, padding, offset, bytes⟩⟩

def bdrvPaddingRmwRead (offset bytes : Nat) : List Step :=
  let merge := mergeReads units offset bytes
  let start := alignedOffset units offset
  (if padHead units offset ≠ 0 ∨ merge then
    [readStep true start (if merge then padBufLen units offset bytes else units.align)]
  else []) ++
  (if padTail units offset bytes ≠ 0 ∧ !merge then
    [readStep true (start + alignedBytes units offset bytes - units.align) units.align]
  else [])

/-- `bdrv_aligned_pwritev`, with the waiting of `bdrv_co_write_req_prepare`. -/
def bdrvAlignedPwritev (serialising noWait : Bool) (offset bytes : Nat) : Step :=
  ⟨if serialising then some units.clusterSize else none, serialising, noWait,
    some ⟨true, false, offset, bytes⟩⟩

/-- The middle and the last block of a zero write. -/
def zeroMiddleAndTail (serialising noWait : Bool) (offset bytes : Nat) : List Step :=
  let middle := alignDown bytes units.align
  (if bytes ≥ units.align then [bdrvAlignedPwritev units serialising noWait offset middle] else []) ++
  (if bytes - middle ≠ 0 then
    [bdrvAlignedPwritev units serialising noWait (offset + middle) units.align] else [])

/-- The writes of `bdrv_co_do_zero_pwritev`. -/
def zeroWrites (serialising noWait : Bool) (offset bytes : Nat) : List Step :=
  let merge := mergeReads units offset bytes
  let head := padHead units offset
  if padded units offset bytes ∧ (head ≠ 0 ∨ merge) then
    let writeBytes := if merge then padBufLen units offset bytes else units.align
    bdrvAlignedPwritev units serialising noWait (alignedOffset units offset) writeBytes ::
      (if merge then []
      else zeroMiddleAndTail units serialising noWait (offset + (writeBytes - head))
        (bytes - (writeBytes - head)))
  else zeroMiddleAndTail units serialising noWait offset bytes

/-- The reads of a read-modify-write cycle, if the request is not aligned. -/
def rmwSteps (offset bytes : Nat) : List Step :=
  if padded units offset bytes then
    bdrvMakeRequestSerialising units.align :: bdrvPaddingRmwRead units offset bytes
  else []

/-- The range that is tracked for a call and its steps; none for an unaligned request without bytes,
and for a combination of flags that fails an assertion. -/
def program : Call → Option (Nat × Nat × List Step)
  | .read offset bytes copyOnRead =>
    if bytes = 0 ∧ padHead units offset ≠ 0 then none
    else
      let start := alignedOffset units offset
      let length := alignedBytes units offset bytes
      let window := bdrvRoundToSubclusters units.subclusterSize start length
      some (start, length,
        [if copyOnRead then ⟨some units.clusterSize, true, false, some ⟨true, false, window.1, window.2⟩⟩
        else readStep false start length])
  | .write offset bytes zeroWrite serialising noWait =>
    if bytes = 0 ∧ padHead units offset ≠ 0 then none
    else if noWait ∧ (padded units offset bytes ∨ !serialising) then none
    else if zeroWrite then
      some (offset, bytes, rmwSteps units offset bytes ++ zeroWrites units serialising noWait offset bytes)
    else
      some (alignedOffset units offset, alignedBytes units offset bytes, rmwSteps units offset bytes ++
        [bdrvAlignedPwritev units serialising noWait (alignedOffset units offset)
        (alignedBytes units offset bytes)])

end

/-- `BdrvTrackedRequest`, with what the driver does for it and what is left to do. `woken` is for a
request that waits but is scheduled to go on. -/
structure Tracked where
  call : Call
  offset : Nat
  bytes : Nat
  serialising : Bool
  overlapOffset : Nat
  overlapBytes : Nat
  waitingFor : Option Nat
  woken : Bool
  transfer : Option Transfer
  steps : List Step
  deriving DecidableEq, Repr

/-- The tracked requests, the latest first; a request is known by its address. -/
structure State where
  tracked : List Nat
  req : Nat → Tracked
  serialisingInFlight : Nat

def State.set (s : State) (id : Nat) (req : Tracked) : State :=
  { s with req := Function.update s.req id req }

def initial : State := ⟨[], fun _ => ⟨.read 0 0 false, 0, 0, false, 0, 0, none, false, none, []⟩, 0⟩

def trackedRequestBegin (s : State) (id : Nat) (call : Call) (offset bytes : Nat)
    (steps : List Step) : State :=
  { s.set id ⟨call, offset, bytes, false, offset, bytes, none, false, none, steps⟩ with tracked :=
    id :: s.tracked }

def trackedRequestEnd (s : State) (id : Nat) : State where
  tracked := s.tracked.erase id
  -- whoever waits for the request is scheduled
  req j := if (s.req j).waitingFor = some id then { s.req j with woken := true } else s.req j
  serialisingInFlight := if (s.req id).serialising then s.serialisingInFlight - 1
    else s.serialisingInFlight

def trackedRequestOverlaps (req : Tracked) (offset bytes : Nat) : Bool :=
  !(offset ≥ req.overlapOffset + req.overlapBytes) && !(req.overlapOffset ≥ offset + bytes)

/-- One of the requests is serialising and they overlap. -/
def conflicts (self req : Tracked) : Bool :=
  (req.serialising || self.serialising) && trackedRequestOverlaps req self.overlapOffset self.overlapBytes

/-- The first request that conflicts and does not wait itself. -/
def bdrvFindConflictingRequest (s : State) (id : Nat) : Option Nat :=
  s.tracked.find? fun j => j ≠ id && conflicts (s.req id) (s.req j) && (s.req j).waitingFor.isNone

def setSerialising (req : Tracked) (unit : Nat) : Tracked :=
  let overlapOffset := alignDown req.offset unit
  let overlapBytes := roundUp (req.offset + req.bytes) unit - overlapOffset
  { req with
    serialising := true, overlapOffset := min req.overlapOffset overlapOffset,
    overlapBytes := max req.overlapBytes overlapBytes }

def trackedRequestSetSerialising (s : State) (id unit : Nat) : State :=
  { s.set id (setSerialising (s.req id) unit) with
    serialisingInFlight := if (s.req id).serialising then s.serialisingInFlight
      else s.serialisingInFlight + 1 }

/-- The first part of a step. -/
def beginStep (s : State) (id : Nat) (step : Step) : State :=
  match step.serialise with
  | none => s
  | some unit => trackedRequestSetSerialising s id unit

/-- The request that a step has to wait for, if any. -/
def findConflict (s : State) (id : Nat) (step : Step) : Option Nat :=
  if !step.locked ∧ s.serialisingInFlight = 0 then none else bdrvFindConflictingRequest s id

/-- A request goes on until it waits, has something for the driver, or is done. -/
def execute (s : State) (id : Nat) : List Step → State
  | [] => trackedRequestEnd s id
  | step :: rest =>
    let s := beginStep s id step
    match findConflict s id step with
    | some other =>
      if step.noWait then trackedRequestEnd s id
      else s.set id { s.req id with
        waitingFor := some other, woken := false, steps :=
          { step with serialise := none, locked := true } :: rest }
    | none =>
      match step.transfer with
      | none => execute s id rest
      | some transfer => s.set id { s.req id with transfer := some transfer, steps := rest }

/-- A failed read of the padding ends these reads only. -/
def afterFailure (transfer : Transfer) (steps : List Step) : List Step :=
  if transfer.padding then
    steps.dropWhile fun step => match step.transfer with
      | some transfer => transfer.padding
      | none => false
  else []

inductive Event where
  | begins (id : Nat) (call : Call)
  | completes (id : Nat) (success : Bool)
  | resumes (id : Nat)
  deriving DecidableEq, Repr

/-- What happens from one point where coroutines switch to the next; an event that is not possible
does nothing. -/
def step (units : Units) (s : State) : Event → State
  | .begins id call =>
    if id ∈ s.tracked then s
    else
      match program units call with
      | none => s
      | some (offset, bytes, steps) => execute (trackedRequestBegin s id call offset bytes steps) id steps
  | .completes id success =>
    if id ∈ s.tracked then
      match (s.req id).transfer with
      | none => s
      | some transfer =>
        execute (s.set id { s.req id with transfer := none }) id
          (if success then (s.req id).steps else afterFailure transfer (s.req id).steps)
    else s
  | .resumes id =>
    if id ∈ s.tracked ∧ (s.req id).waitingFor ≠ none ∧ (s.req id).woken then
      execute (s.set id { s.req id with waitingFor := none, woken := false }) id (s.req id).steps
    else s

def run (units : Units) (events : List Event) : State := events.foldl (step units) initial

end Qemu.Block.Serialising
