import Qemu.Block.Limits

/-! The copy-before-write filter: a guest request has the clusters that it changes copied to the
target first, and reads of the snapshot take the copied clusters from the target, all others from
the source. -/

namespace Qemu.Block.CopyBeforeWrite

open Function

structure Options where
  clusterSize : Nat
  clusterSize_pos : 0 < clusterSize
  /-- `ON_CBW_ERROR_BREAK_SNAPSHOT`, else `ON_CBW_ERROR_BREAK_GUEST_WRITE` -/
  breakSnapshot : Bool

inductive GuestPhase where
  /-- in `block_copy` -/
  | copying
  /-- in `reqlist_wait_all` -/
  | waiting
  /-- the request is passed on to the source -/
  | writing
  | failed
  deriving DecidableEq, Repr

/-- A write, a write of zeroes or a discard; `unchanged` is `BDRV_REQ_WRITE_UNCHANGED`. -/
structure Guest where
  offset : Nat
  bytes : Nat
  unchanged : Bool
  phase : GuestPhase

inductive ReadPhase where
  /-- at the head of the loop -/
  | idle
  /-- reads a piece, from the target if it is done -/
  | reading (done : Bool) (curBytes : Nat)
  | returned (success : Bool)
  deriving DecidableEq, Repr

/-- A snapshot read, what is left of it, and the bytes that it has read. -/
structure Read where
  start : Nat
  total : Nat
  offset : Nat
  bytes : Nat
  data : Nat → Option UInt8
  phase : ReadPhase

/-- The images and the bitmaps. Of `block_copy` there are its bitmap, the clusters of its tasks,
what they have read of the source and what of it they have written. -/
structure Filter where
  source : Nat → UInt8
  target : Nat → UInt8
  copyBitmap : Nat → Bool
  inFlight : Nat → Bool
  buffer : Nat → Option UInt8
  written : Nat → Bool
  accessBitmap : Nat → Bool
  doneBitmap : Nat → Bool
  snapshotError : Bool

/-- The filter and the requests. -/
structure State extends Filter where
  guests : List Guest
  reads : List Read

inductive Event where
  | guest (offset bytes : Nat) (unchanged : Bool)
  /-- `block_copy` returns -/
  | copied (guest : Nat) (success : Bool)
  /-- no frozen read is left to wait for -/
  | proceed (guest : Nat)
  | store (guest x : Nat) (value : UInt8)
  /-- a task of `block_copy` for a cluster -/
  | task (cluster : Nat)
  | taskRead (x : Nat)
  | taskWrite (x : Nat)
  | taskEnd (cluster : Nat) (success : Bool)
  | read (offset bytes : Nat)
  | lock (read : Nat)
  | transfer (read x : Nat)
  | unlock (read : Nat) (success : Bool)
  /-- `cbw_co_pdiscard_snapshot` -/
  | discard (offset bytes : Nat)
  /-- the target loses a byte of a discarded cluster -/
  | lose (x : Nat) (value : UInt8)

namespace Options

variable (o : Options)

def cluster (x : Nat) : Nat := x / o.clusterSize

/-- The bits of the clusters in an aligned range. -/
def setBits (value : Bool) (start stop : Nat) (bitmap : Nat → Bool) (c : Nat) : Bool :=
  if start ≤ c * o.clusterSize ∧ c * o.clusterSize < stop then value else bitmap c

/-- The aligned range of a guest request. -/
def alignedOffset (g : Guest) : Nat := alignDown g.offset o.clusterSize

def alignedEnd (g : Guest) : Nat := roundUp (g.offset + g.bytes) o.clusterSize

end Options

/-- The clusters that `block_copy` has done with. -/
abbrev Filter.Settled (s : Filter) (c : Nat) : Prop := s.copyBitmap c = false ∧ s.inFlight c = false

/-- `bdrv_dirty_bitmap_status`: how far the bit of the first cluster goes on. -/
def pnum (o : Options) (bitmap : Nat → Bool) (offset bytes : Nat) : Nat :=
  ((List.range bytes).takeWhile fun k => bitmap (o.cluster (offset + k)) == bitmap
    (o.cluster offset)).length

def snapshotReadLock (o : Options) (s : Filter) (offset bytes : Nat) : ReadPhase :=
  if s.snapshotError then .returned false
  else if ∃ k < bytes, s.accessBitmap (o.cluster (offset + k)) = false then .returned false
  else .reading (s.doneBitmap (o.cluster offset)) (pnum o s.doneBitmap offset bytes)

/-- Whether a read is among `frozen_read_reqs` and overlaps a range. -/
def Read.frozen (r : Read) (start stop : Nat) : Bool :=
  match r.phase with
  | .reading false _ => r.offset < stop && start < r.offset + r.bytes
  | _ => false

/-- After a piece. -/
def Read.next (r : Read) (curBytes : Nat) : Read :=
  { r with
    offset := r.offset + curBytes
    bytes := r.bytes - curBytes
    phase := if r.bytes - curBytes = 0 then .returned true else .idle }

def Guest.to (g : Guest) (phase : GuestPhase) : Guest := { g with phase }

/-- What happens between two yields; `none` if it can not happen. -/
def step (o : Options) (s : State) : Event → Option State
  | .guest offset bytes unchanged =>
    let phase := if unchanged || s.snapshotError then .writing else .copying
    some { s with guests := s.guests ++ [⟨offset, bytes, unchanged, phase⟩] }
  | .copied i success => do
    let g ← s.guests[i]?
    if g.phase ≠ .copying then none
    else if success then
      if ∀ c < o.alignedEnd g, o.alignedOffset g ≤ c * o.clusterSize ∧
          c * o.clusterSize < o.alignedEnd g → s.Settled c then
        some { s with
          doneBitmap := o.setBits true (o.alignedOffset g) (o.alignedEnd g) s.doneBitmap
          guests := s.guests.set i (g.to .waiting) }
      else none
    else if o.breakSnapshot then
      some { s with snapshotError := true, guests := s.guests.set i (g.to .waiting) }
    else some { s with guests := s.guests.set i (g.to .failed) }
  | .proceed i => do
    let g ← s.guests[i]?
    if g.phase = .waiting ∧ ∀ r ∈ s.reads, r.frozen (o.alignedOffset g) (o.alignedEnd g) = false then
      some { s with guests := s.guests.set i (g.to .writing) }
    else none
  | .store i x value => do
    let g ← s.guests[i]?
    if g.phase = .writing ∧ g.offset ≤ x ∧ x < g.offset + g.bytes then
      some (if g.unchanged then s else { s with source := update s.source x value })
    else none
  | .task c =>
    if s.copyBitmap c then
      some { s with
        copyBitmap := update s.copyBitmap c false
        inFlight := update s.inFlight c true
        buffer := fun x => if o.cluster x = c then none else s.buffer x
        written := fun x => if o.cluster x = c then false else s.written x }
    else none
  | .taskRead x =>
    if s.inFlight (o.cluster x) then some { s with buffer := update s.buffer x (some (s.source x)) }
      else none
  | .taskWrite x => do
    let value ← s.buffer x
    if s.inFlight (o.cluster x) then
      some { s with target := update s.target x value, written := update s.written x true }
    else none
  | .taskEnd c success =>
    if s.inFlight c ∧ (success → ∀ k < o.clusterSize, s.written (c * o.clusterSize + k)) then
      some { s with
        copyBitmap := update s.copyBitmap c (s.copyBitmap c || !success)
        inFlight := update s.inFlight c false }
    else none
  | .read offset bytes =>
    let phase := if bytes = 0 then .returned true else .idle
    some { s with reads := s.reads ++ [⟨offset, bytes, offset, bytes, fun _ => none, phase⟩] }
  | .lock i => do
    let r ← s.reads[i]?
    if r.phase = .idle then
      some { s with
        reads := s.reads.set i { r with phase := snapshotReadLock o s.toFilter r.offset r.bytes } }
    else none
  | .transfer i x => do
    let r ← s.reads[i]?
    match r.phase with
    | .reading done curBytes =>
      if r.offset ≤ x ∧ x < r.offset + curBytes then
        let value := if done then s.target x else s.source x
        some { s with reads := s.reads.set i { r with data := update r.data x (some value) } }
      else none
    | _ => none
  | .unlock i success => do
    let r ← s.reads[i]?
    match r.phase with
    | .reading _ curBytes =>
      if success then
        if ∀ k < curBytes, (r.data (r.offset + k)).isSome then
          some { s with reads := s.reads.set i (r.next curBytes) }
        else none
      else some { s with reads := s.reads.set i { r with phase := .returned false } }
    | _ => none
  | .discard offset bytes =>
    let start := roundUp offset o.clusterSize
    let stop := alignDown (offset + bytes) o.clusterSize
    some { s with
      accessBitmap := o.setBits false start stop s.accessBitmap
      copyBitmap := o.setBits false start stop s.copyBitmap }
  | .lose x value =>
    if s.accessBitmap (o.cluster x) then none else some { s with target := update s.target x value }

def run (o : Options) (s : State) : List Event → Option State
  | [] => some s
  | event :: rest => step o s event >>= fun next => run o next rest

/-- The filter is activated: the clusters of `bitmap` are to be copied and may be read. -/
def activated (source target : Nat → UInt8) (bitmap : Nat → Bool) : State where
  source
  target
  copyBitmap := bitmap
  inFlight _ := false
  buffer _ := none
  written _ := false
  accessBitmap := bitmap
  doneBitmap _ := false
  snapshotError := false
  guests := []
  reads := []

end Qemu.Block.CopyBeforeWrite
