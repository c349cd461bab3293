import Qemu.Block.Iov
import Qemu.Lib.Transfer
import Qemu.Util.Osdep

/-! Reads and writes of any offset and length on a node whose driver takes aligned
requests only: padding, read-modify-write, fragmentation and the fallback for zero writes.
The guest-visible image is a function from addresses to bytes that is zero past the end;
copy-on-read is off. -/

namespace Qemu.Block

open Transfer

/-- Separate allocations: the caller's buffers, the padding buffer, the buffer for
collapsed elements and the zeroed buffer of the fallback. -/
inductive Region where
  | user
  | pad
  | bounce
  | zeroes
  deriving DecidableEq, Repr

abbrev Place := Loc Region

abbrev Qiov := List (Iovec Region)

def iovMax : Nat := 1024

def intMax : Nat := 2 ^ 31 - 1

def sizeMax : Nat := 2 ^ 64 - 1

def bdrvRequestMaxBytes : Nat := intMax / 512 * 512

def bdrvMaxLength : Nat := 2 ^ 63 - 2 ^ 30

def maxBounceBuffer : Nat := 32768 * 512

/-- The limits a driver announces, with what `BlockLimits` documents about them. -/
structure BlockLimits where
  requestAlignment : Nat
  maxTransfer : Nat
  maxPwriteZeroes : Nat
  pwriteZeroesAlignment : Nat
  powerOfTwo : ∃ k ≤ 30, requestAlignment = 2 ^ k
  transferAligned : requestAlignment ∣ maxTransfer
  zeroesAligned : requestAlignment ∣ pwriteZeroesAlignment
  zeroesInt : pwriteZeroesAlignment ≤ intMax
  zeroesRoom : maxPwriteZeroes = 0 ∨ max pwriteZeroesAlignment requestAlignment ≤ maxPwriteZeroes

/-- `pwritevPart`, `preadvPart`, `pwriteZeroes`: the driver has the callback. -/
structure Node where
  limits : BlockLimits
  readOnly : Bool
  permResize : Bool
  detectZeroes : Bool
  preadvPart : Bool
  pwritevPart : Bool
  pwriteZeroes : Bool
  zeroNoFallback : Bool

def Node.align (node : Node) : Nat := node.limits.requestAlignment

inductive DriverOp where
  | read
  | write
  | zero
  deriving DecidableEq, Repr

structure DriverCall where
  op : DriverOp
  offset : Nat
  bytes : Nat
  ret : Int
  deriving DecidableEq, Repr

structure IoState where
  image : Nat → UInt8
  totalSectors : Nat
  mem : Place → UInt8
  calls : List DriverCall

def IoState.length (s : IoState) : Nat := s.totalSectors * 512

/-- The return value of the driver's n-th call; any value that is not negative is success. -/
abbrev Driver := DriverOp → Nat → Int

/-- A failed assertion of the code modelled here, or of the permission checks. -/
inductive Fault where
  | padding
  | other
  deriving DecidableEq, Repr

abbrev IoResult := Except Fault (IoState × Int)

def minNonZero (a b : Nat) : Nat := if a = 0 then b else if b = 0 then a else min a b

/-- The conversion of a `size_t` to `int`. -/
def toInt32 (n : Nat) : Int := (n + 2 ^ 31) % 2 ^ 32 - 2 ^ 31

/-- `bdrv_check_qiov_request`; without a vector only the range is checked. -/
def bdrvCheckQiovRequest (offset bytes : Int) (qiov : Option Qiov) (qiovOffset : Nat) : Int :=
  if offset < 0 then -eio
  else if bytes < 0 then -eio
  else if bytes > bdrvMaxLength then -eio
  else if offset > bdrvMaxLength then -eio
  else if offset > bdrvMaxLength - bytes then -eio
  else
    match qiov with
    | none => 0
    | some qiov =>
      if qiovOffset > iovSize qiov then -eio
      else if bytes > iovSize qiov - qiovOffset then -eio
      else 0

def bdrvCheckRequest32 (offset bytes : Int) (qiov : Option Qiov) (qiovOffset : Nat) : Int :=
  let ret := bdrvCheckQiovRequest offset bytes qiov qiovOffset
  if ret < 0 then ret
  else if bytes > bdrvRequestMaxBytes then -eio
  else 0

/-- The places a driver sees of a vector; without the `_part` callback it gets a slice. -/
def driverWindow (part : Bool) (qiov : Qiov) (qiovOffset bytes : Nat) : Except Fault (List Place) :=
  if part then .ok (((locs qiov).drop qiovOffset).take bytes)
  else if qiovOffset > 0 ∨ bytes ≠ iovSize qiov then
    match qemuIovecInitSlice qiov qiovOffset bytes with
    | none => .error .padding
    | some iov => .ok (locs iov)
  else .ok (locs qiov)

def IoState.record (s : IoState) (call : DriverCall) : IoState := { s with calls := s.calls ++ [call] }

section

variable (node : Node) (driver : Driver)

/-- What the driver returns for its next call. -/
def driverRet (op : DriverOp) (s : IoState) : Int := min (driver op s.calls.length) 0

def bdrvDriverPreadv (offset bytes : Nat) (qiov : Qiov) (qiovOffset : Nat) (s : IoState) : IoResult :=
  if bdrvCheckQiovRequest offset bytes (some qiov) qiovOffset < 0 then .error .padding
  else do
    let places ← driverWindow node.preadvPart qiov qiovOffset bytes
    let ret := driverRet driver .read s
    let s := s.record ⟨.read, offset, bytes, ret⟩
    if ret < 0 then
      return (s, ret)
    return ({ s with mem := scatter s.mem places (slice s.image offset bytes) }, 0)

def bdrvDriverPwritev (offset bytes : Nat) (qiov : Qiov) (qiovOffset : Nat) (s : IoState) : IoResult :=
  if bdrvCheckQiovRequest offset bytes (some qiov) qiovOffset < 0 then .error .padding
  else do
    let places ← driverWindow node.pwritevPart qiov qiovOffset bytes
    let ret := driverRet driver .write s
    let s := s.record ⟨.write, offset, bytes, ret⟩
    if ret < 0 then
      return (s, ret)
    return ({ s with image := overwrite s.image offset (places.map s.mem) }, 0)

def driverPwriteZeroes (offset bytes : Nat) (s : IoState) : IoState × Int :=
  let ret := driverRet driver .zero s
  let s := s.record ⟨.zero, offset, bytes, ret⟩
  if ret < 0 then (s, ret)
  else ({ s with image := overwrite s.image offset (List.replicate bytes 0) }, 0)

/-- The longest transfer of an aligned read or write. -/
def Node.maxTransfer : Nat := alignDown (minNonZero node.limits.maxTransfer intMax) node.align

def Node.checkAligned (offset bytes : Nat) : Bool := offset % node.align = 0 && bytes % node.align = 0

/-- The loop of `bdrv_aligned_preadv`; a pass lowers `remaining`, which the fuel bounds. -/
def readFragments (offset bytes : Nat) (qiov : Qiov) (qiovOffset : Nat) : Nat → Nat → Nat →
    IoState → IoResult
  | _, 0, _, s => .ok (s, 0)
  | 0, _ + 1, _, _ => .error .other
  | fuel + 1, remaining, maxBytes, s =>
    let done := bytes - remaining
    if maxBytes ≠ 0 then
      let num := min remaining (min maxBytes node.maxTransfer)
      if num = 0 then .error .padding
      else do
        let (s, ret) ← bdrvDriverPreadv node driver (offset + done) num qiov (qiovOffset + done) s
        if ret < 0 then
          return (s, ret)
        readFragments offset bytes qiov qiovOffset fuel (remaining - num) (maxBytes - num) s
    else
      let places := locs (pieces qiov (qiovOffset + done) remaining)
      let s := { s with mem := scatter s.mem places (List.replicate remaining 0) }
      if toInt32 remaining < 0 then .ok (s, toInt32 remaining) else .ok (s, 0)

def bdrvAlignedPreadv (offset bytes : Nat) (qiov : Qiov) (qiovOffset : Nat) (s : IoState) : IoResult :=
  if bdrvCheckQiovRequest offset bytes (some qiov) qiovOffset < 0 then .error .padding
  else if !node.checkAligned offset bytes then .error .padding
  else
    let maxBytes := roundUp (s.length - offset) node.align
    if bytes ≤ maxBytes ∧ bytes ≤ node.maxTransfer then
      bdrvDriverPreadv node driver offset bytes qiov qiovOffset s
    else readFragments node driver offset bytes qiov qiovOffset bytes bytes maxBytes s

def Node.zeroAlignment : Nat := max node.limits.pwriteZeroesAlignment node.align

def Node.maxWriteZeroes : Nat :=
  alignDown (minNonZero node.limits.maxPwriteZeroes (2 ^ 63 - 1)) node.zeroAlignment

/-- The longest write of the fallback. -/
def Node.maxZeroTransfer : Nat := minNonZero node.limits.maxTransfer maxBounceBuffer

/-- The length of the next request of the loop and the new `head`. -/
def Node.zeroChunk (tail head bytes : Nat) : Nat × Nat :=
  if head ≠ 0 then
    let num := min (min bytes node.maxZeroTransfer) (node.zeroAlignment - head)
    (num, (head + num) % node.zeroAlignment)
  else if tail ≠ 0 ∧ bytes > node.zeroAlignment then (bytes - tail, 0)
  else (bytes, 0)

def zeroBuf (bytes : Nat) : Iovec Region := ⟨.zeroes, 0, bytes⟩

/-- One request of the loop below, by the driver's callback or with a zeroed buffer. Returns
also the bytes it was for. -/
def zeroRequest (noFallback : Bool) (offset num : Nat) (s : IoState) :
    Except Fault (IoState × Int × Nat) :=
  let (s, ret) := if node.pwriteZeroes then driverPwriteZeroes driver offset num s else (s, -enotsup)
  if ret = -enotsup ∧ !noFallback then do
    let num := min num node.maxZeroTransfer
    let s := { s with mem := scatter s.mem (zeroBuf num).locs (List.replicate num 0) }
    let (s, ret) ← bdrvDriverPwritev node driver offset num [zeroBuf num] 0 s
    return (s, ret, num)
  else .ok (s, ret, num)

/-- The loop of `bdrv_co_do_pwrite_zeroes`. -/
def zeroFragments (noFallback : Bool) (tail : Nat) : Nat → Nat → Nat → Nat → IoState → IoResult
  | _, _, _, 0, s => .ok (s, 0)
  | 0, _, _, _ + 1, _ => .error .other
  | fuel + 1, head, offset, bytes, s =>
    let (num, newHead) := node.zeroChunk tail head bytes
    if head ≠ 0 ∧ ¬ num < node.maxWriteZeroes then .error .padding
    else do
      let (s, ret, num) ← zeroRequest node driver noFallback offset (min num node.maxWriteZeroes) s
      if ret ≠ 0 then
        return (s, ret)
      zeroFragments noFallback tail fuel newHead (offset + num) (bytes - num) s

def bdrvCoDoPwriteZeroes (noFallback : Bool) (offset bytes : Nat) (s : IoState) : IoResult :=
  if bdrvCheckQiovRequest offset bytes none 0 < 0 then .error .padding
  else if noFallback ∧ !node.zeroNoFallback then .ok (s, -enotsup)
  else if node.zeroAlignment % node.align ≠ 0 ∨ node.maxWriteZeroes < node.align then .error .padding
  else zeroFragments node driver noFallback ((offset + bytes) % node.zeroAlignment) bytes
    (offset % node.zeroAlignment) offset bytes s

/-- The loop of `bdrv_aligned_pwritev`. -/
def writeFragments (offset bytes : Nat) (qiov : Qiov) (qiovOffset : Nat) : Nat → Nat → IoState → IoResult
  | _, 0, s => .ok (s, 0)
  | 0, _ + 1, _ => .error .other
  | fuel + 1, remaining, s =>
    let done := bytes - remaining
    let num := min remaining node.maxTransfer
    if num = 0 then .error .padding
    else do
      let (s, ret) ← bdrvDriverPwritev node driver (offset + done) num qiov (qiovOffset + done) s
      if ret < 0 then
        return (s, ret)
      writeFragments offset bytes qiov qiovOffset fuel (remaining - num) s

/-- What is written: a window of a vector, or zeroes. -/
inductive Payload where
  | data (qiov : Qiov) (qiovOffset : Nat)
  | zeroes (noFallback : Bool)

def qemuIovecIsZero (mem : Place → UInt8) (qiov : Qiov) (qiovOffset bytes : Nat) : Bool :=
  (locs (pieces qiov qiovOffset bytes)).all fun p => mem p = 0

/-- The write itself, by the driver's function for it. -/
def forwardWrite (offset bytes : Nat) (payload : Payload) (s : IoState) : IoResult :=
  match payload with
  | .zeroes noFallback => bdrvCoDoPwriteZeroes node driver noFallback offset bytes s
  | .data qiov qiovOffset =>
    if node.detectZeroes && node.pwriteZeroes && qemuIovecIsZero s.mem qiov qiovOffset bytes then
      bdrvCoDoPwriteZeroes node driver false offset bytes s
    else if bytes ≤ node.maxTransfer then
      bdrvDriverPwritev node driver offset bytes qiov qiovOffset s
    else writeFragments node driver offset bytes qiov qiovOffset bytes bytes s

/-- `bdrv_co_write_req_finish`: a write past the end makes the image longer. -/
def writeReqFinish (offset bytes : Nat) (ret : Int) (s : IoState) : IoState :=
  let endSector := (offset + bytes + 511) / 512
  if ret = 0 ∧ endSector > s.totalSectors then { s with totalSectors := endSector } else s

def Payload.vector : Payload → Option Qiov
  | .data qiov _ => some qiov
  | .zeroes _ => none

def Payload.vectorOffset : Payload → Nat
  | .data _ qiovOffset => qiovOffset
  | .zeroes _ => 0

def bdrvAlignedPwritev (offset bytes : Nat) (payload : Payload) (s : IoState) : IoResult :=
  if bdrvCheckQiovRequest offset bytes payload.vector payload.vectorOffset < 0 then .error .padding
  else if !node.checkAligned offset bytes then .error .padding
  else if node.readOnly then .ok (writeReqFinish offset bytes (-eperm) s, -eperm)
  else if ¬ (offset + bytes ≤ s.length ∨ node.permResize) then .error .other
  else do
    let (s, ret) ← forwardWrite node driver offset bytes payload s
    return (writeReqFinish offset bytes ret s, ret)

/-- `buf` is `bufLen` bytes of the padding buffer; a collapsed request keeps the elements it
replaced by the bounce buffer. -/
structure Padding where
  bufLen : Nat
  head : Nat
  tail : Nat
  mergeReads : Bool
  preCollapse : Option Qiov

/-- `none` where the request is aligned. -/
def bdrvInitPadding (offset bytes : Nat) : Except Fault (Option Padding) :=
  let align := node.align
  if bdrvCheckQiovRequest offset bytes none 0 < 0 then .error .padding
  else
    let head := offset % align
    let tail := if (offset + bytes) % align = 0 then 0 else align - (offset + bytes) % align
    if head = 0 ∧ tail = 0 then .ok none
    else if bytes = 0 then .error .padding
    else
      let sum := head + bytes + tail
      let bufLen := if sum > align ∧ head ≠ 0 ∧ tail ≠ 0 then 2 * align else align
      .ok (some ⟨bufLen, head, tail, sum = bufLen, none⟩)

/-- The part of the padding buffer that holds the last aligned block. -/
def Padding.tailBuf (pad : Padding) (align : Nat) : Nat := pad.bufLen - align

def padBuf (start bytes : Nat) : Iovec Region := ⟨.pad, start, bytes⟩

/-- The reads of `bdrv_padding_rmw_read`. -/
def rmwReads (pad : Padding) (overlapOffset overlapBytes : Nat) (s : IoState) : IoResult := do
  let bytes := if pad.mergeReads then pad.bufLen else node.align
  let (s, ret) ←
    (if pad.head ≠ 0 ∨ pad.mergeReads then
      bdrvAlignedPreadv node driver overlapOffset bytes [padBuf 0 bytes] 0 s
    else .ok (s, 0))
  if ret < 0 then
    return (s, ret)
  if pad.tail ≠ 0 ∧ !pad.mergeReads then
    bdrvAlignedPreadv node driver (overlapOffset + overlapBytes - node.align) node.align
      [padBuf (pad.tailBuf node.align) node.align] 0 s
  else return (s, 0)

def bdrvPaddingRmwRead (pad : Padding) (overlapOffset overlapBytes : Nat) (zeroMiddle : Bool)
    (s : IoState) : IoResult := do
  let (s, ret) ← rmwReads node driver pad overlapOffset overlapBytes s
  if ret < 0 then
    return (s, ret)
  if zeroMiddle then
    let middle := padBuf pad.head (pad.bufLen - pad.head - pad.tail)
    return ({ s with mem := scatter s.mem middle.locs (List.replicate middle.len 0) }, 0)
  return (s, 0)

def bounceBuf (bytes : Nat) : Iovec Region := ⟨.bounce, 0, bytes⟩

/-- The first elements of `iov` go through the bounce buffer; returns the vector built so far
and the rest of `iov` with its first byte and its length. -/
def collapse (write : Bool) (collapseCount : Nat) (iov : Qiov) (iovOffset : Nat) (s : IoState) :
    IoState × Qiov :=
  let preCollapse := pieces (iov.take collapseCount) iovOffset sizeMax
  let buf := bounceBuf (iovSize preCollapse)
  (if write then { s with mem := scatter s.mem buf.locs ((locs preCollapse).map s.mem) } else s,
    preCollapse)

/-- `pad->local_qiov`, the padding with the elements it replaced, and the return value. -/
def bdrvCreatePaddedQiov (pad : Padding) (write : Bool) (iov : Qiov) (iovOffset bytes : Nat)
    (s : IoState) : Except Fault (IoState × Int × Padding × Qiov) :=
  if iov.length > iovMax then .error .padding
  else if sizeMax - pad.head < bytes ∨ sizeMax - pad.head - bytes < pad.tail then
    .ok (s, -einval, pad, [])
  else
    let headCount := if pad.head ≠ 0 then 1 else 0
    let tailCount := if pad.tail ≠ 0 then 1 else 0
    let paddedNiov := headCount + iov.length + tailCount
    let head : Qiov := if pad.head ≠ 0 then [padBuf 0 pad.head] else []
    let tail : Qiov := if pad.tail ≠ 0 then [padBuf (pad.bufLen - pad.tail) pad.tail] else []
    if paddedNiov > iovMax then
      let surplusCount := paddedNiov - iovMax
      if surplusCount > headCount + tailCount then .error .padding
      else
        let (s, preCollapse) := collapse write (surplusCount + 1) iov iovOffset s
        let localQiov := head ++ [bounceBuf (iovSize preCollapse)] ++
          pieces (iov.drop (surplusCount + 1)) 0 (bytes - iovSize preCollapse) ++ tail
        if localQiov.length ≠ min paddedNiov iovMax then .error .padding
        else .ok (s, 0, { pad with preCollapse := some preCollapse }, localQiov)
    else
      let localQiov := head ++ pieces iov iovOffset bytes ++ tail
      if localQiov.length ≠ min paddedNiov iovMax then .error .padding
      else .ok (s, 0, pad, localQiov)

/-- The request after `bdrv_pad_request`, with its padding if there is one. -/
structure PaddedRequest where
  offset : Nat
  bytes : Nat
  qiov : Qiov
  qiovOffset : Nat
  pad : Option Padding

def bdrvPadRequest (write : Bool) (offset bytes : Nat) (qiov : Qiov) (qiovOffset : Nat)
    (s : IoState) : Except Fault (IoState × Int × PaddedRequest) := do
  let unpadded : PaddedRequest := ⟨offset, bytes, qiov, qiovOffset, none⟩
  if bdrvCheckRequest32 offset bytes (some qiov) qiovOffset < 0 then
    return (s, bdrvCheckRequest32 offset bytes (some qiov) qiovOffset, unpadded)
  match ← bdrvInitPadding node offset bytes with
  | none => return (s, 0, unpadded)
  | some pad =>
    match qemuIovecSlice qiov qiovOffset bytes with
    | none => .error .padding
    | some (iov, head) =>
      let (s, ret, pad, localQiov) ← bdrvCreatePaddedQiov pad write iov head bytes s
      if ret < 0 then
        return (s, ret, unpadded)
      return (s, 0, ⟨offset - pad.head, bytes + pad.head + pad.tail, localQiov, 0, some pad⟩)

/-- `bdrv_padding_finalize` copies what was read into the bounce buffer to its place. -/
def bdrvPaddingFinalize (write : Bool) (pad : Option Padding) (s : IoState) : IoState :=
  match pad.bind Padding.preCollapse with
  | none => s
  | some preCollapse =>
    let read := (bounceBuf (iovSize preCollapse)).locs.map s.mem
    if write then s else { s with mem := scatter s.mem (locs preCollapse) read }

def bdrvCoPreadvPart (offset bytes : Int) (qiov : Qiov) (qiovOffset : Nat) (s : IoState) : IoResult :=
  let ret := bdrvCheckRequest32 offset bytes (some qiov) qiovOffset
  if ret < 0 then .ok (s, ret)
  else if bytes = 0 ∧ offset.toNat % node.align ≠ 0 then .ok (s, 0)
  else do
    let (s, ret, req) ← bdrvPadRequest node false offset.toNat bytes.toNat qiov qiovOffset s
    if ret < 0 then
      return (s, ret)
    let (s, ret) ← bdrvAlignedPreadv node driver req.offset req.bytes req.qiov req.qiovOffset s
    return (bdrvPaddingFinalize false req.pad s, ret)

/-- The serialised region of a request, in units of the request alignment. -/
def Node.overlap (offset bytes : Nat) : Nat × Nat :=
  let overlapOffset := alignDown offset node.align
  (overlapOffset, roundUp (offset + bytes) node.align - overlapOffset)

/-- The last, partial block of a zero write. -/
def zeroTail (pad : Option Padding) (offset bytes : Nat) (s : IoState) : IoResult :=
  let align := node.align
  if bytes = 0 then .ok (s, 0)
  else if offset % align ≠ 0 then .error .padding
  else
    match pad with
    | none => .error .padding
    | some pad =>
      if align ≠ pad.tail + bytes then .error .padding
      else bdrvAlignedPwritev node driver offset align
        (.data [padBuf (pad.tailBuf align) align] 0) s

/-- The middle and the tail of a zero write, from an aligned offset on. -/
def zeroMiddleAndTail (noFallback : Bool) (pad : Option Padding) (offset bytes : Nat)
    (s : IoState) : IoResult :=
  let align := node.align
  if bytes ≠ 0 ∧ offset % align ≠ 0 then .error .padding
  else if bytes ≥ align then do
    let alignedBytes := alignDown bytes align
    let (s, ret) ← bdrvAlignedPwritev node driver offset alignedBytes (.zeroes noFallback) s
    if ret < 0 then
      return (s, ret)
    zeroTail node driver pad (offset + alignedBytes) (bytes - alignedBytes) s
  else zeroTail node driver pad offset bytes s

def bdrvCoDoZeroPwritev (noFallback : Bool) (offset bytes : Nat) (s : IoState) : IoResult := do
  match ← bdrvInitPadding node offset bytes with
  | none => zeroMiddleAndTail node driver noFallback none offset bytes s
  | some pad =>
    let (overlapOffset, overlapBytes) := node.overlap offset bytes
    -- the result of the reads is not looked at
    let (s, _) ← bdrvPaddingRmwRead node driver pad overlapOffset overlapBytes true s
    if pad.head ≠ 0 ∨ pad.mergeReads then
      let writeBytes := if pad.mergeReads then pad.bufLen else node.align
      let (s, ret) ← bdrvAlignedPwritev node driver (alignDown offset node.align) writeBytes
        (.data [padBuf 0 writeBytes] 0) s
      if ret < 0 ∨ pad.mergeReads then
        return (s, ret)
      zeroMiddleAndTail node driver noFallback (some pad) (offset + (writeBytes - pad.head))
        (bytes - (writeBytes - pad.head)) s
    else zeroMiddleAndTail node driver noFallback (some pad) offset bytes s

/-- The read-modify-write reads of a padded data write. -/
def rmwForWrite (req : PaddedRequest) (s : IoState) : Except Fault IoState :=
  match req.pad with
  | none => .ok s
  | some pad =>
    let (overlapOffset, overlapBytes) := node.overlap req.offset req.bytes
    -- nor is it here
    Prod.fst <$> bdrvPaddingRmwRead node driver pad overlapOffset overlapBytes false s

def bdrvCoPwritevPart (offset bytes : Int) (payload : Payload) (s : IoState) : IoResult :=
  match payload with
  | .zeroes noFallback =>
    let ret := bdrvCheckQiovRequest offset bytes none 0
    if ret < 0 then .ok (s, ret)
    else if noFallback ∧ ¬ (offset.toNat % node.align = 0 ∧ bytes.toNat % node.align = 0) then
      .ok (s, -enotsup)
    else if bytes = 0 ∧ offset.toNat % node.align ≠ 0 then .ok (s, 0)
    else bdrvCoDoZeroPwritev node driver noFallback offset.toNat bytes.toNat s
  | .data qiov qiovOffset =>
    let ret := bdrvCheckRequest32 offset bytes (some qiov) qiovOffset
    if ret < 0 then .ok (s, ret)
    else if bytes = 0 ∧ offset.toNat % node.align ≠ 0 then .ok (s, 0)
    else do
      let (s, ret, req) ← bdrvPadRequest node true offset.toNat bytes.toNat qiov qiovOffset s
      if ret < 0 then
        return (s, ret)
      let s ← rmwForWrite node driver req s
      let (s, ret) ← bdrvAlignedPwritev node driver req.offset req.bytes
        (.data req.qiov req.qiovOffset) s
      return (bdrvPaddingFinalize true req.pad s, ret)

end

end Qemu.Block
