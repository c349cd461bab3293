import Qemu.Lib.BitWords
import Qemu.Lib.Loop
import Qemu.Lib.ZeroByte

/-! The XBZRLE page codec: the portable encoder, the AVX512 encoder and the
decoder. Buffers are byte lists; every store to the destination is logged with
its index, so that a store past the end is visible. -/

namespace Qemu.Xbzrle

open Loop

/-- At most two groups of seven bits; `none` is the failed assertion. -/
def uleb128EncodeSmall (n : Nat) : Option (List UInt8) :=
  if n ≤ 0x3fff then
    if n < 0x80 then some [UInt8.ofNat n]
    else some [UInt8.ofNat ((n &&& 0x7f) ||| 0x80), UInt8.ofNat (n >>> 7)]
  else none

/-- As `(*n, bytes read)`; `none` is the negative return. -/
def uleb128DecodeSmall (src : List UInt8) (i : Nat) : Option (Nat × Nat) :=
  let first := src.getD i 0
  if first &&& 0x80 = 0 then some (first.toNat, 1)
  else
    let second := src.getD (i + 1) 0
    -- we exceed 14 bit number
    if second &&& 0x80 ≠ 0 then none
    else some ((first &&& 0x7f).toNat ||| (second.toNat <<< 7), 2)

/-- The output position with the log of stores made so far. -/
structure Dst where
  d : Nat
  stores : List (Nat × UInt8)
  deriving DecidableEq, Repr

namespace Dst

def empty : Dst := ⟨0, []⟩

/-- Store bytes at the output position and advance it. -/
def put (dst : Dst) (bytes : List UInt8) : Dst :=
  ⟨dst.d + bytes.length, dst.stores ++ (bytes.zipIdx dst.d).map Prod.swap⟩

def putUleb (dst : Dst) (n : Nat) : Option Dst := (uleb128EncodeSmall n).map dst.put

end Dst

/-- What an encoder returns and everything it stored. -/
structure Encoded where
  ret : Int
  stores : List (Nat × UInt8)
  deriving DecidableEq, Repr

def Dst.overflow (dst : Dst) : Encoded := ⟨-1, dst.stores⟩

def Dst.finish (dst : Dst) : Encoded := ⟨dst.d, dst.stores⟩

/-- The destination byte at an index: the last one stored there. -/
def load (stores : List (Nat × UInt8)) (k : Nat) : UInt8 :=
  ((stores.reverse.find? (·.1 == k)).map Prod.snd).getD 0

/-- The first `ret` bytes of the destination. -/
def Encoded.bytes (encoded : Encoded) : List UInt8 :=
  (List.range encoded.ret.toNat).map (load encoded.stores)

section Portable

variable (oldBuf newBuf : List UInt8)

def sameAt (i : Nat) : Bool := oldBuf.getD i 0 == newBuf.getD i 0

/-- `*(long *)(buf + i)`. -/
def loadLong (buf : List UInt8) (i : Nat) : BitVec 64 := ZeroByte.word ((buf.drop i).take 8)

/-- The loop up to the next aligned byte, as `(res, i, run length)`. -/
def unaligned (test : Nat → Bool) : Nat → Nat → Nat → Nat × Nat × Nat
  | 0, i, run => (0, i, run)
  | res + 1, i, run => if test i then unaligned test res (i + 1) (run + 1) else (res + 1, i, run)

/-- Extend a zero run word by word, then byte by byte, as `(i, run length)`. -/
def zrunWords (slen : Nat) (i run : Nat) : Nat × Nat :=
  repeatWhile (fun s => decide (s.1 < slen) && sameAt oldBuf newBuf s.1)
    (fun s => (s.1 + 1, s.2 + 1)) slen
    (repeatWhile (fun s => decide (s.1 < slen) && loadLong oldBuf s.1 == loadLong newBuf s.1)
      (fun s => (s.1 + 8, s.2 + 8)) slen (i, run))

/-- Whether the words differ in every byte, found without looking at the bytes. -/
def endsNzrun (i : Nat) : Bool :=
  let mask : BitVec 64 := 0x0101010101010101
  let xor := loadLong oldBuf i ^^^ loadLong newBuf i
  (xor - mask) &&& ~~~xor &&& (mask <<< 7) != 0

/-- Extend a nonzero run word by word up to the word it ends in. -/
def nzrunWords (slen : Nat) : Nat → Nat → Nat → Nat × Nat
  | 0, i, run => (i, run)
  | fuel + 1, i, run =>
    if i < slen then
      if endsNzrun oldBuf newBuf i then
        repeatWhile (fun s => !sameAt oldBuf newBuf s.1) (fun s => (s.1 + 1, s.2 + 1)) slen (i, run)
      else nzrunWords slen fuel (i + 8) (run + 8)
    else (i, run)

def scanZrun (slen i zrunLen : Nat) : Nat × Nat :=
  let (res, i, zrunLen) := unaligned (sameAt oldBuf newBuf) ((slen - i) % 8) i zrunLen
  if res = 0 then zrunWords oldBuf newBuf slen i zrunLen else (i, zrunLen)

def scanNzrun (slen i nzrunLen : Nat) : Nat × Nat :=
  let (res, i, nzrunLen) := unaligned (fun k => !sameAt oldBuf newBuf k) ((slen - i) % 8) i nzrunLen
  if res = 0 then nzrunWords oldBuf newBuf slen slen i nzrunLen else (i, nzrunLen)

structure Scan where
  i : Nat
  dst : Dst
  deriving DecidableEq, Repr

/-- One pass of the portable encoder: a zero run and the nonzero run after it.
Both run lengths are zero at the top of every pass. -/
def encodePass (slen dlen : Nat) (s : Scan) : Option (Step Scan Encoded) :=
  if s.i < slen then
    -- overflow
    if s.dst.d + 2 > dlen then some (.done s.dst.overflow)
    else
      let (i, zrunLen) := scanZrun oldBuf newBuf slen s.i 0
      -- buffer unchanged
      if zrunLen = slen then some (.done ⟨0, s.dst.stores⟩)
      -- skip last zero run
      else if i = slen then some (.done s.dst.finish)
      else
        match s.dst.putUleb zrunLen with
        | none => none
        | some dst =>
          let nzrunStart := i
          -- overflow
          if dst.d + 2 > dlen then some (.done dst.overflow)
          else
            let (i, nzrunLen) := scanNzrun oldBuf newBuf slen i 0
            match dst.putUleb nzrunLen with
            | none => none
            | some dst =>
              -- overflow
              if dst.d + nzrunLen > dlen then some (.done dst.overflow)
              else some (.next ⟨i, dst.put ((newBuf.drop nzrunStart).take nzrunLen)⟩)
  else some (.done s.dst.finish)

/-- The portable `xbzrle_encode_buffer`; `none` is a failed assertion. -/
def encodeBufferInt (dlen : Nat) : Option Encoded :=
  let slen := oldBuf.length
  if slen % 8 ≠ 0 then none
  else run (encodePass oldBuf newBuf slen dlen) (slen + 1) ⟨0, Dst.empty⟩

end Portable

section Avx512

variable (oldBuf newBuf : List UInt8)

/-- `_mm512_mask_loadu_epi8` over zeros: the lanes of a masked load. -/
def maskLoadu (mask : BitVec 64) (buf : List UInt8) (i : Nat) (lane : Fin 64) : UInt8 :=
  if mask.getLsbD lane then buf.getD (i + lane) 0 else 0

/-- `_mm512_cmpeq_epi8_mask`. -/
def cmpeqMask (a b : Fin 64 → UInt8) : BitVec 64 :=
  (BitVec.ofBoolListLE (List.ofFn fun lane => a lane == b lane)).setWidth 64

abbrev ctz64 : BitVec 64 → Nat := BitWords.ctz

/-- The variables that live across blocks. -/
structure Lanes where
  zrunLen : Nat
  nzrunLen : Nat
  i : Nat
  neverSame : Bool
  dst : Dst
  deriving DecidableEq, Repr

/-- The variables of one block. -/
structure Block where
  lanes : Lanes
  bytesToCheck : Nat
  comp : BitVec 64
  isSame : Bool
  deriving DecidableEq, Repr

/-- Write out the pending nonzero run: its length, the capacity check, its bytes. -/
def flushNzrun (dlen : Nat) (s : Lanes) : Option (Encoded ⊕ Lanes) :=
  match s.dst.putUleb s.nzrunLen with
  | none => none
  | some dst =>
    -- overflow
    if dst.d + s.nzrunLen > dlen then some (.inl dst.overflow)
    else some (.inr { s with
      dst := dst.put ((newBuf.drop (s.i - s.nzrunLen)).take s.nzrunLen)
      nzrunLen := 0 })

def flushZrun (s : Lanes) : Option Lanes :=
  (s.dst.putUleb s.zrunLen).map fun dst => { s with dst := dst, zrunLen := 0 }

/-- The end of a pass: the diff part of the block from `i` on. -/
def diffPart (dlen : Nat) (b : Block) : Option (Step Block (Encoded ⊕ Lanes)) :=
  -- has diff, 64 data at a time for speed
  if b.bytesToCheck = 64 ∧ b.comp = 0 then
    some (.done (.inr { b.lanes with i := b.lanes.i + 64, nzrunLen := b.lanes.nzrunLen + 64 }))
  else
    let num := min (ctz64 b.comp) b.bytesToCheck
    let lanes := { b.lanes with i := b.lanes.i + num, nzrunLen := b.lanes.nzrunLen + num }
    let bytesToCheck := b.bytesToCheck - num
    let comp := b.comp >>> num
    if bytesToCheck ≠ 0 then
      -- mask like 111000
      match flushNzrun newBuf dlen lanes with
      | none => none
      | some (.inl encoded) => some (.done (.inl encoded))
      | some (.inr lanes) => some (.next ⟨lanes, bytesToCheck, comp, true⟩)
    else some (.next ⟨lanes, bytesToCheck, comp, b.isSame⟩)

/-- The start of a pass over equal data; `.next` falls through to the diff part. -/
def samePart (dlen count512s : Nat) (b : Block) : Option (Step Block (Encoded ⊕ Lanes)) :=
  match (if b.lanes.nzrunLen ≠ 0 then flushNzrun newBuf dlen b.lanes else some (.inr b.lanes)) with
  | none => none
  | some (.inl encoded) => some (.done (.inl encoded))
  | some (.inr lanes) =>
    -- 64 data at a time for speed
    if count512s ≠ 0 ∧ b.comp = BitVec.allOnes 64 then
      some (.done (.inr { lanes with i := lanes.i + 64, zrunLen := lanes.zrunLen + 64 }))
    else
      let num := min (ctz64 (~~~b.comp)) b.bytesToCheck
      let lanes := { lanes with neverSame := false, zrunLen := lanes.zrunLen + num, i := lanes.i + num }
      let bytesToCheck := b.bytesToCheck - num
      let comp := b.comp >>> num
      if bytesToCheck ≠ 0 then
        -- still has different data after same data
        match flushZrun lanes with
        | none => none
        | some lanes => some (.next ⟨lanes, bytesToCheck, comp, b.isSame⟩)
      else some (.done (.inr lanes))

/-- The middle of a pass: a zero run carried into the block ends before the diff
part. `neverSame` only acts if data begins with diff. -/
def carriedZrun (lanes : Lanes) : Option Lanes :=
  if lanes.neverSame ∨ lanes.zrunLen ≠ 0 then
    (flushZrun lanes).map fun lanes => { lanes with neverSame := false }
  else some lanes

def blockPass (dlen count512s : Nat) (b : Block) : Option (Step Block (Encoded ⊕ Lanes)) :=
  if b.bytesToCheck = 0 then some (.done (.inr b.lanes))
  else if b.lanes.dst.d + 2 > dlen then some (.done (.inl b.lanes.dst.overflow))
  else
    match (if b.isSame then samePart newBuf dlen count512s b else some (.next b)) with
    | none => none
    | some (.done exit) => some (.done exit)
    | some (.next b) =>
      match carriedZrun b.lanes with
      | none => none
      | some lanes => diffPart newBuf dlen { b with lanes := lanes }

/-- The block loop; the argument is `count512s`. -/
def blocks (slen dlen : Nat) : Nat → Lanes → Option (Encoded ⊕ Lanes)
  | 0, s => some (.inr s)
  | count512s + 1, s =>
    let countResidual := slen % 64
    let bytesToCheck := if count512s = 0 then countResidual else 64
    let maskResidual : BitVec 64 := ((1 : BitVec 64) <<< countResidual) - 1
    let mask := if count512s = 0 then maskResidual else BitVec.allOnes 64
    let comp := cmpeqMask (maskLoadu mask oldBuf s.i) (maskLoadu mask newBuf s.i)
    match run (blockPass newBuf dlen count512s) 66 ⟨s, bytesToCheck, comp, comp.getLsbD 0⟩ with
    | none => none
    | some (.inl encoded) => some (.inl encoded)
    | some (.inr s) => blocks slen dlen count512s s

/-- `xbzrle_encode_buffer_avx512`; `none` is a failed assertion. -/
def encodeBufferAvx512 (dlen : Nat) : Option Encoded :=
  let slen := oldBuf.length
  match blocks oldBuf newBuf slen dlen (slen / 64 + 1) ⟨0, 0, 0, true, Dst.empty⟩ with
  | none => none
  | some (.inl encoded) => some encoded
  | some (.inr s) =>
    if s.nzrunLen ≠ 0 then
      (flushNzrun newBuf dlen s).map fun
        | .inl encoded => encoded
        | .inr s => s.dst.finish
    else some s.dst.finish

end Avx512

/-- What the decoder returns and the destination it leaves. -/
structure Decoded where
  ret : Int
  dst : List UInt8
  deriving DecidableEq, Repr

structure Cursor where
  i : Nat
  d : Nat
  dst : List UInt8
  deriving DecidableEq, Repr

/-- `memcpy(dst + d, bytes)`. -/
def memcpy (dst : List UInt8) (d : Nat) (bytes : List UInt8) : List UInt8 :=
  dst.take d ++ bytes ++ dst.drop (d + bytes.length)

/-- One pass of the decoder: a zero run and the nonzero run after it. -/
def decodePass (src : List UInt8) (s : Cursor) : Option (Step Cursor Decoded) :=
  let slen := src.length
  let dlen := s.dst.length
  let failed : Option (Step Cursor Decoded) := some (.done ⟨-1, s.dst⟩)
  if s.i < slen then
    -- zrun
    if slen - s.i < 2 then failed
    else
      match uleb128DecodeSmall src s.i with
      | none => failed
      | some (count, read) =>
        if s.i ≠ 0 ∧ count = 0 then failed
        else
          let i := s.i + read
          let d := s.d + count
          -- overflow
          if d > dlen then failed
          -- nzrun
          else if slen - i < 2 then failed
          else
            match uleb128DecodeSmall src i with
            | none => failed
            | some (count, read) =>
              if count = 0 then failed
              else
                let i := i + read
                -- overflow
                if d + count > dlen ∨ i + count > slen then failed
                else some (.next ⟨i + count, d + count, memcpy s.dst d ((src.drop i).take count)⟩)
  else some (.done ⟨s.d, s.dst⟩)

/-- `xbzrle_decode_buffer` over a whole source and destination. -/
def decodeBuffer (src dst : List UInt8) : Option Decoded :=
  run (decodePass src) (src.length + 1) ⟨0, 0, dst⟩

end Qemu.Xbzrle
