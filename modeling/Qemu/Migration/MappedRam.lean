import Qemu.Lib.BitScan

/-! Loading a RAM block from a mapped-ram migration file. -/

namespace Qemu.MappedRam

open BitScan

structure RAMBlock where
  usedLength : Nat
  /-- whether `host` is not `NULL` -/
  mapped : Bool
  usedLength_lt : usedLength < 2 ^ 64 := by decide

/-- What the load depends on besides the file and the block. -/
structure Destination where
  /-- `TARGET_PAGE_BITS` -/
  pageBits : Nat
  /-- the state is `RUN_STATE_RESTORE_VM` -/
  restoreVm : Bool
  multifd : Bool
  /-- whether `multifd_recv` takes the chunk for an offset -/
  multifdRecv : Nat → Bool
  /-- what `buffer_is_zero` says about a range of the block -/
  bufferIsZero : Nat → Nat → Bool
  /-- the largest size that `g_malloc0` can provide -/
  memory : Nat

def Destination.pageSize (dst : Destination) : Nat := 2 ^ dst.pageBits

structure MappedRamHeader where
  version : Nat
  pageSize : Nat
  bitmapOffset : Nat
  pagesOffset : Nat
  deriving DecidableEq, Repr

/-- The number of pages that the block has according to the header. -/
def MappedRamHeader.numPages (header : MappedRamHeader) (length : Nat) : Nat := length / header.pageSize

def MappedRamHeader.bitmapSize (header : MappedRamHeader) (length : Nat) : Nat :=
  (header.numPages length + 63) % 2 ^ 64 / 64 * 8

inductive LoadError where
  | header (got : Nat)
  | version (got : Nat)
  | alignment
  | bitmap
  | zeroPage
  | page
  | read (offset fileOffset : Nat)
  deriving DecidableEq, Repr

/-- How the load ends: `outOfMemory` is `g_malloc0` giving up, `nullBitmap` a search in a bitmap
that was allocated with size 0. -/
inductive Outcome where
  | loaded
  | failed (error : LoadError)
  | divisionByZero
  | outOfMemory
  | nullBitmap
  deriving DecidableEq, Repr

/-- Bytes stored into the block. -/
structure Store where
  offset : Nat
  size : Nat
  deriving DecidableEq, Repr

/-- How many bytes `pread` delivers; a position above 2^63 is negative. -/
def pread (file : List UInt8) (pos size : Nat) : Nat :=
  if pos < 2 ^ 63 then min size (file.length - pos) else 0

def bigEndian (bytes : List UInt8) : Nat := bytes.foldl (fun n byte => n * 256 + byte.toNat) 0

def mappedRamReadHeader (file : List UInt8) (pos : Nat) : Except LoadError MappedRamHeader :=
  let bytes := (file.drop pos).take 28
  if bytes.length ≠ 28 then .error (.header bytes.length)
  else
    let version := bigEndian (bytes.take 4)
    if version > 1 then .error (.version version)
    else .ok ⟨version, bigEndian ((bytes.drop 4).take 8), bigEndian ((bytes.drop 12).take 8),
      bigEndian ((bytes.drop 20).take 8)⟩

/-- A bit of the bitmap in the file, as a little-endian host sees it. -/
def bitmapBit (file : List UInt8) (bitmapOffset i : Nat) : Bool :=
  (file.getD (bitmapOffset + i / 8) 0).toNat.testBit (i % 8)

def mappedRamLoadBufSize : Nat := 0x100000

def RAMBlock.hostFromRamBlockOffset (block : RAMBlock) (offset : Nat) : Bool :=
  block.mapped && offset < block.usedLength

section Load

variable (dst : Destination) (file : List UInt8) (block : RAMBlock)

def handleZeroMappedRam (first last : Nat) (stores : List Store) : List Store × Option LoadError :=
  if !dst.restoreVm then (stores, none)
  else if first ≥ last then (stores, none)
  else
    let size := dst.pageSize * (last - first) % 2 ^ 64
    let offset := first * dst.pageSize % 2 ^ 64
    if !block.hostFromRamBlockOffset offset then (stores, some .zeroPage)
    -- `ram_handle_zero`
    else if dst.bufferIsZero offset size then (stores, none)
    else (stores ++ [⟨offset, size⟩], none)

variable (pagesOffset : Nat)

/-- What `ram_load_multifd_pages` or `qemu_get_buffer_at` returns for a chunk. -/
def chunkRead (offset size : Nat) : Nat :=
  if dst.multifd then if dst.multifdRecv offset then size else 0
  else if pread file ((pagesOffset + offset) % 2 ^ 64) size = size then size else 0

/-- The loop over the chunks of a run of pages; `n` bounds their number. -/
def readChunks : Nat → Nat → Nat → List Store → List Store × Option LoadError
  | 0, _, _, stores => (stores, none)
  | n + 1, offset, unread, stores =>
    if unread = 0 then (stores, none)
    else if !block.hostFromRamBlockOffset offset then (stores, some .page)
    else
      let size := min unread mappedRamLoadBufSize
      let pos := (pagesOffset + offset) % 2 ^ 64
      -- a short read stores what there is
      let stores := stores ++ [⟨offset, pread file pos size⟩]
      let read := chunkRead dst file pagesOffset offset size
      if read = 0 then (stores, some (.read offset pos))
      else readChunks n ((offset + read) % 2 ^ 64) (unread - read) stores

variable (numPages : Nat) (bitmap : Nat → Bool)

/-- The loop over the runs of set bits from `setBit` on; `n` bounds their number. -/
def readRuns : Nat → Nat → Nat → List Store → List Store × Option LoadError
  | 0, _, clearBit, stores => handleZeroMappedRam dst block clearBit numPages stores
  | n + 1, setBit, clearBit, stores =>
    if setBit ≥ numPages then handleZeroMappedRam dst block clearBit numPages stores
    else
      match handleZeroMappedRam dst block clearBit setBit stores with
      | (stores, some error) => (stores, some error)
      | (stores, none) =>
        let clearBit := findNext (fun i => !bitmap i) numPages (setBit + 1)
        let unread := dst.pageSize * (clearBit - setBit) % 2 ^ 64
        let offset := setBit * dst.pageSize % 2 ^ 64
        match readChunks dst file block pagesOffset (unread / mappedRamLoadBufSize + 1) offset
          unread stores with
        | (stores, some error) => (stores, some error)
        | (stores, none) => readRuns n (findNext bitmap numPages (clearBit + 1)) clearBit stores

def readRamblockMappedRam : List Store × Option LoadError :=
  readRuns dst file block pagesOffset numPages bitmap numPages (findNext bitmap numPages 0) 0 []

end Load

/-- `parse_ramblock_mapped_ram` for a block whose length field is `length`, with the header at
`pos`. The final `qemu_set_offset` is left out. -/
def parseRamblockMappedRam (dst : Destination) (file : List UInt8) (pos : Nat) (block : RAMBlock)
    (length : Nat) : List Store × Outcome :=
  match mappedRamReadHeader file pos with
  | .error error => ([], .failed error)
  | .ok header =>
    if header.pagesOffset % dst.pageSize ≠ 0 then ([], .failed .alignment)
    else if header.pageSize = 0 then ([], .divisionByZero)
    else
      let numPages := header.numPages length
      let bitmapSize := header.bitmapSize length
      if bitmapSize > dst.memory then ([], .outOfMemory)
      else if pread file header.bitmapOffset bitmapSize ≠ bitmapSize then ([], .failed .bitmap)
      else if bitmapSize = 0 ∧ numPages ≠ 0 then ([], .nullBitmap)
      else
        match readRamblockMappedRam dst file block header.pagesOffset numPages
          (bitmapBit file header.bitmapOffset) with
        | (stores, some error) => (stores, .failed error)
        | (stores, none) => (stores, .loaded)

end Qemu.MappedRam
