import Qemu.Util.HBitmap

/-! Serialization of hierarchical bitmaps: the last level in chunks of whole
words, and the upper levels rebuilt at the end. -/

namespace Qemu.HBitmap

open BitWords (Word word)

/-- A word as the stream has it, least significant byte first. -/
def toLe (value : Word) : List (BitVec 8) := (List.range 8).map fun i => value.extractLsb' (8 * i) 8

def ofLe : List (BitVec 8) → Word
  | [] => 0
  | byte :: bytes => (ofLe bytes <<< 8) ||| byte.setWidth 64

def isSerializable (hb : HBitmap) : Bool := hb.granularity < 58

def serializationAlign (hb : HBitmap) : Option (BitVec 64) :=
  if hb.isSerializable then some ((64 : BitVec 64) <<< hb.granularity) else none

/-- The first word of a chunk and the number of its words, which wraps around. -/
def serializationChunk (hb : HBitmap) (start count : BitVec 64) : Option (Nat × BitVec 64) := do
  let last := start + count - 1
  let gran ← hb.serializationAlign
  if start &&& (gran - 1) = 0 ∧ (last >>> hb.granularity).toNat < hb.size ∧
      ((last >>> hb.granularity).toNat ≠ hb.size - 1 → count &&& (gran - 1) = 0) then
    let start := (start >>> hb.granularity) >>> 6
    let last := (last >>> hb.granularity) >>> 6
    some (start.toNat, last - start + 1)
  else none

/-- The bytes of a chunk. -/
def serializePart (hb : HBitmap) (start count : BitVec 64) : Option (List (BitVec 8)) :=
  if count = 0 then some []
  else do
    let (first, elCount) ← hb.serializationChunk start count
    if first + elCount.toNat ≤ (hb.levels 6).length then
      some ((List.range elCount.toNat).flatMap fun j => toLe (word (hb.levels 6) (first + j)))
    else none

/-- Store `elCount` words from an index on. -/
def storeWords (words : List Word) (first elCount : Nat) (value : Nat → Word) : List Word :=
  words.mapIdx fun i old => if first ≤ i ∧ i < first + elCount then value (i - first) else old

/-- What a call of the deserializer stores. -/
inductive Source where
  | part (buf : List (BitVec 8))
  | zeroes
  | ones

namespace Source

def value : Source → Nat → Word
  | part buf, j => ofLe ((buf.drop (8 * j)).take 8)
  | zeroes, _ => 0
  | ones, _ => BitVec.allOnes 64

/-- The words that can be read. -/
def Holds (source : Source) (elCount : Nat) : Prop :=
  match source with
  | part buf => 8 * elCount ≤ buf.length
  | zeroes | ones => True

instance (source : Source) (elCount : Nat) : Decidable (source.Holds elCount) :=
  match source with
  | part buf => inferInstanceAs (Decidable (8 * elCount ≤ buf.length))
  | zeroes | ones => inferInstanceAs (Decidable True)

end Source

/-- `hbitmap_deserialize_part`, `_zeroes` and `_ones` without the final repair. -/
def deserializeChunk (hb : HBitmap) (source : Source) (start count : BitVec 64) : Option HBitmap :=
  if count = 0 then some hb
  else do
    let (first, elCount) ← hb.serializationChunk start count
    if first + elCount.toNat ≤ (hb.levels 6).length ∧ source.Holds elCount.toNat then
      some { hb with
        levels := Function.update hb.levels 6
          (storeWords (hb.levels 6) first elCount.toNat source.value) }
    else none

/-- Set the bit of each of the first words in use. -/
def markWords (lower : List Word) : Nat → List Word → List Word
  | 0, upper => upper
  | n + 1, upper =>
    let upper := markWords lower n upper
    if word lower n ≠ 0 then
      upper.set (n / 64) (word upper (n / 64) ||| ((1 : Word) <<< (n % 64)))
    else upper

/-- The levels above the last one rebuilt from the bottom up. -/
def restoreLevels : Nat → Nat → Levels → Levels
  | 0, _, levels => levels
  | lev + 1, prevSize, levels =>
    let size := wordsFor prevSize
    let cleared := List.replicate size 0 ++ (levels lev).drop size
    restoreLevels lev size
      (Function.update levels lev (markWords (levels (lev + 1)) prevSize cleared))

/-- The levels that go with the last one, with the sentinel. -/
def rebuild (hb : HBitmap) : Levels :=
  let levels := restoreLevels 6 (wordsFor hb.size) hb.levels
  Function.update levels 0 ((levels 0).set 0 (word (levels 0) 0 ||| sentinel))

def deserializeFinish (hb : HBitmap) : Option HBitmap := do
  let levels := hb.rebuild
  let count ← { hb with levels }.countBetween 0 (hb.size - 1)
  some { hb with levels, count := BitVec.ofNat 64 count }

/-- A call with `finish` false. -/
structure Call where
  source : Source
  start : BitVec 64
  count : BitVec 64

/-- A series of calls, then the final repair. -/
def deserialize (hb : HBitmap) (calls : List Call) : Option HBitmap := do
  let hb ← calls.foldlM (fun hb call => hb.deserializeChunk call.source call.start call.count) hb
  hb.deserializeFinish

end Qemu.HBitmap
