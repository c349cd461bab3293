import Qemu.Lib.BitWords
import Qemu.Lib.Loop

/-! The hierarchical bitmap of util/hbitmap.c on a 64-bit host: seven levels of
words, each bit of a level standing for a word of the next one. An operation
is `none` where the source aborts on an assertion or leaves an array. -/

namespace Qemu

open BitWords (Word word bit ctz cto popcount rangeMask lowMask)
open Function (update)

abbrev Levels := Nat → List Word

/-- The lengths of the level arrays are the source's `sizes`. -/
structure HBitmap where
  origSize : Nat
  size : Nat
  count : BitVec 64
  granularity : Nat
  levels : Levels

structure HBitmapIter where
  pos : Nat
  cur : Nat → Word

namespace HBitmap

section Iteration

variable (levels : Levels)

/-- Go up from a level to the first one with a bit left in the iterator. -/
def climb (hbi : HBitmapIter) : Nat → Nat → Option (Nat × Nat × Word)
  | 0, _ => none
  | i + 1, pos =>
    let pos := pos / 64
    let cur := hbi.cur i &&& word (levels i) pos
    if cur = 0 then climb hbi i pos else some (i, pos, cur)

/-- The state of the walk back down: the level, the word there and its index. -/
structure Descent where
  i : Nat
  pos : Nat
  cur : Word
  hbiCur : Nat → Word

def descendStep (walk : Descent) : Option Descent :=
  if walk.cur = 0 then none
  else
    let pos := walk.pos * 64 + ctz walk.cur
    some
      { i := walk.i + 1
        pos
        cur := word (levels (walk.i + 1)) pos
        hbiCur := update walk.hbiCur walk.i (walk.cur &&& (walk.cur - 1)) }

def descend : Nat → Descent → Option Descent
  | 0, walk => some walk
  | steps + 1, walk => (descend steps walk).bind (descendStep levels)

def sentinel : Word := (1 : Word) <<< 63

/-- The next nonzero word of the last level; zero at the end of the bitmap. -/
def iterSkipWords (hbi : HBitmapIter) : Option (Word × HBitmapIter) := do
  let (i, pos, cur) ← climb levels hbi 6 hbi.pos
  if i = 0 ∧ cur = sentinel then
    some (0, hbi)
  else
    let walk ← descend levels (6 - i) ⟨i, pos, cur, hbi.cur⟩
    if walk.cur = 0 then none else some (walk.cur, ⟨walk.pos, walk.hbiCur⟩)

/-- The index of the next nonzero word and the word, `none` inside for -1. -/
def iterNextWord (hbi : HBitmapIter) : Option (Option (Nat × Word) × HBitmapIter) := do
  let (cur, hbi) ← if hbi.cur 6 = 0 then iterSkipWords levels hbi else some (hbi.cur 6, hbi)
  if cur = 0 then
    some (none, hbi)
  else
    some (some (hbi.pos, cur), { hbi with cur := update hbi.cur 6 0 })

def iterInitCur : Nat → Nat → (Nat → Word) → (Nat → Word)
  | 0, _, cur => cur
  | i + 1, pos, cur =>
    let first := pos % 64
    let pos := pos / 64
    let kept := word (levels i) pos &&& ~~~lowMask first
    iterInitCur i pos
      (update cur i (if i = 6 then kept else kept &&& ~~~((1 : Word) <<< first)))

end Iteration

def iterInit (hb : HBitmap) (first : Nat) : Option HBitmapIter :=
  let pos := first / 2 ^ hb.granularity
  if pos < hb.size then some ⟨pos / 64, iterInitCur hb.levels 7 pos fun _ => 0⟩ else none

/-- `hbitmap_iter_next`: the first dirty item from the iterator on, `none` inside for -1, and the
iterator as the call leaves it. -/
def iterNextItem (hb : HBitmap) (hbi : HBitmapIter) : Option (Option Nat × HBitmapIter) := do
  let cur := hbi.cur 6 &&& word (hb.levels 6) hbi.pos
  let (cur, hbi) ← if cur = 0 then iterSkipWords hb.levels hbi else some (cur, hbi)
  if cur = 0 then some (none, hbi)
  else
    some (some ((hbi.pos * 64 + ctz cur) * 2 ^ hb.granularity),
      { hbi with cur := update hbi.cur 6 (cur &&& (cur - 1)) })

/-- The item alone, for a caller that drops the iterator. -/
def iterNext (hb : HBitmap) (hbi : HBitmapIter) : Option (Option Nat) := (hb.iterNextItem hbi).map Prod.fst

def nextDirty (hb : HBitmap) (start count : Nat) : Option (Option Nat) :=
  if start ≥ hb.origSize ∨ count = 0 then some none
  else do
    let stop := if count > hb.origSize - start then hb.origSize else start + count
    let hbi ← hb.iterInit start
    let first ← hb.iterNext hbi
    some (first.bind fun first => if first ≥ stop then none else some (max start first))

/-- The first clear bit from a position on; full words are skipped up to `sz`. -/
def scanClear (lastLev : List Word) (position sz : Nat) : Option Nat :=
  let cur := word lastLev (position / 64) ||| lowMask (position % 64)
  if cur = BitVec.allOnes 64 then
    let pos := Loop.repeatWhile
      (fun pos => decide (pos < sz) && word lastLev pos == BitVec.allOnes 64) (· + 1) sz
      (position / 64 + 1)
    if pos ≥ sz then none else some (pos * 64 + cto (word lastLev pos))
  else some (position / 64 * 64 + cto cur)

def nextZero (hb : HBitmap) (start count : Nat) : Option (Option Nat) :=
  if start ≥ hb.origSize ∨ count = 0 then some none
  else
    let group := start / 2 ^ hb.granularity
    let endBit :=
      if count > hb.origSize - start then hb.size
      else (start + count - 1) / 2 ^ hb.granularity + 1
    if group < hb.size then
      match scanClear (hb.levels 6) group ((endBit + 63) / 64) with
      | none => some none
      | some res =>
        if res ≥ endBit then some none
        else
          let res := res * 2 ^ hb.granularity
          if res < start then
            if (start - res) / 2 ^ hb.granularity = 0 then some (some start) else none
          else some (some res)
    else none

/-- The first dirty area as its start and length, `none` inside for false. -/
def nextDirtyArea (hb : HBitmap) (start stop maxDirtyCount : Nat) : Option (Option (Nat × Nat)) :=
  let stop := min stop hb.origSize
  if start ≥ stop then some none
  else do
    match ← hb.nextDirty start (stop - start) with
    | none => some none
    | some start =>
      let stop := start + min (stop - start) maxDirtyCount
      let nextZero ← hb.nextZero start (stop - start)
      some (some (start, nextZero.getD stop - start))

/-- Whether an item is dirty, and the number of items from it on that are alike -/
def status (hb : HBitmap) (start count : Nat) : Option (Bool × Nat) :=
  if 0 < count ∧ start + count ≤ hb.origSize then do
    match ← hb.nextDirty start count with
    | none => some (false, count)
    | some nextDirty =>
      if nextDirty > start then some (false, nextDirty - start)
      else if nextDirty = start then do
        match ← hb.nextZero start count with
        | none => some (true, count)
        | some nextZero => if nextZero > start then some (true, nextZero - start) else none
      else none
  else none

/-- One round of the counting loop: the count so far and the iterator. -/
def countWord (levels : Levels) (stop : Nat) (state : Nat × HBitmapIter) :
    Option (Loop.Step (Nat × HBitmapIter) Nat) := do
  let (next, hbi) ← iterNextWord levels state.2
  match next with
  | none => some (.done state.1)
  | some (pos, cur) =>
    if pos < stop / 64 then some (.next (state.1 + popcount cur, hbi))
    else if pos = stop / 64 then some (.done (state.1 + popcount (cur &&& lowMask (stop % 64))))
    else some (.done state.1)

/-- The number of set bits between two positions of the last level. -/
def countBetween (hb : HBitmap) (start last : Nat) : Option Nat := do
  let stop := last + 1
  let hbi ← hb.iterInit (start * 2 ^ hb.granularity)
  Loop.run (countWord hb.levels stop) (stop / 64 + 2) (0, hbi)

/-- The words strictly between the ends of a range, with the position reached. -/
def fillWords (test : Word → Bool) (value : Word) (lastpos : Nat) :
    Nat → List Word → Nat → Nat → Bool → Option (List Word × Nat × Bool)
  | 0, _, _, _, _ => none
  | fuel + 1, words, i, next, changed =>
    let start := next
    let next := next + 64
    let i := i + 1
    if i = lastpos then some (words, start, changed)
    else
      fillWords test value lastpos fuel (words.set i value) i next
        (changed || test (word words i))

def setElem (elem : Word) (start last : Nat) : Option (Word × Bool) :=
  if last / 64 = start / 64 ∧ start ≤ last then
    let new := elem ||| rangeMask (start % 64) (last % 64)
    some (new, elem != new)
  else none

/-- What `hb_set_between` does to one level, and whether a word changed. -/
def setWords (words : List Word) (start last : Nat) : Option (List Word × Bool) :=
  let pos := start / 64
  let lastpos := last / 64
  if words.length ≤ max pos lastpos then none
  else if pos < lastpos then do
    let next := (start ||| 63) + 1
    let (elem, changed) ← setElem (word words pos) start (next - 1)
    let (words, start, changed) ←
      fillWords (· == 0) (BitVec.allOnes 64) lastpos (lastpos - pos) (words.set pos elem) pos next
        changed
    let (elem, changedLast) ← setElem (word words lastpos) start last
    some (words.set lastpos elem, changed || changedLast)
  else do
    let (elem, changed) ← setElem (word words pos) start last
    some (words.set pos elem, changed)

/-- The recursion of `hb_set_between` from a level up to level 0. -/
def setBetween (levels : Levels) : Nat → Nat → Nat → Option Levels
  | 0, start, last => do
    let (words, _) ← setWords (levels 0) start last
    some (update levels 0 words)
  | level + 1, start, last => do
    let (words, changed) ← setWords (levels (level + 1)) start last
    let levels := update levels (level + 1) words
    if changed then setBetween levels level (start / 64) (last / 64) else some levels

/-- The group of the first item of a range. -/
def firstGroup (hb : HBitmap) (start : BitVec 64) : Nat := (start >>> hb.granularity).toNat

/-- The group of the last item of a range, whose end wraps around. -/
def lastGroup (hb : HBitmap) (start count : BitVec 64) : Nat :=
  ((start + count - 1) >>> hb.granularity).toNat

def set (hb : HBitmap) (start count : BitVec 64) : Option HBitmap :=
  if count = 0 then some hb
  else do
    let first := hb.firstGroup start
    let last := hb.lastGroup start count
    if last < hb.size then
      let n := BitVec.ofNat 64 last - BitVec.ofNat 64 first + 1
      let dirty ← hb.countBetween first last
      let levels ← setBetween hb.levels 6 first last
      some { hb with count := hb.count + (n - BitVec.ofNat 64 dirty), levels }
    else none

def resetElem (elem : Word) (start last : Nat) : Option (Word × Bool) :=
  if last / 64 = start / 64 ∧ start ≤ last then
    let new := elem &&& ~~~rangeMask (start % 64) (last % 64)
    some (new, elem != 0 && new == 0)
  else none

/-- What `hb_reset_between` does to one level: the new words, whether one was
blanked, and the range left for the level above. -/
def resetWords (words : List Word) (start last : Nat) : Option (List Word × Bool × Nat × Nat) :=
  let pos := start / 64
  let lastpos := last / 64
  if words.length ≤ max pos lastpos then none
  else if pos < lastpos then do
    let next := (start ||| 63) + 1
    let (elem, blanked) ← resetElem (word words pos) start (next - 1)
    let (words, start, changed) ←
      fillWords (· != 0) 0 lastpos (lastpos - pos) (words.set pos elem) pos next blanked
    let (elem, blankedLast) ← resetElem (word words lastpos) start last
    some (words.set lastpos elem, changed || blankedLast,
      if blanked then pos else pos + 1, if blankedLast then lastpos else lastpos - 1)
  else do
    let (elem, blanked) ← resetElem (word words pos) start last
    some (words.set pos elem, blanked, pos, if blanked then lastpos else lastpos - 1)

/-- The recursion of `hb_reset_between` from a level up to level 0. -/
def resetBetween (levels : Levels) : Nat → Nat → Nat → Option Levels
  | 0, start, last => do
    let (words, _) ← resetWords (levels 0) start last
    some (update levels 0 words)
  | level + 1, start, last => do
    let (words, changed, pos, lastpos) ← resetWords (levels (level + 1)) start last
    let levels := update levels (level + 1) words
    if changed then resetBetween levels level pos lastpos else some levels

/-- A range to reset does not cut a group, except at the end of the bitmap. -/
abbrev Aligned (hb : HBitmap) (start count : BitVec 64) : Prop :=
  start.toNat % 2 ^ hb.granularity = 0 ∧
    (count.toNat % 2 ^ hb.granularity = 0 ∨ (start + count).toNat = hb.origSize)

def reset (hb : HBitmap) (start count : BitVec 64) : Option HBitmap :=
  if count = 0 then some hb
  else if hb.Aligned start count then do
    let first := hb.firstGroup start
    let last := hb.lastGroup start count
    if last < hb.size then
      let dirty ← hb.countBetween first last
      let levels ← resetBetween hb.levels 6 first last
      some { hb with count := hb.count - BitVec.ofNat 64 dirty, levels }
    else none
  else none

def resetAll (hb : HBitmap) : HBitmap :=
  { hb with
    count := 0
    levels := fun i =>
      if i = 0 then (hb.levels 0).set 0 sentinel else List.replicate (hb.levels i).length 0 }

def get (hb : HBitmap) (item : Nat) : Option Bool :=
  let pos := item / 2 ^ hb.granularity
  if pos < hb.size then some (bit (hb.levels 6) pos) else none

/-- The length of a level's array from the number of bits in it. -/
def wordsFor (size : Nat) : Nat := max ((size + 63) / 64) 1

/-- The level arrays from the last one up, with the length of the top one. -/
def allocLevels : Nat → Nat → Levels → Nat × Levels
  | 0, size, levels => (size, levels)
  | i + 1, size, levels =>
    let size := wordsFor size
    allocLevels i size (update levels i (List.replicate size 0))

/-- Items to groups of `2 ^ granularity` items, the last one rounded up. -/
def groups (size granularity : Nat) : Nat := (size + 2 ^ granularity - 1) / 2 ^ granularity

def alloc (size granularity : Nat) : Option HBitmap :=
  if size < 2 ^ 63 ∧ granularity < 64 ∧ groups size granularity ≤ 2 ^ 41 then
    let (top, levels) := allocLevels 7 (groups size granularity) fun _ => []
    if top = 1 then
      some
        { origSize := size
          size := groups size granularity
          count := 0
          granularity
          levels := update levels 0 ((levels 0).set 0 (word (levels 0) 0 ||| sentinel)) }
    else none
  else none

/-- `g_renew`, with the new words cleared. -/
def renew (size : Nat) (words : List Word) : List Word :=
  words.take size ++ List.replicate (size - words.length) 0

/-- The level arrays resized from the last one up to the first unchanged length. -/
def truncateLevels : Nat → Nat → Levels → Levels
  | 0, _, levels => levels
  | i + 1, size, levels =>
    let size := wordsFor size
    if (levels i).length = size then levels
    else truncateLevels i size (update levels i (renew size (levels i)))

def truncate (hb : HBitmap) (numElements : Nat) : Option HBitmap :=
  let size := groups numElements hb.granularity
  if numElements < 2 ^ 63 ∧ size ≤ 2 ^ 41 then
    let hb := { hb with origSize := numElements }
    if size = hb.size then some hb
    else do
      let hb ←
        if size < hb.size then
          let start := size * 2 ^ hb.granularity
          let fixCount := hb.size * 2 ^ hb.granularity - start
          if fixCount = 0 then none
          else hb.reset (BitVec.ofNat 64 start) (BitVec.ofNat 64 fixCount)
        else some hb
      some { hb with size, levels := truncateLevels 7 size hb.levels }
  else none

/-- One round of the merging loop: the target so far and the offset in `src`. -/
def mergeArea (src : HBitmap) (state : HBitmap × Nat) : Option (Loop.Step (HBitmap × Nat) HBitmap) := do
  match ← src.nextDirtyArea state.2 src.origSize (2 ^ 63 - 1) with
  | none => some (.done state.1)
  | some (offset, count) =>
    let dst ← state.1.set (BitVec.ofNat 64 offset) (BitVec.ofNat 64 count)
    some (.next (dst, offset + count))

/-- `dst` with every dirty area of `src` set. -/
def sparseMerge (dst src : HBitmap) : Option HBitmap :=
  Loop.run (mergeArea src) (src.origSize + 1) (dst, 0)

/-- `hbitmap_count`: the number of dirty items, a whole group for each bit. -/
def countItems (hb : HBitmap) : BitVec 64 := hb.count <<< hb.granularity

/-- The word-wise merge of one level into the array of the result. -/
def orWords (a b result : List Word) : List Word :=
  result.mapIdx fun j old => if j < a.length then word a j ||| word b j else old

/-- The new value of `result`; the flags say whether it is the same bitmap as
`a` or `b`. -/
def merge (a b result : HBitmap) (resultIsA resultIsB : Bool) : Option HBitmap :=
  if a.origSize = result.origSize ∧ b.origSize = result.origSize then
    if (a.countItems = 0 ∧ resultIsB = true) ∨ (b.countItems = 0 ∧ resultIsA = true) then
      some result
    else if a.countItems = 0 ∧ b.countItems = 0 then
      some result.resetAll
    else if a.granularity ≠ b.granularity then do
      let result := if resultIsA || resultIsB then result else result.resetAll
      let result ← if resultIsA then some result else result.sparseMerge a
      if resultIsB then some result else result.sparseMerge b
    else if a.size = b.size ∧ ((List.range 7).all fun i =>
        (a.levels i).length ≤ (b.levels i).length ∧
          (a.levels i).length ≤ (result.levels i).length) = true then do
      let levels : Levels := fun i => orWords (a.levels i) (b.levels i) (result.levels i)
      let count ← { result with levels }.countBetween 0 (result.size - 1)
      some { result with levels, count := BitVec.ofNat 64 count }
    else none
  else none

end HBitmap

end Qemu
