import Qemu.Lib.BitScan

/-! The search for dirty pages to send: `ram_find_and_save_block` and what it calls. -/

namespace Qemu.PageSearch

open BitScan

/-- A RAM block with its length in target pages (`used_length` is a multiple of the page size). -/
structure RAMBlock where
  pages : Nat
  /-- `migrate_ram_is_ignored` -/
  ignored : Bool
  /-- target pages in a host page of the block -/
  guestPfns : Nat
  deriving DecidableEq, Repr, Inhabited

/-- The dirty bit of each page of each block. -/
abbrev Bitmap := Nat → Nat → Bool

def Bitmap.clear (bmap : Bitmap) (block page : Nat) : Bitmap :=
  Function.update bmap block (Function.update (bmap block) page false)

/-- Blocks are named by their index in `ram_list`; the length of the list stands for `NULL`. -/
structure PageSearchStatus where
  block : Nat
  page : Nat
  completeRound : Bool := false
  hostPageSending : Bool := false
  hostPageStart : Nat := 0
  hostPageEnd : Nat := 0
  deriving DecidableEq, Repr

def pssInit (pss : PageSearchStatus) (block page : Nat) : PageSearchStatus :=
  { pss with block, page, completeRound := false }

section Blocks

variable (blocks : List RAMBlock)

def blockAt (i : Nat) : RAMBlock := blocks.getD i ⟨0, true, 0⟩

def offsetInRamblock (block page : Nat) : Bool := page < (blockAt blocks block).pages

def pssFindNextDirty (bmap : Bitmap) (pss : PageSearchStatus) : PageSearchStatus :=
  let rb := blockAt blocks pss.block
  if rb.ignored then { pss with page := rb.pages }
  else
    let size := if pss.hostPageSending then min rb.pages pss.hostPageEnd else rb.pages
    { pss with page := findNext (bmap pss.block) size pss.page }

def pssHostPagePrepare (pss : PageSearchStatus) : PageSearchStatus :=
  let guestPfns := (blockAt blocks pss.block).guestPfns
  if guestPfns ≤ 1 then
    { pss with hostPageSending := true, hostPageStart := pss.page, hostPageEnd := pss.page + 1 }
  else
    { pss with
      hostPageSending := true
      hostPageStart := pss.page / guestPfns * guestPfns
      hostPageEnd := (pss.page + 1 + guestPfns - 1) / guestPfns * guestPfns }

def pssWithinRange (pss : PageSearchStatus) : Bool :=
  pss.page < pss.hostPageEnd && offsetInRamblock blocks pss.block pss.page

def pssHostPageFinish (pss : PageSearchStatus) : PageSearchStatus :=
  { pss with hostPageSending := false, hostPageStart := 0, hostPageEnd := 0 }

end Blocks

/-- The migration as the search sees it. -/
structure Migration where
  blocks : List RAMBlock
  /-- `postcopy_preempt_active` -/
  preemptActive : Bool
  /-- `migration_in_postcopy` -/
  inPostcopy : Bool
  preempt_inPostcopy : preemptActive = true → inPostcopy = true
  /-- sending a page fails -/
  sendFails : Nat → Nat → Bool
  /-- XBZRLE finds the page unchanged -/
  unchanged : Nat → Nat → Bool
  /-- lifting the write protection of a range fails -/
  releaseFails : Nat → Nat → Bool
  /-- the synchronisation of the channels at the end of the list fails -/
  flushFails : Bool

structure RAMState where
  bmap : Bitmap
  lastSeenBlock : Option Nat
  lastPage : Nat
  /-- the pending hint of the urgent channel -/
  pageHint : Option (Nat × Nat)
  /-- the target pages that `unqueue_page` takes off the request queue, in order -/
  requests : List (Nat × Nat)
  /-- the write faults that `poll_fault_page` reports, in order -/
  faults : List (Nat × Nat)

variable (m : Migration)

def ramBytesTotal : Nat := ((m.blocks.filter fun rb => !rb.ignored).map RAMBlock.pages).sum

/-- What `ram_save_target_page` returns: 0 only where XBZRLE is used, which it is not in
postcopy. -/
def ramSaveTargetPage (block page : Nat) : Int :=
  if m.sendFails block page then -1
  else if !m.inPostcopy && m.unchanged block page then 0
  else 1

/-- The loop over a host page; `n` bounds its pages. -/
def saveTargetPages : Nat → PageSearchStatus → Bitmap → Int → Int × PageSearchStatus × Bitmap
  | 0, pss, bmap, pages => (pages, pss, bmap)
  | n + 1, pss, bmap, pages =>
    let tmppages := if bmap pss.block pss.page then ramSaveTargetPage m pss.block pss.page else 0
    let bmap := bmap.clear pss.block pss.page
    if tmppages < 0 then (tmppages, pss, bmap)
    else
      let pss := pssFindNextDirty m.blocks bmap pss
      if pssWithinRange m.blocks pss then saveTargetPages n pss bmap (pages + tmppages)
      else (pages + tmppages, pss, bmap)

def ramSaveHostPage (pss : PageSearchStatus) (bmap : Bitmap) : Int × PageSearchStatus × Bitmap :=
  if (blockAt m.blocks pss.block).ignored then (0, pss, bmap)
  else
    let startPage := pss.page
    let pss := pssHostPagePrepare m.blocks pss
    let (pages, pss, bmap) := saveTargetPages m (pss.hostPageEnd - pss.page) pss bmap 0
    let pss := pssHostPageFinish pss
    if pages ≥ 0 ∧ m.releaseFails pss.block startPage then (-1, pss, bmap) else (pages, pss, bmap)

/-- `PAGE_ALL_CLEAN`, `PAGE_TRY_AGAIN`, `PAGE_DIRTY_FOUND` and errors. -/
inductive Search where
  | allClean
  | tryAgain
  | dirtyFound
  | error
  deriving DecidableEq, Repr

def findDirtyBlock (rs : RAMState) (pss : PageSearchStatus) : Search × PageSearchStatus :=
  let pss := pssFindNextDirty m.blocks rs.bmap pss
  if pss.completeRound ∧ rs.lastSeenBlock = some pss.block ∧ pss.page ≥ rs.lastPage then (.allClean, pss)
  else if !offsetInRamblock m.blocks pss.block pss.page then
    let pss := { pss with page := 0, block := pss.block + 1 }
    if pss.block ≥ m.blocks.length then
      if m.flushFails then (.error, pss)
      -- hit the end of the list
      else (.tryAgain, { pss with block := 0, completeRound := true })
    else (.tryAgain, pss)
  else (.dirtyFound, pss)

/-- The next queued page that is still dirty. -/
def unqueueDirty (bmap : Bitmap) : List (Nat × Nat) → Option (Nat × Nat) × List (Nat × Nat)
  | [] => (none, [])
  | (block, page) :: rest => if bmap block page then (some (block, page), rest)
    else unqueueDirty bmap rest

def getQueuedPage (rs : RAMState) (pss : PageSearchStatus) : Bool × PageSearchStatus × RAMState :=
  match unqueueDirty rs.bmap rs.requests with
  | (some (block, page), requests) =>
    (true, { pss with block, page, completeRound := false }, { rs with requests })
  | (none, requests) =>
    match rs.faults with
    | (block, page) :: faults =>
      (true, { pss with block, page, completeRound := false }, { rs with requests, faults })
    | [] => (false, pss, { rs with requests })

/-- The search loop; `none` if it takes more than `n` rounds. -/
def searchLoop : Nat → RAMState → PageSearchStatus → Option (Int × PageSearchStatus × RAMState)
  | 0, _, _ => none
  | n + 1, rs, pss =>
    let (queued, pss, rs) := getQueuedPage rs pss
    let (found, pss) := if queued then (.dirtyFound, pss) else findDirtyBlock m rs pss
    match found with
    | .allClean => some (0, pss, rs)
    | .tryAgain => searchLoop n rs pss
    | .error => some (-1, pss, rs)
    | .dirtyFound =>
      let (pages, pss, bmap) := ramSaveHostPage m pss rs.bmap
      let rs := { rs with bmap }
      if pages ≠ 0 then some (pages, pss, rs) else searchLoop n rs pss

/-- Where the search starts, with the state after a hint was taken. -/
def searchStart (rs : RAMState) : RAMState × Nat × Nat :=
  let rs := if rs.lastSeenBlock = none then { rs with lastSeenBlock := some 0, lastPage := 0 } else rs
  match m.preemptActive, rs.pageHint with
  | true, some (block, page) => ({ rs with pageHint := none }, block, page)
  | _, _ => (rs, rs.lastSeenBlock.getD 0, rs.lastPage)

/-- `ram_find_and_save_block` with at most `n` rounds of its loop. -/
def ramFindAndSaveBlock (n : Nat) (pss : PageSearchStatus) (rs : RAMState) :
    Option (Int × PageSearchStatus × RAMState) :=
  if ramBytesTotal m = 0 then some (0, pss, rs)
  else do
    let (rs, block, page) := searchStart m rs
    let (pages, pss, rs) ← searchLoop m n rs (pssInit pss block page)
    let lastSeenBlock := if pss.block < m.blocks.length then some pss.block else none
    return (pages, pss, { rs with lastSeenBlock, lastPage := pss.page })

end Qemu.PageSearch
