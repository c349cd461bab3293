import Qemu.Migration.PageSearch

/-! Postcopy preemption: the background sender drops the bitmap lock while it sends a page, and
urgent requests of the destination are then served on a channel of their own. -/

namespace Qemu.PageSearch

inductive Channel where
  | precopy
  | postcopy
  deriving DecidableEq, Repr

/-- Both senders have the same idea of a page being sent. -/
def pssOverlap (pss1 pss2 : PageSearchStatus) : Bool :=
  pss1.hostPageSending && pss2.hostPageSending && pss1.hostPageStart == pss2.hostPageStart

/-- A return of one of the two functions, with the status that it leaves. -/
inductive Call where
  | background (status : PageSearchStatus)
  /-- `request` is the host page asked for, `background` the other status at that moment -/
  | urgent (request : PageSearchStatus) (skipped : Bool) (background status : PageSearchStatus)
  deriving DecidableEq, Repr

namespace Preemption

structure State where
  bmap : Bitmap
  /-- `pss[RAM_CHANNEL_PRECOPY]` -/
  precopy : PageSearchStatus
  /-- `pss[RAM_CHANNEL_POSTCOPY]` -/
  postcopy : PageSearchStatus
  /-- the background sender has dropped the lock and is sending the page of its status -/
  inFlight : Bool
  pageHint : Option (Nat × Nat)
  /-- the pages on the wire -/
  sent : List (Channel × Nat × Nat)
  /-- the pages whose sending failed -/
  failed : List (Nat × Nat)
  calls : List Call

inductive Event where
  /-- the background sender turns to a page that its search or the queue gave it -/
  | begin (block page : Nat)
  /-- `ram_save_target_page` of the background sender returns, which takes the lock again -/
  | resume
  /-- a request for some host pages from a page on -/
  | request (block page count : Nat)
  deriving DecidableEq, Repr

variable (m : Migration)

/-- The end of a round of the loop: on to the next dirty page of the host page, or return. -/
def nextOfHostPage (loop : State → State) (s : State) : State :=
  let pss := pssFindNextDirty m.blocks s.bmap s.precopy
  if pssWithinRange m.blocks pss then loop { s with precopy := pss }
  else
    let pss := pssHostPageFinish pss
    { s with precopy := pss, calls := .background pss :: s.calls }

/-- The loop of `ram_save_host_page` up to where it drops the lock or returns. -/
def ramSaveHostPageLoop : Nat → State → State
  | 0, s => s
  | n + 1, s =>
    let pageDirty := s.bmap s.precopy.block s.precopy.page
    let s := { s with bmap := s.bmap.clear s.precopy.block s.precopy.page }
    if pageDirty then { s with inFlight := true }
    else nextOfHostPage m (ramSaveHostPageLoop n) s

def ramSaveHostPageBegin (block page : Nat) (s : State) : State :=
  let pss := { s.precopy with block, page }
  if (blockAt m.blocks block).ignored then { s with precopy := pss, calls := .background pss :: s.calls }
  else
    let pss := pssHostPagePrepare m.blocks pss
    ramSaveHostPageLoop m (pss.hostPageEnd - pss.page) { s with precopy := pss }

def ramSaveHostPageResume (s : State) : State :=
  let pss := s.precopy
  let s := { s with inFlight := false }
  if ramSaveTargetPage m pss.block pss.page < 0 then
    let finished := pssHostPageFinish pss
    { s with
      precopy := finished
      failed := (pss.block, pss.page) :: s.failed
      calls := .background finished :: s.calls }
  else
    nextOfHostPage m (ramSaveHostPageLoop m (pss.hostPageEnd - pss.page))
      { s with sent := (.precopy, pss.block, pss.page) :: s.sent }

def ramPageHintUpdate (s : State) : State :=
  if s.pageHint.isSome then s else { s with pageHint := some (s.postcopy.block, s.postcopy.page) }

/-- The loop of `ram_save_host_page_urgent`, with what it returns and whether it sent something. -/
def urgentLoop : Nat → Bool → State → Int × Bool × State
  | 0, sent, s => (0, sent, s)
  | n + 1, sent, s =>
    let pss := s.postcopy
    let pageDirty := s.bmap pss.block pss.page
    let s := { s with bmap := s.bmap.clear pss.block pss.page }
    if pageDirty ∧ ramSaveTargetPage m pss.block pss.page ≠ 1 then
      (-1, sent, { s with failed := (pss.block, pss.page) :: s.failed })
    else
      let s := if pageDirty then { s with sent := (.postcopy, pss.block, pss.page) :: s.sent } else s
      let pss := pssFindNextDirty m.blocks s.bmap pss
      let s := { s with postcopy := pss }
      if pssWithinRange m.blocks pss then urgentLoop n (sent || pageDirty) s
        else (0, sent || pageDirty, s)

def ramSaveHostPageUrgent (s : State) : Int × State :=
  let request := pssHostPagePrepare m.blocks s.postcopy
  let s := { s with postcopy := request }
  if pssOverlap request s.precopy then
    (0, { s with calls := .urgent request true s.precopy request :: s.calls })
  else
    let (ret, sent, s) := urgentLoop m (request.hostPageEnd - request.page) false s
    let s := { s with postcopy := pssHostPageFinish s.postcopy }
    let s := if sent then ramPageHintUpdate s else s
    (ret, { s with calls := .urgent request false s.precopy s.postcopy :: s.calls })

/-- The loop of `ram_save_queue_pages` over the host pages of a request. -/
def saveUrgentPages : Nat → State → State
  | 0, s => s
  | count + 1, s =>
    match ramSaveHostPageUrgent m s with
    | (0, s) => saveUrgentPages count s
    | (_, s) => s

def ramSaveQueuePages (block page count : Nat) (s : State) : State :=
  saveUrgentPages m count { s with postcopy := pssInit s.postcopy block page }

/-- What can not happen in a state leaves it as it is. -/
def step (s : State) : Event → State
  | .begin block page => if s.inFlight then s else ramSaveHostPageBegin m block page s
  | .resume => if s.inFlight then ramSaveHostPageResume m s else s
  | .request block page count => ramSaveQueuePages m block page count s

def run (s : State) (events : List Event) : State := events.foldl (step m) s

/-- Nothing has been sent yet and nobody is sending. -/
structure Idle (s : State) : Prop where
  notInFlight : s.inFlight = false
  notSending : s.precopy.hostPageSending = false
  noneSent : s.sent = []
  noneFailed : s.failed = []
  noCalls : s.calls = []

end Preemption

end Qemu.PageSearch
