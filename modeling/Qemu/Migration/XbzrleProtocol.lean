import Qemu.Migration.Xbzrle

/-! The XBZRLE migration protocol: pages of a running guest are sent as zero pages, as full pages
or as deltas against a cache of what was sent before, and loaded by the destination. -/

namespace Qemu.Xbzrle.Protocol

open Function

/-- The parameters of a migration. -/
structure Setup where
  /-- `TARGET_PAGE_BITS` -/
  pageBits : Nat
  words : 3 ≤ pageBits
  small : pageBits ≤ 13
  maxNumItems : Nat
  /-- `migrate_zero_page_detection` is not `none` -/
  detectZero : Bool
  /-- the encoder is the one for AVX512 -/
  avx512 : Bool

def Setup.pageSize (setup : Setup) : Nat := 2 ^ setup.pageBits

variable (setup : Setup)

/-- The bytes of a page. -/
abbrev Page := { bytes : List UInt8 // bytes.length = setup.pageSize }

def zeroPage : Page setup := ⟨List.replicate setup.pageSize 0, List.length_replicate⟩

/-- `it_addr` is `none` for the initial -1, `it_data` for `NULL`. -/
structure CacheItem where
  itAddr : Option Nat
  itAge : Nat
  itData : Option (Page setup)

abbrev PageCache := Nat → CacheItem setup

def cacheInit : PageCache setup := fun _ => ⟨none, 0, none⟩

def cacheGetCachePos (addr : Nat) : Nat := addr / setup.pageSize &&& setup.maxNumItems - 1

variable {setup}

def getCachedData (cache : PageCache setup) (addr : Nat) : Option (Page setup) :=
  (cache (cacheGetCachePos setup addr)).itData

/-- Whether the address is cached, with its age renewed if it is. -/
def cacheIsCached (cache : PageCache setup) (addr currentAge : Nat) : Bool × PageCache setup :=
  let pos := cacheGetCachePos setup addr
  if (cache pos).itAddr = some addr then
    (true, update cache pos { cache pos with itAge := currentAge })
  else (false, cache)

def cachedPageLifetime : Nat := 2

/-- `none` is the return value -1; `malloced` is whether memory for a new page is found. -/
def cacheInsert (cache : PageCache setup) (addr : Nat) (pdata : Page setup) (currentAge : Nat)
    (malloced : Bool) : Option (PageCache setup) :=
  let pos := cacheGetCachePos setup addr
  let it := cache pos
  -- the cache page is fresh, don't replace it
  if it.itData.isSome ∧ it.itAddr ≠ some addr ∧ it.itAge + cachedPageLifetime > currentAge then none
  else if it.itData.isNone ∧ !malloced then none
  else some (update cache pos ⟨some addr, currentAge, some pdata⟩)

inductive Payload (setup : Setup) where
  | zero
  | normal (data : Page setup)
  /-- the length in the header and the bytes after it -/
  | xbzrle (xhLen : Nat) (encoded : List UInt8)

/-- A page on the wire. The last two fields are not sent: what the page held when it was read,
and what a delta was computed against. -/
structure Message (setup : Setup) where
  addr : Nat
  payload : Payload setup
  content : Page setup
  base : Page setup

/-- What waits in the `QEMUFile`: copied bytes, or a reference to the guest's page. -/
inductive Buffered (setup : Setup) where
  | copied (message : Message setup)
  | reference (addr : Nat)

abbrev Memory (setup : Setup) := Nat → Page setup

def Buffered.resolve (ram : Memory setup) : Buffered setup → Message setup
  | .copied message => message
  | .reference addr => ⟨addr, .normal (ram addr), ram addr, ram addr⟩

def Buffered.addr : Buffered setup → Nat
  | .copied message => message.addr
  | .reference addr => addr

/-- What the page held when it was saved; a reference has not been read yet. -/
def Buffered.content : Buffered setup → Option (Page setup)
  | .copied message => some message.content
  | .reference _ => none

/-- Both sides of the migration. -/
structure State (setup : Setup) where
  ram : Memory setup
  cache : PageCache setup
  xbzrleStarted : Bool
  lastStage : Bool
  /-- `dirty_sync_count` -/
  generation : Nat
  file : List (Buffered setup)
  wire : List (Message setup)
  destination : Memory setup
  /-- a message that could not be loaded, or a failed assertion of the source -/
  failed : Bool
  /-- what each page held when the message last loaded for it was made -/
  lastSent : Memory setup
  /-- what each page held when it was last saved, sent or found unchanged -/
  lastSaved : Nat → Option (Page setup)
  /-- a delta was applied to something else than it was computed against -/
  misapplied : Bool
  /-- the pages that the last stage has sent -/
  finished : List Nat

def xbzrleEncodeBuffer (oldBuf newBuf : Page setup) : Option Encoded :=
  if setup.avx512 then encodeBufferAvx512 oldBuf.1 newBuf.1 setup.pageSize
  else encodeBufferInt oldBuf.1 newBuf.1 setup.pageSize

def State.put (s : State setup) (item : Buffered setup) : State setup :=
  { s with file := s.file ++ [item], lastSaved := update s.lastSaved item.addr item.content }

def State.putNormal (s : State setup) (addr : Nat) (data : Page setup) : State setup :=
  s.put (.copied ⟨addr, .normal data, data, data⟩)

/-- `save_zero_page`; `none` if the page is not sent as a zero page. -/
def saveZeroPage (s : State setup) (addr : Nat) (malloced : Bool) : Option (State setup) :=
  if setup.detectZero ∧ s.ram addr = zeroPage setup then
    let s := s.put (.copied ⟨addr, .zero, zeroPage setup, zeroPage setup⟩)
    if s.xbzrleStarted then
      some { s with
        cache := (cacheInsert s.cache addr (zeroPage setup) s.generation malloced).getD s.cache }
    else some s
  else none

/-- What `save_xbzrle_page` leaves to its caller. -/
inductive Saved (setup : Setup) where
  /-- the page is sent or need not be -/
  | done (s : State setup)
  /-- the return value -1, with the page from which to send: in the cache or the guest's own -/
  | normal (s : State setup) (cached : Option (Page setup))

def saveXbzrlePage (s : State setup) (addr : Nat) (malloced : Bool) : Saved setup :=
  let data := s.ram addr
  match cacheIsCached s.cache addr s.generation with
  | (false, _) =>
    if s.lastStage then .normal s none
    else
      match cacheInsert s.cache addr data s.generation malloced with
      | none => .normal s none
      | some cache => .normal { s with cache } (getCachedData cache addr)
  | (true, cache) =>
    let s := { s with cache }
    match getCachedData cache addr with
    | none => .done { s with failed := true }
    | some prevCachedPage =>
      match xbzrleEncodeBuffer prevCachedPage data with
      | none => .done { s with failed := true }
      | some encoded =>
        let pos := cacheGetCachePos setup addr
        let updates := !s.lastStage && encoded.ret != 0
        let s := if updates then
            { s with cache := update cache pos { cache pos with itData := some data } }
          else s
        if encoded.ret = 0 then .done { s with lastSaved := update s.lastSaved addr (some data) }
        else if encoded.ret = -1 then .normal s (if updates then some data else none)
        else .done (s.put (.copied ⟨addr, .xbzrle (encoded.ret.toNat % 65536) encoded.bytes, data,
          prevCachedPage⟩))

def ramSavePage (s : State setup) (addr : Nat) (malloced : Bool) : State setup :=
  if s.xbzrleStarted then
    match saveXbzrlePage s addr malloced with
    | .done s => s
    | .normal s cached =>
      if s.lastStage then s.put (.reference addr)
      -- cached data can not be sent later than now
      else s.putNormal addr (cached.getD (s.ram addr))
  else s.put (.reference addr)

/-- `meanwhile` is what the guest writes between the test for zeroes and the copy of the page. -/
def ramSaveTargetPage (s : State setup) (addr : Nat) (meanwhile : Option (Page setup))
    (malloced : Bool) : State setup :=
  match saveZeroPage s addr malloced with
  | some s => s
  | none =>
    let s := match meanwhile with
      | some data => { s with ram := update s.ram addr data }
      | none => s
    ramSavePage s addr malloced

/-- `none` is a stream that can not be loaded. -/
def loadXbzrle (xhLen : Nat) (encoded : List UInt8) (host : Page setup) : Option (Page setup) :=
  if xhLen > setup.pageSize then none
  else
    match decodeBuffer (encoded.take xhLen) host.1 with
    | none => none
    | some decoded => if fits : decoded.ret ≠ -1 ∧
      decoded.dst.length = setup.pageSize then some ⟨decoded.dst, fits.2⟩ else none

def Payload.load (host : Page setup) : Payload setup → Option (Page setup)
  | .zero => some (zeroPage setup)
  | .normal data => some data
  | .xbzrle xhLen encoded => loadXbzrle xhLen encoded host

def Payload.isDelta : Payload setup → Bool
  | .xbzrle .. => true
  | _ => false

def receive (s : State setup) : State setup :=
  match s.wire with
  | [] => s
  | message :: wire =>
    let host := s.destination message.addr
    match message.payload.load host with
    | none => { s with wire, failed := true }
    | some page => { s with
        wire
        destination := update s.destination message.addr page
        lastSent := update s.lastSent message.addr message.content
        misapplied := s.misapplied || message.payload.isDelta && decide (host ≠ message.base) }

inductive Event (setup : Setup) where
  /-- the guest writes to a page -/
  | write (addr : Nat) (data : Page setup)
  /-- the dirty bitmap is synchronised -/
  | sync
  /-- the search for dirty pages passes the end of the list -/
  | endRound
  | save (addr : Nat) (meanwhile : Option (Page setup)) (malloced : Bool)
  /-- the file is written out -/
  | flush
  /-- the destination loads a page -/
  | receive
  | lastStage

/-- A failed migration goes no further, and the last stage sends no page twice. -/
def step (s : State setup) : Event setup → State setup
  | .write addr data => { s with ram := update s.ram addr data }
  | .sync => { s with generation := s.generation + 1 }
  | .endRound => { s with xbzrleStarted := true }
  | .save addr meanwhile malloced =>
    if s.failed ∨ addr ∈ s.finished then s
    else
      let s := ramSaveTargetPage s addr meanwhile malloced
      if s.lastStage then { s with finished := addr :: s.finished } else s
  | .flush => { s with file := [], wire := s.wire ++ s.file.map (Buffered.resolve s.ram) }
  | .receive => if s.failed then s else receive s
  | .lastStage => { s with lastStage := true }

def run (s : State setup) (events : List (Event setup)) : State setup := events.foldl step s

/-- The start of a migration to a destination with any contents. -/
def initial (ram destination : Memory setup) : State setup where
  ram
  cache := cacheInit setup
  xbzrleStarted := false
  lastStage := false
  generation := 0
  file := []
  wire := []
  destination
  failed := false
  lastSent := destination
  lastSaved := fun _ => none
  misapplied := false
  finished := []

end Qemu.Xbzrle.Protocol
