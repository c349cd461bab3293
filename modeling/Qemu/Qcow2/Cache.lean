import Mathlib.Algebra.Group.Nat.Defs
import Mathlib.Logic.Relation
import Qemu.Lib.EventLog
import Qemu.Util.Osdep

/-! The two metadata caches of a qcow2 image, with the file they write to reduced
to a log of writes and flushes.  Every file operation may fail: its return value
comes from an arbitrary sequence `io`. -/

namespace Qemu.Qcow2

inductive CacheId where
  | l2Table
  | refcountBlock
  deriving DecidableEq, Repr

/-- `marks` is not in the C struct: the numbers of the calls that marked the table
dirty and whose modification the file does not have yet. -/
structure CachedTable where
  offset : Nat
  lruCounter : Nat
  ref : Nat
  dirty : Bool
  marks : List Nat
  deriving DecidableEq, Repr

structure Cache where
  entries : Nat → CachedTable
  depends : Option CacheId
  size : Nat
  tableSize : Nat
  dependsOnFlush : Bool
  lruCounter : Nat

inductive CacheEvent where
  | markDirty (c : CacheId) (mark : Nat)
  | setDependency (c dependency : CacheId)
  | write (c : CacheId) (offset : Nat) (marks : List Nat)
  | flush
  deriving DecidableEq, Repr

/-- `calls` counts the file operations made, `marked` the calls that marked a table. -/
structure CacheState where
  cache : CacheId → Cache
  log : List CacheEvent
  calls : Nat
  marked : Nat

/-- A failed assertion or `abort()`, a recursion deeper than the fuel, or a refcount block
that would have to be created. -/
inductive Stop where
  | abort
  | outOfFuel
  | noRefcountBlock
  deriving DecidableEq, Repr

namespace Cache

def setEntry (c : Cache) (i : Nat) (t : CachedTable) : Cache :=
  { c with entries := Function.update c.entries i t }

/-- The state `qcow2_cache_create` leaves after its assertions. -/
def create (numTables tableSize : Nat) : Cache where
  entries _ := ⟨0, 0, 0, false, []⟩
  depends := none
  size := numTables
  tableSize := tableSize
  dependsOnFlush := false
  lruCounter := 0

end Cache

namespace CacheState

def entry (s : CacheState) (c : CacheId) (i : Nat) : CachedTable := (s.cache c).entries i

def setCache (s : CacheState) (c : CacheId) (new : Cache) : CacheState :=
  { s with cache := Function.update s.cache c new }

def setEntry (s : CacheState) (c : CacheId) (i : Nat) (t : CachedTable) : CacheState :=
  s.setCache c ((s.cache c).setEntry i t)

def record (s : CacheState) (event : CacheEvent) : CacheState := { s with log := s.log ++ [event] }

def called (s : CacheState) : CacheState := { s with calls := s.calls + 1 }

/-- `c->depends = NULL; c->depends_on_flush = false`. -/
def clearDependency (s : CacheState) (c : CacheId) : CacheState :=
  s.setCache c { s.cache c with depends := none, dependsOnFlush := false }

def fresh (l2Tables l2TableSize refcountTables refcountTableSize : Nat) : CacheState where
  cache
    | .l2Table => Cache.create l2Tables l2TableSize
    | .refcountBlock => Cache.create refcountTables refcountTableSize
  log := []
  calls := 0
  marked := 0

end CacheState

/-- Functions of the cache return the state and their `ret`. -/
abbrev CacheResult := Except Stop (CacheState × Int)

section

variable (io : Nat → Int)

def bdrvFlush (s : CacheState) : CacheState × Int :=
  let ret := io s.calls
  if ret < 0 then (s.called, ret) else (s.called.record .flush, ret)

def bdrvPwrite (c : CacheId) (i : Nat) (s : CacheState) : CacheState × Int :=
  let ret := io s.calls
  let t := s.entry c i
  if ret < 0 then (s.called, ret)
  else (s.called.record (.write c t.offset t.marks) |>.setEntry c i { t with marks := [] }, ret)

/-- Calls without an effect on the caches: the overlap check and the reads. -/
def fileCall (s : CacheState) : CacheState × Int := (s.called, io s.calls)

section

variable (flush : CacheId → CacheState → CacheResult)

def cacheFlushDependency (c dependency : CacheId) (s : CacheState) : CacheResult := do
  let (s, ret) ← flush dependency s
  if ret < 0 then
    return (s, ret)
  return (s.clearDependency c, 0)

/-- What `c` waits for is on disk: the first half of `qcow2_cache_entry_flush`. -/
def settleDependency (c : CacheId) (s : CacheState) : CacheResult :=
  match (s.cache c).depends with
  | some dependency => cacheFlushDependency flush c dependency s
  | none =>
    if (s.cache c).dependsOnFlush then
      let (s, ret) := bdrvFlush io s
      if 0 ≤ ret then .ok (s.setCache c { s.cache c with dependsOnFlush := false }, ret)
      else .ok (s, ret)
    else .ok (s, 0)

/-- The second half: the overlap check and the write. -/
def writeEntry (c : CacheId) (i : Nat) (s : CacheState) : CacheState × Int :=
  let (s, ret) := fileCall io s
  if ret < 0 then (s, ret)
  else
    let (s, ret) := bdrvPwrite io c i s
    if ret < 0 then (s, ret)
    else (s.setEntry c i { s.entry c i with dirty := false }, 0)

def cacheEntryFlush (c : CacheId) (i : Nat) (s : CacheState) : CacheResult :=
  if !(s.entry c i).dirty || (s.entry c i).offset == 0 then .ok (s, 0)
  else do
    let (s, ret) ← settleDependency io flush c s
    if ret < 0 then
      return (s, ret)
    return writeEntry io c i s

/-- One pass of the loop of `qcow2_cache_write`. -/
def cacheWriteStep (c : CacheId) (acc : CacheState × Int) (i : Nat) : CacheResult := do
  let (s, ret) ← cacheEntryFlush io flush c i acc.1
  return (s, if ret < 0 ∧ acc.2 ≠ -enospc then ret else acc.2)

def cacheWriteWith (c : CacheId) (s : CacheState) : CacheResult :=
  (List.range (s.cache c).size).foldlM (cacheWriteStep io flush c) (s, 0)

def cacheFlushWith (c : CacheId) (s : CacheState) : CacheResult := do
  let (s, result) ← cacheWriteWith io flush c s
  if result = 0 then
    let (s, ret) := bdrvFlush io s
    return (s, if ret < 0 then ret else result)
  return (s, result)

end

/-- `qcow2_cache_flush`; the fuel bounds the chain of dependencies it follows. -/
def cacheFlush : Nat → CacheId → CacheState → CacheResult
  | 0, _, _ => .error .outOfFuel
  | fuel + 1, c, s => cacheFlushWith io (cacheFlush fuel) c s

def cacheWrite (fuel : Nat) (c : CacheId) (s : CacheState) : CacheResult :=
  cacheWriteWith io (cacheFlush io fuel) c s

/-- Flush what `c` depends on, unless that is nothing or `keep`. -/
def dropDependency (fuel : Nat) (c : CacheId) (keep : Option CacheId) (s : CacheState) : CacheResult :=
  match (s.cache c).depends with
  | none => .ok (s, 0)
  | some dependency =>
    if some dependency = keep then .ok (s, 0)
    else cacheFlushDependency (cacheFlush io fuel) c dependency s

def cacheSetDependency (fuel : Nat) (c dependency : CacheId) (s : CacheState) : CacheResult := do
  let (s, ret) ← dropDependency io fuel dependency none s
  if ret < 0 then
    return (s, ret)
  let (s, ret) ← dropDependency io fuel c (some dependency) s
  if ret < 0 then
    return (s, ret)
  return (s.setCache c { s.cache c with depends := some dependency }
    |>.record (.setDependency c dependency), 0)

def cacheDependsOnFlush (c : CacheId) (s : CacheState) : CacheState :=
  s.setCache c { s.cache c with dependsOnFlush := true }

/-- The search of `qcow2_cache_do_get`: the entry that holds the table, or the least
recently used entry without references. -/
inductive Lookup where
  | found (i : Nat)
  | replace (minLruIndex : Option Nat)
  deriving DecidableEq, Repr

def lookup (entries : Nat → CachedTable) (offset : Nat) : List Nat → Nat → Option Nat → Lookup
  | [], _, minLruIndex => .replace minLruIndex
  | i :: rest, minLruCounter, minLruIndex =>
    let t := entries i
    if t.offset = offset then .found i
    else if t.ref = 0 ∧ t.lruCounter < minLruCounter then
      lookup entries offset rest t.lruCounter (some i)
    else lookup entries offset rest minLruCounter minLruIndex

/-- The indices in the order in which the search visits them. -/
def Cache.lookupOrder (c : Cache) (offset : Nat) : List Nat :=
  (List.range c.size).map fun k => (offset / c.tableSize * 4 + k) % c.size

def Cache.find (c : Cache) (offset : Nat) : Lookup :=
  lookup c.entries offset (c.lookupOrder offset) (2 ^ 64 - 1) none

def CacheState.grab (s : CacheState) (c : CacheId) (i : Nat) : CacheState :=
  s.setEntry c i { s.entry c i with ref := (s.entry c i).ref + 1 }

/-- An empty table is not read from the file. -/
def readTable (readFromDisk : Bool) (s : CacheState) : CacheState × Int :=
  if readFromDisk then fileCall io s else (s, 0)

/-- Put the table at `offset` into entry `i`, whose old table has been written. -/
def loadEntry (c : CacheId) (i offset : Nat) (readFromDisk : Bool) (s : CacheState) : CacheState × Int :=
  let (s, ret) := readTable io readFromDisk
    (s.setEntry c i { s.entry c i with offset := 0, marks := [] })
  if ret < 0 then (s, ret)
  else ((s.setEntry c i { s.entry c i with offset := offset }).grab c i, 0)

def cacheDoGet (fuel : Nat) (c : CacheId) (offset : Nat) (readFromDisk : Bool) (s : CacheState) :
    CacheResult :=
  if offset = 0 then .error .abort
  else if offset % (s.cache c).tableSize ≠ 0 then .ok (s, -eio)
  else
    match (s.cache c).find offset with
    | .found i => .ok (s.grab c i, 0)
    | .replace none => .error .abort
    | .replace (some i) => do
      let (s, ret) ← cacheEntryFlush io (cacheFlush io fuel) c i s
      if ret < 0 then
        return (s, ret)
      return loadEntry io c i offset readFromDisk s

def cachePut (c : CacheId) (i : Nat) (s : CacheState) : Except Stop CacheState :=
  let t := s.entry c i
  if i < (s.cache c).size then
    match t.ref with
    | 0 => .error .abort
    | 1 =>
      let lru := ((s.cache c).lruCounter + 1) % 2 ^ 64
      .ok ((s.setCache c { s.cache c with lruCounter := lru }).setEntry c i
        { t with ref := 0, lruCounter := lru })
    | ref + 2 => .ok (s.setEntry c i { t with ref := ref + 1 })
  else .error .abort

def cacheEntryMarkDirty (c : CacheId) (i : Nat) (s : CacheState) : Except Stop CacheState :=
  let t := s.entry c i
  if i < (s.cache c).size ∧ t.offset ≠ 0 then
    .ok ({ s with marked := s.marked + 1 }.record (.markDirty c s.marked)
      |>.setEntry c i { t with dirty := true, marks := t.marks ++ [s.marked] })
  else .error .abort

/-- The calls of the users of the caches.  A dependency is between different caches. -/
inductive CacheOp where
  | get (c : CacheId) (offset : Nat)
  | getEmpty (c : CacheId) (offset : Nat)
  | put (c : CacheId) (i : Nat)
  | markDirty (c : CacheId) (i : Nat)
  | setDependency (c dependency : CacheId) (distinct : c ≠ dependency)
  | dependsOnFlush (c : CacheId)
  | write (c : CacheId)
  | flush (c : CacheId)

def cacheStep (fuel : Nat) (s : CacheState) : CacheOp → Except Stop CacheState
  | .get c offset => Prod.fst <$> cacheDoGet io fuel c offset true s
  | .getEmpty c offset => Prod.fst <$> cacheDoGet io fuel c offset false s
  | .put c i => cachePut c i s
  | .markDirty c i => cacheEntryMarkDirty c i s
  | .setDependency c dependency _ => Prod.fst <$> cacheSetDependency io fuel c dependency s
  | .dependsOnFlush c => .ok (cacheDependsOnFlush c s)
  | .write c => Prod.fst <$> cacheWrite io fuel c s
  | .flush c => Prod.fst <$> cacheFlush io fuel c s

def cacheRun (fuel : Nat) (ops : List CacheOp) (s : CacheState) : Except Stop CacheState :=
  ops.foldlM (cacheStep io fuel) s

end

/-- The dependency graph of the two caches. -/
def CacheState.DependsOn (s : CacheState) (c dependency : CacheId) : Prop :=
  (s.cache c).depends = some dependency

def CacheState.Acyclic (s : CacheState) : Prop := ∀ c, ¬ Relation.TransGen s.DependsOn c c

open EventLog

/-- The write of a table of `c` that carries modification `mark` to the file. -/
def CacheEvent.Writes (c : CacheId) (mark : Nat) (event : CacheEvent) : Prop :=
  ∃ offset marks, event = .write c offset marks ∧ mark ∈ marks

/-- Modification `mark` of `c` was written and `bdrv_flush` followed. -/
def Durable (c : CacheId) (mark : Nat) (log : List CacheEvent) : Prop :=
  Then (CacheEvent.Writes c mark) (· = .flush) log

/-- When a modification marked in `c` after `c` was made dependent on `d` is written, all
modifications marked in `d` before that call are durable. -/
def WriteOrdered (log : List CacheEvent) : Prop :=
  ∀ c d before mid event rest mark, log = before ++ .setDependency c d :: (mid ++ event :: rest) →
    event.Writes c mark → .markDirty c mark ∈ mid →
    ∀ earlier, .markDirty d earlier ∈ before → Durable d earlier (before ++ .setDependency c d :: mid)

end Qemu.Qcow2
