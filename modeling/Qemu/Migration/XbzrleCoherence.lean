import Qemu.Lib.Replica
import Qemu.Migration.XbzrleAvx512
import Qemu.Migration.XbzrlePortable
import Qemu.Migration.XbzrleProtocol

/-! Along every migration the destination holds what was last sent, and the cache of the source
holds what the destination will have once it has loaded everything sent so far. -/

namespace Qemu.Xbzrle.Protocol

open Replica Function Option State

variable {setup : Setup}

theorem pageSize_words : setup.pageSize % 8 = 0 := by
  obtain ⟨extra, bits⟩ := Nat.exists_eq_add_of_le setup.words
  rw [Setup.pageSize, bits, Nat.pow_add]
  exact Nat.mul_mod_right 8 _

theorem pageSize_small : setup.pageSize ≤ 0x3fff :=
  (Nat.pow_le_pow_right (by decide) setup.small).trans (by decide)

/-- An encoding that is not given up is loaded as the new page. -/
theorem xbzrleEncodeBuffer_spec (oldBuf newBuf : Page setup) :
    ∃ encoded, xbzrleEncodeBuffer oldBuf newBuf = some encoded ∧
      (encoded.ret = 0 → oldBuf = newBuf) ∧
      (encoded.ret ≠ -1 → loadXbzrle (encoded.ret.toNat % 65536) encoded.bytes oldBuf = some newBuf) := by
  have length : oldBuf.1.length = newBuf.1.length := oldBuf.2.trans newBuf.2.symm
  have aligned : oldBuf.1.length % 8 = 0 := by
    rw [oldBuf.2]
    exact pageSize_words
  have short : oldBuf.1.length ≤ 0x3fff := by
    rw [oldBuf.2]
    exact pageSize_small
  obtain ⟨encoded, made, ok, bound⟩ : ∃ encoded, xbzrleEncodeBuffer oldBuf newBuf = some encoded ∧
      (encoded.ret ≠ -1 → encoded =
      (Dst.empty.put (remainder (.zero 0) (oldBuf.1.zip newBuf.1))).finish) ∧
      encoded.ret ≤ setup.pageSize := by
    rw [xbzrleEncodeBuffer]
    split
    · exact ⟨_, encodeBufferAvx512_eq length short, emit_ok, emit_ret_le fun _ _ => Nat.zero_le _⟩
    · exact ⟨_, encodeBufferInt_eq length aligned short, portable_ok, portable_ret_le⟩
  refine ⟨encoded, made, fun none => ?_, fun success => ?_⟩
  · have unchanged := ok (by omega)
    have counted : encoded.ret = (remainder (.zero 0) (oldBuf.1.zip newBuf.1)).length := by
      rw [unchanged, Dst.finish, Dst.put_d, Dst.empty, Nat.zero_add]
    exact Subtype.ext ((remainder_eq_nil_iff length).mp (List.eq_nil_of_length_eq_zero (by omega)))
  obtain ⟨decoded, decodes, loaded, page⟩ := decodeBuffer_remainder length short
  have bytes : encoded.bytes = remainder (.zero 0) (oldBuf.1.zip newBuf.1) := by
    rw [ok success]
    exact bytes_finish _
  have counted : encoded.ret = (remainder (.zero 0) (oldBuf.1.zip newBuf.1)).length := by
    rw [ok success, Dst.finish, Dst.put_d, Dst.empty, Nat.zero_add]
  have header : encoded.ret.toNat % 65536 = (remainder (.zero 0) (oldBuf.1.zip newBuf.1)).length := by
    rw [counted] at bound ⊢
    exact Nat.mod_eq_of_lt (by omega)
  rw [loadXbzrle, header, bytes, List.take_length, decodes, if_neg (by omega)]
  have fits : decoded.ret ≠ -1 ∧ decoded.dst.length = setup.pageSize := ⟨by omega, by rw [page, newBuf.2]⟩
  simp only [fits, ne_eq, not_false_eq_true, and_self, dif_pos, some.injEq]
  exact Subtype.ext page

/-- A message can be loaded onto a page and makes it what it was read as; a delta wants its base. -/
def pages (setup : Setup) : Stream (Message setup) Nat (Page setup) where
  key := Message.addr
  content := Message.content
  Accepts message host := message.payload.load host = some message.content ∧
    (message.payload.isDelta = true → host = message.base)

/-- What is on its way, if the references still in the file were read from this memory. -/
def State.outstanding (s : State setup) (ram : Memory setup) : List (Message setup) :=
  s.wire ++ s.file.map (Buffered.resolve ram)

/-- The destination once it has loaded everything sent so far. -/
def State.settled (s : State setup) (ram : Memory setup) : Memory setup :=
  replay (pages setup) s.destination (s.outstanding ram)

/-- The data held for an address. -/
def cachedFor (cache : PageCache setup) (addr : Nat) : Option (Page setup) :=
  if (cache (cacheGetCachePos setup addr)).itAddr = some addr then getCachedData cache addr else none

/-- Addresses in the cache have data. -/
def Filled (cache : PageCache setup) : Prop := ∀ pos addr, (cache pos).itAddr = some addr →
    (cache pos).itData.isSome

structure Invariant (s : State setup) : Prop where
  copies : s.destination = s.lastSent
  loads : s.failed = false
  deltas : s.misapplied = false
  coherent : ∀ ram, Coherent (pages setup) s.destination (s.outstanding ram)
  filled : Filled s.cache
  cached : ∀ addr data, addr ∉ s.finished → cachedFor s.cache addr = some data →
    ∀ ram, s.settled ram addr = data
  started : s.xbzrleStarted = false → ∀ addr, cachedFor s.cache addr = none
  saved : ∀ addr page, s.lastSaved addr = some page → ∀ ram, s.settled ram addr = page
  unfinished : s.lastStage = false → s.finished = []

/-- The cache with a page put into it. -/
def holding (cache : PageCache setup) (addr age : Nat) (data : Page setup) : PageCache setup :=
  update cache (cacheGetCachePos setup addr) ⟨some addr, age, some data⟩

variable {s later : State setup} {cache newer : PageCache setup} {addr other age : Nat}
  {data held : Page setup}

theorem getCachedData_holding : getCachedData (holding cache addr age data) addr = some data := by
  simp [getCachedData, holding]

theorem Filled.holding (filled : Filled cache) : Filled (holding cache addr age data) := by
  intro pos other
  by_cases slot : pos = cacheGetCachePos setup addr
  · simp [Protocol.holding, slot]
  · rw [Protocol.holding, update_of_ne slot]
    exact filled pos other

/-- The cache after a page was put into it, or after none was. -/
inductive Cached (cache : PageCache setup) (addr : Nat) (data : Page setup) : PageCache setup → Prop
  | inserted (age : Nat) : Cached cache addr data (holding cache addr age data)
  | absent (none : cachedFor cache addr = none) : Cached cache addr data cache

section

variable (change : Cached cache addr data newer)
include change

theorem Cached.own (cached : cachedFor newer addr = some held) : held = data := by
  cases change with
  | inserted age => exact some.inj (cached.symm.trans (by simp [cachedFor, getCachedData, holding]))
  | absent none =>
    rw [none] at cached
    exact absurd cached (by simp)

theorem Cached.others (differs : other ≠ addr)
    (cached : cachedFor newer other = some held) : cachedFor cache other = some held := by
  cases change with
  | inserted age =>
    rw [cachedFor, getCachedData, holding] at cached
    by_cases slot : cacheGetCachePos setup other = cacheGetCachePos setup addr
    · rw [slot] at cached
      simp [Ne.symm differs] at cached
    · rwa [update_of_ne slot] at cached
  | absent none => exact cached

theorem Cached.filled (filled : Filled cache) : Filled newer := by
  cases change with
  | inserted age => exact filled.holding
  | absent none => exact filled

end

theorem cacheInsert_cached (cache : PageCache setup) (addr age : Nat) (data : Page setup)
    (malloced : Bool) :
    Cached cache addr data ((cacheInsert cache addr data age malloced).getD cache) := by
  rw [cacheInsert]
  split
  next fresh =>
    refine .absent ?_
    rw [cachedFor, if_neg fresh.2.1]
  · split
    next empty =>
      refine .absent ?_
      rw [cachedFor]
      split
      · exact isNone_iff_eq_none.mp empty.1
      · rfl
    · exact .inserted age

theorem cacheInsert_some (inserted : cacheInsert cache addr data age malloced = some newer) :
    newer = holding cache addr age data := by
  rw [cacheInsert] at inserted
  split at inserted
  · exact absurd inserted (by simp)
  · split at inserted
    · exact absurd inserted (by simp)
    · exact (some.inj inserted).symm

/-- What saving a page does to the source: the page need not be sent, or one message is. -/
inductive Effect (s : State setup) (addr : Nat) : State setup → Prop
  | skip (ram : Memory setup) (cache : PageCache setup)
      (same : ∀ other, cachedFor cache other = cachedFor s.cache other) (filled : Filled cache)
      (page : Page setup) (unchanged : ∀ ram, s.settled ram addr = page) :
      Effect s addr { s with ram, cache, lastSaved := update s.lastSaved addr (some page) }
  | send (ram : Memory setup) (cache : PageCache setup) (item : Buffered setup)
      (named : ∀ ram, (item.resolve ram).addr = addr)
      (accepted : ∀ ram, (pages setup).Accepts (item.resolve ram) (s.settled ram addr))
      (others : ∀ other data, other ≠ addr → cachedFor cache other = some data →
        cachedFor s.cache other = some data)
      (own : s.lastStage = false → ∀ data, cachedFor cache addr = some data →
        ∀ ram, (item.resolve ram).content = data)
      (started : s.xbzrleStarted = false → ∀ addr, cachedFor cache addr = none) (filled : Filled cache) :
      Effect s addr { s with
        ram, cache, file := s.file ++ [item], lastSaved := update s.lastSaved addr item.content }

/-- Record in the last stage that the page was sent. -/
def State.finish (s : State setup) (addr : Nat) : State setup :=
  if s.lastStage then { s with finished := addr :: s.finished } else s

/-- One more page in the file. -/
def State.sending (s : State setup) (item : Buffered setup) : State setup :=
  { s with file := s.file ++ [item] }

section Sending

variable {item : Buffered setup} {read : Memory setup}

theorem outstanding_sending : (s.sending item).outstanding read = s.outstanding read ++
    [item.resolve read] := by
  simp [outstanding, sending]

theorem settled_sending : (s.sending item).settled read = after (pages setup) (s.settled read)
    (item.resolve read) :=
  (congrArg _ outstanding_sending).trans replay_append

theorem settled_sending_own (named : (item.resolve read).addr = addr) :
    (s.sending item).settled read addr = (item.resolve read).content := by
  rw [settled_sending, ← named]
  exact Function.update_self ..

theorem settled_sending_other (named : (item.resolve read).addr = addr) (differs : other ≠ addr) :
    (s.sending item).settled read other = s.settled read other := by
  rw [settled_sending]
  exact Function.update_of_ne (fun same => differs (same.trans named)) ..

theorem coherent_sending (inv : Invariant s) (named : (item.resolve read).addr = addr)
    (accepted : (pages setup).Accepts (item.resolve read) (s.settled read addr)) :
    Coherent (pages setup) s.destination ((s.sending item).outstanding read) := by
  rw [outstanding_sending, coherent_append]
  rw [← named] at accepted
  exact ⟨inv.coherent read, accepted, trivial⟩

theorem Buffered.content_resolve (known : item.content = some data) :
    (item.resolve read).content = data := by
  cases item with
  | copied message => exact some.inj known
  | reference addr => exact absurd known (by simp [Buffered.content])

end Sending

/-- What was saved for a page, if it agrees for the page saved now and is as before for all
others. -/
theorem saved_update {last : Nat → Option (Page setup)} {settled : Memory setup}
    (own : content = some data → settled addr = data)
    (others : other ≠ addr → last other = some data → settled other = data)
    (known : update last addr content other = some data) : settled other = data := by
  by_cases same : other = addr
  · subst same
    rw [update_self] at known
    exact own known
  · rw [update_of_ne same] at known
    exact others same known

/-- Saving a page, with any record of finished pages that has the page if it may differ from the
cache. -/
theorem Invariant.saved_finished (inv : Invariant s) (effect : Effect s addr later) {finished : List Nat}
    (record : ∀ other, other ∉ finished → other ∉ s.finished ∧ (other = addr → s.lastStage = false))
    (unfinished : s.lastStage = false → finished = []) : Invariant { later with finished } := by
  cases effect with
  | skip ram cache same filled page unchanged =>
    exact { inv with
      filled := filled
      unfinished := unfinished
      saved := fun other data known read =>
        saved_update (fun own => (unchanged read).trans (some.inj own))
        (fun _ before => inv.saved other data before read) known
      cached := fun other data going held => inv.cached other data (record other going).1
        ((same other).symm.trans held)
      started := fun notStarted other => (same other).trans (inv.started notStarted other) }
  | send ram cache item named accepted others own started filled =>
    exact { inv with
      filled := filled
      unfinished := unfinished
      started := started
      coherent := fun read => coherent_sending inv (named read) (accepted read)
      saved := fun other data known read => saved_update
        (fun sent => (settled_sending_own (s := s) (named read)).trans (Buffered.content_resolve sent))
        (fun differs before => (settled_sending_other (named read) differs).trans
          (inv.saved other data before read)) known
      cached := fun other data going held read => by
        by_cases same : other = addr
        · rw [same] at held ⊢
          exact (settled_sending_own (s := s) (named read)).trans
            (own ((record other going).2 same) data held read)
        · exact (settled_sending_other (named read) same).trans
            (inv.cached other data (record other going).1 (others other data same held) read) }

theorem Invariant.save (inv : Invariant s) (effect : Effect s addr later) :
    Invariant (later.finish addr) := by
  have stage : later.lastStage = s.lastStage := by cases effect <;> rfl
  have before : later.finished = s.finished := by cases effect <;> rfl
  rw [finish]
  split
  next last =>
    rw [stage] at last
    refine inv.saved_finished effect (fun other going => ?_) fun notLast =>
      absurd (last.symm.trans notLast) Bool.true_eq_false.mp
    rw [before, List.mem_cons, not_or] at going
    exact ⟨going.2, fun same => absurd same going.1⟩
  next notLast =>
    rw [stage, Bool.not_eq_true] at notLast
    exact inv.saved_finished effect (fun other going => ⟨before ▸ going, fun _ => notLast⟩)
      fun _ => before.trans (inv.unfinished notLast)

/-- A page that is not sent as a delta can always be loaded. -/
theorem accepts_plain (plain : message.payload.isDelta = false) (host : Page setup)
    (loads : message.payload.load host = some message.content) : (pages setup).Accepts message host :=
  ⟨loads, fun delta => absurd (plain.symm.trans delta) Bool.false_ne_true⟩

/-- Sending a copy of a page, which the cache takes over or does not hold. -/
theorem plain_effect (inv : Invariant s) (started : s.xbzrleStarted = true)
    (change : Cached s.cache addr data cache)
    (payload : Payload setup) (plain : payload.isDelta = false)
    (loads : ∀ host, payload.load host = some data) : Effect s addr { s with
      cache, file := s.file ++ [.copied ⟨addr, payload, data, data⟩],
      lastSaved := update s.lastSaved addr (some data) } := by
  refine .send s.ram cache _ (fun _ => rfl) (fun _ => accepts_plain plain _ (loads _)) ?_ ?_ ?_
    (change.filled inv.filled)
  · exact fun other held differs => change.others differs
  · exact fun _ held cached _ => (change.own cached).symm
  · exact fun notStarted => absurd (started.symm.trans notStarted) Bool.true_eq_false.mp

theorem saveZeroPage_effect (inv : Invariant s)
    (saved : saveZeroPage s addr malloced = some later) : Effect s addr later := by
  rw [saveZeroPage] at saved
  split at saved
  · dsimp only [put] at saved
    split at saved
    next zero started =>
      cases saved
      exact plain_effect inv started
        (cacheInsert_cached s.cache addr s.generation (zeroPage setup) malloced) .zero rfl fun _ => rfl
    next zero notStarted =>
      have empty := inv.started (by simpa using notStarted)
      cases saved
      refine .send s.ram _ _ (fun _ => rfl) (fun _ => accepts_plain rfl _ rfl)
        (fun _ _ _ held => held) ?_ (fun _ => empty) inv.filled
      intro _ data held
      rw [empty] at held
      exact absurd held (by simp)
  · exact absurd saved (by simp)

/-- A hit only renews the age. -/
structure Hit (cache later : PageCache setup) (addr : Nat) : Prop where
  same : ∀ other, cachedFor later other = cachedFor cache other
  named : (later (cacheGetCachePos setup addr)).itAddr = some addr
  filled : Filled cache → Filled later

theorem cacheIsCached_hit (hit : cacheIsCached cache addr age = (true, newer)) :
    Hit cache newer addr := by
  rw [cacheIsCached] at hit
  split at hit
  next named =>
    have renewed := (Prod.mk.inj hit).2.symm
    have fields : ∀ pos, (newer pos).itAddr = (cache pos).itAddr ∧
      (newer pos).itData = (cache pos).itData := fun pos => by
      rw [renewed]
      by_cases slot : pos = cacheGetCachePos setup addr
      · simp [slot]
      · rw [update_of_ne slot]
        exact ⟨rfl, rfl⟩
    refine ⟨fun other => ?_, (fields _).1.trans named, fun filled pos other => ?_⟩
    · rw [cachedFor, cachedFor, getCachedData, getCachedData, (fields _).1, (fields _).2]
    · rw [(fields pos).1, (fields pos).2]
      exact filled pos other
  · exact absurd (Prod.mk.inj hit).1 Bool.false_ne_true

theorem cacheIsCached_miss (miss : cacheIsCached cache addr age = (false, newer)) :
    cachedFor cache addr = none := by
  rw [cacheIsCached] at miss
  split at miss
  · exact absurd (Prod.mk.inj miss).1.symm Bool.false_ne_true
  next other => rw [cachedFor, if_neg other]

/-- Sending the guest's own page later than now: not a page that the cache holds, or in the last
stage. -/
theorem reference_effect (inv : Invariant s) (addr : Nat) (cache : PageCache setup)
    (same : ∀ other, cachedFor cache other = cachedFor s.cache other) (filled : Filled cache)
    (uncached : s.lastStage = false → cachedFor s.cache addr = none) :
    Effect s addr { s with
      cache, file := s.file ++ [.reference addr], lastSaved := update s.lastSaved addr none } := by
  refine .send s.ram cache _ (fun _ => rfl) (fun _ => accepts_plain rfl _ rfl) ?_ ?_ ?_ filled
  · exact fun other data _ held => (same other).symm.trans held
  · intro notLast data held
    rw [same, uncached notLast] at held
    exact absurd held (by simp)
  · exact fun notStarted other => (same other).trans (inv.started notStarted other)

theorem ramSavePage_miss (inv : Invariant s) (started : s.xbzrleStarted = true)
    (miss : cacheIsCached s.cache addr s.generation = (false, cache)) :
    Effect s addr (ramSavePage s addr malloced) := by
  have uncached := cacheIsCached_miss miss
  obtain ⟨ram, held, xbzrleStarted, lastStage, generation, file, wire, destination, failed,
    lastSent, lastSaved, misapplied, finished⟩ := s
  subst started
  cases lastStage with
  | true =>
    simp only [ramSavePage, saveXbzrlePage, miss]
    exact reference_effect inv addr held (fun _ => rfl) inv.filled fun _ => uncached
  | false => ?_
  simp only [ramSavePage, saveXbzrlePage, miss]
  cases inserted : cacheInsert held addr (ram addr) generation malloced with
  | none => exact plain_effect inv rfl (.absent uncached) (.normal _) rfl fun _ => rfl
  | some later =>
    obtain rfl := cacheInsert_some inserted
    dsimp only
    rw [getCachedData_holding]
    exact plain_effect inv rfl (.inserted generation) (.normal _) rfl fun _ => rfl

/-- The cache after a hit, with the page replaced by the one about to be sent. -/
theorem Cached.of_hit (hit : Hit cache newer addr) (data : Page setup) :
    Cached newer addr data (update newer (cacheGetCachePos setup addr)
      { newer (cacheGetCachePos setup addr) with itData := some data }) := by
  have renewed : Cached newer addr data
    (holding newer addr (newer (cacheGetCachePos setup addr)).itAge data) := .inserted _
  rwa [holding, ← hit.named] at renewed

theorem Invariant.hit (inv : Invariant s) (hit : Hit s.cache cache addr) : Invariant { s with cache } :=
  { inv with
    filled := hit.filled inv.filled
    cached := fun other data unfinished held => inv.cached other data unfinished
      ((hit.same other).symm.trans held)
    started := fun notStarted other => (hit.same other).trans (inv.started notStarted other) }

/-- A delta is computed against what the destination will have. -/
theorem delta_effect (inv : Invariant s) (unfinished : addr ∉ s.finished)
    (held : cachedFor s.cache addr = some prev)
    (loads : loadXbzrle xhLen encoded prev = some data) (started : s.xbzrleStarted = true)
    (change : s.lastStage = false → Cached s.cache addr data cache)
    (kept : s.lastStage = true → cache = s.cache) :
    Effect s addr { s with
      cache, file := s.file ++ [.copied ⟨addr, .xbzrle xhLen encoded, data, prev⟩],
      lastSaved := update s.lastSaved addr (some data) } := by
  refine .send s.ram cache _ (fun _ => rfl) (fun ram => ?_) ?_ ?_ ?_ ?_
  · have host := inv.cached addr prev unfinished held ram
    exact ⟨by rw [host]; exact loads, fun _ => host⟩
  · intro other page differs cached
    cases last : s.lastStage with
    | true => rwa [kept last] at cached
    | false => exact (change last).others differs cached
  · exact fun notLast page cached _ => ((change notLast).own cached).symm
  · exact fun notStarted => absurd (started.symm.trans notStarted) Bool.true_eq_false.mp
  cases last : s.lastStage with
  | true =>
    rw [kept last]
    exact inv.filled
  | false => exact (change last).filled inv.filled

theorem Effect.of_hit (hit : Hit s.cache cache addr)
    (effect : Effect { s with cache } addr later) : Effect s addr later := by
  cases effect with
  | skip ram cache' same filled page unchanged =>
    exact .skip ram cache' (fun other => (same other).trans (hit.same other)) filled page unchanged
  | send ram cache' item named accepted others own started filled =>
    exact .send ram cache' item named accepted
      (fun other data differs held => (hit.same other).symm.trans (others other data differs held))
      own started filled

section

variable (inv : Invariant s)
include inv

section

variable (unfinished : addr ∉ s.finished)
include unfinished

theorem ramSavePage_hit (started : s.xbzrleStarted = true)
    (found : cacheIsCached s.cache addr s.generation = (true, cache)) :
    Effect s addr (ramSavePage s addr malloced) := by
  have hit := cacheIsCached_hit found
  have inv' := inv.hit hit
  obtain ⟨prev, held⟩ := isSome_iff_exists.mp (hit.filled inv.filled _ addr hit.named)
  have data : getCachedData cache addr = some prev := held
  have cached : cachedFor cache addr = some prev := by rw [cachedFor, if_pos hit.named, data]
  have change := Cached.of_hit hit (s.ram addr)
  obtain ⟨encoded, made, unchanged, loads⟩ := xbzrleEncodeBuffer_spec prev (s.ram addr)
  refine Effect.of_hit hit ?_
  obtain ⟨ram, before, xbzrleStarted, lastStage, generation, file, wire, destination, failed,
    lastSent, lastSaved, misapplied, finished⟩ := s
  dsimp only at started found unfinished made unchanged loads inv' change ⊢
  subst started
  simp only [ramSavePage, if_true, saveXbzrlePage, found, data, made]
  by_cases same : encoded.ret = 0
  · -- nothing is sent
    simp only [same, if_true, bne_self_eq_false, Bool.and_false, Bool.false_eq_true, if_false]
    refine .skip ram cache (fun _ => rfl) inv'.filled (ram addr) fun read => ?_
    rw [← unchanged same]
    exact inv'.cached addr prev unfinished cached read
  have differs : (encoded.ret != 0) = true := by simpa using same
  simp only [differs, Bool.and_true, same]
  by_cases overflow : encoded.ret = -1
  · simp only [overflow]
    cases lastStage with
    | true => exact reference_effect inv' addr cache (fun _ => rfl) inv'.filled fun notLast =>
      nomatch notLast
    | false => exact plain_effect inv' rfl change (.normal _) rfl fun _ => rfl
  · simp only [overflow]
    cases lastStage with
    | true =>
      exact delta_effect inv' unfinished cached (loads overflow) rfl
        (fun notLast => nomatch notLast) fun _ => rfl
    | false =>
      exact delta_effect inv' unfinished cached (loads overflow) rfl (fun _ => change) fun last =>
        nomatch last

theorem ramSavePage_effect (malloced : Bool) :
    Effect s addr (ramSavePage s addr malloced) := by
  cases started : s.xbzrleStarted with
  | false =>
    have plain : ramSavePage s addr malloced = s.put (.reference addr) := by
      rw [ramSavePage, started]; rfl
    rw [plain]
    exact reference_effect inv addr s.cache (fun _ => rfl) inv.filled fun _ => inv.started started addr
  | true =>
    rcases found : cacheIsCached s.cache addr s.generation with ⟨_ | _, cache⟩
    · exact ramSavePage_miss inv started found
    · exact ramSavePage_hit inv unfinished started found

theorem Invariant.targetPage (meanwhile : Option (Page setup)) (malloced : Bool) :
    Invariant ((ramSaveTargetPage s addr meanwhile malloced).finish addr) := by
  cases zero : saveZeroPage s addr malloced with
  | some later =>
    simp only [ramSaveTargetPage, zero]
    exact inv.save (saveZeroPage_effect inv zero)
  | none => ?_
  simp only [ramSaveTargetPage, zero]
  cases meanwhile with
  | none => exact inv.save (ramSavePage_effect inv unfinished malloced)
  | some data =>
    have inv' : Invariant { s with ram := update s.ram addr data } := { inv with }
    exact inv'.save (ramSavePage_effect inv' unfinished malloced)

end

theorem Invariant.receive : Invariant (receive s) := by
  rw [Protocol.receive]
  cases wire : s.wire with
  | nil => exact inv
  | cons message rest => ?_
  have next : ∀ ram, (pages setup).Accepts message (s.destination message.addr) ∧
      Coherent (pages setup) (after (pages setup) s.destination message)
        (rest ++ s.file.map (Buffered.resolve ram)) := fun ram => by
    have coherent := inv.coherent ram
    rw [outstanding, wire] at coherent
    exact coherent
  obtain ⟨⟨loads, applies⟩, -⟩ := next s.ram
  have settles : ∀ ram, s.settled ram = replay (pages setup) (after (pages setup) s.destination message)
      (rest ++ s.file.map (Buffered.resolve ram)) := fun ram => by
    rw [settled, outstanding, wire]
    rfl
  dsimp only
  rw [loads]
  refine ⟨?_, inv.loads, ?_, fun ram => (next ram).2, inv.filled, ?_, inv.started, ?_, inv.unfinished⟩
  · rw [inv.copies]
  · rw [inv.deltas]
    cases delta : message.payload.isDelta with
    | false => rfl
    | true => simp [applies delta]
  · intro addr data unfinished held ram
    exact (congrFun (settles ram).symm addr).trans (inv.cached addr data unfinished held ram)
  · intro addr page known ram
    exact (congrFun (settles ram).symm addr).trans (inv.saved addr page known ram)

theorem Invariant.flush : Invariant (step s .flush) := by
  have resolved : ∀ ram, (step s .flush).outstanding ram = s.outstanding s.ram := fun ram => by
    simp [outstanding, step]
  refine { inv with
    coherent := fun ram => ?_
    cached := fun addr data unfinished held ram => ?_
    saved := fun addr page known ram => ?_ }
  · rw [resolved]
    exact inv.coherent s.ram
  · rw [settled, resolved]
    exact inv.cached addr data unfinished held s.ram
  · rw [settled, resolved]
    exact inv.saved addr page known s.ram

theorem Invariant.step (event : Event setup) : Invariant (step s event) := by
  cases event with
  | write addr data => exact { inv with }
  | sync => exact { inv with }
  | endRound => exact { inv with started := fun notStarted => nomatch notStarted }
  | save addr meanwhile malloced =>
    rw [Protocol.step]
    split
    · exact inv
    next going => exact inv.targetPage (fun finished => going (Or.inr finished)) meanwhile malloced
  | flush => exact inv.flush
  | receive =>
    rw [Protocol.step, if_neg (by simp [inv.loads])]
    exact inv.receive
  | lastStage => exact { inv with unfinished := fun notLast => nomatch notLast }

theorem Invariant.run (events : List (Event setup)) : Invariant (run s events) := by
  induction events generalizing s with
  | nil => exact inv
  | cons event events ih => exact ih (inv.step event)

end

theorem initial_invariant (ram destination : Memory setup) : Invariant (initial ram destination) where
  copies := rfl
  loads := rfl
  deltas := rfl
  coherent _ := trivial
  filled _ _ := fun named => nomatch named
  cached _ _ _ held := nomatch held
  started _ _ := rfl
  saved _ _ known := nomatch known
  unfinished _ := rfl

/-- Each page of the destination is what it was when it was last sent, and once everything sent so
far is loaded also what it was when it was last found unchanged; before the last stage what the
cache holds for a page is what the destination then has; no message fails to load and no delta is
applied to another page than it was computed against. -/
theorem protocol_coherent (setup : Setup) (ram destination : Memory setup) (events : List (Event setup)) :
    (∀ addr, (run (initial ram destination) events).destination addr =
    (run (initial ram destination) events).lastSent addr) ∧
    (∀ addr page, (run (initial ram destination) events).lastSaved addr = some page →
      ∀ read, (run (initial ram destination) events).settled read addr = page) ∧
    ((run (initial ram destination) events).lastStage = false → ∀ addr data,
      cachedFor (run (initial ram destination) events).cache addr = some data →
      ∀ read, (run (initial ram destination) events).settled read addr = data) ∧
    (run (initial ram destination) events).misapplied = false ∧
    (run (initial ram destination) events).failed = false := by
  have inv := (initial_invariant ram destination).run events
  refine ⟨congrFun inv.copies, inv.saved, fun notLast addr data held => ?_, inv.deltas, inv.loads⟩
  refine inv.cached addr data ?_ held
  rw [inv.unfinished notLast]
  exact List.not_mem_nil

end Qemu.Xbzrle.Protocol
