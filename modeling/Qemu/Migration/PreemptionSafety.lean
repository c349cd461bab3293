import Qemu.Migration.PageSearchExact
import Qemu.Migration.Preemption

namespace Qemu.PageSearch

open BitScan List

/-- A skipped request is for the host page that the background sender is sending. -/
def Call.SkipsRightly : Call → Prop
  | .background _ => True
  | .urgent request skipped other _ => skipped = true →
    other.hostPageSending = true ∧ other.block = request.block ∧
    other.hostPageStart = request.hostPageStart

/-- The status left behind, which should not claim to be sending. -/
def Call.status : Call → PageSearchStatus
  | .background status => status
  | .urgent _ _ _ status => status

/-- The request came while the background sender was at a host page with the same number. -/
def Call.Overlaps : Call → Prop
  | .background _ => False
  | .urgent request _ other _ => other.hostPageSending = true ∧
    other.hostPageStart = request.hostPageStart

/-- What is known of every call. -/
def Call.Settled : Call → Prop
  | .background status => status.hostPageSending = false
  | .urgent request skipped other status =>
    request.hostPageSending = true ∧ skipped = pssOverlap request other ∧ status.hostPageSending = skipped

namespace Preemption

variable {m : Migration} {start s : State}

/-- How often a page is on the wire of either channel. -/
def timesSent (s : State) (place : Nat × Nat) : Nat := (s.sent.map Prod.snd).count place

/-- One if the page is being sent by the background sender. -/
def flying (s : State) (place : Nat × Nat) : Nat :=
  if s.inFlight = true ∧ (s.precopy.block, s.precopy.page) = place then 1 else 0

/-- Where a page that was dirty can have gone. -/
def account (s : State) (place : Nat × Nat) : Nat :=
  timesSent s place + flying s place + s.failed.count place + (s.bmap place.1 place.2).toNat

structure Invariant (start s : State) : Prop where
  accounted : ∀ place, account s place = (start.bmap place.1 place.2).toNat
  sending : s.precopy.hostPageSending = s.inFlight
  settled : ∀ call ∈ s.calls, call.Settled

theorem clear_toNat (bmap : Bitmap) (block page : Nat) (place : Nat × Nat) :
    (bmap.clear block page place.1 place.2).toNat +
    (if (block, page) = place then (bmap block page).toNat else 0) =
      (bmap place.1 place.2).toNat := by
  obtain ⟨b, p⟩ := place
  by_cases same : (block, page) = (b, p)
  · obtain ⟨rfl, rfl⟩ := Prod.mk.inj same
    simp
  rw [if_neg same, Nat.add_zero]
  have differs : ¬(b = block ∧ p = page) := fun ⟨hb, hp⟩ => same (by rw [hb, hp])
  rw [Bitmap.clear]
  by_cases sameBlock : b = block
  · subst sameBlock
    rw [Function.update_self, Function.update_of_ne (fun samePage => differs ⟨rfl, samePage⟩)]
  · rw [Function.update_of_ne sameBlock]

/-- The state inside of the loop, under the lock. -/
structure Looping (start s : State) : Prop where
  accounted : ∀ place, account s place = (start.bmap place.1 place.2).toNat
  notInFlight : s.inFlight = false
  sending : s.precopy.hostPageSending = true
  settled : ∀ call ∈ s.calls, call.Settled

theorem pssFindNextDirty_page (bmap : Bitmap) (pss : PageSearchStatus) :
    pssFindNextDirty m.blocks bmap pss =
    { pss with page := (pssFindNextDirty m.blocks bmap pss).page } := by
  rw [pssFindNextDirty]
  split <;> rfl

/-- Moving on within the host page passes the page just looked at. -/
theorem pssFindNextDirty_after (clean : bmap pss.block pss.page = false)
    (sending : pss.hostPageSending = true)
    (within : pssWithinRange m.blocks (pssFindNextDirty m.blocks bmap pss) = true) :
    pss.page < (pssFindNextDirty m.blocks bmap pss).page ∧
      (pssFindNextDirty m.blocks bmap pss).page < pss.hostPageEnd := by
  have same := @pssFindNextDirty_page m bmap pss
  simp only [pssWithinRange, offsetInRamblock, Bool.and_eq_true, decide_eq_true_eq] at within
  rw [same] at within
  refine ⟨?_, within.1⟩
  by_cases ignored : (blockAt m.blocks pss.block).ignored = true
  · rw [pssFindNextDirty, if_pos ignored] at within
    exact absurd within.2 (lt_irrefl _)
  simp only [pssFindNextDirty, ignored, sending, Bool.false_eq_true, if_false, if_true] at within ⊢
  have inside := lt_min within.2 within.1
  have beyond : pss.page ≤ min (blockAt m.blocks pss.block).pages pss.hostPageEnd := by
    by_contra past
    rw [findNext, if_pos (by omega)] at inside
    exact lt_irrefl _ inside
  refine lt_of_le_of_ne (le_findNext beyond) fun same => ?_
  have dirty := holds_findNext inside
  rw [← same, clean] at dirty
  exact Bool.false_ne_true dirty

theorem Looping.next {loop : State → State} (looping : Looping start s)
    (clean : s.bmap s.precopy.block s.precopy.page = false)
    (continues : ∀ later : State, Looping start later → later.precopy.page < later.precopy.hostPageEnd →
      later.precopy.hostPageEnd - later.precopy.page < s.precopy.hostPageEnd - s.precopy.page →
      Invariant start (loop later)) :
    Invariant start (nextOfHostPage m loop s) := by
  have moved := @pssFindNextDirty_page m s.bmap s.precopy
  have stillFlying : ∀ pss place, flying { s with precopy := pss } place = flying s place :=
    fun pss place => by
    simp [flying, looping.notInFlight]
  have accounted : ∀ pss place, account { s with precopy := pss } place =
    (start.bmap place.1 place.2).toNat :=
    fun pss place => by
      rw [← looping.accounted place, account, stillFlying]
      rfl
  rw [nextOfHostPage]
  split
  next within =>
    obtain ⟨after, below⟩ := pssFindNextDirty_after clean looping.sending within
    refine continues _ ⟨accounted _, looping.notInFlight, ?_, looping.settled⟩ ?_ ?_
    · rw [moved]
      exact looping.sending
    · rw [moved]
      exact below
    · rw [moved]
      dsimp only
      omega
  · exact ⟨accounted _, looping.notInFlight.symm, forall_mem_cons.mpr ⟨rfl, looping.settled⟩⟩

theorem Looping.loop (n : Nat) (looping : Looping start s)
    (inside : s.precopy.page < s.precopy.hostPageEnd)
    (enough : s.precopy.hostPageEnd - s.precopy.page ≤ n) :
    Invariant start (ramSaveHostPageLoop m n s) := by
  induction n generalizing s with
  | zero => omega
  | succ n ih => ?_
  rw [ramSaveHostPageLoop]
  have cleared := clear_toNat s.bmap s.precopy.block s.precopy.page
  split
  next dirty =>
    refine ⟨fun place => ?_, looping.sending, looping.settled⟩
    rw [← looping.accounted place, account, account, ← cleared place, dirty]
    simp only [flying, timesSent, looping.notInFlight, Bool.false_eq_true, false_and, true_and, if_false,
      Bool.toNat_true]
    omega
  next clean =>
    have unchanged : ∀ place : Nat × Nat,
        (s.bmap.clear s.precopy.block s.precopy.page place.1 place.2).toNat =
        (s.bmap place.1 place.2).toNat := fun place => by
      rw [← cleared place, Bool.eq_false_iff.mpr clean]
      simp
    have looping' : Looping start { s with bmap := s.bmap.clear s.precopy.block s.precopy.page } :=
      ⟨fun place => by
        rw [← looping.accounted place, account, account, ← unchanged place]
        rfl, looping.notInFlight, looping.sending, looping.settled⟩
    exact looping'.next (Bitmap.clear_self ..) fun later there below nearer => ih there below (by
      dsimp only at nearer
      omega)

variable (inv : Invariant start s)
include inv

theorem Invariant.begin (free : s.inFlight = false) (block page : Nat) :
    Invariant start (ramSaveHostPageBegin m block page s) := by
  have accounted : ∀ pss place, account { s with precopy := pss } place =
    (start.bmap place.1 place.2).toNat :=
    fun pss place => by
      rw [← inv.accounted place]
      simp [account, timesSent, flying, free]
  rw [ramSaveHostPageBegin]
  split
  · exact ⟨accounted _, inv.sending, forall_mem_cons.mpr ⟨inv.sending.trans free, inv.settled⟩⟩
  obtain ⟨first, last, prepared, inside⟩ := @pssHostPagePrepare_prepared m { s.precopy with block, page }
  rw [prepared]
  have looping : Looping start { s with precopy := { s.precopy with
      block, page, hostPageSending := true, hostPageStart := first, hostPageEnd := last } } :=
    ⟨accounted _, free, rfl, inv.settled⟩
  exact looping.loop _ inside le_rfl

/-- A page on the wire has left the air; its bit was cleared when it was taken up. -/
theorem Invariant.landed (flight : s.inFlight = true) :
    s.bmap s.precopy.block s.precopy.page = false := by
  have accounted := inv.accounted (s.precopy.block, s.precopy.page)
  have bound := Bool.toNat_le (start.bmap s.precopy.block s.precopy.page)
  simp only [account, flying, flight, and_self, if_true] at accounted
  cases bit : s.bmap s.precopy.block s.precopy.page with
  | false => rfl
  | true =>
    rw [bit, Bool.toNat_true] at accounted
    omega

theorem Invariant.resume (flight : s.inFlight = true) : Invariant start (ramSaveHostPageResume m s) := by
  rw [ramSaveHostPageResume]
  split
  · refine ⟨fun place => ?_, rfl, forall_mem_cons.mpr ⟨rfl, inv.settled⟩⟩
    rw [← inv.accounted place]
    simp only [account, timesSent, flying, flight, Bool.false_eq_true, false_and, true_and, if_false,
      count_cons, beq_iff_eq]
    omega
  · have looping : Looping start { s with
        inFlight := false, sent := (.precopy, s.precopy.block, s.precopy.page) :: s.sent } := by
      refine ⟨fun place => ?_, rfl, inv.sending.trans flight, inv.settled⟩
      rw [← inv.accounted place]
      simp only [account, timesSent, flying, flight, Bool.false_eq_true, false_and, true_and, if_false,
        map_cons, count_cons, beq_iff_eq]
      omega
    exact looping.next (inv.landed flight) fun later there below nearer => there.loop _ below nearer.le

/-- What the urgent sender leaves alone. -/
structure Urgent (start s later : State) : Prop where
  invariant : Invariant start later
  precopy : later.precopy = s.precopy
  calls : later.calls = s.calls

theorem Invariant.postcopy (pss : PageSearchStatus) : Invariant start { s with postcopy := pss } :=
  ⟨inv.accounted, inv.sending, inv.settled⟩

theorem urgentLoop_urgent (n : Nat) (sent : Bool) : Urgent start s (urgentLoop m n sent s).2.2 := by
  induction n generalizing sent s with
  | zero => exact ⟨inv, rfl, rfl⟩
  | succ n ih => ?_
  have cleared := clear_toNat s.bmap s.postcopy.block s.postcopy.page
  cases dirty : s.bmap s.postcopy.block s.postcopy.page with
  | false =>
    have kept : Invariant start { s with bmap := s.bmap.clear s.postcopy.block s.postcopy.page } := by
      refine ⟨fun place => ?_, inv.sending, inv.settled⟩
      rw [← inv.accounted place]
      have bit := cleared place
      simp only [dirty, Bool.toNat_false, ite_self, Nat.add_zero] at bit
      simp [account, timesSent, flying, bit]
    simp only [urgentLoop, dirty, Bool.false_eq_true, false_and, if_false]
    split
    · exact { ih (kept.postcopy _) _ with }
    · exact ⟨kept.postcopy _, rfl, rfl⟩
  | true =>
    have taken : ∀ place, timesSent s place + flying s place + s.failed.count place +
        (s.bmap.clear s.postcopy.block s.postcopy.page place.1 place.2).toNat +
          (if (s.postcopy.block, s.postcopy.page) = place then 1 else 0) =
          (start.bmap place.1 place.2).toNat := by
      intro place
      have bit := cleared place
      rw [dirty, Bool.toNat_true] at bit
      rw [← inv.accounted place, account, ← bit, Nat.add_assoc _ (Bool.toNat _)]
    simp only [urgentLoop]
    split
    · refine ⟨⟨fun place => ?_, inv.sending, inv.settled⟩, rfl, rfl⟩
      rw [← taken place]
      simp only [account, timesSent, flying, count_cons, beq_iff_eq]
      omega
    have kept : Invariant start { s with
        bmap := s.bmap.clear s.postcopy.block s.postcopy.page
        sent := (.postcopy, s.postcopy.block, s.postcopy.page) :: s.sent } := by
      refine ⟨fun place => ?_, inv.sending, inv.settled⟩
      rw [← taken place]
      simp only [account, timesSent, flying, map_cons, count_cons, beq_iff_eq]
      omega
    split
    · exact { ih (kept.postcopy _) _ with }
    · exact ⟨kept.postcopy _, rfl, rfl⟩

variable {call : Call}

theorem Invariant.called (settled : call.Settled) : Invariant start { s with calls := call :: s.calls } :=
  ⟨inv.accounted, inv.sending, forall_mem_cons.mpr ⟨settled, inv.settled⟩⟩

theorem Invariant.calledUrgent
    (sending : request.hostPageSending = true) (decided : skipped = pssOverlap request s.precopy)
    (left : status.hostPageSending = skipped) :
    Invariant start { s with calls := .urgent request skipped s.precopy status :: s.calls } :=
  inv.called ⟨sending, decided, left⟩

theorem ramPageHintUpdate_urgent : Urgent start s (ramPageHintUpdate s) ∧
    (ramPageHintUpdate s).postcopy = s.postcopy := by
  rw [ramPageHintUpdate]
  split
  · exact ⟨⟨inv, rfl, rfl⟩, rfl⟩
  · exact ⟨⟨⟨inv.accounted, inv.sending, inv.settled⟩, rfl, rfl⟩, rfl⟩

theorem Invariant.urgent : Invariant start (ramSaveHostPageUrgent m s).2 := by
  obtain ⟨first, last, prepared, -⟩ := @pssHostPagePrepare_prepared m s.postcopy
  have asked := inv.postcopy
    { s.postcopy with hostPageSending := true, hostPageStart := first, hostPageEnd := last }
  simp only [ramSaveHostPageUrgent, prepared]
  split
  next overlap => exact asked.calledUrgent rfl overlap.symm rfl
  next distinct =>
    have rest := @urgentLoop_urgent m start _ asked (last - s.postcopy.page) false
    generalize urgentLoop m (last - s.postcopy.page) false _ = result at rest
    have finished := rest.invariant.postcopy (pssHostPageFinish result.2.2.postcopy)
    have other := rest.precopy
    split
    · obtain ⟨hinted, status⟩ := ramPageHintUpdate_urgent finished
      refine hinted.invariant.calledUrgent rfl ?_ ?_
      · rw [hinted.precopy]
        rw [other]
        simpa using distinct
      · rw [status]
        rfl
    · refine finished.calledUrgent rfl ?_ rfl
      rw [other]
      simpa using distinct

theorem Invariant.request (count : Nat) : Invariant start (saveUrgentPages m count s) := by
  induction count generalizing s with
  | zero => exact inv
  | succ count ih => ?_
  have after := @Invariant.urgent m start s inv
  rw [saveUrgentPages]
  generalize ramSaveHostPageUrgent m s = result at after
  obtain ⟨ret, later⟩ := result
  split
  next same =>
    cases same
    exact ih after
  next same =>
    cases same
    exact after

theorem Invariant.step (event : Event) : Invariant start (step m s event) := by
  cases event with
  | «begin» block page =>
    rw [Preemption.step]
    split
    · exact inv
    next free => exact inv.begin (by simpa using free) block page
  | resume =>
    rw [Preemption.step]
    split
    next flight => exact inv.resume flight
    · exact inv
  | request block page count => exact (inv.postcopy _).request count

theorem Invariant.run (events : List Event) : Invariant start (run m s events) := by
  induction events generalizing s with
  | nil => exact inv
  | cons event events ih => exact ih (inv.step event)

omit inv

theorem Idle.invariant (idle : Idle start) : Invariant start start := by
  refine ⟨fun place => ?_, ?_, ?_⟩
  · simp [account, timesSent, flying, idle.notInFlight, idle.noneSent, idle.noneFailed]
  · rw [idle.notSending, idle.notInFlight]
  · simp [idle.noCalls]

/-- Requests are skipped only for the page being sent, no status claims to be sending after a
return, and each dirty page is still dirty, being sent, or sent once. -/
structure Safe (start s : State) : Prop where
  skips : ∀ call ∈ s.calls, call.SkipsRightly
  finished : ∀ call ∈ s.calls, call.status.hostPageSending = false
  once : ∀ place, timesSent s place + flying s place + (s.bmap place.1 place.2).toNat =
    (start.bmap place.1 place.2).toNat

/-- A status claims to be sending after a return exactly if the request was skipped. -/
theorem settled_overlaps (settled : call.Settled) : call.status.hostPageSending = true ↔
    call.Overlaps := by
  cases call with
  | background status =>
    have finished : status.hostPageSending = false := settled
    simp [Call.status, Call.Overlaps, finished]
  | urgent request skipped other status =>
    obtain ⟨sending, decided, left⟩ := settled
    simp only [Call.status, left, decided, pssOverlap, sending, Bool.true_and, Bool.and_eq_true,
      beq_iff_eq]
    exact ⟨fun ⟨other, same⟩ => ⟨other, same.symm⟩, fun ⟨other, same⟩ => ⟨other, same.symm⟩⟩

theorem settled_skipsRightly (settled : call.Settled) (apart : ¬call.Overlaps) : call.SkipsRightly := by
  cases call with
  | background status => trivial
  | urgent request skipped other status =>
    intro skip
    have idle : ¬status.hostPageSending = true := mt (settled_overlaps settled).mp apart
    exact absurd (settled.2.2.trans skip) idle

/-- An interleaving is safe exactly if no page failed to be sent and no urgent request came while
the background sender was at a host page of the same number, of whichever block. -/
theorem preemption_safe_iff (m : Migration) (start : State) (idle : Idle start)
    (events : List Event) : Safe start (run m start events) ↔ (run m start events).failed = [] ∧
      ∀ call ∈ (run m start events).calls, ¬call.Overlaps := by
  have inv := @Invariant.run m start start idle.invariant events
  generalize run m start events = s at inv
  constructor
  · intro safe
    refine ⟨?_, fun call member overlaps => ?_⟩
    · refine eq_nil_iff_forall_not_mem.mpr fun place member => ?_
      have once := safe.once place
      have accounted := inv.accounted place
      have lost := count_pos_iff.mpr member
      rw [account] at accounted
      omega
    · have claims := (settled_overlaps (inv.settled call member)).mpr overlaps
      rw [safe.finished call member] at claims
      exact Bool.false_ne_true claims
  · rintro ⟨noneFailed, apart⟩
    refine ⟨fun call member => settled_skipsRightly (inv.settled call member) (apart call member), ?_, ?_⟩
    · intro call member
      exact Bool.eq_false_iff.mpr (mt (settled_overlaps (inv.settled call member)).mp (apart call member))
    · intro place
      have accounted := inv.accounted place
      rw [account, noneFailed] at accounted
      exact accounted

/-- Two blocks of two pages, all dirty, in postcopy with preemption. -/
def twoBlocks : Migration where
  blocks := [⟨2, false, 1⟩, ⟨2, false, 1⟩]
  preemptActive := true
  inPostcopy := true
  preempt_inPostcopy _ := rfl
  sendFails _ _ := false
  unchanged _ _ := false
  releaseFails _ _ := false
  flushFails := false

def allDirty : State where
  bmap block page := block < 2 && page < 2
  precopy := ⟨0, 0, false, false, 0, 0⟩
  postcopy := ⟨0, 0, false, false, 0, 0⟩
  inFlight := false
  pageHint := none
  sent := []
  failed := []
  calls := []

theorem preemption_safe_iff_twoBlocks : Idle allDirty ∧
    (Safe allDirty (run twoBlocks allDirty [.begin 0 0, .request 1 1 1]) ↔
      (run twoBlocks allDirty [.begin 0 0, .request 1 1 1]).failed = [] ∧
        ∀ call ∈ (run twoBlocks allDirty [.begin 0 0, .request 1 1 1]).calls, ¬call.Overlaps) :=
  ⟨⟨rfl, rfl, rfl, rfl, rfl⟩, preemption_safe_iff twoBlocks allDirty ⟨rfl, rfl, rfl, rfl, rfl⟩ _⟩

/-- While page 0 of block 0 is being sent, a request for page 0 of block 1 is skipped, and the
status of the urgent channel goes on claiming to be sending. -/
theorem other_block_skipped :
    (run twoBlocks allDirty [.begin 0 0, .request 1 0 1]).calls =
        [.urgent ⟨1, 0, false, true, 0, 1⟩ true ⟨0, 0, false, true, 0, 1⟩ ⟨1, 0, false, true, 0, 1⟩] ∧
      (run twoBlocks allDirty [.begin 0 0, .request 1 0 1]).postcopy.hostPageSending = true := by
  decide

end Preemption

end Qemu.PageSearch
