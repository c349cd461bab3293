import Qemu.Block.SerialisingRanges

/-! Whether another request can write to the padding of a read-modify-write cycle. -/

namespace Qemu.Block.Serialising

open List Option

variable {units : Units}

section Requests

variable {s later : State} {id : Nat}

theorem beginStep_tracked (s : State) (id : Nat) (step : Step) :
    (beginStep s id step).tracked = s.tracked := by
  rw [beginStep]
  cases step.serialise with
  | none => rfl
  | some unit => rfl

theorem beginStep_other (step : Step) (other : j ≠ id) : (beginStep s id step).req j = s.req j := by
  rw [beginStep]
  cases step.serialise with
  | none => rfl
  | some unit => exact set_other other _

variable {good : Tracked → Prop}

theorem end_keeps (woken : ∀ req, good req → good { req with woken := true })
    (nodup : s.tracked.Nodup) (others : ∀ j ∈ s.tracked, j ≠ id → good (s.req j)) :
    ∀ j ∈ (trackedRequestEnd s id).tracked, good ((trackedRequestEnd s id).req j) := by
  intro j member
  obtain ⟨other, here⟩ := nodup.mem_erase_iff.mp member
  simp only [trackedRequestEnd]
  split
  · exact woken _ (others j here other)
  · exact others j here other

theorem set_keeps (now : good req) (others : ∀ j ∈ s.tracked, j ≠ id → good (s.req j)) :
    ∀ j ∈ (s.set id req).tracked, good ((s.set id req).req j) := by
  intro j member
  by_cases same : j = id
  · rw [same, set_self]
    exact now
  · rw [set_other same]
    exact others j member same

/-- How a property of requests is kept while one of them goes on: `goes` says of it what is left to
do. -/
structure Keeps (id : Nat) (good : Tracked → Prop) (goes : State → List Step → Prop) : Prop where
  woken : ∀ req, good req → good { req with woken := true }
  waits : ∀ {s step rest other}, Inv (beginStep s id step) (some id) → goes s (step :: rest) →
    bdrvFindConflictingRequest (beginStep s id step) id = some other →
    good { (beginStep s id step).req id with
      waitingFor := some other, woken := false, steps :=
        { step with serialise := none, locked := true } :: rest }
  transfers : ∀ {s step rest transfer}, Inv (beginStep s id step) (some id) →
    goes s (step :: rest) → step.transfer = some transfer →
    good { (beginStep s id step).req id with transfer := some transfer, steps := rest }
  passes : ∀ {s step rest}, goes s (step :: rest) →
    bdrvFindConflictingRequest (beginStep s id step) id = none → goes (beginStep s id step) rest

theorem Keeps.outcome (keeps : Keeps id good goes) (outcome : Outcome id s steps later)
    (now : goes s steps)
    (others : ∀ j ∈ s.tracked, j ≠ id → good (s.req j)) : ∀ j ∈ later.tracked, good (later.req j) := by
  have begun : ∀ {s : State} (step : Step), (∀ j ∈ s.tracked, j ≠ id → good (s.req j)) →
      ∀ j ∈ (beginStep s id step).tracked, j ≠ id → good ((beginStep s id step).req j) := by
    intro s step others j member other
    rw [beginStep_other step other]
    rw [beginStep_tracked] at member
    exact others j member other
  induction outcome with
  | ends inv => exact end_keeps keeps.woken inv.nodup others
  | refused inv => exact end_keeps keeps.woken inv.nodup (begun _ others)
  | waits inv found => exact set_keeps (keeps.waits inv now found) (begun _ others)
  | transfers inv _ given => exact set_keeps (keeps.transfers inv now given) (begun _ others)
  | passes _ clear _ _ ih => exact ih (keeps.passes now clear) (begun _ others)

/-- A property that is kept while any request goes on, from each point where one does, holds at
every switch. -/
theorem run_keeps {goes : Nat → State → List Step → Prop} (keeps : ∀ id, Keeps id good (goes id))
    (begins : ∀ {s id call offset bytes steps}, program units call = some (offset, bytes, steps) →
      goes id (trackedRequestBegin s id call offset bytes steps) steps)
    (completes : ∀ {s : State} {id transfer} (success : Bool), Inv s none → id ∈ s.tracked →
    good (s.req id) →
      (s.req id).transfer = some transfer → goes id (s.set id { s.req id with transfer := none })
        (if success then (s.req id).steps else afterFailure transfer (s.req id).steps))
    (resumes : ∀ {s : State} {id}, good (s.req id) → (s.req id).waitingFor ≠ none →
      goes id (s.set id { s.req id with waitingFor := none, woken := false }) (s.req id).steps)
    (events : List Event) : ∀ i ∈ (run units events).tracked, good ((run units events).req i) := by
  refine (@run_induction units (fun s => ∀ i ∈ s.tracked, good (s.req i))
    (fun i no => absurd no not_mem_nil) (fun s later inv all stepped => ?_) events).2
  cases stepped with
  | nothing => exact all
  | @begins id offset bytes call steps _ fresh given outcome =>
    refine (keeps id).outcome outcome (begins given) fun j member other => ?_
    have here := (mem_cons.mp member).resolve_left other
    rw [trackedRequestBegin, show (_ : State).req j = _ from set_other other _]
    exact all j here
  | @completes id success transfer _ here given outcome =>
    refine (keeps id).outcome outcome (completes success inv here (all id here) given)
      fun j member other => ?_
    rw [set_other other]
    exact all j member
  | @resumes id _ here waiting outcome =>
    refine (keeps id).outcome outcome (resumes (all id here) waiting) fun j member other => ?_
    rw [set_other other]
    exact all j member

theorem begin_self (s : State) (id : Nat) (call : Call) (offset bytes : Nat) (steps : List Step) :
    (trackedRequestBegin s id call offset bytes steps).req id = begun call offset bytes steps := set_self _

end Requests

/-- What the driver writes for a request is in its range, and what it is yet to write will be. -/
def InRange (req : Tracked) : Prop :=
  Covered req req.steps ∧ ∀ transfer, req.transfer = some transfer → transfer.write = true →
    Within transfer req

theorem inRange_keeps (id : Nat) : Keeps id InRange fun s steps => Covered (s.req id) steps where
  woken req inRange := ⟨inRange.1.congr rfl rfl rfl rfl, inRange.2⟩
  waits {s step rest other} inv covered _ := by
    obtain ⟨within, -, covered⟩ := covered
    have idle := (inv.running id rfl).2.2
    rw [beginStep_self] at idle ⊢
    refine ⟨⟨within, fun _ => rfl, covered.congr rfl rfl rfl rfl⟩, fun transfer given => ?_⟩
    exact absurd (idle.symm.trans given) (some_ne_none _).symm
  transfers {s step rest transfer} inv covered given := by
    obtain ⟨within, -, covered⟩ := covered
    rw [beginStep_self]
    refine ⟨covered.congr rfl rfl rfl rfl, fun other same => ?_⟩
    obtain rfl := some.inj same
    exact within transfer given
  passes covered _ := by
    rw [beginStep_self]
    exact covered.2.2

theorem run_inRange (units : Units) (events : List Event) :
    ∀ i ∈ (run units events).tracked, InRange ((run units events).req i) := by
  refine run_keeps inRange_keeps (fun given => ?_) (fun success _ _ inRange _ => ?_)
    (fun inRange _ => ?_) events
  · rw [begin_self]
    exact program_covered given
  · rw [set_self]
    split
    · exact inRange.1.congr rfl rfl rfl rfl
    · exact (inRange.1.afterFailure _).congr rfl rfl rfl rfl
  · rw [set_self]
    exact inRange.1.congr rfl rfl rfl rfl

def Transfer.Covers (transfer : Transfer) (byte : Nat) : Prop :=
  transfer.offset ≤ byte ∧ byte < transfer.offset + transfer.bytes

/-- A byte of the first or last block of a write that does not begin or end with a block. -/
def Call.PaddedByte (units : Units) (byte : Nat) : Call → Prop
  | .read .. => False
  | .write offset bytes .. =>
    (padHead units offset ≠ 0 ∧ alignedOffset units offset ≤ byte ∧
      byte < alignedOffset units offset + units.align) ∨
      (padTail units offset bytes ≠ 0 ∧
        alignedOffset units offset + alignedBytes units offset bytes ≤ byte + units.align ∧
        byte < alignedOffset units offset + alignedBytes units offset bytes)

/-- A read of the padding, with the byte, is left to do. -/
def ReadLater (steps : List Step) (byte : Nat) : Prop :=
  ∃ step ∈ steps, ∃ transfer, step.transfer = some transfer ∧ transfer.padding = true ∧
    transfer.Covers byte

/-- The request has read the byte as padding, or failed to, and is not done. -/
structure Tracked.HasRead (units : Units) (req : Tracked) (byte : Nat) : Prop where
  padded : req.call.PaddedByte units byte
  finished : ∀ transfer, req.transfer = some transfer → transfer.padding = true → ¬ transfer.Covers byte
  nothingLeft : ¬ ReadLater req.steps byte

/-- While a request works with padding that it has read, nobody else writes there. -/
def Exclusive (units : Units) (s : State) (i : Nat) : Prop :=
  ∀ byte, (s.req i).HasRead units byte → ∀ j ∈ s.tracked, j ≠ i →
    ∀ transfer, (s.req j).transfer = some transfer → transfer.write = true → ¬ transfer.Covers byte

/-- An unaligned write that does not widen its range after it has read the padding. -/
def Call.Settled (units : Units) : Call → Prop
  | .read .. => False
  | .write offset bytes _ serialising _ =>
    padded units offset bytes = true ∧ (serialising = true → units.clusterSize ≤ units.align)

/-- The range is the aligned one. -/
structure Exact (units : Units) (req : Tracked) : Prop where
  serialising : req.serialising = true
  rounded : RoundedTo units.align req
  around : ∀ byte, req.call.PaddedByte units byte →
    req.overlapOffset ≤ byte ∧ byte < req.overlapOffset + req.overlapBytes

/-- A step that does not widen the aligned range. -/
def Neutral (units : Units) (step : Step) : Prop := ∀ unit, step.serialise = some unit → unit ∣ units.align

theorem setSerialising_exact (exact : Exact units req) (finer : unit ∣ units.align) :
    setSerialising req unit = req := by
  have start := exact.rounded.start
  have stop := exact.rounded.stop
  have below := @alignDown_anti unit units.align req.offset finer
  have above := @roundUp_mono unit units.align (req.offset + req.bytes)
    (Nat.pos_of_dvd_of_pos finer units.align_pos) units.align_pos finer
  have first : min req.overlapOffset (alignDown req.offset unit) = req.overlapOffset := by omega
  have length : max req.overlapBytes (roundUp (req.offset + req.bytes) unit - alignDown req.offset unit) =
      req.overlapBytes := by omega
  rw [setSerialising, first, length, ← exact.serialising]

variable {s : State} {id : Nat} {step : Step}

theorem beginStep_exact (exact : Exact units (s.req id))
    (neutral : Neutral units step) : beginStep s id step = s := by
  rw [beginStep]
  cases given : step.serialise with
  | none => rfl
  | some unit =>
    dsimp only
    rw [trackedRequestSetSerialising, setSerialising_exact exact (neutral unit given),
      if_pos exact.serialising, State.set, Function.update_eq_self]

/-- Of an unaligned write whose range is settled: it has the aligned range, and if it waits, all of
its padding is still to be read. -/
def Held (units : Units) (req : Tracked) : Prop :=
  req.call.Settled units → Exact units req ∧ (∀ step ∈ req.steps, Neutral units step) ∧
    (req.waitingFor ≠ none → ∀ byte, req.call.PaddedByte units byte → ReadLater req.steps byte)

/-- The same while it goes on: there is nobody to wait for, or all of the padding is still to be
read. -/
def Holding (units : Units) (id : Nat) (s : State) (steps : List Step) : Prop :=
  (s.req id).call.Settled units → (∀ step ∈ steps, Neutral units step) ∧
    ((Exact units (s.req id) ∧ (bdrvFindConflictingRequest s id = none ∨
        ∀ byte, (s.req id).call.PaddedByte units byte → ReadLater steps byte)) ∨
      ∃ rest, steps = bdrvMakeRequestSerialising units.align :: rest ∧
        Exact units (setSerialising (s.req id) units.align) ∧
        ∀ byte, (s.req id).call.PaddedByte units byte → ReadLater rest byte)

theorem beginStep_call (s : State) (id : Nat) (step : Step) :
    ((beginStep s id step).req id).call = (s.req id).call := by
  rw [beginStep_self, serialised]
  cases step.serialise with
  | none => rfl
  | some unit => rfl

/-- The first step of a request that goes on makes its range exact, or leaves it so. -/
theorem Holding.begun (holding : Holding units id s (step :: rest))
    (settled : (s.req id).call.Settled units) : Exact units ((beginStep s id step).req id) ∧
      (bdrvFindConflictingRequest (beginStep s id step) id = none ∨
        ∀ byte, (s.req id).call.PaddedByte units byte → ReadLater (step :: rest) byte) := by
  obtain ⟨neutral, ⟨exact, cause⟩ | ⟨_, same, exact, later⟩⟩ := holding settled
  · rw [beginStep_exact exact (neutral step mem_cons_self)]
    exact ⟨exact, cause⟩
  obtain ⟨rfl, rfl⟩ := cons.inj same
  rw [beginStep_self]
  refine ⟨exact, .inr fun byte padded => ?_⟩
  obtain ⟨read, member, covers⟩ := later byte padded
  exact ⟨read, mem_cons_of_mem _ member, covers⟩

theorem held_keeps (units : Units) (id : Nat) : Keeps id (Held units) (Holding units id) where
  woken req held settled := by
    obtain ⟨exact, rest⟩ := held settled
    exact ⟨⟨exact.serialising, ⟨exact.rounded.start, exact.rounded.stop⟩, exact.around⟩, rest⟩
  waits {s step rest other} _ holding found settled := by
    have call := beginStep_call s id step
    rw [call] at settled
    obtain ⟨exact, cause⟩ := holding.begun settled
    have neutral := (holding settled).1
    have later := cause.resolve_left (by simp [found])
    refine ⟨⟨exact.serialising, ⟨exact.rounded.start, exact.rounded.stop⟩, exact.around⟩, ?_,
      fun _ byte padded => ?_⟩
    · intro each member
      rcases mem_cons.mp member with rfl | member
      · exact fun unit no => absurd no (some_ne_none unit).symm
      · exact neutral each (mem_cons_of_mem _ member)
    · rw [call] at padded
      obtain ⟨read, member, covers⟩ := later byte padded
      rcases mem_cons.mp member with rfl | member
      · exact ⟨_, mem_cons_self, covers⟩
      · exact ⟨read, mem_cons_of_mem _ member, covers⟩
  transfers {s step rest transfer} inv holding _ settled := by
    rw [beginStep_call] at settled
    obtain ⟨exact, -⟩ := holding.begun settled
    refine ⟨⟨exact.serialising, ⟨exact.rounded.start, exact.rounded.stop⟩, exact.around⟩, ?_,
      fun waiting => ?_⟩
    · exact fun each member => (holding settled).1 each (mem_cons_of_mem _ member)
    · exact absurd (inv.running id rfl).2.1 waiting
  passes {s step rest} holding clear settled := by
    rw [beginStep_call] at settled
    obtain ⟨exact, -⟩ := holding.begun settled
    exact ⟨fun each member => (holding settled).1 each (mem_cons_of_mem _ member),
      .inl ⟨exact, .inl clear⟩⟩

variable {offset bytes : Nat}

/-- The first and the last block are in the aligned range. -/
theorem paddedByte_aligned {offset bytes byte : Nat} {zeroWrite serialising noWait : Bool}
    (padding : (Call.write offset bytes zeroWrite serialising noWait).PaddedByte units byte) :
    alignedOffset units offset ≤ byte ∧
    byte < alignedOffset units offset + alignedBytes units offset bytes := by
  obtain ⟨start, stop⟩ := aligned_eq units offset bytes
  obtain ⟨lower, upper⟩ := aligned_dvd units offset bytes
  have multiple : units.align ∣ alignedBytes units offset bytes := (Nat.dvd_add_right lower).mp upper
  have block : alignedBytes units offset bytes ≠ 0 → units.align ≤ alignedBytes units offset bytes :=
    fun some => Nat.le_of_dvd (Nat.pos_of_ne_zero some) multiple
  rcases padding with ⟨head, first, last⟩ | ⟨tail, first, last⟩
  · omega
  · omega

variable {byte start length : Nat}

theorem readLater_of_mem (member : readStep true start length ∈ steps)
    (lower : start ≤ byte) (upper : byte < start + length) : ReadLater steps byte :=
  ⟨_, member, _, rfl, rfl, lower, upper⟩

/-- Every padded byte is read before anything is written. -/
theorem paddingRmwRead_reads
    (padding : (Call.write offset bytes zeroWrite serialising noWait).PaddedByte units byte) :
    ReadLater (bdrvPaddingRmwRead units offset bytes) byte := by
  obtain ⟨start, stop⟩ := aligned_eq units offset bytes
  obtain ⟨lower, upper⟩ := paddedByte_aligned padding
  cases merge : mergeReads units offset bytes with
  | true =>
    have length := mergeReads_eq merge
    have member : readStep true (alignedOffset units offset) (padBufLen units offset bytes) ∈
        bdrvPaddingRmwRead units offset bytes := by
      simp [bdrvPaddingRmwRead, merge]
    exact readLater_of_mem member lower (by omega)
  | false =>
    rcases padding with ⟨head, first, last⟩ | ⟨tail, first, last⟩
    · have member : readStep true (alignedOffset units offset) units.align ∈ bdrvPaddingRmwRead
        units offset bytes := by
        simp [bdrvPaddingRmwRead, merge, head]
      exact readLater_of_mem member first last
    · have member : readStep true
          (alignedOffset units offset + alignedBytes units offset bytes - units.align) units.align ∈
          bdrvPaddingRmwRead units offset bytes := by
        simp [bdrvPaddingRmwRead, merge, tail]
      exact readLater_of_mem member (by omega) (by omega)

theorem WriteIn.neutral (write : WriteIn units serialising noWait start stop step)
    (settled : serialising = true → units.clusterSize ≤ units.align) : Neutral units step := by
  obtain ⟨first, length, rfl, -⟩ := write
  intro unit given
  cases serialising with
  | false => exact absurd given (some_ne_none unit).symm
  | true => ?_
  obtain rfl := some.inj given
  have ordered := settled rfl
  rcases PowerOfTwo.dvd_or_dvd units.clusterPower units.alignPower with finer | coarser
  · exact finer
  · have same := le_antisymm ordered (Nat.le_of_dvd units.clusterSize_pos coarser)
    exact same.dvd

theorem neutral_rmwSteps (offset bytes : Nat) :
    ∀ step ∈ rmwSteps units offset bytes, Neutral units step := by
  intro step member unit given
  rcases mem_rmwSteps member with rfl | ⟨first, length, rfl⟩
  · exact (some.inj given).symm.dvd
  · exact absurd given (some_ne_none unit).symm

/-- An unaligned write is tracked with a range that rounds to its aligned range. -/
theorem exact_of_range (write : call = .write offset bytes zeroWrite serialising noWait)
    (first : alignDown start units.align = alignedOffset units offset)
    (last : roundUp (start + length) units.align =
    alignedOffset units offset + alignedBytes units offset bytes) :
    Exact units (setSerialising (begun call start length steps) units.align) where
  serialising := rfl
  rounded := setSerialising_rounded units.align_pos rfl rfl
  around byte padding := by
    have rounded : RoundedTo units.align (setSerialising (begun call start length steps) units.align) :=
      setSerialising_rounded units.align_pos rfl rfl
    have aligned := @paddedByte_aligned units offset bytes byte zeroWrite serialising noWait
      (write ▸ padding)
    rw [rounded.stop, rounded.start]
    exact ⟨first.trans_le aligned.1, aligned.2.trans_eq last.symm⟩

theorem program_holding (given : program units call = some (offset, bytes, steps)) :
    Holding units id (trackedRequestBegin s id call offset bytes steps) steps := by
  intro settled
  rw [begin_self] at settled ⊢
  cases call with
  | read => exact settled.elim
  | write first length zeroWrite serialising noWait => ?_
  obtain ⟨unaligned, narrow⟩ := settled
  have reads : rmwSteps units first length =
      bdrvMakeRequestSerialising units.align :: bdrvPaddingRmwRead units first length := if_pos unaligned
  have later : ∀ writes byte,
      (Call.write first length zeroWrite serialising noWait).PaddedByte units byte →
      ReadLater (bdrvPaddingRmwRead units first length ++ writes) byte := by
    intro writes byte padding
    obtain ⟨read, member, covers⟩ := paddingRmwRead_reads padding
    exact ⟨read, mem_append_left _ member, covers⟩
  rcases program_write given with ⟨rfl, rfl, rfl⟩ | ⟨rfl, rfl, rfl⟩
  · refine ⟨fun step member => ?_,
      .inr ⟨_, congrArg (· ++ _) reads, exact_of_range rfl rfl (roundUp_aligned ..), later _⟩⟩
    rcases mem_append.mp member with read | write
    · exact neutral_rmwSteps _ _ step read
    · exact (zeroWrites_writes _ _ _ _ step write).neutral narrow
  · obtain ⟨lower, upper⟩ := aligned_dvd units first length
    have start := le_antisymm (alignDown_le (alignedOffset units first) units.align)
      (le_alignDown lower le_rfl)
    have stop := le_antisymm (roundUp_le units.align_pos upper le_rfl) (le_roundUp _ units.align_pos)
    refine ⟨fun step member => ?_,
      .inr ⟨_, congrArg (· ++ _) reads, exact_of_range rfl start stop, later _⟩⟩
    rcases mem_append.mp member with read | write
    · exact neutral_rmwSteps _ _ step read
    · exact WriteIn.neutral ⟨_, _, mem_singleton.mp write, le_rfl, le_rfl⟩ narrow

/-- A request whose transfer is done has nobody to wait for, unless its range changes. -/
theorem Inv.completed (inv : Inv s none) (here : id ∈ s.tracked) (given : (s.req id).transfer ≠ none) :
    bdrvFindConflictingRequest (s.set id { s.req id with transfer := none }) id = none := by
  have free := (inv.yielded id here (by simp)).mpr given
  refine find_none_iff.mpr fun j member other waits => ?_
  rw [set_self]
  rw [set_other other] at waits ⊢
  exact inv.quiet id here j member (Ne.symm other) (by simp) (by simp) free waits

theorem run_held (units : Units) (events : List Event) :
    ∀ i ∈ (run units events).tracked, Held units ((run units events).req i) := by
  refine run_keeps (held_keeps units) program_holding
    (fun success inv here held given settled => ?_) (fun held waiting settled => ?_) events
  · rw [set_self] at settled ⊢
    obtain ⟨exact, neutral, -⟩ := held settled
    refine ⟨fun step member => neutral step ?_,
      .inl ⟨⟨exact.serialising, ⟨exact.rounded.start, exact.rounded.stop⟩,
      exact.around⟩, .inl (inv.completed here (by simp [given]))⟩⟩
    split at member
    · exact member
    · rw [afterFailure_eq] at member
      split at member
      · exact (dropWhile_sublist _).subset member
      · exact absurd member not_mem_nil
  · rw [set_self] at settled ⊢
    obtain ⟨exact, neutral, later⟩ := held settled
    exact ⟨neutral, .inl ⟨⟨exact.serialising, ⟨exact.rounded.start, exact.rounded.stop⟩,
      exact.around⟩, .inr (later waiting)⟩⟩

/-- Nobody writes to the padding of a write whose range is settled, whatever the other requests
are. -/
theorem exclusive_of_settled (here : i ∈ (run units events).tracked)
    (settled : ((run units events).req i).call.Settled units) : Exclusive units (run units events) i := by
  intro byte read j member other transfer given write covers
  have inv := run_inv units events
  obtain ⟨exact, -, later⟩ := run_held units events i here settled
  have free : ((run units events).req i).waitingFor = none := by
    by_contra waiting
    exact read.nothingLeft (later waiting byte read.padded)
  have busy := (inv.yielded j member (by simp)).mpr (by simp [given])
  have quiet := inv.quiet i here j member (Ne.symm other) (by simp) (by simp) free busy
  -- both ranges hold the byte
  have mine := exact.around byte read.padded
  have within := (run_inRange units events j member).2 transfer given write
  simp only [conflicts, trackedRequestOverlaps, exact.serialising, Bool.or_true, Bool.true_and,
    Bool.and_eq_false_iff, Bool.not_eq_false', decide_eq_true_eq] at quiet
  simp only [Transfer.Covers, Within] at covers within
  omega

end Qemu.Block.Serialising
