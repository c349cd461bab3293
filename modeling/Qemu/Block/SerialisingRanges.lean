import Qemu.Block.PaddedVector
import Qemu.Block.SerialisingWaits

namespace Qemu.Block.Serialising

open List Option Nat

variable {units : Units}

namespace Units

theorem align_pos (units : Units) : 0 < units.align := by
  obtain ⟨k, power⟩ := units.alignPower
  exact power ▸ Nat.two_pow_pos k

theorem clusterSize_pos (units : Units) : 0 < units.clusterSize := by
  obtain ⟨k, power⟩ := units.clusterPower
  exact power ▸ Nat.two_pow_pos k

end Units

/-- A unit that ranges are rounded to. -/
def PowerOfTwo (unit : Nat) : Prop := ∃ k, unit = 2 ^ k

variable {unit : Nat}

theorem PowerOfTwo.pos (power : PowerOfTwo unit) : 0 < unit := by
  obtain ⟨k, rfl⟩ := power
  exact Nat.two_pow_pos k

variable {u : Nat}

theorem PowerOfTwo.dvd_or_dvd (first : PowerOfTwo u) (second : PowerOfTwo v) : u ∣ v ∨ v ∣ u := by
  obtain ⟨j, rfl⟩ := first
  obtain ⟨k, rfl⟩ := second
  exact (le_total j k).imp (pow_dvd_pow 2) (pow_dvd_pow 2)

theorem alignDown_anti {u v n : Nat} (coarser : u ∣ v) : alignDown n v ≤ alignDown n u :=
  le_alignDown (coarser.trans (alignDown_dvd ..)) (alignDown_le ..)

theorem roundUp_mono {u v n : Nat} (fine : 0 < u) (coarse : 0 < v) (coarser : u ∣ v) :
    roundUp n u ≤ roundUp n v :=
  roundUp_le fine (coarser.trans (roundUp_dvd ..)) (le_roundUp n coarse)

/-- The overlap range of a request is its own range, rounded to a unit. -/
structure RoundedTo (unit : Nat) (req : Tracked) : Prop where
  start : req.overlapOffset = alignDown req.offset unit
  stop : req.overlapOffset + req.overlapBytes = roundUp (req.offset + req.bytes) unit

variable {req : Tracked}

/-- Rounding to another unit leaves the range rounded to the coarser of them. -/
theorem RoundedTo.setSerialising (rounded : RoundedTo u req) (first : PowerOfTwo u)
    (second : PowerOfTwo v) : ∃ w, PowerOfTwo w ∧ u ∣ w ∧ RoundedTo w (setSerialising req v) := by
  have start := rounded.start
  have stop := rounded.stop
  rcases first.dvd_or_dvd second with coarser | finer
  · have below := @alignDown_anti u v req.offset coarser
    have above := @roundUp_mono u v (req.offset + req.bytes) first.pos second.pos coarser
    refine ⟨v, second, coarser, ?_, ?_⟩
    · simp only [Serialising.setSerialising]
      omega
    · simp only [Serialising.setSerialising]
      omega
  · have below := @alignDown_anti v u req.offset finer
    have above := @roundUp_mono v u (req.offset + req.bytes) second.pos first.pos finer
    refine ⟨u, first, dvd_rfl, ?_, ?_⟩
    · simp only [Serialising.setSerialising]
      omega
    · simp only [Serialising.setSerialising]
      omega

theorem setSerialising_rounded (pos : 0 < unit) (start : req.overlapOffset = req.offset)
    (length : req.overlapBytes = req.bytes) : RoundedTo unit (setSerialising req unit) := by
  have below := alignDown_le req.offset unit
  have above := le_roundUp (req.offset + req.bytes) pos
  constructor
  · simp only [setSerialising]
    omega
  · simp only [setSerialising]
    omega

/-- A transfer is in the range that its request is tracked with. -/
def Within (transfer : Transfer) (req : Tracked) : Prop :=
  req.overlapOffset ≤ transfer.offset ∧ transfer.offset + transfer.bytes ≤
    req.overlapOffset + req.overlapBytes

def Step.isPadding (step : Step) : Bool :=
  match step.transfer with
  | some transfer => transfer.padding
  | none => false

/-- The request as it is once a step has begun. -/
def serialised (req : Tracked) (step : Step) : Tracked :=
  match step.serialise with
  | none => req
  | some unit => setSerialising req unit

/-- What the steps write will be in the range, and the reads of the padding leave the range as it
is. -/
def Covered : Tracked → List Step → Prop
  | _, [] => True
  | req, step :: rest =>
    (∀ transfer, step.transfer = some transfer → transfer.write = true →
      Within transfer (serialised req step)) ∧
      (step.isPadding = true → step.serialise = none) ∧ Covered (serialised req step) rest

theorem beginStep_self (s : State) (id : Nat) (step : Step) :
    (beginStep s id step).req id = serialised (s.req id) step := by
  rw [beginStep, serialised]
  cases step.serialise with
  | none => rfl
  | some unit => exact set_self _

variable {steps : List Step}

/-- Only the ranges count. -/
theorem Covered.congr (covered : Covered req steps)
    (offset : req'.offset = req.offset) (bytes : req'.bytes = req.bytes)
    (start : req'.overlapOffset = req.overlapOffset)
    (length : req'.overlapBytes = req.overlapBytes) : Covered req' steps := by
  induction steps generalizing req req' with
  | nil => trivial
  | cons step rest ih => ?_
  obtain ⟨within, unchanged, covered⟩ := covered
  have same : (serialised req' step).offset = (serialised req step).offset ∧
      (serialised req' step).bytes = (serialised req step).bytes ∧
      (serialised req' step).overlapOffset = (serialised req step).overlapOffset ∧
      (serialised req' step).overlapBytes = (serialised req step).overlapBytes := by
    rw [serialised, serialised]
    split
    · exact ⟨offset, bytes, start, length⟩
    · simp [setSerialising, offset, bytes, start, length]
  refine ⟨fun transfer given write => ?_, unchanged, ih covered same.1 same.2.1 same.2.2.1 same.2.2.2⟩
  have inside := within transfer given write
  simp only [Within] at inside ⊢
  rw [same.2.2.1, same.2.2.2]
  exact inside

theorem afterFailure_eq (transfer : Transfer) (steps : List Step) :
    afterFailure transfer steps = if transfer.padding then steps.dropWhile Step.isPadding else [] := rfl

theorem Covered.afterFailure (covered : Covered req steps) (transfer : Transfer) :
    Covered req (afterFailure transfer steps) := by
  rw [afterFailure_eq]
  cases transfer.padding with
  | false => trivial
  | true => ?_
  induction steps with
  | nil => trivial
  | cons step rest ih => ?_
  rw [dropWhile_cons]
  by_cases padding : step.isPadding = true
  · obtain ⟨-, unchanged, later⟩ := covered
    rw [serialised, unchanged padding] at later
    rw [if_pos padding]
    exact ih later
  · rw [if_neg padding]
    exact covered

section

variable (units : Units) (offset bytes : Nat)

theorem padTail_dvd : units.align ∣ offset + bytes + padTail units offset bytes :=
  (tailTo_spec _ units.align_pos).2

theorem padTail_lt : padTail units offset bytes < units.align := (tailTo_spec _ units.align_pos).1

theorem aligned_eq :
    alignedOffset units offset + padHead units offset = offset ∧
      alignedOffset units offset + alignedBytes units offset bytes =
      offset + bytes + padTail units offset bytes := by
  have start : alignedOffset units offset + padHead units offset = offset := by
    have below := mod_le offset units.align
    rw [alignedOffset, padHead, alignDown_eq]
    omega
  have stop := roundUp_eq (padTail_lt units offset bytes) (padTail_dvd units offset bytes)
  refine ⟨start, ?_⟩
  rw [alignedBytes]
  omega

theorem roundUp_aligned :
    roundUp (offset + bytes) units.align = alignedOffset units offset +
    alignedBytes units offset bytes := by
  have below := alignDown_le offset units.align
  have above := le_roundUp (offset + bytes) units.align_pos
  rw [alignedBytes, alignedOffset]
  omega

end

section DataPath

variable {node : Node} (same : node.align = units.align) {offset bytes : Nat}

/-- The padding of a request, as the data path has it. -/
def padding (units : Units) (offset bytes : Nat) : Padding where
  bufLen := padBufLen units offset bytes
  head := padHead units offset
  tail := padTail units offset bytes
  mergeReads := mergeReads units offset bytes
  preCollapse := none

/-- The transfers of reading the padding, each to its place in the buffer. -/
def readPadding (node : Node) (driver : Driver) : List Step → List Nat → IoState → IoResult
  | ⟨_, _, _, some read⟩ :: steps, place :: places, s => do
    let (s, ret) ← bdrvAlignedPreadv node driver read.offset read.bytes [padBuf place read.bytes] 0 s
    if ret < 0 then
      return (s, ret)
    readPadding node driver steps places s
  | _, _, s => .ok (s, 0)

include same

theorem bdrvInitPadding_eq (inside : offset + bytes ≤ bdrvMaxLength)
    (nonempty : bytes ≠ 0 ∨ padHead units offset = 0) : bdrvInitPadding node offset bytes =
      .ok (if padded units offset bytes then some (padding units offset bytes) else none) := by
  rw [bdrvInitPadding, bdrvCheckQiovRequest_zero inside (by simp), if_neg (by decide), same]
  simp only [padding, padded, padHead, padTail, padBufLen, mergeReads] at *
  by_cases none : bytes = 0
  · simp_all
  · simp only [none, if_false]
    split_ifs <;> simp_all

/-- The data path reads the padding with the same transfers. -/
theorem rmwReads_eq (driver : Driver) : ∃ places, ∀ s,
    Prod.fst <$> rmwReads node driver (padding units offset bytes) (alignedOffset units offset)
        (alignedBytes units offset bytes) s =
      Prod.fst <$> readPadding node driver (bdrvPaddingRmwRead units offset bytes) places s := by
  let tail := padBufLen units offset bytes - units.align
  refine ⟨if padHead units offset ≠ 0 ∨ mergeReads units offset bytes then [0, tail] else [tail],
    fun s => ?_⟩
  have last : ∀ result : IoResult, (Prod.fst <$> do
      let (s, ret) ← result
      if ret < 0 then
        return (s, ret)
      return (s, 0) : Except Fault IoState) = Prod.fst <$> result := by
    rintro (_ | ⟨s, ret⟩)
    · rfl
    · by_cases failed : ret < 0 <;> simp [failed, bind, Except.bind, pure, Except.pure, Functor.map,
        Except.map]
  simp only [rmwReads, bdrvPaddingRmwRead, same, Padding.tailBuf, padding]
  by_cases first : padHead units offset ≠ 0 ∨ mergeReads units offset bytes = true <;>
    by_cases second : padTail units offset bytes ≠ 0 ∧ (!mergeReads units offset bytes) = true
  · simp only [if_pos first, if_pos second, readStep, cons_append, nil_append, readPadding]
    rcases bdrvAlignedPreadv node driver (alignedOffset units offset) _ _ 0 s with _ | ⟨s, ret⟩
    · rfl
    · dsimp only [bind, Except.bind]
      split
      · rfl
      · exact (last _).symm
  · simp only [if_pos first, if_neg second, readStep, append_nil, readPadding]
    rfl
  · simp only [if_neg first, if_pos second, readStep, nil_append, readPadding]
    exact (last _).symm
  · simp only [if_neg first, if_neg second, append_nil, readPadding]
    rfl

/-- It gives the driver the same aligned range. -/
theorem bdrvPadRequest_range {qiov : Qiov} {qiovOffset : Nat} (write : Bool) (s : IoState)
    (accepted : ¬ bdrvCheckRequest32 offset bytes (some qiov) qiovOffset < 0)
    (nonzero : bytes ≠ 0 ∨ padHead units offset = 0) (nonempty : ∀ v ∈ qiov, 0 < v.len)
    (foreign : Foreign qiov) (few : qiov.length ≤ iovMax) :
    ∃ later req, bdrvPadRequest node write offset bytes qiov qiovOffset s = .ok (later, 0, req) ∧
      req.offset = alignedOffset units offset ∧ req.bytes = alignedBytes units offset bytes := by
  rw [padHead, ← same] at nonzero
  obtain ⟨later, req, before, after, _, _, _, ran, made⟩ :=
    bdrvPadRequest_spec node write s accepted nonzero nonempty foreign few
  refine ⟨later, req, ran, ?_⟩
  have start := made.offset_eq
  have length := made.bytes_eq
  have ends : before = offset % units.align ∧ after < units.align ∧
    units.align ∣ offset + bytes + after := by
    rw [← same]
    rcases made.padding with ⟨-, rfl, rfl⟩ | ⟨pad, -, padding, rfl, rfl, -⟩
    · have whole := Nat.dvd_add made.offsetAligned made.bytesAligned
      rw [length, ← start] at *
      exact ⟨(mod_eq_zero_of_dvd made.offsetAligned).symm, node.align_pos, by simpa [length] using whole⟩
    · exact ⟨padding.head_eq, padding.tail_lt, padding.aligned⟩
  obtain ⟨head, tail, whole⟩ := ends
  have down := alignDown_eq offset units.align
  have up := roundUp_eq tail whole
  have below := mod_le offset units.align
  rw [alignedBytes, alignedOffset]
  omega

end DataPath

/-- A step that widens the range to a power of two at most, and writes in the aligned range. -/
structure Tame (start stop : Nat) (step : Step) : Prop where
  unit : ∀ unit, step.serialise = some unit → PowerOfTwo unit
  inside : ∀ transfer, step.transfer = some transfer → transfer.write = true →
    start ≤ transfer.offset ∧ transfer.offset + transfer.bytes ≤ stop
  padding : step.isPadding = true → step.serialise = none

theorem covered_of_tame (power : PowerOfTwo u)
    (rounded : RoundedTo u req) (below : alignDown req.offset u ≤ start)
    (above : stop ≤ roundUp (req.offset + req.bytes) u)
    (tame : ∀ step ∈ steps, Tame start stop step) : Covered req steps := by
  induction steps generalizing req u with
  | nil => trivial
  | cons step rest ih => ?_
  have first := tame step mem_cons_self
  have others := fun later member => tame later (mem_cons_of_mem _ member)
  -- the range after the step is rounded to a unit that is no finer
  have widened : ∃ w, PowerOfTwo w ∧ u ∣ w ∧ RoundedTo w (serialised req step) ∧
      (serialised req step).offset = req.offset ∧ (serialised req step).bytes = req.bytes := by
    rw [serialised]
    cases given : step.serialise with
    | none => exact ⟨u, power, dvd_rfl, rounded, rfl, rfl⟩
    | some unit =>
      obtain ⟨w, coarse, coarser, result⟩ := rounded.setSerialising power (first.unit unit given)
      exact ⟨w, coarse, coarser, result, rfl, rfl⟩
  obtain ⟨w, coarse, coarser, result, offset, bytes⟩ := widened
  have lower := @alignDown_anti u w req.offset coarser
  have upper := @roundUp_mono u w (req.offset + req.bytes) power.pos coarse.pos coarser
  have begins := result.start
  have ends := result.stop
  rw [offset] at begins
  rw [offset, bytes] at ends
  refine ⟨fun transfer given write => ?_, first.padding, ih coarse result ?_ ?_ others⟩
  · have inside := first.inside transfer given write
    constructor
    · omega
    · omega
  · rw [offset]
    omega
  · rw [offset, bytes]
    omega

section Programs

variable {start stop : Nat}

theorem tame_readStep (padding : Bool) (offset bytes : Nat) :
    Tame start stop (readStep padding offset bytes) where
  unit other no := absurd no (some_ne_none other).symm
  inside transfer given write := by
    obtain rfl := some.inj given
    exact absurd write Bool.false_ne_true
  padding _ := rfl

variable {offset bytes : Nat}

variable {step : Step}

theorem mem_rmwSteps (member : step ∈ rmwSteps units offset bytes) :
    step = bdrvMakeRequestSerialising units.align ∨ ∃ first length, step = readStep true first length := by
  rw [rmwSteps] at member
  split at member
  · rcases mem_cons.mp member with rfl | read
    · exact .inl rfl
    · simp only [bdrvPaddingRmwRead, mem_append, mem_ite_nil_right, mem_singleton] at read
      rcases read with ⟨-, rfl⟩ | ⟨-, rfl⟩
      · exact .inr ⟨_, _, rfl⟩
      · exact .inr ⟨_, _, rfl⟩
  · exact absurd member not_mem_nil

theorem tame_rmwSteps (offset bytes : Nat) :
    ∀ step ∈ rmwSteps units offset bytes, Tame start stop step := by
  intro step member
  rcases mem_rmwSteps member with rfl | ⟨first, length, rfl⟩
  · exact ⟨fun _ same => some.inj same ▸ units.alignPower,
      fun transfer no => absurd no (some_ne_none transfer).symm,
      fun no => absurd no Bool.false_ne_true⟩
  · exact tame_readStep ..

variable {serialising noWait : Bool}

/-- A write of the request's data inside a range. -/
def WriteIn (units : Units) (serialising noWait : Bool) (start stop : Nat) (step : Step) : Prop :=
  ∃ first length, step = bdrvAlignedPwritev units serialising noWait first length ∧ start ≤ first ∧
    first + length ≤ stop

theorem WriteIn.tame (write : WriteIn units serialising noWait start stop step) :
    Tame start stop step := by
  obtain ⟨first, length, rfl, below, above⟩ := write
  refine ⟨fun unit given => ?_, fun transfer given _ => ?_, fun no => absurd no Bool.false_ne_true⟩
  · cases serialising with
    | false => exact absurd given (some_ne_none unit).symm
    | true => exact some.inj given ▸ units.clusterPower
  · obtain rfl := some.inj given
    exact ⟨below, above⟩

theorem zeroMiddleAndTail_writes (below : start ≤ offset)
    (aligned : units.align ∣ offset) (multiple : units.align ∣ stop) (above : offset + bytes ≤ stop) :
    ∀ step ∈ zeroMiddleAndTail units serialising noWait offset bytes,
    WriteIn units serialising noWait start stop step := by
  intro step member
  have middle := alignDown_le bytes units.align
  simp only [zeroMiddleAndTail, mem_append, mem_ite_nil_right, mem_singleton] at member
  rcases member with ⟨-, rfl⟩ | ⟨rest, rfl⟩
  · exact ⟨_, _, rfl, below, by omega⟩
  · -- the last block ends where the aligned range ends
    have block : units.align ∣ offset + alignDown bytes units.align := dvd_add aligned (alignDown_dvd ..)
    have apart := le_of_dvd (by omega) (dvd_sub multiple block)
    exact ⟨_, _, rfl, by omega, by omega⟩

theorem mergeReads_eq (merge : mergeReads units offset bytes = true) :
    padHead units offset + bytes + padTail units offset bytes = padBufLen units offset bytes := by
  simpa only [mergeReads, decide_eq_true_eq] using merge

/-- A head that is read alone is a whole block of the aligned range. -/
theorem head_fits (head : padHead units offset ≠ 0) (apart : mergeReads units offset bytes = false) :
    units.align - padHead units offset ≤ bytes := by
  have start := (aligned_eq units offset bytes).1
  have small := padTail_lt units offset bytes
  have multiple := padTail_dvd units offset bytes
  have block : units.align ∣ alignedOffset units offset := alignDown_dvd ..
  have whole : units.align ∣ padHead units offset + bytes + padTail units offset bytes := by
    have rest := dvd_sub multiple block
    rwa [show offset + bytes + padTail units offset bytes - alignedOffset units offset =
      padHead units offset + bytes + padTail units offset bytes by omega] at rest
  obtain ⟨blocks, length⟩ := whole
  have differs : padHead units offset + bytes + padTail units offset bytes ≠
    padBufLen units offset bytes := by
    simpa only [mergeReads, decide_eq_false_iff_not] using apart
  by_contra! short
  have one : blocks < 2 := by
    by_contra! many
    have := mul_le_mul_left units.align many
    omega
  have single : padHead units offset + bytes + padTail units offset bytes = units.align := by
    interval_cases blocks
    · omega
    · omega
  rw [padBufLen, single] at differs
  simp at differs

theorem zeroWrites_writes (serialising noWait : Bool) (offset bytes : Nat) :
    ∀ step ∈ zeroWrites units serialising noWait offset bytes,
      WriteIn units serialising noWait (alignedOffset units offset)
      (alignedOffset units offset + alignedBytes units offset bytes) step := by
  obtain ⟨start, stop⟩ := aligned_eq units offset bytes
  have block : units.align ∣ alignedOffset units offset := alignDown_dvd ..
  have multiple : units.align ∣ alignedOffset units offset + alignedBytes units offset bytes :=
    stop ▸ padTail_dvd units offset bytes
  rw [zeroWrites]
  split
  next first =>
    cases merge : mergeReads units offset bytes with
    | true =>
      have length := mergeReads_eq merge
      intro step member
      obtain rfl := mem_singleton.mp member
      exact ⟨_, _, rfl, le_rfl, by rw [if_pos rfl]; omega⟩
    | false =>
      have head : padHead units offset ≠ 0 := first.2.resolve_right (by simp [merge])
      have fits := head_fits head merge
      have small : padHead units offset < units.align := mod_lt _ units.align_pos
      have next : units.align ∣ offset + (units.align - padHead units offset) := by
        rw [show offset + (units.align - padHead units offset) =
          alignedOffset units offset + units.align by omega]
        exact dvd_add block dvd_rfl
      rw [if_neg Bool.false_ne_true]
      intro step member
      rcases mem_cons.mp member with rfl | later
      · exact ⟨_, _, rfl, le_rfl, by omega⟩
      · exact zeroMiddleAndTail_writes (by omega) next multiple (by omega) step later
  next noHead =>
    have even : padHead units offset = 0 := by
      by_contra head
      exact noHead ⟨by simp [padded, head], .inl head⟩
    rw [even, add_zero] at start
    rw [start] at block
    exact zeroMiddleAndTail_writes start.le block multiple (by omega)

end Programs

/-- A tracked request as it begins. -/
def begun (call : Call) (offset bytes : Nat) (steps : List Step) : Tracked :=
  ⟨call, offset, bytes, false, offset, bytes, none, false, none, steps⟩

/-- A request that is tracked with its aligned range. -/
theorem begun_rounded (start : units.align ∣ offset)
    (stop : units.align ∣ offset + bytes) : RoundedTo units.align (begun call offset bytes steps) := by
  constructor
  · exact (le_antisymm (alignDown_le ..) (le_alignDown start le_rfl)).symm
  · exact le_antisymm (le_roundUp _ units.align_pos) (roundUp_le units.align_pos stop le_rfl)

theorem aligned_dvd (units : Units) (offset bytes : Nat) :
    units.align ∣ alignedOffset units offset ∧
      units.align ∣ alignedOffset units offset + alignedBytes units offset bytes :=
  ⟨alignDown_dvd .., (aligned_eq units offset bytes).2 ▸ padTail_dvd units offset bytes⟩

/-- The subclusters around a range are in the clusters around it. -/
theorem roundToSubclusters_within (units : Units) (offset bytes : Nat) :
    alignDown offset units.clusterSize ≤ (bdrvRoundToSubclusters units.subclusterSize offset bytes).1 ∧
      (bdrvRoundToSubclusters units.subclusterSize offset bytes).1 +
        (bdrvRoundToSubclusters units.subclusterSize offset bytes).2 ≤ roundUp
        (offset + bytes) units.clusterSize := by
  have pos := units.clusterSize_pos
  have below := alignDown_le offset units.clusterSize
  have above := le_roundUp (offset + bytes) pos
  rw [bdrvRoundToSubclusters]
  split
  · exact ⟨below, above⟩
  next some =>
    have divides := units.subclusters some
    have start := alignDown_le offset units.subclusterSize
    have multiple : units.subclusterSize ∣
        roundUp (offset + bytes) units.clusterSize - alignDown offset units.subclusterSize :=
      dvd_sub (divides.trans (roundUp_dvd ..)) (alignDown_dvd ..)
    have length := roundUp_le (pos_of_ne_zero some) multiple
      (show offset - alignDown offset units.subclusterSize + bytes ≤ _ by omega)
    refine ⟨alignDown_anti divides, ?_⟩
    dsimp only
    omega

theorem covered_copyOnRead (units : Units) (call : Call) (offset bytes : Nat) (steps : List Step) :
    Covered (begun call offset bytes steps) [⟨some units.clusterSize, true, false, some ⟨true, false,
        (bdrvRoundToSubclusters units.subclusterSize offset bytes).1,
        (bdrvRoundToSubclusters units.subclusterSize offset bytes).2⟩⟩] := by
  refine ⟨fun transfer given _ => ?_, fun no => absurd no Bool.false_ne_true, trivial⟩
  obtain rfl := some.inj given
  have rounded : RoundedTo units.clusterSize
    (setSerialising (begun call offset bytes steps) units.clusterSize) :=
    setSerialising_rounded units.clusterSize_pos rfl rfl
  obtain ⟨below, above⟩ := roundToSubclusters_within units offset bytes
  exact ⟨rounded.start.trans_le below, above.trans rounded.stop.ge⟩

section

variable (call : Call) (serialising noWait : Bool) (offset bytes : Nat) (steps : List Step)

/-- A zero write is tracked with its own range, until it is serialising. -/
theorem covered_zeroWrite :
    Covered (begun call offset bytes steps)
      (rmwSteps units offset bytes ++ zeroWrites units serialising noWait offset bytes) := by
  obtain ⟨start, stop⟩ := aligned_eq units offset bytes
  have up := roundUp_aligned units offset bytes
  have writes := fun step member =>
    (@zeroWrites_writes units serialising noWait offset bytes step member).tame
  have reads := @tame_rmwSteps units (alignedOffset units offset)
    (alignedOffset units offset + alignedBytes units offset bytes) offset bytes
  rw [rmwSteps] at reads ⊢
  split
  next unaligned =>
    rw [if_pos unaligned] at reads
    have rounded : RoundedTo units.align (setSerialising (begun call offset bytes steps) units.align) :=
      setSerialising_rounded units.align_pos rfl rfl
    refine ⟨fun transfer no => absurd no (some_ne_none transfer).symm,
      fun no => absurd no Bool.false_ne_true, ?_⟩
    refine covered_of_tame units.alignPower rounded le_rfl up.ge fun step member => ?_
    rcases mem_append.mp member with read | write
    · exact reads step (mem_cons_of_mem _ read)
    · exact writes step write
  next aligned =>
    simp only [padded, decide_eq_true_eq, not_or, not_not] at aligned
    obtain ⟨noHead, noTail⟩ := aligned
    obtain ⟨lower, upper⟩ := aligned_dvd units offset bytes
    rw [stop, noTail] at upper
    rw [show alignedOffset units offset = offset by omega] at lower
    have rounded : RoundedTo units.align (begun call offset bytes steps) := begun_rounded lower upper
    exact covered_of_tame units.alignPower rounded le_rfl up.ge writes

theorem covered_write :
    Covered (begun call (alignedOffset units offset) (alignedBytes units offset bytes) steps)
      (rmwSteps units offset bytes ++
      [bdrvAlignedPwritev units serialising noWait (alignedOffset units offset)
        (alignedBytes units offset bytes)]) := by
  obtain ⟨lower, upper⟩ := aligned_dvd units offset bytes
  have rounded : RoundedTo units.align
      (begun call (alignedOffset units offset) (alignedBytes units offset bytes) steps) :=
        begun_rounded lower upper
  refine covered_of_tame units.alignPower rounded (alignDown_le ..) (le_roundUp _ units.align_pos)
    fun step member => ?_
  rcases mem_append.mp member with read | write
  · exact tame_rmwSteps offset bytes step read
  · obtain rfl := mem_singleton.mp write
    exact WriteIn.tame ⟨_, _, rfl, le_rfl, le_rfl⟩

end

theorem program_write {first length : Nat}
    (given : program units (.write first length zeroWrite serialising noWait) =
    some (offset, bytes, steps)) :
    (offset = first ∧ bytes = length ∧
        steps = rmwSteps units first length ++ zeroWrites units serialising noWait first length) ∨
      (offset = alignedOffset units first ∧ bytes = alignedBytes units first length ∧
        steps = rmwSteps units first length ++
          [bdrvAlignedPwritev units serialising noWait (alignedOffset units first)
          (alignedBytes units first length)]) := by
  rw [program] at given
  split at given
  · exact absurd given (some_ne_none _).symm
  split at given
  · exact absurd given (some_ne_none _).symm
  split at given
  · obtain ⟨rfl, rfl, rfl⟩ := Prod.mk.injEq .. ▸ some.inj given
    exact .inl ⟨rfl, rfl, rfl⟩
  · obtain ⟨rfl, rfl, rfl⟩ := Prod.mk.injEq .. ▸ some.inj given
    exact .inr ⟨rfl, rfl, rfl⟩

theorem program_covered
    (given : program units call = some (offset, bytes, steps)) :
    Covered (begun call offset bytes steps) steps := by
  cases call with
  | read first length copyOnRead =>
    rw [program] at given
    split at given
    · exact absurd given (some_ne_none _).symm
    obtain ⟨rfl, rfl, rfl⟩ := Prod.mk.injEq .. ▸ some.inj given
    cases copyOnRead with
    | false =>
      refine ⟨fun transfer given write => ?_, fun _ => rfl, trivial⟩
      obtain rfl := some.inj given
      exact absurd write Bool.false_ne_true
    | true => exact covered_copyOnRead ..
  | write first length zeroWrite serialising noWait =>
    rcases program_write given with ⟨rfl, rfl, rfl⟩ | ⟨rfl, rfl, rfl⟩
    · exact covered_zeroWrite ..
    · exact covered_write ..

end Qemu.Block.Serialising
