import Qemu.Block.SerialisingExclusion

/-! A serialising write widens its range to clusters when it is about to write, after it has read
its padding. While it waits for its wider range, others do not wait for it. -/

namespace Qemu.Block.Serialising

open Function List Nat

variable {units : Units}

theorem program_aligned (units : Units) (block : units.align ∣ start) :
    program units (.write start units.align false false false) =
      some (start, units.align, [bdrvAlignedPwritev units false false start units.align]) := by
  have noHead : padHead units start = 0 := mod_eq_zero_of_dvd block
  have noTail : padTail units start units.align = 0 := if_pos (mod_eq_zero_of_dvd (dvd_add block dvd_rfl))
  obtain ⟨first, last⟩ := aligned_eq units start units.align
  rw [noHead, add_zero] at first
  have length : alignedBytes units start units.align = units.align := by omega
  simp [program, rmwSteps, padded, noHead, noTail, first, length]

theorem program_unaligned (units : Units) (several : 1 < units.align) :
    program units (.write 0 1 false true false) = some (0, units.align,
      [bdrvMakeRequestSerialising units.align, readStep true 0 units.align,
      bdrvAlignedPwritev units true false 0 units.align]) := by
  have noHead : padHead units 0 = 0 := zero_mod _
  have tail : padTail units 0 1 = units.align - 1 := by
    rw [padTail, mod_eq_of_lt several, if_neg one_ne_zero]
  have some : units.align - 1 ≠ 0 := by omega
  obtain ⟨first, last⟩ := aligned_eq units 0 1
  rw [noHead, add_zero] at first
  have length : alignedBytes units 0 1 = units.align := by omega
  have merged : mergeReads units 0 1 = true := by
    simp only [mergeReads, padBufLen, noHead]
    simp
    omega
  have buffer : padBufLen units 0 1 = units.align := by simp [padBufLen, noHead]
  simp [program, rmwSteps, bdrvPaddingRmwRead, padded, tail, some, first, length, merged, buffer]

/-- A serialising write of one byte has read its block and waits, for its wider range, for a write
to the next block. Meanwhile somebody writes to its block. -/
def lostUpdate (units : Units) : List Event :=
  [.begins 0 (.write 0 1 false true false), .begins 1 (.write units.align units.align false false false),
    .completes 0 true, .begins 2 (.write 0 units.align false false false)]

/-- An aligned write of one block, as the driver works for it. -/
def blockWrite (units : Units) (start : Nat) : Tracked :=
  ⟨.write start units.align false false false, start, units.align, false, start, units.align, none, false,
    some ⟨true, false, start, units.align⟩, []⟩

/-- The write of one byte, while it reads its block. -/
def readsBlock (units : Units) : Tracked :=
  ⟨.write 0 1 false true false, 0, units.align, true, 0, units.align, none, false,
    some ⟨false, true, 0, units.align⟩, [bdrvAlignedPwritev units true false 0 units.align]⟩

/-- The write of one byte, as it waits with its wider range. -/
def waitsWidened (units : Units) : Tracked :=
  ⟨.write 0 1 false true false, 0, units.align, true, 0, units.clusterSize, some 1, false, none,
    [⟨none, true, false, some ⟨true, false, 0, units.align⟩⟩]⟩

theorem step_readsBlock (several : 1 < units.align) :
    step units initial (.begins 0 (.write 0 1 false true false)) =
      ⟨[0], update initial.req 0 (readsBlock units), 1⟩ := by
  have up := le_antisymm (roundUp_le units.align_pos dvd_rfl le_rfl)
    (le_roundUp units.align units.align_pos)
  simp [step, program_unaligned units several, initial, execute, trackedRequestBegin, State.set, beginStep,
    bdrvMakeRequestSerialising, trackedRequestSetSerialising, setSerialising, findConflict,
    bdrvFindConflictingRequest,
    readStep, up, readsBlock]

theorem execute_waits {id other : Nat} {step : Step}
    (found : findConflict (beginStep s id step) id step = some other) (patient : step.noWait = false) :
    execute s id (step :: rest) = (beginStep s id step).set id { (beginStep s id step).req id with
      waitingFor := some other, woken := false, steps :=
  { step with serialise := none, locked := true } :: rest } := by
  rw [execute]
  rw [found, patient]
  rfl

/-- An aligned write begins if no request conflicts that does not wait. -/
theorem step_blockWrite {s : State} {id start : Nat} (fresh : id ∉ s.tracked) (block : units.align ∣ start)
    (clear : ∀ j ∈ s.tracked, (s.req j).waitingFor = none →
    conflicts (blockWrite units start) (s.req j) = false) :
    step units s (.begins id (.write start units.align false false false)) =
      ⟨id :: s.tracked, update s.req id (blockWrite units start), s.serialisingInFlight⟩ := by
  have quiet : ∀ steps, bdrvFindConflictingRequest
      (trackedRequestBegin s id (.write start units.align false false false) start units.align
      steps) id = none := by
    refine fun steps => find_none_iff.mpr fun j member other free => ?_
    have here := (mem_cons.mp member).resolve_left other
    rw [begin_self]
    rw [trackedRequestBegin, show (_ : State).req j = _ from set_other other _] at free ⊢
    exact clear j here free
  rw [step, if_neg fresh, program_aligned units block]
  dsimp only
  have clear : findConflict (beginStep
      (trackedRequestBegin s id (.write start units.align false false false) start
      units.align [bdrvAlignedPwritev units false false start units.align]) id
      (bdrvAlignedPwritev units false false start units.align)) id
        (bdrvAlignedPwritev units false false start units.align) =
      none := ite_eq_left_iff.mpr fun _ => quiet _
  rw [execute]
  simp only [clear]
  simp [beginStep, bdrvAlignedPwritev, trackedRequestBegin, State.set, blockWrite]

theorem step_waitsWidened (wide : units.align < units.clusterSize) {req : Nat → Tracked}
    (mine : req 0 = readsBlock units) (other : req 1 = blockWrite units units.align) :
    step units ⟨[1, 0], req, 1⟩ (.completes 0 true) = ⟨[1, 0], update req 0 (waitsWidened units), 1⟩ := by
  have pos := units.align_pos
  have down : alignDown 0 units.clusterSize = 0 := eq_zero_of_le_zero (alignDown_le ..)
  have up := le_antisymm (roundUp_le units.clusterSize_pos dvd_rfl wide.le)
    (le_of_dvd (pos.trans_le (le_roundUp units.align units.clusterSize_pos)) (roundUp_dvd ..))
  have long : max units.align units.clusterSize = units.clusterSize := max_eq_right wide.le
  have begun : beginStep (State.set ⟨[1, 0], req, 1⟩ 0 { req 0 with transfer := none }) 0
      (bdrvAlignedPwritev units true false 0 units.align) = ⟨[1, 0], update req 0 { waitsWidened units with
        waitingFor := none, steps := [bdrvAlignedPwritev units true false 0 units.align] }, 1⟩ := by
    simp [beginStep, bdrvAlignedPwritev, trackedRequestSetSerialising, setSerialising, State.set,
      mine, readsBlock, waitsWidened, down, up, long]
  have found : findConflict (beginStep (State.set ⟨[1, 0], req, 1⟩ 0 { req 0 with transfer := none }) 0
      (bdrvAlignedPwritev units true false 0 units.align)) 0
      (bdrvAlignedPwritev units true false 0 units.align) =
      some 1 := by
    rw [begun, findConflict, if_neg (by simp)]
    refine find?_cons_of_pos ?_
    simp [other, conflicts, trackedRequestOverlaps, waitsWidened, blockWrite, wide, pos.ne']
  have steps : (req 0).steps = [bdrvAlignedPwritev units true false 0 units.align] :=
    congrArg Tracked.steps mine
  have working : (req 0).transfer = some ⟨false, true, 0, units.align⟩ := congrArg Tracked.transfer mine
  rw [step]
  rw [working]
  refine (congrArg (execute _ 0) steps).trans ((execute_waits found rfl).trans ?_)
  rw [begun]
  simp [State.set, waitsWidened, bdrvAlignedPwritev]

section

variable (several : 1 < units.align) (wide : units.align < units.clusterSize)
include several wide

/-- Request 2 writes to the block that request 0 has read and will write. -/
theorem lostUpdate_run :
    (run units (lostUpdate units)).tracked = [2, 1, 0] ∧ (run units (lostUpdate units)).req 0 =
      waitsWidened units ∧ (run units (lostUpdate units)).req 2 = blockWrite units 0 := by
  have second := @step_blockWrite units ⟨[0], update initial.req 0 (readsBlock units), 1⟩ 1 units.align
    (by simp) dvd_rfl (by simp [conflicts, trackedRequestOverlaps, blockWrite, readsBlock])
  have third := @step_waitsWidened units wide (update (update initial.req 0 (readsBlock units)) 1
    (blockWrite units units.align)) (by simp) (by simp)
  have fourth := @step_blockWrite units ⟨[1, 0], update (update (update initial.req 0
      (readsBlock units)) 1 (blockWrite units units.align)) 0 (waitsWidened units), 1⟩ 2 0
    (by simp) (dvd_zero _) (by simp [conflicts, waitsWidened, blockWrite])
  rw [run, lostUpdate, foldl_cons, step_readsBlock several, foldl_cons, second, foldl_cons, third,
    foldl_cons, fourth]
  simp

theorem lostUpdate_not_exclusive :
    ¬ Exclusive units (run units (lostUpdate units)) 0 := by
  obtain ⟨tracked, waiting, writing⟩ := lostUpdate_run several wide
  intro exclusive
  have tail : padTail units 0 1 ≠ 0 := by
    rw [padTail, mod_eq_of_lt several, if_neg one_ne_zero]
    omega
  have length := (aligned_eq units 0 1).2
  have small := padTail_lt units 0 1
  have read : ((run units (lostUpdate units)).req 0).HasRead units 0 := by
    rw [waiting]
    refine ⟨.inr ⟨tail, ?_, ?_⟩, fun transfer no => absurd no (Option.some_ne_none transfer).symm, ?_⟩
    · omega
    · omega
    · rintro ⟨step, member, transfer, given, padding, -⟩
      obtain rfl := mem_singleton.mp member
      obtain rfl := Option.some.inj given
      exact absurd padding Bool.false_ne_true
  have here : 2 ∈ (run units (lostUpdate units)).tracked := by simp [tracked]
  have given : ((run units (lostUpdate units)).req 2).transfer =
    some ⟨true, false, 0, units.align⟩ := by rw [writing]; rfl
  exact exclusive 0 read 2 here (by omega) _ given rfl ⟨le_rfl, by simp [units.align_pos]⟩

end

/-- What is wanted of the requests on a node: no circle of requests that wait, one that can go on
behind each, and padding that nobody else writes to. -/
structure Excluding (units : Units) (s : State) : Prop where
  acyclic : WaitGraph.Acyclic (Waits s)
  progress : ∀ i ∈ s.tracked, ∃ j ∈ s.tracked, Ready s j ∧ Relation.ReflTransGen (Waits s) i j
  exclusive : ∀ i ∈ s.tracked, Exclusive units s i

/-- Requests exclude each other in every interleaving exactly if the range of a serialising write
does not grow after its padding was read. -/
theorem run_excluding_iff (units : Units) :
    (∀ events, Excluding units (run units events)) ↔
    (units.align = 1 ∨ units.clusterSize ≤ units.align) := by
  constructor
  · intro excluding
    by_contra! wide
    obtain ⟨several, wide⟩ := wide
    have pos := units.align_pos
    have here : 0 ∈ (run units (lostUpdate units)).tracked := by
      rw [(lostUpdate_run (by omega) wide).1]
      simp
    exact lostUpdate_not_exclusive (by omega) wide ((excluding (lostUpdate units)).exclusive 0 here)
  · intro narrow events
    have inv := run_inv units events
    refine ⟨inv.acyclic, fun i member => inv.progress member, fun i member byte read => ?_⟩
    refine exclusive_of_settled member ?_ byte read
    have padding := read.padded
    cases same : ((run units events).req i).call with
    | read =>
      rw [same] at padding
      exact padding.elim
    | write => ?_
    rw [same] at padding
    refine ⟨decide_eq_true (padding.imp (·.1) (·.1)), fun _ => narrow.resolve_left fun single => ?_⟩
    rcases padding with ⟨head, -⟩ | ⟨tail, -⟩
    · exact head (by simp [padHead, single, mod_one])
    · exact tail (by simp [padTail, single, mod_one])

/-- Sectors of 512 bytes and clusters of 64 KiB. -/
def sectorsInClusters : Units where
  align := 512
  clusterSize := 65536
  subclusterSize := 0
  alignPower := ⟨9, rfl⟩
  clusterPower := ⟨16, rfl⟩
  subclusters no := absurd rfl no

/-- The write of one byte has read its sector and is yet to write it, while another request writes
it. -/
theorem lostUpdate_sector :
    (let s := run sectorsInClusters (lostUpdate sectorsInClusters);
      (s.req 0).transfer = none ∧ (s.req 0).waitingFor = some 1 ∧
        (s.req 0).steps.map (·.transfer) = [some ⟨true, false, 0, 512⟩] ∧
        (s.req 2).transfer = some ⟨true, false, 0, 512⟩) ∧
      ¬ Exclusive sectorsInClusters (run sectorsInClusters (lostUpdate sectorsInClusters)) 0 :=
  ⟨by decide +kernel, lostUpdate_not_exclusive (by decide) (by decide)⟩

end Qemu.Block.Serialising
