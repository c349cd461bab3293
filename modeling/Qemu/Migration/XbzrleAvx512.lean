import Qemu.Migration.XbzrleRuns
import Mathlib.Data.List.GetD

/-! The AVX512 encoder carries runs across 64-byte blocks; it behaves as the
byte-by-byte machine that checks its capacity when it enters a block and after a
nonzero run that ends inside one. -/

namespace Qemu.Xbzrle

open Loop BitVec Nat List

def avx512Checks : Checks := ⟨fun i => i % 64 == 0, false, fun i => i % 64 != 0⟩

variable {x : BitVec 64}

theorem ctz64_stop (inside : ctz64 x < 64) : x.getLsbD (ctz64 x) = true := by
  apply BitWords.getLsbD_ctz
  rintro rfl
  exact absurd inside (by decide +kernel)

variable {count : Nat}

/-- The first lanes hold the same bit: how many of them there are, up to a limit. -/
def LaneRun (x : BitVec 64) (bit : Bool) (count num : Nat) : Prop :=
  0 < num ∧ num ≤ count ∧ (∀ m < num, x.getLsbD m = bit) ∧ (num < count → x.getLsbD num = !bit)

/-- Counting trailing bits up to a limit finds the length of a run of lanes. -/
theorem ctz64_run (narrow : count ≤ 64) (some : count ≠ 0) (first : x.getLsbD 0 = false) :
    LaneRun x false count (min (ctz64 x) count) := by
  have positive : ctz64 x ≠ 0 := by
    intro none
    have stop := @ctz64_stop x (by omega)
    rw [none, first] at stop
    exact Bool.false_ne_true stop
  refine ⟨by omega, by omega, fun m below => getLsbD_false_of_lt_ctz (show m < ctz64 x by omega),
    fun short => ?_⟩
  rw [show min (ctz64 x) count = ctz64 x by omega]
  exact ctz64_stop (by omega)

theorem ctz64_run_ones (narrow : count ≤ 64) (some : count ≠ 0) (first : x.getLsbD 0 = true) :
    LaneRun x true count (min (ctz64 (~~~x)) count) := by
  obtain ⟨positive, within, below, stop⟩ := @ctz64_run (~~~x) count narrow some (by simp [first])
  refine ⟨positive, within, fun m inside => ?_, fun short => ?_⟩
  · have bit := below m inside
    simpa [show m < 64 by omega] using bit
  · have bit := stop short
    simpa [show min (ctz64 (~~~x)) count < 64 by omega] using bit

section

variable {oldBuf newBuf : List UInt8} {dlen : Nat}

/-- The run carried between blocks. -/
def Lanes.pending (newBuf : List UInt8) (s : Lanes) : Pending :=
  if s.nzrunLen ≠ 0 then .nonzero ((newBuf.drop (s.i - s.nzrunLen)).take s.nzrunLen)
  else .zero s.zrunLen

/-- What the encoder still does from its current byte. -/
def Lanes.target (oldBuf newBuf : List UInt8) (dlen : Nat) (s : Lanes) : Encoded :=
  emit avx512Checks dlen s.i (s.pending newBuf) s.dst ((oldBuf.zip newBuf).drop s.i)

/-- What it still does from the top of a pass over a block. -/
def Block.target (oldBuf newBuf : List UInt8) (dlen : Nat) (b : Block) : Encoded :=
  checked (decide (b.bytesToCheck ≠ 0)) dlen b.lanes.dst (b.lanes.target oldBuf newBuf dlen)

structure Lanes.Ok (slen : Nat) (s : Lanes) : Prop where
  inside : s.i ≤ slen
  zeros : s.zrunLen ≤ s.i
  nonzeros : s.nzrunLen ≤ s.i
  exclusive : s.nzrunLen ≠ 0 → s.zrunLen = 0 ∧ s.neverSame = false

/-- Between blocks some run is pending, or nothing was seen. -/
def Lanes.Carried (s : Lanes) : Prop := s.nzrunLen = 0 → s.neverSame = true ∨ s.zrunLen ≠ 0

/-- Inside a block a pass starts just after a nonzero run was written. -/
structure Resumed (b : Block) : Prop where
  interior : b.lanes.i % 64 ≠ 0
  nonzeros : b.lanes.nzrunLen = 0
  zeros : b.lanes.zrunLen = 0
  seen : b.lanes.neverSame = false
  same : b.isSame = true
  shifted : b.comp.getLsbD 63 = false

structure InBlock (oldBuf newBuf : List UInt8) (count512s stop : Nat) (b : Block) : Prop where
  ok : b.lanes.Ok oldBuf.length
  reach : b.lanes.i + b.bytesToCheck = stop
  inside : stop ≤ oldBuf.length
  extent : stop ≤ b.lanes.i / 64 * 64 + 64
  lanes : ∀ m < b.bytesToCheck, b.comp.getLsbD m = sameAt oldBuf newBuf (b.lanes.i + m)
  first : b.bytesToCheck ≠ 0 → b.isSame = sameAt oldBuf newBuf b.lanes.i
  full : count512s ≠ 0 → b.lanes.i % 64 = 0 → b.bytesToCheck = 0 ∨ b.bytesToCheck = 64
  entered : b.bytesToCheck ≠ 0 → b.lanes.i % 64 = 0 ∧ b.lanes.Carried ∨ Resumed b
  left : b.bytesToCheck = 0 → b.lanes.Carried

/-- What a finished block leaves behind. -/
def BlockDone (oldBuf newBuf : List UInt8) (dlen stop : Nat) (target : Encoded) : Encoded ⊕ Lanes → Prop
  | .inl encoded => encoded = target
  | .inr s => s.Ok oldBuf.length ∧ s.Carried ∧ s.i = stop ∧ s.target oldBuf newBuf dlen = target

/-- What writing a nonzero run ends in: an overflow, or lanes that hold none. -/
def Flushed (s : Lanes) (target : Encoded) (next : Dst → Encoded) : Option (Encoded ⊕ Lanes) → Prop
  | none => False
  | some (.inl encoded) => encoded = target
  | some (.inr later) => ∃ dst, later = { s with dst := dst, nzrunLen := 0 } ∧ target = next dst

theorem flushNzrun_eq {s : Lanes} (newBuf : List UInt8) (short : s.nzrunLen ≤ 0x3fff)
    (copied : ((newBuf.drop (s.i - s.nzrunLen)).take s.nzrunLen).length = s.nzrunLen)
    (next : Dst → Encoded) :
    Flushed s (flushed dlen ((newBuf.drop (s.i - s.nzrunLen)).take s.nzrunLen) s.dst next) next
      (flushNzrun newBuf dlen s) := by
  simp only [flushNzrun, putUleb_eq s.dst short, flushed, copied]
  by_cases large : (s.dst.put (uleb s.nzrunLen)).d + s.nzrunLen > dlen
  · simp only [large]
    rfl
  · simp only [large]
    exact ⟨_, rfl, rfl⟩

theorem pending_length (length : oldBuf.length = newBuf.length) {run : Nat}
    (inside : i ≤ oldBuf.length) (nonzeros : run ≤ i) :
    ((newBuf.drop (i - run)).take run).length = run := by
  rw [length_take, length_drop]; omega

theorem pending_extend (newBuf : List UInt8) {run : Nat} (nonzeros : run ≤ i) (count : Nat) :
    (newBuf.drop (i - run)).take run ++ (newBuf.drop i).take count =
      (newBuf.drop (i + count - (run + count))).take (run + count) := by
  rw [show i + count - (run + count) = i - run by omega, take_add, drop_drop,
    show i - run + run = i by omega]

/-- No byte after the first of a block is checked on entry. -/
theorem passable_after (dst : Dst) (block : j ≤ i / 64 * 64 + 64) :
    Passable avx512Checks dlen (i + 1) j dst := by
  intro k above below checking
  simp only [avx512Checks, beq_iff_eq] at checking
  omega

/-- A pass that has come to a changed byte: how the rest unfolds once the lanes
up to any later byte are known to be changed. -/
structure AtDiff (oldBuf newBuf : List UInt8) (dlen stop : Nat) (target : Encoded) (b : Block) :
    Prop where
  nonzeros : b.lanes.nzrunLen ≤ b.lanes.i
  zeros : b.lanes.zrunLen = 0
  seen : b.lanes.neverSame = false
  reach : b.lanes.i + b.bytesToCheck = stop
  inside : stop ≤ oldBuf.length
  extent : stop ≤ b.lanes.i / 64 * 64 + 64
  more : b.bytesToCheck ≠ 0
  lanes : ∀ m < b.bytesToCheck, b.comp.getLsbD m = sameAt oldBuf newBuf (b.lanes.i + m)
  changed : sameAt oldBuf newBuf b.lanes.i = false
  reaches : ∀ count, 0 < count → count ≤ b.bytesToCheck →
    (∀ k, b.lanes.i ≤ k → k < b.lanes.i + count → sameAt oldBuf newBuf k = false) →
    target = emit avx512Checks dlen (b.lanes.i + count)
      (.nonzero ((newBuf.drop (b.lanes.i + count - (b.lanes.nzrunLen + count))).take
        (b.lanes.nzrunLen + count)))
      b.lanes.dst ((oldBuf.zip newBuf).drop (b.lanes.i + count))

variable {stop count : Nat} {b : Block}

/-- The lanes move on over a changed stretch of the block. -/
theorem AtDiff.target_eq (state : AtDiff oldBuf newBuf dlen stop target b) (positive : 0 < count)
    (within : count ≤ b.bytesToCheck)
    (differ : ∀ k, b.lanes.i ≤ k → k < b.lanes.i + count → sameAt oldBuf newBuf k = false) :
    Lanes.target oldBuf newBuf dlen
      { b.lanes with i := b.lanes.i + count, nzrunLen := b.lanes.nzrunLen + count } = target := by
  rw [state.reaches count positive within differ, Lanes.target, Lanes.pending, if_pos (by simp; omega)]

/-- Writing a run inside a block and resuming is what the machine does there. -/
theorem emit_interior_flush (length : oldBuf.length = newBuf.length) (bytes : List UInt8)
    (dst : Dst) (inside : i < oldBuf.length) (same : sameAt oldBuf newBuf i = true)
    (interior : i % 64 ≠ 0) :
    emit avx512Checks dlen i (.nonzero bytes) dst ((oldBuf.zip newBuf).drop i) =
      flushed dlen bytes dst fun dst => checked true dlen dst
        (emit avx512Checks dlen i (.zero 0) dst ((oldBuf.zip newBuf).drop i)) := by
  have entry : avx512Checks.entry i = false := by simpa [avx512Checks] using interior
  have after : avx512Checks.afterNzrun i = true := by simpa [avx512Checks] using interior
  have resumed (dst : Dst) : emit avx512Checks dlen i (.zero 0) dst ((oldBuf.zip newBuf).drop i) =
      emit avx512Checks dlen (i + 1) (.zero 1) dst ((oldBuf.zip newBuf).drop (i + 1)) := by
    rw [drop_pairs length inside, emit, checked_pass _ (by simp [entry]),
      if_pos (by simpa [sameAt] using same)]
  simp only [emit_nonzero_same length bytes dst inside same, after, resumed]
  exact checked_pass _ (by simp [entry])

theorem diffPart_spec (length : oldBuf.length = newBuf.length) (short : oldBuf.length ≤ 0x3fff)
    (count512s : Nat) (state : AtDiff oldBuf newBuf dlen stop target b) :
    Decides (fun later => InBlock oldBuf newBuf count512s stop later ∧
    later.target oldBuf newBuf dlen = target ∧
      later.bytesToCheck < b.bytesToCheck) (BlockDone oldBuf newBuf dlen stop target)
      (diffPart newBuf dlen b) := by
  have nonzeros := state.nonzeros
  have reach := state.reach
  have inside := state.inside
  have extent := state.extent
  have more := state.more
  have same {m : Nat} (bit : m < b.bytesToCheck) := state.lanes m bit
  by_cases fast : b.bytesToCheck = 64 ∧ b.comp = 0
  · -- The whole block differs.
    have differ : ∀ k, b.lanes.i ≤ k → k < b.lanes.i + 64 → sameAt oldBuf newBuf k = false := by
      intro k above below
      have bit := same (show k - b.lanes.i < _ by omega)
      rw [fast.2, Nat.add_sub_cancel' above] at bit
      simpa using bit.symm
    rw [diffPart, if_pos fast]
    refine ⟨⟨by simp only; omega, ?_, by simp only; omega, ?_⟩, ?_, by simp only; omega,
      state.target_eq (by decide) (by omega) differ⟩
    · simp only [state.zeros]; omega
    · intro _; exact ⟨state.zeros, state.seen⟩
    · intro none; simp only at none; omega
  have run := ctz64_run (by omega) more ((same (pos_of_ne_zero more)).trans state.changed)
  generalize numDef : min (ctz64 b.comp) b.bytesToCheck = num at run
  obtain ⟨positive, within, below, stopped⟩ := run
  have differ : ∀ k, b.lanes.i ≤ k → k < b.lanes.i + num → sameAt oldBuf newBuf k = false := by
    intro k above before
    have bit := below (k - b.lanes.i) (by omega)
    rwa [same (by omega), Nat.add_sub_cancel' above] at bit
  have moved := state.target_eq positive within differ
  simp only [diffPart, fast, numDef]
  by_cases rest : b.bytesToCheck - num ≠ 0
  · -- The run ends inside the block: it is written and the next pass resumes.
    have stops : sameAt oldBuf newBuf (b.lanes.i + num) = true := by
      rw [← same (by omega)]
      exact stopped (by omega)
    have interior : (b.lanes.i + num) % 64 ≠ 0 := by omega
    have copied := pending_length length (show b.lanes.i + num ≤ _ by omega)
      (show b.lanes.nzrunLen + num ≤ _ by omega)
    simp only [rest, ne_eq]
    rw [Lanes.target, Lanes.pending, if_pos (by simp only; omega),
      emit_interior_flush length _ _ (by omega) stops interior] at moved
    have bound : b.lanes.nzrunLen + num ≤ 0x3fff := by omega
    have outcome := @flushNzrun_eq dlen
      { b.lanes with i := b.lanes.i + num, nzrunLen := b.lanes.nzrunLen + num } newBuf bound copied
        (fun dst => checked true dlen dst (emit avx512Checks dlen (b.lanes.i + num) (.zero 0) dst
          ((oldBuf.zip newBuf).drop (b.lanes.i + num))))
    generalize flushNzrun newBuf dlen _ = wrote at outcome ⊢
    match wrote, outcome with
    | some (.inl encoded), failed => exact failed.trans moved
    | some (.inr _), ⟨dst, rfl, next⟩ =>
      refine ⟨⟨⟨by simp only; omega, by simp only [state.zeros]; omega, zero_le _,
        fun none => absurd rfl none⟩, by simp only; omega, inside, by simp only; omega, fun m bit => ?_,
        fun _ => stops.symm, fun _ start => absurd start interior, fun _ => .inr ?_,
        fun none => absurd none rest⟩, ?_, by simp only; omega⟩
      · simp only at bit
        rw [getLsbD_ushiftRight, same (by omega), add_assoc]
      · exact ⟨interior, rfl, state.zeros, state.seen, rfl, by
          rw [getLsbD_ushiftRight, getLsbD_of_ge _ _ (by omega)]⟩
      · simp only [Block.target, rest, ne_eq, state.zeros]
        exact next.symm.trans moved
  · simp only [rest]
    refine ⟨⟨⟨by simp only; omega, by simp only [state.zeros]; omega, by simp only; omega,
      fun _ => ⟨state.zeros, state.seen⟩⟩, by simp only; omega, inside, by simp only; omega,
      fun m bit => by simp only at bit; omega, fun some => absurd some rest, fun _ _ => by
        simp only; omega,
      fun some => absurd some rest, fun _ none => by simp only at none; omega⟩, ?_, by simp only; omega⟩
    simp only [Block.target, rest]
    rw [checked_pass _ (by simp), moved]

variable {s : Lanes}

theorem flushZrun_eq (short : s.zrunLen ≤ 0x3fff) :
    flushZrun s = some { s with dst := s.dst.put (uleb s.zrunLen), zrunLen := 0 } := by
  rw [flushZrun, putUleb_eq s.dst short, Option.map_some]

variable {count512s : Nat}

section

variable (length : oldBuf.length = newBuf.length) (short : oldBuf.length ≤ 0x3fff)
  (state : InBlock oldBuf newBuf count512s stop b)
include length short state

section

variable (more : b.bytesToCheck ≠ 0) (same : sameAt oldBuf newBuf b.lanes.i = true)
  (room : b.lanes.dst.d + 2 ≤ dlen)
include more same room

/-- At an equal byte a run carried into the block is written first. -/
theorem carried_nzrun_spec : Flushed b.lanes (b.lanes.target oldBuf newBuf dlen)
    (fun dst => emit avx512Checks dlen (b.lanes.i + 1) (.zero (b.lanes.zrunLen + 1)) dst
      ((oldBuf.zip newBuf).drop (b.lanes.i + 1)))
    (if b.lanes.nzrunLen ≠ 0 then flushNzrun newBuf dlen b.lanes else some (.inr b.lanes)) := by
  have reach := state.reach
  have inside := state.inside
  by_cases pending : b.lanes.nzrunLen ≠ 0
  · have start : b.lanes.i % 64 = 0 := by
      rcases state.entered more with ⟨start, _⟩ | resumed
      · exact start
      · exact absurd resumed.nonzeros pending
    have zeros := (state.ok.exclusive pending).1
    have nonzeros := state.ok.nonzeros
    have after : avx512Checks.afterNzrun b.lanes.i = false := by simp [avx512Checks, start]
    rw [if_pos pending, Lanes.target, Lanes.pending, if_pos pending,
      emit_nonzero_same length _ _ (by omega) same, checked_pass _ (fun _ => room), after, zeros]
    simp only [checked_pass _ (fun on => absurd on Bool.false_ne_true)]
    exact flushNzrun_eq newBuf (by omega) (pending_length length (by omega) nonzeros) _
  · have none : b.lanes.nzrunLen = 0 := by omega
    rw [if_neg pending]
    refine ⟨b.lanes.dst, by rw [← none], ?_⟩
    rw [Lanes.target, Lanes.pending, if_neg pending, drop_pairs length (by omega), emit,
      checked_pass _ (fun _ => room), if_pos (by simpa [sameAt] using same)]

/-- The part of a pass over equal bytes ends the block or comes to a changed byte. -/
theorem samePart_spec :
    Decides (fun later => AtDiff oldBuf newBuf dlen stop (b.lanes.target oldBuf newBuf dlen) later ∧
      later.bytesToCheck < b.bytesToCheck) (BlockDone oldBuf newBuf dlen stop
      (b.lanes.target oldBuf newBuf dlen)) (samePart newBuf dlen count512s b) := by
  have reach := state.reach
  have inside := state.inside
  have extent := state.extent
  have zeros := state.ok.zeros
  have equal {m : Nat} (bit : m < b.bytesToCheck) := state.lanes m bit
  have outcome := carried_nzrun_spec length short state more same room
  rw [samePart]
  generalize (if b.lanes.nzrunLen ≠ 0 then flushNzrun newBuf dlen b.lanes else _) = carried at outcome ⊢
  obtain _ | encoded | _ := carried
  · exact outcome
  · exact outcome
  obtain ⟨dst, rfl, value⟩ := outcome
  dsimp only at value ⊢
  -- Skipping equal bytes from here reaches the same result.
  have skip (count : Nat) (positive : 0 < count) (within : count ≤ b.bytesToCheck)
      (all : ∀ m < count, b.comp.getLsbD m = true) :
      b.lanes.target oldBuf newBuf dlen = emit avx512Checks dlen (b.lanes.i + count)
        (.zero (b.lanes.zrunLen + count)) dst ((oldBuf.zip newBuf).drop (b.lanes.i + count)) := by
    rw [value, emit_skip_same (j := b.lanes.i + count) length _ _ (by omega) (by omega)
      (fun k above below => ?_) (passable_after _ (by omega))]
    · congr 2
      omega
    · have bit := all (k - b.lanes.i) (by omega)
      rwa [equal (by omega), Nat.add_sub_cancel' (by omega)] at bit
  by_cases fast : count512s ≠ 0 ∧ b.comp = allOnes 64
  · have start : b.lanes.i % 64 = 0 := by
      rcases state.entered more with ⟨start, _⟩ | resumed
      · exact start
      · have top := resumed.shifted
        rw [fast.2] at top
        simp at top
    have whole := (state.full fast.1 start).resolve_left more
    rw [if_pos fast]
    refine ⟨⟨by simp only; omega, by simp only; omega, zero_le _, fun none => absurd rfl none⟩,
      fun _ => .inr (by simp only; omega), by simp only; omega, ?_⟩
    rw [skip 64 (by decide) (by omega) (fun m bit => by rw [fast.2, getLsbD_allOnes]; simpa using bit)]
    rfl
  rw [if_neg fast]
  have run := ctz64_run_ones (by omega) more ((equal (pos_of_ne_zero more)).trans same)
  generalize min (ctz64 (~~~b.comp)) b.bytesToCheck = num at run
  obtain ⟨positive, within, below, stopped⟩ := run
  have moved := skip num positive within below
  by_cases rest : b.bytesToCheck - num ≠ 0
  · have changed : sameAt oldBuf newBuf (b.lanes.i + num) = false := by
      rw [← equal (by omega)]
      exact stopped (by omega)
    simp only [rest, ne_eq, not_false_eq_true, if_true]
    rw [flushZrun_eq (by simp only; omega)]
    refine ⟨⟨zero_le _, rfl, rfl, by simp only; omega, inside, by simp only; omega, rest,
      fun m bit => ?_, changed, fun count some fits differ => ?_⟩, by simp only; omega⟩
    · simp only at bit
      rw [getLsbD_ushiftRight, equal (by omega), add_assoc]
    simp only at fits differ ⊢
    rw [moved, emit_zero_run (j := b.lanes.i + num + count) length _ _ (by omega) (by omega) differ
        (passable_after _ (by omega)),
      checked_pass _ (by simp [avx512Checks]; omega), checked_pass _ (by simp [avx512Checks])]
    simp
  · simp only [rest, if_false]
    refine ⟨⟨by simp only; omega, by simp only; omega, zero_le _, fun none => absurd rfl none⟩,
      fun _ => .inr (by simp only; omega), by simp only; omega, ?_⟩
    rw [moved]
    rfl

end

/-- A changed byte at the start of a block ends a zero run carried into it, or goes
on with a nonzero run. -/
theorem atDiff_of_start (more : b.bytesToCheck ≠ 0) (changed : sameAt oldBuf newBuf b.lanes.i = false)
    (carried : b.lanes.Carried) (room : b.lanes.dst.d + 2 ≤ dlen) :
    ∃ lanes, carriedZrun b.lanes = some lanes ∧
      AtDiff oldBuf newBuf dlen stop (b.lanes.target oldBuf newBuf dlen) { b with lanes := lanes } := by
  have reach := state.reach
  have inside := state.inside
  have zeros := state.ok.zeros
  have nonzeros := state.ok.nonzeros
  by_cases pending : b.lanes.nzrunLen ≠ 0
  · obtain ⟨none, seen⟩ := state.ok.exclusive pending
    refine ⟨b.lanes, by simp [carriedZrun, none, seen], ⟨nonzeros, none, seen, reach, inside,
      state.extent, more, state.lanes, changed, fun count some fits differ => ?_⟩⟩
    simp only at fits differ ⊢
    rw [Lanes.target, Lanes.pending, if_pos pending, emit_skip_diff (j := b.lanes.i + count) length _ _
      (by omega) (by omega) differ (fun _ _ _ _ => room), Nat.add_sub_cancel_left,
      pending_extend newBuf nonzeros]
  · have none : b.lanes.nzrunLen = 0 := by omega
    refine ⟨{ b.lanes with
        dst := b.lanes.dst.put (uleb b.lanes.zrunLen), zrunLen := 0, neverSame := false }, ?_,
      ⟨nonzeros, rfl, rfl, reach, inside, state.extent, more, state.lanes, changed,
        fun count some fits differ => ?_⟩⟩
    · rw [carriedZrun, if_pos (by simpa using carried none), flushZrun_eq (by omega), Option.map_some]
    simp only at fits differ ⊢
    rw [Lanes.target, Lanes.pending, if_neg pending,
      emit_zero_run (j := b.lanes.i + count) length _ _ (by omega) (by omega) differ
        (passable_after _ (by have := state.extent; omega)),
      checked_pass _ (fun _ => room), checked_pass _ (by simp [avx512Checks]), none]
    simp

/-- One pass over a block keeps to what the byte-by-byte machine does. -/
theorem blockPass_spec :
    Decides (fun later => InBlock oldBuf newBuf count512s stop later ∧
      later.target oldBuf newBuf dlen = b.target oldBuf newBuf dlen ∧ later.bytesToCheck <
      b.bytesToCheck) (BlockDone oldBuf newBuf dlen stop (b.target oldBuf newBuf dlen))
      (blockPass newBuf dlen count512s b) := by
  rw [blockPass]
  by_cases finished : b.bytesToCheck = 0
  · rw [if_pos finished]
    refine ⟨state.ok, state.left finished, by have := state.reach; omega, ?_⟩
    rw [Block.target, checked_pass _ (by simp [finished])]
  rw [if_neg finished]
  by_cases full : b.lanes.dst.d + 2 > dlen
  · rw [if_pos full]
    exact (if_pos (by simp [finished]; omega)).symm
  have room : b.lanes.dst.d + 2 ≤ dlen := by omega
  have target : b.target oldBuf newBuf dlen = b.lanes.target oldBuf newBuf dlen := by
    rw [Block.target, checked_pass _ (fun _ => room)]
  rw [target, if_neg full, state.first finished]
  by_cases same : sameAt oldBuf newBuf b.lanes.i = true
  · rw [if_pos same]
    match samePart newBuf dlen count512s b, samePart_spec length short state finished same room with
    | some (.next later), ⟨diff, smaller⟩ =>
      have carried : carriedZrun later.lanes = some later.lanes := by
        simp [carriedZrun, diff.zeros, diff.seen]
      simp only [carried]
      exact (diffPart_spec length short count512s diff).imp fun next ⟨kept, value, less⟩ =>
        ⟨kept, value, by omega⟩
    | some (.done exit), value => exact value
  · have changed : sameAt oldBuf newBuf b.lanes.i = false := by simpa using same
    have carried : b.lanes.Carried := by
      rcases state.entered finished with ⟨_, carried⟩ | resumed
      · exact carried
      · have first := state.first finished
        rw [resumed.same, changed] at first
        simp at first
    obtain ⟨lanes, wrote, diff⟩ := atDiff_of_start length short state finished changed carried room
    simp only [changed, Bool.false_eq_true, if_false, wrote]
    exact diffPart_spec length short count512s diff

end

/-- The lanes of a block as the masked loads and the comparison give them. -/
theorem cmpeqMask_getLsbD (lane : m < 64) :
    (cmpeqMask (maskLoadu mask oldBuf i) (maskLoadu mask newBuf i)).getLsbD m =
      (!mask.getLsbD m || sameAt oldBuf newBuf (i + m)) := by
  have inside : m < (List.ofFn fun lane : Fin 64 =>
      maskLoadu mask oldBuf i lane == maskLoadu mask newBuf i lane).length := by simpa using lane
  rw [cmpeqMask, getLsbD_setWidth, getLsbD_ofBoolListLE, getD_eq_getElem _ _ inside, List.getElem_ofFn]
  simp only [lane, maskLoadu, sameAt]
  cases mask.getLsbD m <;> simp

theorem residual_mask (small : count < 64) (inside : m < count) :
    (((1 : BitVec 64) <<< count) - 1).getLsbD m = true := by
  have power : 2 ^ count < 2 ^ 64 := Nat.pow_lt_pow_right (by decide) small
  have positive : 0 < 2 ^ count := Nat.two_pow_pos count
  have value : (((1 : BitVec 64) <<< count) - 1).toNat = 2 ^ count - 1 := by
    rw [toNat_sub, toNat_shiftLeft, show (1 : BitVec 64).toNat = 1 from rfl,
      Nat.shiftLeft_eq, Nat.one_mul, mod_eq_of_lt power]
    omega
  rw [getLsbD, value]
  simpa using inside

/-- The lanes at the start of a block, before the blocks that remain. -/
structure AtBlock (slen count512s : Nat) (s : Lanes) : Prop where
  ok : s.Ok slen
  carried : s.Carried
  place : if count512s = 0 then s.i = slen else s.i = 64 * (slen / 64 + 1 - count512s)

theorem checked_checked (on : Bool) (dst : Dst) (next : Encoded) :
    checked on dlen dst (checked true dlen dst next) = checked true dlen dst next := by
  simp only [checked]
  split
  · rw [if_pos (by simp_all)]
  · rfl

section

variable (length : oldBuf.length = newBuf.length)
include length

/-- Entering a block checks the capacity, so a check in front of it changes nothing. -/
theorem checked_target (start : s.i % 64 = 0) (on : Bool) (inside : on = true → s.i < oldBuf.length) :
    checked on dlen s.dst (s.target oldBuf newBuf dlen) = s.target oldBuf newBuf dlen := by
  cases on with
  | false => rw [checked_pass _ (by simp)]
  | true => ?_
  have entry : avx512Checks.entry s.i = true := by simp [avx512Checks, start]
  rw [Lanes.target, drop_pairs length (inside rfl)]
  cases s.pending newBuf with
  | zero run => rw [emit, entry, checked_checked]
  | nonzero bytes => rw [emit, entry, checked_checked]

/-- A whole block keeps to what the byte-by-byte machine does. -/
theorem blocks_spec (short : oldBuf.length ≤ 0x3fff) {count512s : Nat} {s : Lanes}
    (few : count512s ≤ oldBuf.length / 64 + 1) (state : AtBlock oldBuf.length count512s s) :
    ∃ exit, blocks oldBuf newBuf oldBuf.length dlen count512s s = some exit ∧
      BlockDone oldBuf newBuf dlen oldBuf.length (s.target oldBuf newBuf dlen) exit := by
  induction count512s generalizing s with
  | zero => exact ⟨.inr s, rfl, state.ok, state.carried, by simpa using state.place, rfl⟩
  | succ count512s ih => ?_
  have place := state.place
  simp only [add_one_ne_zero, if_false] at place
  obtain ⟨btc, btcDef⟩ : ∃ btc, (if count512s = 0 then oldBuf.length % 64 else 64) = btc := ⟨_, rfl⟩
  obtain ⟨mask, maskDef⟩ : ∃ mask, (if count512s = 0 then
      ((1 : BitVec 64) <<< (oldBuf.length % 64)) - 1 else allOnes 64) = mask := ⟨_, rfl⟩
  have masked : ∀ m < btc, mask.getLsbD m = true := by
    intro m inside
    rw [← btcDef] at inside
    rw [← maskDef]
    split at inside
    · rw [if_pos ‹_›]
      exact residual_mask (mod_lt _ (by decide)) inside
    · rw [if_neg ‹_›, getLsbD_allOnes]
      simpa using inside
  have reach : s.i + btc ≤ oldBuf.length ∧ btc ≤ 64 := by
    rw [← btcDef]
    split <;> omega
  obtain ⟨comp, compDef⟩ : ∃ comp,
    cmpeqMask (maskLoadu mask oldBuf s.i) (maskLoadu mask newBuf s.i) = comp := ⟨_, rfl⟩
  have lanes : ∀ m < btc, comp.getLsbD m = sameAt oldBuf newBuf (s.i + m) := by
    intro m inside
    rw [← compDef, cmpeqMask_getLsbD (by omega), masked m inside, Bool.not_true, Bool.false_or]
  have start : s.i % 64 = 0 := by omega
  have block : InBlock oldBuf newBuf count512s (s.i + btc) ⟨s, btc, comp, comp.getLsbD 0⟩ := by
    refine ⟨state.ok, rfl, reach.1, by simp only; omega, lanes, fun some => ?_, fun rest _ => .inr ?_,
      fun _ => .inl ⟨start, state.carried⟩, fun _ => state.carried⟩
    · exact lanes 0 (pos_of_ne_zero some)
    · simp [← btcDef, rest]
  obtain ⟨exit, ran, done⟩ : ∃ exit, run (blockPass newBuf dlen count512s) 66 ⟨s, btc, comp,
      comp.getLsbD 0⟩ = some exit ∧
      BlockDone oldBuf newBuf dlen (s.i + btc) (s.target oldBuf newBuf dlen) exit := by
    refine run_spec
      (fun b => InBlock oldBuf newBuf count512s (s.i + btc) b ∧
        b.target oldBuf newBuf dlen = s.target oldBuf newBuf dlen)
      (fun b => b.bytesToCheck) ?_ ⟨block, ?_⟩ (by simp only; omega)
    · rintro b ⟨inBlock, value⟩
      have pass := @blockPass_spec _ _ dlen _ _ _ length short inBlock
      rw [value] at pass
      exact pass.imp fun later ⟨kept, same, less⟩ => ⟨⟨kept, same⟩, less⟩
    · rw [Block.target, checked_target length start _ (by simp; omega)]
  simp only [blocks, btcDef, maskDef, compDef, ran]
  match exit, done with
  | .inl encoded, same => exact ⟨.inl encoded, rfl, same⟩
  | .inr later, ⟨ok, carried, reached, value⟩ =>
    rw [← value]
    refine ih (by omega) ⟨ok, carried, ?_⟩
    rw [reached, ← btcDef]
    split <;> omega

/-- The AVX512 encoder is the byte-by-byte machine with its own checks. -/
theorem encodeBufferAvx512_eq (short : oldBuf.length ≤ 0x3fff) : encodeBufferAvx512 oldBuf newBuf dlen =
      some (emit avx512Checks dlen 0 (.zero 0) Dst.empty (oldBuf.zip newBuf)) := by
  obtain ⟨exit, ran, done⟩ := @blocks_spec oldBuf newBuf dlen length short (oldBuf.length / 64 + 1)
    ⟨0, 0, 0, true, Dst.empty⟩ (le_refl _)
    ⟨⟨zero_le _, le_refl _, le_refl _, fun none => absurd rfl none⟩, fun _ => .inl rfl, by simp⟩
  have target : Lanes.target oldBuf newBuf dlen ⟨0, 0, 0, true, Dst.empty⟩ =
      emit avx512Checks dlen 0 (.zero 0) Dst.empty (oldBuf.zip newBuf) := by
    rw [Lanes.target, Lanes.pending, if_neg (by simp), drop_zero]
  rw [target] at done
  simp only [encodeBufferAvx512, ran]
  rcases exit with encoded | s
  · exact congrArg some done
  obtain ⟨ok, _, finished, value⟩ := done
  dsimp only
  rw [← value, Lanes.target, finished, drop_pairs_end length, Lanes.pending, finished]
  by_cases pending : s.nzrunLen ≠ 0
  · simp only [pending, ne_eq, not_false_eq_true, if_true, emit]
    have nonzeros := ok.nonzeros
    have outcome := @flushNzrun_eq dlen _ newBuf (by omega)
      (pending_length length ok.inside nonzeros) Dst.finish
    rw [← finished]
    generalize flushNzrun newBuf dlen s = wrote at outcome ⊢
    rcases wrote with _ | encoded | later
    · exact False.elim outcome
    · exact congrArg some outcome
    · obtain ⟨dst, rfl, same⟩ := outcome
      exact congrArg some same.symm
  · simp [pending, emit]

end

end

end Qemu.Xbzrle
