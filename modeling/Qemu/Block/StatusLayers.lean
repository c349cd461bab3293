import Qemu.Block.Limits
import Qemu.Block.Status

namespace Qemu.Block.Status

open Nat BlockNode

namespace BlockNode

/-- Nothing is there: the node ends before. -/
def past (node : BlockNode) (x : Nat) : Bool := 0 ≤ node.getlength && node.getlength ≤ x

/-- What a guest reads: zero past the end, the child's bytes through a filter, and else the layer's
own bytes or those of the backing file. -/
def read : BlockNode → Nat → UInt8
  | null, _ => 0
  | mk layer next files, x =>
    if (mk layer next files).past x then 0
    else if layer.filters next then next.read x
    else if layer.owned x || layer.kind ≠ .backing then layer.content x
    else next.read x

/-- The layer determines a byte; a filter has the bytes of its child. -/
def owns : BlockNode → Nat → Bool
  | null, _ => false
  | mk layer next _, x => if layer.filters next then next.owns x else layer.owned x

/-- From an offset on, the node shows what is in a file from a place in it on. -/
def Window (node : BlockNode) (offset : Nat) (file : BlockNode) (map : Nat) : Prop :=
  ∀ x, offset ≤ x → node.past x = false → node.read x = file.read (map + (x - offset))

end BlockNode

/-- Nothing is there: the node ends, or shows a file that ends. -/
inductive RunsOut : BlockNode → Nat → Prop
  | ends {node : BlockNode} {offset : Nat} (past : node.past offset = true) : RunsOut node offset
  | through {node file : BlockNode} {offset map : Nat} (window : node.Window offset file map)
      (out : RunsOut file map) : RunsOut node offset

variable {node : BlockNode} {offset : Nat}

theorem read_past (past : node.past x = true) : node.read x = 0 := by
  cases node with
  | null => rfl
  | mk layer next files => rw [BlockNode.read, if_pos past]

theorem RunsOut.read_zero (out : RunsOut node offset) : ∀ x, offset ≤ x → node.read x = 0 := by
  induction out with
  | ends past =>
    intro x later
    simp only [BlockNode.past, Bool.and_eq_true, decide_eq_true_eq] at past
    exact read_past (by simp only [BlockNode.past, Bool.and_eq_true, decide_eq_true_eq]; omega)
  | @through node file offset map window _ ih =>
    intro x later
    cases past : node.past x with
    | true => exact read_past past
    | false => exact (window x later past).trans (ih _ (Nat.le_add_right ..))

/-- An answer of a driver about the bytes from an aligned offset on is sound. -/
structure SoundAnswer (layer : Layer) (next : BlockNode) (files : Nat → BlockNode)
    (mode offset : Nat) (status : DriverStatus) : Prop where
  nonzero : status.pnum ≠ 0
  aligned : layer.requestAlignment ∣ status.pnum
  recurse : status.recurse = true → status.data = true ∧ status.offsetValid = true ∧ status.zero = false
  -- a protocol driver returns itself and the same offset
  protocol : layer.cacheable mode status = true → status.file = .self ∧ status.map = offset
  passed : status.raw = true → status.offsetValid = true ∧
    (status.file = .filterOrCow ∨ ∃ k, status.file = .file k) ∧
    (childOf .null next files status.file).isNull = false
  window : status.raw = true →
    (mk layer next files).Window offset (childOf .null next files status.file) status.map
  shared : status.raw = true → ∀ x, offset ≤ x → x < offset + status.pnum →
    (childOf .null next files status.file).past (status.map + (x - offset)) = false →
    (mk layer next files).owns x = (childOf .null next files status.file).owns (status.map + (x - offset))
  allocated : status.raw = false → ∀ x, offset ≤ x → x < offset + status.pnum →
    (mk layer next files).past x = false →
    (mk layer next files).owns x = (status.data || status.zero)
  zero : status.raw = false → status.zero = true → ∀ x, offset ≤ x → x < offset + status.pnum →
    (mk layer next files).read x = 0
  below : status.raw = false → status.recurse = true → status.file ≠ .self →
    (childOf .null next files status.file).isNull = false → ∀ x, offset ≤ x → x < offset + status.pnum →
    (mk layer next files).past x = false →
    (mk layer next files).read x = (childOf .null next files status.file).read (status.map + (x - offset))

/-- A node whose driver and cache are sound. -/
structure SoundLayer (layer : Layer) (next : BlockNode) (files : Nat → BlockNode) : Prop where
  alignment : 0 < layer.requestAlignment
  -- only a filter or a driver that supports it has a child below
  plain : layer.kind = .plain → next.isNull = true
  default : layer.blockStatus = none → layer.filters next = false → ∀ x, layer.owned x = true
  cache : ∀ dataStart dataEnd, layer.cache = some (dataStart, dataEnd) → layer.requestAlignment ∣ dataEnd ∧
    ∀ x, dataStart ≤ x → x < dataEnd → (mk layer next files).owns x = true
  -- what the driver is asked for is aligned and clamped to the length
  answers : ∀ blockStatus mode offset bytes status, layer.blockStatus = some blockStatus →
    layer.requestAlignment ∣ offset → layer.requestAlignment ∣ bytes → bytes ≠ 0 →
    (offset + bytes : Nat) < layer.getlength + layer.requestAlignment →
      blockStatus mode offset bytes = .ok status →
    SoundAnswer layer next files mode offset status

/-- All nodes that are reached from a node are sound. -/
def Sound : BlockNode → Prop
  | .null => True
  | .mk layer next files => SoundLayer layer next files ∧ Sound next ∧ ∀ k, Sound (files k)

/-- What the status of a node says. -/
structure Answers (node : BlockNode) (offset bytes : Nat) (status : BlockStatus) : Prop where
  limited : status.pnum ≤ bytes
  inside : ∀ x, offset ≤ x → x < offset + status.pnum → node.past x = false
  owns : ∀ x, offset ≤ x → x < offset + status.pnum → node.owns x = status.allocated
  zero : status.zero = true → ∀ x, offset ≤ x → x < offset + status.pnum → node.read x = 0
  ended : status.eof = true → RunsOut node (offset + status.pnum)
  atEnd : node.getlength = (offset + status.pnum : Nat) → status.eof = true
  empty : status.pnum = 0 → status.eof = true ∧ status.allocated = false ∧ status.zero = false

theorem Answers.congr
    (answers : Answers node offset bytes status) (pnum : status'.pnum = status.pnum)
    (allocated : status'.allocated = status.allocated) (zero : status'.zero = status.zero)
    (eof : status'.eof = status.eof) : Answers node offset bytes status' := by
  obtain ⟨limited, inside, owns, zeroes, ended, atEnd, empty⟩ := answers
  constructor
  · rwa [pnum]
  · rwa [pnum]
  · rwa [pnum, allocated]
  · rwa [pnum, zero]
  · rwa [pnum, eof]
  · rwa [pnum, eof]
  · rwa [pnum, eof, allocated, zero]

/-- The status of a node does not fault and says what is right. -/
def Informs (node : BlockNode) (ask : Nat → Nat → StatusResult) : Prop :=
  ∀ offset bytes, bytes ≠ 0 → ∃ reply, ask offset bytes = .ok reply ∧ ∀ status, reply = .ok status →
    Answers node offset bytes status

section

variable {layer : Layer} {next : BlockNode} {files : Nat → BlockNode} {mode offset bytes : Nat}

theorem BlockNode.Window.shift (window : node.Window offset file map) (k : Nat) :
    node.Window (offset + k) file (map + k) := by
  intro x later inside
  rw [window x (by omega) inside]
  congr 1
  omega

/-- The cache and the default for filters are as sound as the driver. -/
theorem queryDriver_sound (sound : SoundLayer layer next files) (aligned : layer.requestAlignment ∣ offset)
    (wanted : layer.requestAlignment ∣ bytes) (nonzero : bytes ≠ 0)
    (clamped : (offset + bytes : Nat) < layer.getlength + layer.requestAlignment)
    (asks : layer.blockStatus = none → layer.filters next = true) :
    ∃ reply, layer.queryDriver mode offset bytes = .ok reply ∧
      ∀ status, reply = .ok status → SoundAnswer layer next files mode offset status := by
  rw [Layer.queryDriver]
  cases driver : layer.blockStatus with
  | none =>
    have filters := asks driver
    have child : next.isNull = false := by
      simp only [Layer.filters, Bool.and_eq_true, Bool.not_eq_true'] at filters
      exact filters.2
    refine ⟨_, rfl, fun status same => ?_⟩
    cases same
    refine ⟨nonzero, wanted, by simp, by simp [Layer.cacheable], fun _ => ⟨rfl, Or.inl rfl, child⟩,
      ?_, ?_, by simp, by simp, by simp⟩
    · intro _ x later inside
      rw [BlockNode.read, if_neg (by simp [inside]), if_pos filters]
      simp only [childOf]
      congr 1
      omega
    · intro _ x later _ _
      rw [owns, if_pos filters]
      simp only [childOf]
      congr 1
      omega
  | some blockStatus =>
    dsimp only
    cases cached : (if layer.noChildren then layer.bdrvBscIsData offset else none) with
    | some pnum =>
      refine ⟨_, rfl, fun status same => ?_⟩
      cases same
      have found : layer.bdrvBscIsData offset = some pnum := by
        split at cached
        · exact cached
        · exact absurd cached (by simp)
      rw [Layer.bdrvBscIsData] at found
      split at found
      · exact absurd found (by simp)
      next dataStart dataEnd region =>
        obtain ⟨ends, data⟩ := sound.cache dataStart dataEnd region
        split at found
        · obtain rfl := Option.some.inj found
          refine ⟨by dsimp only; omega, dvd_sub ends aligned, by simp, fun _ => ⟨rfl, rfl⟩, by simp,
            by simp, by simp, ?_, by simp, by simp⟩
          intro _ x later before _
          dsimp only at before
          exact data x (by omega) (by omega)
        · exact absurd found (by simp)
    | none =>
      cases asked : blockStatus mode offset bytes with
      | error error => exact ⟨_, rfl, fun status no => absurd no (by simp)⟩
      | ok status => ?_
      have answer := sound.answers blockStatus mode offset bytes status driver aligned wanted
        nonzero clamped asked
      refine ⟨.ok status, ?_, fun status' same => ?_⟩
      · exact if_neg fun wrong => wrong.2 (answer.protocol wrong.1)
      · cases same
        exact answer

theorem childOf_other (other : file ≠ .self) (bs : BlockNode) :
    childOf bs next files file = childOf .null next files file := by
  cases file with
  | self => exact absurd rfl other
  | none => rfl
  | filterOrCow => rfl
  | file k => rfl

/-- A status before it is looked at whether it covers the end of the node. -/
structure Told (node : BlockNode) (offset pnum : Nat) (status : BlockStatus) : Prop where
  nonzero : status.pnum ≠ 0
  limited : status.pnum ≤ pnum
  owns : ∀ x, offset ≤ x → x < offset + status.pnum → node.owns x = status.allocated
  zero : status.zero = true → ∀ x, offset ≤ x → x < offset + status.pnum → node.read x = 0
  noEof : status.eof = false

/-- Bytes that are not allocated are zero if there is no backing file, or a short one. -/
theorem read_zeroBelow (below : zeroBelow layer next mode offset = true) (later : offset ≤ x)
    (unowned : (mk layer next files).owns x = false) : (mk layer next files).read x = 0 := by
  simp only [zeroBelow, Bool.and_eq_true, Bool.or_eq_true, decide_eq_true_eq] at below
  obtain ⟨backing, nothing⟩ := below
  have direct : layer.filters next = false := by simp [Layer.filters, backing]
  rw [owns, if_neg (by simp [direct])] at unowned
  rw [BlockNode.read]
  split
  · rfl
  rw [if_neg (by simp [direct]), if_neg (by simp [unowned, backing])]
  rcases nothing with null | ⟨-, short⟩
  · cases next with
    | null => rfl
    | mk layer next files => exact absurd null (by simp [isNull])
  · refine read_past ?_
    simp only [past, Bool.and_eq_true, decide_eq_true_eq]
    omega

variable {ask : FileRef → Nat → Nat → StatusResult} {status : DriverStatus} {start : Nat}

/-- The answer of a driver that does not pass the question on, from an offset in its range on. -/
theorem layerStatus_told {pnum map : Nat} (answer : SoundAnswer layer next files mode start status)
    (direct : status.raw = false) (later : start ≤ offset) (pos : pnum ≠ 0)
    (covered : offset + pnum ≤ start + status.pnum)
    (inside : ∀ x, offset ≤ x → x < offset + pnum → (mk layer next files).past x = false)
    (mapped : status.offsetValid = true → map = status.map + (offset - start))
    (informs : ∀ file, file ≠ .self → (childOf .null next files file).isNull = false →
      Informs (childOf .null next files file) (ask file)) :
    ∃ reply, layerStatus ask (.mk layer next files) next files layer mode offset status pnum map =
      .ok reply ∧ ∀ told, reply = .ok told → Told (.mk layer next files) offset pnum told := by
  have owns : ∀ x, offset ≤ x → x < offset + pnum →
    (mk layer next files).owns x = (status.data || status.zero) :=
    fun x above before => answer.allocated direct x (by omega) (by omega) (inside x above before)
  have zero : (status.zero || (!(status.data || status.zero) && zeroBelow layer next mode offset)) =
      true → ∀ x, offset ≤ x → x < offset + pnum → (mk layer next files).read x = 0 := by
    intro zeroes x above before
    rcases (Bool.or_eq_true _ _).mp zeroes with reported | synthesized
    · exact answer.zero direct reported x (by omega) (by omega)
    · obtain ⟨unallocated, below⟩ := (Bool.and_eq_true _ _).mp synthesized
      exact read_zeroBelow below above ((owns x above before).trans (by simpa using unallocated))
  rw [layerStatus]
  dsimp only
  split
  next recursion =>
    obtain ⟨-, recurse, child, other, -, -, valid⟩ := recursion
    rw [childOf_other other, Bool.not_eq_true'] at child
    obtain ⟨reply, asked, right⟩ := informs status.file other child map pnum pos
    have same : ∀ x, offset ≤ x → x < offset + pnum → (mk layer next files).read x =
        (childOf .null next files status.file).read (map + (x - offset)) := by
      intro x above before
      rw [answer.below direct recurse other child x (by omega) (by omega) (inside x above before),
        mapped valid]
      congr 1
      omega
    rw [asked]
    cases reply with
    | error error => exact ⟨_, rfl, fun told same => by cases same; exact ⟨pos, le_rfl, owns, zero, rfl⟩⟩
    | ok below => ?_
    have right := right below rfl
    dsimp only
    split
    next ends =>
      refine ⟨_, rfl, fun told same' => ?_⟩
      cases same'
      refine ⟨pos, le_rfl, owns, fun _ x above before => ?_, rfl⟩
      rw [same x above before]
      by_cases early : map + (x - offset) < map + below.pnum
      · exact right.zero (ends.2.resolve_left (by omega)) _ (Nat.le_add_right ..) early
      · exact (right.ended ends.1).read_zero _ (not_lt.mp early)
    next goesOn =>
      refine ⟨_, rfl, fun told same' => ?_⟩
      cases same'
      have limited := right.limited
      refine ⟨fun none => goesOn ⟨(right.empty none).1, Or.inl none⟩, limited, ?_, ?_, rfl⟩
      · intro x above before
        dsimp only at before
        exact owns x above (by omega)
      · intro zeroes x above before
        dsimp only at before zeroes
        rw [same x above (by omega)]
        exact right.zero zeroes _ (Nat.le_add_right ..) (by omega)
  · exact ⟨_, rfl, fun told same => by cases same; exact ⟨pos, le_rfl, owns, zero, rfl⟩⟩

section

variable (total offset : Nat) (status : BlockStatus)

@[simp]
theorem markEof_pnum : (markEof total offset status).pnum = status.pnum := by
  rw [markEof]
  split <;> rfl

@[simp]
theorem markEof_allocated :
    (markEof total offset status).allocated = status.allocated := by
  rw [markEof]
  split <;> rfl

@[simp]
theorem markEof_zero : (markEof total offset status).zero = status.zero := by
  rw [markEof]
  split <;> rfl

@[simp]
theorem markEof_eof :
    (markEof total offset status).eof = (decide (offset + status.pnum = total) || status.eof) := by
  rw [markEof]
  split
  next ends => simp [ends]
  next goesOn => simp [goesOn]

end

variable {total : Nat}

theorem markEof_eof_iff {status : BlockStatus} :
    (markEof total offset status).eof = true ↔ offset + status.pnum = total ∨ status.eof = true := by
  simp

theorem past_of_length (known : layer.getlength = total) :
    (mk layer next files).past x = decide (total ≤ x) := by
  simp [past, getlength, known]

theorem Told.answers (tells : Told (.mk layer next files) offset pnum told)
    (known : layer.getlength = total) (limited : pnum ≤ bytes) (fits : offset + pnum ≤ total) :
    Answers (.mk layer next files) offset bytes (markEof total offset told) := by
  have short := tells.limited
  refine ⟨?_, ?_, ?_, ?_, ?_, ?_, ?_⟩
  · rw [markEof_pnum]
    omega
  · intro x above before
    rw [markEof_pnum] at before
    rw [past_of_length known]
    exact decide_eq_false (by omega)
  · simpa using tells.owns
  · simpa using tells.zero
  · intro ends
    have whole := (markEof_eof_iff.mp ends).resolve_right (by simp [tells.noEof])
    refine .ends ?_
    rw [past_of_length known, markEof_pnum]
    exact decide_eq_true whole.ge
  · intro ends
    rw [markEof_pnum, getlength, known] at ends
    exact markEof_eof_iff.mpr (Or.inl (by exact_mod_cast ends.symm))
  · intro none
    rw [markEof_pnum] at none
    exact absurd none tells.nonzero

/-- The answer of the file that a question is passed on to is one of the node. -/
theorem Answers.passed
    (right : Answers child map pnum below) (known : layer.getlength = total) (limited : pnum ≤ bytes)
    (fits : offset + pnum ≤ total) (window : (BlockNode.mk layer next files).Window offset child map)
    (shared : ∀ x, offset ≤ x → x < offset + pnum → child.past (map + (x - offset)) = false →
      (BlockNode.mk layer next files).owns x = child.owns (map + (x - offset))) :
    Answers (.mk layer next files) offset bytes (markEof total offset below) := by
  have short := right.limited
  have inside : ∀ x, offset ≤ x → x < offset + below.pnum →
    (BlockNode.mk layer next files).past x = false := by
    intro x above before
    rw [past_of_length known]
    exact decide_eq_false (by omega)
  refine ⟨?_, ?_, ?_, ?_, ?_, ?_, ?_⟩
  · rw [markEof_pnum]
    omega
  · simpa using inside
  · intro x above before
    rw [markEof_pnum] at before
    rw [markEof_allocated, shared x above (by omega) (right.inside _ (Nat.le_add_right ..) (by omega))]
    exact right.owns _ (Nat.le_add_right ..) (by omega)
  · intro zero x above before
    rw [markEof_pnum] at before
    rw [markEof_zero] at zero
    rw [window x above (inside x above before)]
    exact right.zero zero _ (Nat.le_add_right ..) (by omega)
  · intro ends
    rw [markEof_pnum]
    rcases markEof_eof_iff.mp ends with whole | early
    · refine .ends ?_
      rw [past_of_length known]
      exact decide_eq_true whole.ge
    · exact .through (window.shift below.pnum) (right.ended early)
  · intro ends
    rw [markEof_pnum, getlength, known] at ends
    exact markEof_eof_iff.mpr (Or.inl (by exact_mod_cast ends.symm))
  · intro none
    rw [markEof_pnum] at none
    obtain ⟨ends, unallocated, unknown⟩ := right.empty none
    exact ⟨markEof_eof_iff.mpr (Or.inr ends), by simpa using unallocated, by simpa using unknown⟩

theorem roundUp_lt (n : Nat) (pos : 0 < align) : roundUp n align < n + align := by
  have whole := div_mul_le_self (n + align - 1) align
  rw [roundUp]
  omega

/-- The body of the function is right if the answers about other nodes are. -/
theorem doBlockStatus_informs (sound : SoundLayer layer next files)
    (informs : ∀ file, file ≠ .self → (childOf .null next files file).isNull = false →
      Informs (childOf .null next files file) (ask file)) :
    Informs (.mk layer next files) (doBlockStatus ask (.mk layer next files) next files layer mode) := by
  intro offset bytes wanted
  have alignment := sound.alignment
  rw [doBlockStatus]
  split
  · exact ⟨_, rfl, fun status no => absurd no (by simp)⟩
  rename_i known
  obtain ⟨total, length⟩ := Int.eq_ofNat_of_zero_le (not_lt.mp known)
  rw [length, Int.toNat_natCast]
  dsimp only
  split
  next past =>
    refine ⟨_, rfl, fun status same => ?_⟩
    cases same
    have out : (mk layer next files).past offset = true := by
      rw [past_of_length length]
      exact decide_eq_true past
    exact ⟨zero_le _, fun x above before => absurd before (not_lt.mpr above),
      fun x above before => absurd before (not_lt.mpr above), by simp, fun _ => .ends out, fun _ => rfl,
      fun _ => ⟨rfl, rfl, rfl⟩⟩
  rename_i inside
  have room : min bytes (total - offset) ≠ 0 := by omega
  have limited : min bytes (total - offset) ≤ bytes := min_le_left ..
  have fits : offset + min bytes (total - offset) ≤ total := by omega
  generalize min bytes (total - offset) = asked at room limited fits
  split
  next default =>
    have owned := sound.default (by simpa using default.1) (by simpa using default.2)
    have unfiltered : layer.filters next = false := by simpa using default.2
    refine ⟨_, rfl, fun status same => ?_⟩
    have told : Told (.mk layer next files) offset asked
        { data := true, allocated := true, pnum := asked } := by
      refine ⟨room, le_rfl, fun x _ _ => ?_, by simp, rfl⟩
      rw [owns, unfiltered, if_neg (by simp)]
      exact owned x
    cases same
    refine (told.answers length limited fits).congr ?_ ?_ ?_ ?_ <;> cases layer.protocol <;> simp
  rename_i asks
  set start := alignDown offset layer.requestAlignment with begins
  have aligned : layer.requestAlignment ∣ start := dvd_mul_left ..
  have down : start ≤ offset := div_mul_le_self ..
  have near : offset - start < layer.requestAlignment := by
    rw [begins, alignDown, ← mod_eq_sub_div_mul]
    exact mod_lt _ alignment
  have up := le_roundUp (offset + asked) alignment
  have close := roundUp_lt (offset + asked) alignment
  obtain ⟨reply, ran, right⟩ := @queryDriver_sound layer next files mode start
    (roundUp (offset + asked) layer.requestAlignment - start) sound aligned
    (dvd_sub (dvd_mul_left ..) aligned)
    (by omega) (by rw [length]; omega) (by simpa using asks)
  rw [ran]
  clear_value start
  cases reply with
  | error error => exact ⟨_, rfl, fun status no => absurd no (by simp)⟩
  | ok status => ?_
  have answer := right status rfl
  have nonzero := answer.nonzero
  have whole : layer.requestAlignment ≤ status.pnum := le_of_dvd (by omega) answer.aligned
  dsimp only
  rw [if_neg (not_not.mpr ⟨nonzero, mod_eq_zero_of_dvd answer.aligned, near⟩),
    if_neg fun wrong => wrong.2 (by simpa using answer.recurse wrong.1)]
  have pos : min (status.pnum - (offset - start)) asked ≠ 0 := by omega
  have covered : offset + min (status.pnum - (offset - start)) asked ≤ start + status.pnum := by omega
  have limited' : min (status.pnum - (offset - start)) asked ≤ bytes := by omega
  have fits' : offset + min (status.pnum - (offset - start)) asked ≤ total := by omega
  generalize min (status.pnum - (offset - start)) asked = pnum at pos covered limited' fits'
  cases raw : status.raw with
  | true =>
    obtain ⟨valid, other, child⟩ := answer.passed raw
    have notSelf : status.file ≠ .self := by
      rcases other with same | ⟨k, same⟩ <;> simp [same]
    simp only [if_true, valid, childOf_other notSelf, child, Bool.not_true, Bool.false_eq_true,
      or_self, if_false]
    obtain ⟨reply, asked', right'⟩ :=
      informs status.file notSelf child (status.map + (offset - start)) pnum pos
    have window := (answer.window raw).shift (offset - start)
    rw [Nat.add_sub_cancel' down] at window
    rw [asked']
    cases reply with
    | error error => exact ⟨_, rfl, fun status no => absurd no (by simp [Except.map])⟩
    | ok below => ?_
    refine ⟨_, rfl, fun final same => ?_⟩
    cases same
    refine (right' below rfl).passed length limited' fits' window fun x above before stays => ?_
    have place : status.map + (offset - start) + (x - offset) = status.map + (x - start) := by omega
    rw [place] at stays ⊢
    exact answer.shared raw x (by omega) (by omega) stays
  | false =>
    rw [if_neg (by simp)]
    have inside' : ∀ x, offset ≤ x → x < offset + pnum → (mk layer next files).past x = false := by
      intro x above before
      rw [past_of_length length]
      exact decide_eq_false (by omega)
    obtain ⟨reply, told, tells⟩ := @layerStatus_told layer next files mode offset ask status start pnum
      (if status.offsetValid then status.map + (offset - start) else status.map) answer raw down pos
      covered inside'
      (fun valid => if_pos valid) informs
    rw [told]
    cases reply with
    | error error => exact ⟨_, rfl, fun status no => absurd no (by simp [Except.map])⟩
    | ok answered =>
      refine ⟨_, rfl, fun final same => ?_⟩
      cases same
      exact (tells answered rfl).answers length limited' fits'

end

/-- The status of a sound node is right. -/
theorem bdrvCoDoBlockStatus_informs (sound : Sound node) (exist : node.isNull = false)
    (mode : Nat) : Informs node (bdrvCoDoBlockStatus node mode) := by
  induction node with
  | null => exact absurd exist (by simp [isNull])
  | mk layer next files nextInforms filesInform => ?_
  obtain ⟨here, soundNext, soundFiles⟩ := sound
  intro offset bytes wanted
  rw [bdrvCoDoBlockStatus]
  refine doBlockStatus_informs here (fun file other child => ?_) offset bytes wanted
  cases file with
  | self => exact absurd rfl other
  | none => exact absurd child (by simp [childOf, isNull])
  | filterOrCow => exact nextInforms soundNext child
  | file k => exact filesInform k (soundFiles k) child

end Qemu.Block.Status
