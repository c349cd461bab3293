import Qemu.Block.IoExact

/-! When a node of given limits serves every request exactly and in whole blocks. -/

namespace Qemu.Block

open Transfer

/-- A read or write of the block layer's interface. -/
inductive Request where
  | read (offset bytes : Int) (qiov : Qiov) (qiovOffset : Nat)
  | write (offset bytes : Int) (payload : Payload)

namespace Request

def run (node : Node) (driver : Driver) : Request → IoState → IoResult
  | .read offset bytes qiov qiovOffset => bdrvCoPreadvPart node driver offset bytes qiov qiovOffset
  | .write offset bytes payload => bdrvCoPwritevPart node driver offset bytes payload

/-- The caller's vector; what is read goes to different places. -/
def Valid : Request → Prop
  | .read _ bytes qiov qiovOffset => UserVector qiov ∧ (window qiov qiovOffset bytes.toNat).Nodup
  | .write _ _ payload => ∀ qiov, payload.vector = some qiov → UserVector qiov

/-- The permissions of the caller let it make the image as long as it wants to. -/
def Permitted (node : Node) (s : IoState) : Request → Prop
  | .read .. => True
  | .write offset bytes _ => s.Permits node (roundUp (offset + bytes).toNat node.align)

/-- What a successful request does. -/
def Done (s later : IoState) : Request → Prop
  | .read offset bytes qiov qiovOffset =>
    later.image = s.image ∧
      ReadExact (window qiov qiovOffset bytes.toNat) (slice s.image offset.toNat bytes.toNat) s.mem
      later.mem
  | .write offset bytes payload =>
    later.image = overwrite s.image offset.toNat (payload.values bytes.toNat s.mem)

/-- No assertion of the padding code fails, the driver is called for whole blocks only, and
success means what it should. -/
def Exact (node : Node) (driver : Driver) (s : IoState) (request : Request) : Prop :=
  match request.run node driver s with
  | .ok (later, ret) =>
    (∀ call ∈ later.calls.drop s.calls.length, call.Aligned node.align) ∧ (0 ≤ ret → request.Done s later)
  | .error fault => fault = .other ∧ ¬ request.Permitted node s

end Request

/-- The driver fills every buffer it is asked to fill. -/
def Driver.ReadsSucceed (driver : Driver) : Prop := ∀ n, 0 ≤ driver .read n

theorem Driver.ReadsSucceed.passed {calls : List DriverCall}
    (succeed : driver.ReadsSucceed) (served : ∀ call ∈ calls, call.op = .read ∧ call.Served driver align) :
    ∀ call ∈ calls, 0 ≤ call.ret := by
  intro call member
  obtain ⟨isRead, -, n, answer⟩ := served call member
  have := succeed n
  rw [answer, isRead]
  omega

theorem Request.exact_of_le {s : IoState} {request : Request}
    (small : node.align ≤ 2 ^ 24) (succeed : driver.ReadsSucceed) (zero : s.ZeroPastEnd)
    (valid : request.Valid) : request.Exact node driver s := by
  cases request with
  | read offset bytes qiov qiovOffset =>
    obtain ⟨later, ret, new, ran, image, calls, served, exact⟩ :=
      bdrvCoPreadvPart_spec node driver s offset bytes qiovOffset valid.1 zero
    simp only [Request.Exact, Request.run, ran, calls, List.drop_left]
    exact ⟨fun call member => (served call member).2.1, fun done =>
      ⟨image, exact (succeed.passed served) done valid.2⟩⟩
  | write offset bytes payload =>
    rcases bdrvCoPwritevPart_spec node driver s offset bytes valid zero
      ⟨dvd_rfl, node.align_dvd_maxZeroTransfer_iff.mpr small⟩ with ⟨stopped, refused⟩ |
      ⟨later, ret, ran, reads, writes, request⟩
    · simp only [Request.Exact, Request.run, stopped]
      exact ⟨trivial, refused⟩
    simp only [Request.Exact, Request.run, ran, request.calls, List.append_assoc, List.drop_left]
    refine ⟨fun call member => ?_, fun done => ?_⟩
    · exact (List.mem_append.mp member).elim (fun read => (request.readsAligned call read).2.1)
        fun write => (request.writesAligned call write).2.1
    · exact request.stored (succeed.passed request.readsAligned) (le_antisymm request.nonpos done)

/-- A node without a callback for zeroes, whose image may grow. -/
def fallbackNode (limits : BlockLimits) : Node where
  limits := limits
  readOnly := false
  permResize := true
  detectZeroes := false
  preadvPart := true
  pwritevPart := true
  pwriteZeroes := false
  zeroNoFallback := false

def blankState : IoState := ⟨fun _ => 0, 0, fun _ => 0, []⟩

/-- A write of one block of zeroes. -/
def zeroBlock (limits : BlockLimits) : Request := .write 0 limits.requestAlignment (.zeroes false)

section

variable {limits : BlockLimits}

theorem fallbackNode_maxZeroTransfer_le : (fallbackNode limits).maxZeroTransfer ≤ 2 ^ 24 := by
  unfold Node.maxZeroTransfer minNonZero
  split
  · decide
  · exact min_le_right _ _

section

variable (large : 2 ^ 24 < limits.requestAlignment)
include large

theorem zeroRequest_first_call :
    ∃ next, zeroRequest (fallbackNode limits) (fun _ _ => 0) false 0 limits.requestAlignment blankState =
        .ok (next, 0, (fallbackNode limits).maxZeroTransfer) ∧
      next.calls = [⟨.write, 0, (fallbackNode limits).maxZeroTransfer, 0⟩] := by
  have small : (fallbackNode limits).maxZeroTransfer ≤ 2 ^ 24 := fallbackNode_maxZeroTransfer_le
  have part : min limits.requestAlignment (fallbackNode limits).maxZeroTransfer =
      (fallbackNode limits).maxZeroTransfer := min_eq_right (by omega)
  have limit : bdrvMaxLength = 2 ^ 63 - 2 ^ 30 := rfl
  have fits : 0 + (fallbackNode limits).maxZeroTransfer ≤
    iovSize [zeroBuf (fallbackNode limits).maxZeroTransfer] := by
    simp [zeroBuf]
  have accepted := not_bdrvCheckQiovRequest_neg
    (by omega : 0 + (fallbackNode limits).maxZeroTransfer ≤ bdrvMaxLength) fits
  unfold zeroRequest
  simp only [part]
  unfold bdrvDriverPwritev
  rw [if_neg accepted]
  exact ⟨_, rfl, rfl⟩

theorem zeroFragments_first_call (tailSmall : tail < (fallbackNode limits).zeroAlignment) :
    ∃ later ret, zeroFragments (fallbackNode limits) (fun _ _ => 0) false tail limits.requestAlignment 0 0
        limits.requestAlignment blankState = .ok (later, ret) ∧
      DriverCall.mk .write 0 (fallbackNode limits).maxZeroTransfer 0 ∈ later.calls := by
  obtain ⟨next, ran, calls⟩ := zeroRequest_first_call large
  set node := fallbackNode limits
  have alignLe : limits.requestAlignment ≤ 2 ^ 30 := node.align_le
  have zeroLe : limits.requestAlignment ≤ node.zeroAlignment := le_max_right _ _
  have room := node.zeroAlignment_le_maxWriteZeroes
  have small : node.maxZeroTransfer ≤ 2 ^ 24 := fallbackNode_maxZeroTransfer_le
  have limit : bdrvMaxLength = 2 ^ 63 - 2 ^ 30 := rfl
  have chunk : node.zeroChunk tail 0 limits.requestAlignment = (limits.requestAlignment, 0) := by
    unfold Node.zeroChunk
    rw [if_neg (by simp), if_neg (by omega)]
  have whole : min limits.requestAlignment node.maxWriteZeroes = limits.requestAlignment :=
    min_eq_left (zeroLe.trans room)
  obtain ⟨fuel, enough⟩ : ∃ fuel, limits.requestAlignment = fuel + 1 :=
    ⟨limits.requestAlignment - 1, by omega⟩
  have pos := node.maxZeroTransfer_pos
  have left : limits.requestAlignment - node.maxZeroTransfer ≤ fuel := by omega
  have range : 0 + node.maxZeroTransfer +
      (limits.requestAlignment - node.maxZeroTransfer) ≤ bdrvMaxLength := by omega
  obtain ⟨later, ret, new, ran', rest⟩ := zeroFragments_writes (s := next) (fun _ _ => 0) false
    ⟨one_dvd _, one_dvd node.maxZeroTransfer⟩ (one_dvd tail) tailSmall
    (one_dvd 0) node.zeroAlignment_pos (one_dvd _) (one_dvd _) range left
  refine ⟨later, ret, ?_, ?_⟩
  · nth_rewrite 1 [enough]
    rw [zeroFragments, chunk]
    · dsimp only
      rw [whole, ran]
      exact ran'
    · omega
  · rw [rest.calls, calls]
    simp

/-- The first call for a large block is for the part of it that fits into the buffer. -/
theorem zeroBlock_first_call :
    ∃ later ret, (zeroBlock limits).run (fallbackNode limits) (fun _ _ => 0) blankState =
    .ok (later, ret) ∧
      DriverCall.mk .write 0 (fallbackNode limits).maxZeroTransfer 0 ∈ later.calls := by
  obtain ⟨later, ret, ran, member⟩ := zeroFragments_first_call large
    (Nat.mod_lt (0 + limits.requestAlignment) (fallbackNode limits).zeroAlignment_pos)
  set node := fallbackNode limits
  have alignLe : limits.requestAlignment ≤ 2 ^ 30 := node.align_le
  have limit : bdrvMaxLength = 2 ^ 63 - 2 ^ 30 := rfl
  have inside : 0 + limits.requestAlignment ≤ bdrvMaxLength := by omega
  have check : bdrvCheckQiovRequest (0 : Nat) limits.requestAlignment none 0 = 0 :=
    bdrvCheckQiovRequest_zero inside (by simp)
  have aligned : node.align = limits.requestAlignment := rfl
  have forwarded : bdrvAlignedPwritev node (fun _ _ => 0) 0 limits.requestAlignment (.zeroes false)
      blankState = .ok (writeReqFinish 0 limits.requestAlignment ret later, ret) := by
    have blocks : node.checkAligned 0 limits.requestAlignment = true :=
      Node.checkAligned_iff.mpr ⟨dvd_zero _, dvd_rfl⟩
    rw [bdrvAlignedPwritev, Payload.vector, Payload.vectorOffset, check, if_neg (by decide),
      if_neg (by simp [blocks]),
      if_neg (by simp [node, fallbackNode]), if_neg (by simp [node, fallbackNode]), forwardWrite,
      bdrvCoDoPwriteZeroes_eq _ _ _ inside, if_neg (by simp), Nat.zero_mod, ran]
    rfl
  have unpadded : bdrvInitPadding node 0 limits.requestAlignment = .ok none := by
    rw [bdrvInitPadding, check, aligned]
    simp
  have finished : (writeReqFinish 0 limits.requestAlignment ret later).calls = later.calls := by
    unfold writeReqFinish
    dsimp only
    split <;> rfl
  have run : (zeroBlock limits).run node (fun _ _ => 0) blankState =
      zeroMiddleAndTail node (fun _ _ => 0) false none 0 limits.requestAlignment blankState := by
    rw [Nat.cast_zero] at check
    rw [zeroBlock, Request.run, bdrvCoPwritevPart, check]
    simp only [Bool.false_eq_true, false_and, Int.toNat_zero, Nat.zero_mod, ne_eq,
      not_true_eq_false, and_false, Int.toNat_natCast, bdrvCoDoZeroPwritev, unpadded]
    rfl
  rw [run, zeroMiddleAndTail]
  dsimp only
  rw [if_neg (by simp), if_pos (by rw [aligned]), aligned, alignDown_of_dvd dvd_rfl, forwarded]
  simp only [bind, Except.bind, Nat.sub_self]
  split
  · exact ⟨_, _, rfl, by rwa [finished]⟩
  · rw [zeroTail]
    exact ⟨_, _, if_pos rfl, by rwa [finished]⟩

end

end

/-- Blocks of 32 MiB. -/
def largeBlocks : BlockLimits where
  requestAlignment := 2 ^ 25
  maxTransfer := 0
  maxPwriteZeroes := 0
  pwriteZeroesAlignment := 0
  powerOfTwo := ⟨25, by decide, rfl⟩
  transferAligned := dvd_zero _
  zeroesAligned := dvd_zero _
  zeroesInt := Nat.zero_le _
  zeroesRoom := .inl rfl

end Qemu.Block
