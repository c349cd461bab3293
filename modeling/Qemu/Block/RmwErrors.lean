import Qemu.Block.IoExact

namespace Qemu.Block

open Transfer

section

variable (node : Node) (driver : Driver) (offset bytes : Int) (payload : Payload) (s : IoState)

/-- No image byte outside the request changes, and a request with a failed read fails. A request
that an assertion about permissions stops has no result. -/
def Undamaged : Prop :=
  ∀ later ret, bdrvCoPwritevPart node driver offset bytes payload s = .ok (later, ret) →
    (ret < 0 ∨ ∀ call ∈ later.calls.drop s.calls.length, call.op = .read → 0 ≤ call.ret) ∧
      ∀ x, x < offset.toNat ∨ offset.toNat + bytes.toNat ≤ x → later.image x = s.image x

/-- Of the answers of the driver to its calls from the next one on, those for the reads of the
first and of the last block of the request are successes. -/
def Readable (answers : Nat → Int) : Prop :=
  ∀ k < paddingReads node s.length offset bytes payload, 0 ≤ answers (s.calls.length + k)

end

variable {node : Node} {driver : Driver} {offset bytes : Int} {payload : Payload} {s : IoState}

theorem RequestWrites.reads_iff {offset : Nat}
    (request : RequestWrites node driver unit offset values total reads writes s later ret) :
    (∀ call ∈ later.calls.drop s.calls.length, call.op = .read → 0 ≤ call.ret) ↔
    ∀ call ∈ reads, 0 ≤ call.ret := by
  rw [request.calls, List.append_assoc, List.drop_left]
  constructor
  · intro passed call member
    exact passed call (List.mem_append_left _ member) (request.readsAligned call member).1
  · intro passed call member isRead
    rcases List.mem_append.mp member with read | write
    · exact passed call read
    · exact absurd isRead (request.writesAligned call write).1

theorem Payload.values_length_le (payload : Payload) (bytes : Nat) (mem : Place → UInt8) :
    (payload.values bytes mem).length ≤ bytes := by
  cases payload with
  | data qiov qiovOffset => simp [Payload.values, window]
  | zeroes noFallback => simp [Payload.values]

section

variable (vectors : ∀ qiov, payload.vector = some qiov → UserVector qiov) (zero : s.ZeroPastEnd)
include vectors zero

theorem undamaged_of_readable
    (safe : node.readOnly = true ∨ Readable node offset bytes payload s (driver .read)) :
    Undamaged node driver offset bytes payload s := by
  intro later ret ran
  rcases bdrvCoPwritevPart_spec node driver s offset bytes vectors zero ⟨one_dvd _, one_dvd _⟩ with
    ⟨stopped, -⟩ | ⟨later', ret', ran', reads, writes, request⟩
  · rw [stopped] at ran
    cases ran
  obtain ⟨rfl, rfl⟩ := Prod.mk.inj (Except.ok.inj (ran'.symm.trans ran))
  rw [request.reads_iff]
  rcases safe with readOnly | readable
  · obtain ⟨same, fails⟩ := request.readOnly readOnly
    refine ⟨?_, fun x _ => by rw [same]⟩
    by_cases none : reads = []
    · exact .inr (by simp [none])
    · exact .inl (fails none)
  · have passed := request.answered.passed_iff.mpr readable
    have short := payload.values_length_le bytes.toNat s.mem
    exact ⟨.inr passed, fun x outside => request.frame passed x (by omega)⟩

/-- A failed read does not stop the write, and one that succeeds hides the failure. -/
theorem readable_of_undamaged (permits : s.Permits node (roundUp (offset + bytes).toNat node.align))
    (writesSucceed : ∀ op n, op ≠ .read → 0 ≤ driver op n)
    (undamaged : Undamaged node driver offset bytes payload s) (writable : node.readOnly ≠ true) :
    Readable node offset bytes payload s (driver .read) := by
  rcases bdrvCoPwritevPart_spec node driver s offset bytes vectors zero ⟨one_dvd _, one_dvd _⟩ with
    ⟨-, refused⟩ | ⟨later, ret, ran, reads, writes, request⟩
  · exact absurd permits refused
  refine request.answered.passed_iff.mp ?_
  rcases (undamaged later ret ran).1 with failed | passed
  · rcases request.failure failed with none | readOnly | ⟨call, member, failing⟩
    · simp [none]
    · exact absurd readOnly writable
    · obtain ⟨isWrite, -, n, answer⟩ := request.writesAligned call member
      have := writesSucceed call.op n isWrite
      omega
  · exact request.reads_iff.mp passed

end

/-- The driver's answers to reads decide whether a request can damage its neighbours: it never
does if the node is read-only or the reads of its first and last block succeed, and if it may
be made at all, some answers to the writes let it do damage otherwise. -/
theorem undamaged_iff (vectors : ∀ qiov, payload.vector = some qiov → UserVector qiov)
    (zero : s.ZeroPastEnd) (answers : Nat → Int) :
    (node.readOnly = true ∨ Readable node offset bytes payload s answers →
      ∀ driver : Driver, driver .read = answers → Undamaged node driver offset bytes payload s) ∧
    (s.Permits node (roundUp (offset + bytes).toNat node.align) →
      (∀ driver : Driver, driver .read = answers → Undamaged node driver offset bytes payload s) →
        node.readOnly = true ∨ Readable node offset bytes payload s answers) := by
  refine ⟨?_, fun permits undamaged => ?_⟩
  · rintro safe driver rfl
    exact undamaged_of_readable vectors zero safe
  let driver : Driver := fun op n => if op = .read then answers n else 0
  have writesSucceed : ∀ op n, op ≠ .read → 0 ≤ driver op n := fun op n write => by simp [driver, write]
  by_cases readOnly : node.readOnly = true
  · exact .inl readOnly
  · exact .inr (readable_of_undamaged vectors zero permits writesSucceed (undamaged driver rfl) readOnly)

/-- Blocks of one sector. -/
def sectorNode : Node where
  limits :=
    { requestAlignment := 512
      maxTransfer := 0
      maxPwriteZeroes := 0
      pwriteZeroesAlignment := 0
      powerOfTwo := ⟨9, by decide, rfl⟩
      transferAligned := dvd_zero _
      zeroesAligned := dvd_zero _
      zeroesInt := Nat.zero_le _
      zeroesRoom := .inl rfl }
  readOnly := false
  permResize := false
  detectZeroes := false
  preadvPart := true
  pwritevPart := true
  pwriteZeroes := true
  zeroNoFallback := false

/-- Four sectors of ones. -/
def onesState : IoState := ⟨fun x => if x < 2048 then 1 else 0, 4, fun _ => 0, []⟩

/-- Zeroes from the middle of the first sector to the middle of the third: no write can do damage
if the first two reads succeed, and some can if the second, that of the third sector, fails. -/
theorem undamaged_when_readable :
    (∀ driver : Driver, (driver .read = fun n => if n < 2 then 0 else -eio) →
      Undamaged sectorNode driver 100 1200 (.zeroes false) onesState) ∧
    ¬ ∀ driver : Driver, (driver .read = fun n => if n = 1 then -eio else 0) →
      Undamaged sectorNode driver 100 1200 (.zeroes false) onesState := by
  have zero : onesState.ZeroPastEnd := fun x past => if_neg
    (by have : onesState.length = 2048 := rfl; omega)
  have two : paddingReads sectorNode onesState.length 100 1200 (.zeroes false) = 2 := by decide +kernel
  refine ⟨(undamaged_iff (by rintro _ ⟨⟩) zero _).1 (.inr fun k below => ?_), fun undamaged => ?_⟩
  · rw [two] at below
    simp [onesState, below]
  · rcases (undamaged_iff (by rintro _ ⟨⟩) zero _).2 (.inl (by decide)) undamaged with readOnly | readable
    · cases readOnly
    · have second := readable 1 (by rw [two]; decide)
      exact absurd second (by decide)

/-- A driver whose reads fail. -/
def unreadable : Driver
  | .read, _ => -eio
  | _, _ => 0

/-- A write of the byte at 1 returns success and clears the byte at 0. -/
theorem write_clears_neighbour :
    (bdrvCoPwritevPart sectorNode unreadable 1 1 (.data [⟨.user, 0, 1⟩] 0) onesState).map
        (fun result => (result.1.image 0, result.1.calls, result.2)) =
      .ok (0, [⟨.read, 0, 512, -eio⟩, ⟨.write, 0, 512, 0⟩], 0) ∧ onesState.image 0 = 1 ∧
      ¬ Undamaged sectorNode unreadable 1 1 (.data [⟨.user, 0, 1⟩] 0) onesState := by
  have ran : (bdrvCoPwritevPart sectorNode unreadable 1 1 (.data [⟨.user, 0, 1⟩] 0) onesState).map
        (fun result => (result.1.image 0, result.1.calls, result.2)) =
      .ok (0, [⟨.read, 0, 512, -eio⟩, ⟨.write, 0, 512, 0⟩], 0) := by decide +kernel
  refine ⟨ran, rfl, fun undamaged => ?_⟩
  cases result : bdrvCoPwritevPart sectorNode unreadable 1 1 (.data [⟨.user, 0, 1⟩] 0) onesState with
  | error fault =>
    rw [result] at ran
    cases ran
  | ok pair => ?_
  obtain ⟨later, ret⟩ := pair
  rw [result] at ran
  have cleared : later.image 0 = 0 := (Prod.mk.inj (Except.ok.inj ran)).1
  have kept := (undamaged later ret result).2 0 (.inl (by decide))
  rw [cleared] at kept
  exact absurd kept (by decide)

end Qemu.Block
