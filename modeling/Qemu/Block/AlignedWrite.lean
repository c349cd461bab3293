import Qemu.Block.Limits

namespace Qemu.Block

open Transfer List Nat

variable {node : Node} {driver : Driver} {qiov : Qiov} {s : IoState}

/-- A write of `values` by the calls `new`, all in multiples of `unit`. If it fails, a first part
may have been stored; it fails only if a call fails or the request `mayRefuse`. -/
structure Writes (driver : Driver) (mayRefuse : Prop) (unit offset : Nat) (values : List UInt8)
    (new : List DriverCall) (s later : IoState) (ret : Int) : Prop where
  grows : s.totalSectors ≤ later.totalSectors
  mem : ∀ p, p.1 ≠ .zeroes → later.mem p = s.mem p
  calls : later.calls = s.calls ++ new
  aligned : ∀ call ∈ new, call.op ≠ .read ∧ call.Served driver unit
  nonpos : ret ≤ 0
  stored : ∃ k, later.image = overwrite s.image offset (values.take k) ∧ (ret = 0 → k = values.length)
  failure : ret < 0 → mayRefuse ∨ ∃ call ∈ new, call.ret < 0

/-- A successful write among the calls has stored the byte in the node. -/
def Covers (calls : List DriverCall) (x : Nat) : Prop :=
  ∃ call ∈ calls, call.op ≠ .read ∧ 0 ≤ call.ret ∧ call.offset ≤ x ∧ x < call.offset + call.bytes

theorem Covers.mono (covers : Covers calls x) (subset : calls ⊆ more) : Covers more x := by
  obtain ⟨call, member, rest⟩ := covers
  exact ⟨call, subset member, rest⟩

/-- A write whose calls, if it succeeds, reach every byte of it. -/
structure Stores (driver : Driver) (mayRefuse : Prop) (unit offset : Nat) (values : List UInt8)
    (new : List DriverCall)
    (s later : IoState) (ret : Int) :
    Prop extends Writes driver mayRefuse unit offset values new s later ret where
  covers : ret = 0 → ∀ x, offset ≤ x → x < offset + values.length → Covers new x

section

variable {mayRefuse : Prop} {unit offset : Nat} {values values' : List UInt8}
  {new new' : List DriverCall} {middle later : IoState} {ret : Int}

theorem Stores.nothing (unit offset : Nat) (s : IoState) :
    Stores driver mayRefuse unit offset [] [] s s 0 :=
  ⟨⟨le_rfl, fun _ _ => rfl, by simp, by simp, le_rfl, ⟨0, (overwrite_nil _ _).symm, fun _ => rfl⟩,
    by simp⟩, fun _ x above below => absurd below (by simpa using above)⟩

theorem Stores.refused (offset : Nat) (values : List UInt8) (s : IoState) (failed : ret < 0)
    (refuses : mayRefuse) : Stores driver mayRefuse unit offset values [] s s ret :=
  ⟨⟨le_rfl, fun _ _ => rfl, by simp, by simp, failed.le,
    ⟨0, (overwrite_nil _ _).symm, fun done => absurd done failed.ne⟩, fun _ => .inl refuses⟩,
    fun done => absurd done failed.ne⟩

theorem Stores.data (writes : Stores driver mayRefuse unit offset values new s later 0) :
    later.image = overwrite s.image offset values := by
  obtain ⟨k, image, whole⟩ := writes.stored
  rw [image, whole rfl, take_length]

theorem Stores.append (first : Stores driver mayRefuse unit offset values new s middle 0)
    (second : Stores driver mayRefuse unit (offset + values.length) values' new' middle later ret) :
    Stores driver mayRefuse unit offset (values ++ values') (new ++ new') s later ret := by
  refine ⟨⟨first.grows.trans second.grows, fun p other => (second.mem p other).trans (first.mem p other),
    by rw [second.calls, first.calls, append_assoc], ?_, second.nonpos, ?_, fun failed => ?_⟩,
    fun done x above below => ?_⟩
  · intro call member
    exact (mem_append.mp member).elim (first.aligned call) (second.aligned call)
  · obtain ⟨k, image, whole⟩ := second.stored
    refine ⟨values.length + k, ?_, fun done => by rw [whole done, length_append]⟩
    rw [image, first.data, take_length_add_append, overwrite_append]
  · rcases second.failure failed with refuses | ⟨call, member, negative⟩
    · exact .inl refuses
    · exact .inr ⟨call, mem_append_right new member, negative⟩
  · rw [length_append] at below
    by_cases early : x < offset + values.length
    · exact (first.covers rfl x above early).mono (subset_append_left _ _)
    · exact (second.covers done x (by omega) (by omega)).mono (subset_append_right _ _)

theorem Stores.failed (more : List UInt8)
    (writes : Stores driver mayRefuse unit offset values new s later ret)
    (failed : ret ≠ 0) : Stores driver mayRefuse unit offset (values ++ more) new s later ret := by
  obtain ⟨k, image, -⟩ := writes.stored
  refine ⟨⟨writes.grows, writes.mem, writes.calls, writes.aligned, writes.nonpos,
    ⟨min k values.length, ?_, fun done => absurd done failed⟩, writes.failure⟩,
    fun done => absurd done failed⟩
  rw [image, take_append_of_le_length (min_le_right _ _), take_eq_take_min]

theorem Stores.imp (writes : Stores driver mayRefuse unit offset values new s later ret)
    (weaker : mayRefuse → mayRefuse') : Stores driver mayRefuse' unit offset values new s later ret :=
  ⟨⟨writes.grows, writes.mem, writes.calls, writes.aligned, writes.nonpos, writes.stored,
    fun failed => (writes.failure failed).imp_left weaker⟩, writes.covers⟩

end

/-- One call of the driver that writes the values. -/
def driverStore (driver : Driver) (op : DriverOp) (offset : Nat) (values : List UInt8)
    (s : IoState) : IoState × Int :=
  let ret := driverRet driver op s
  let s := s.record ⟨op, offset, values.length, ret⟩
  if ret < 0 then (s, ret)
  else ({ s with image := overwrite s.image offset values }, 0)

/-- A length that divides the lengths of all transfers. -/
structure Node.Grain (node : Node) (unit : Nat) : Prop where
  align : unit ∣ node.align
  fallback : unit ∣ node.maxZeroTransfer

variable {unit offset bytes : Nat}

theorem driverStore_writes (driver : Driver) (write : op ≠ .read) (s : IoState)
    (offsetAligned : unit ∣ offset) (size : values.length = bytes) (bytesAligned : unit ∣ bytes) :
    ∃ later ret, driverStore driver op offset values s = (later, ret) ∧
      Stores driver False unit offset values [⟨op, offset, bytes, ret⟩] s later ret ∧
      (ret < 0 → later.image = s.image) := by
  subst size
  have nonpos : driverRet driver op s ≤ 0 := min_le_right _ _
  have aligned : ∀ call ∈ [DriverCall.mk op offset values.length (driverRet driver op s)],
      call.op ≠ .read ∧ call.Served driver unit := by
    intro call member
    obtain rfl := mem_singleton.mp member
    exact ⟨write, ⟨offsetAligned, bytesAligned⟩, _, rfl⟩
  unfold driverStore
  generalize driverRet driver op s = ret at *
  dsimp only
  split
  next failed =>
    exact ⟨_, _, rfl, ⟨⟨le_rfl, fun _ _ => rfl, rfl, aligned, nonpos,
      ⟨0, (overwrite_nil _ _).symm, fun done => absurd done failed.ne⟩,
      fun _ => .inr ⟨_, mem_singleton_self _, failed⟩⟩, fun done => absurd done failed.ne⟩, fun _ => rfl⟩
  · obtain rfl : ret = 0 := by omega
    exact ⟨_, _, rfl, ⟨⟨le_rfl, fun _ _ => rfl, rfl, aligned, le_rfl,
      ⟨_, by rw [take_length]; rfl, fun _ => rfl⟩, by simp⟩,
      fun _ x above below => ⟨_, mem_singleton_self _, write, le_rfl, above, below⟩⟩, by simp⟩

theorem bdrvDriverPwritev_writes (node : Node) (driver : Driver) (s : IoState) {qiovOffset : Nat}
    (nonempty : ∀ v ∈ qiov, 0 < v.len) (fits : qiovOffset + bytes ≤ iovSize qiov)
    (range : offset + bytes ≤ bdrvMaxLength) (offsetAligned : unit ∣ offset)
    (bytesAligned : unit ∣ bytes) :
    ∃ later ret, bdrvDriverPwritev node driver offset bytes qiov qiovOffset s = .ok (later, ret) ∧
    Stores driver False unit
      offset ((window qiov qiovOffset bytes).map s.mem) [⟨.write, offset, bytes, ret⟩] s later ret := by
  have size : ((window qiov qiovOffset bytes).map s.mem).length = bytes := by
    rw [length_map, window_length fits]
  obtain ⟨later, ret, ran, writes, -⟩ :=
    driverStore_writes driver (by simp : DriverOp.write ≠ .read) s offsetAligned size bytesAligned
  refine ⟨later, ret, ?_, writes⟩
  rw [← ran, driverStore, size, bdrvDriverPwritev, if_neg (not_bdrvCheckQiovRequest_neg range fits),
    driverWindow_eq nonempty fits]
  simp only [bind]
  split <;> rfl

theorem zeroRequest_writes (driver : Driver) (noFallback : Bool) (s : IoState) (grain : node.Grain unit)
    (offsetAligned : unit ∣ offset) (numAligned : unit ∣ num) (range : offset + num ≤ bdrvMaxLength)
    (pos : 0 < num) :
    ∃ later ret covered new, zeroRequest node driver noFallback offset num s =
      .ok (later, ret, covered) ∧ 0 < covered ∧ covered ≤ num ∧ unit ∣ covered ∧
      Stores driver (noFallback = true) unit offset (replicate covered 0) new s later ret := by
  have attempt : ∃ middle ret new,
      (if node.pwriteZeroes then driverPwriteZeroes driver offset num s else (s, -enotsup)) =
      (middle, ret) ∧
      Stores driver (ret = -enotsup) unit offset (replicate num 0) new s middle ret ∧
      (ret < 0 → middle.image = s.image) := by
    split
    · obtain ⟨middle, ret, ran, writes, unchanged⟩ := driverStore_writes driver
        (by simp : DriverOp.zero ≠ .read) s offsetAligned length_replicate numAligned
      rw [driverStore, length_replicate] at ran
      exact ⟨middle, ret, _, ran, writes.imp False.elim, unchanged⟩
    · exact ⟨s, -enotsup, [], rfl, .refused offset _ s (by decide) rfl, fun _ => rfl⟩
  obtain ⟨middle, ret, new, ran, writes, unchanged⟩ := attempt
  unfold zeroRequest
  rw [ran]
  dsimp only
  split
  next refused =>
    obtain ⟨rfl, -⟩ := refused
    have large := node.maxZeroTransfer_pos
    have coveredAligned : unit ∣ min num node.maxZeroTransfer := dvd_min numAligned grain.fallback
    have coveredPos : 0 < min num node.maxZeroTransfer := by omega
    have coveredLe : min num node.maxZeroTransfer ≤ num := min_le_left _ _
    generalize min num node.maxZeroTransfer = covered at *
    let zeroed : IoState := {
      middle with mem := scatter middle.mem (zeroBuf covered).locs (replicate covered 0) }
    have first : Stores driver False unit offset [] new s zeroed 0 := by
      refine ⟨⟨writes.grows, fun p other => ?_, writes.calls, writes.aligned, le_rfl,
        ⟨0, ?_, fun _ => rfl⟩, by simp⟩, fun _ x above below => absurd below (by simpa using above)⟩
      · rw [← writes.mem p other]
        refine scatter_of_not_mem fun member => other ?_
        obtain ⟨k, -, rfl⟩ := mem_map.mp member
        rfl
      · rw [take_nil, overwrite_nil, ← unchanged (by decide)]
    have nonempty : ∀ v ∈ [zeroBuf covered], 0 < v.len := by simpa [zeroBuf] using coveredPos
    have fits : 0 + covered ≤ iovSize [zeroBuf covered] := by simp [zeroBuf]
    have whole : window [zeroBuf covered] 0 covered = (zeroBuf covered).locs :=
      window_singleton (zeroBuf covered)
    obtain ⟨later, ret', ran', second⟩ := bdrvDriverPwritev_writes node driver zeroed nonempty fits
      (by omega : offset + covered ≤ bdrvMaxLength) offsetAligned coveredAligned
    rw [whole, map_scatter (zeroBuf covered).locs_nodup (by simp [zeroBuf])] at second
    rw [ran']
    exact ⟨later, ret', covered, _, rfl, coveredPos, coveredLe, coveredAligned,
      (first.append second).imp False.elim⟩
  next taken =>
    refine ⟨middle, ret, num, new, rfl, pos, le_rfl, numAligned, writes.imp fun refused => ?_⟩
    simpa [refused] using taken

variable {tail head : Nat}

theorem Node.zeroChunk_bounds (headSmall : head < node.zeroAlignment)
    (tailSmall : tail < node.zeroAlignment) (pos : 0 < bytes) :
    0 < (node.zeroChunk tail head bytes).1 ∧ (node.zeroChunk tail head bytes).1 ≤ bytes ∧
      (node.zeroChunk tail head bytes).2 < node.zeroAlignment ∧
      (head ≠ 0 → (node.zeroChunk tail head bytes).1 < node.maxWriteZeroes) := by
  have large := node.maxZeroTransfer_pos
  have room := node.zeroAlignment_le_maxWriteZeroes
  unfold Node.zeroChunk
  split
  · exact ⟨by dsimp only; omega, by dsimp only; omega, mod_lt _ node.zeroAlignment_pos,
      fun _ => by dsimp only; omega⟩
  split
  next zero reach => exact ⟨by omega, by omega, node.zeroAlignment_pos, fun nonzero => absurd nonzero zero⟩
  next zero _ => exact ⟨pos, le_rfl, node.zeroAlignment_pos, fun nonzero => absurd nonzero zero⟩

theorem Node.zeroChunk_dvd (grain : node.Grain unit) (tailAligned : unit ∣ tail)
    (headAligned : unit ∣ head) (bytesAligned : unit ∣ bytes) :
    unit ∣ (node.zeroChunk tail head bytes).1 ∧ unit ∣ (node.zeroChunk tail head bytes).2 := by
  have zeroAligned : unit ∣ node.zeroAlignment := grain.align.trans node.align_dvd_zeroAlignment
  unfold Node.zeroChunk
  split
  · have numAligned : unit ∣ min (min bytes node.maxZeroTransfer) (node.zeroAlignment - head) :=
      dvd_min (dvd_min bytesAligned grain.fallback) (dvd_sub zeroAligned headAligned)
    exact ⟨numAligned, (dvd_mod_iff zeroAligned).mpr (dvd_add headAligned numAligned)⟩
  split
  · exact ⟨dvd_sub bytesAligned tailAligned, dvd_zero unit⟩
  · exact ⟨bytesAligned, dvd_zero unit⟩

theorem zeroFragments_writes (driver : Driver) (noFallback : Bool) {fuel : Nat}
    (grain : node.Grain unit) (tailAligned : unit ∣ tail) (tailSmall : tail < node.zeroAlignment)
    (headAligned : unit ∣ head) (headSmall : head < node.zeroAlignment)
    (offsetAligned : unit ∣ offset) (bytesAligned : unit ∣ bytes)
    (range : offset + bytes ≤ bdrvMaxLength) (enough : bytes ≤ fuel) :
    ∃ later ret new, zeroFragments node driver noFallback tail fuel head offset bytes s =
    .ok (later, ret) ∧
      Stores driver (noFallback = true) unit offset (replicate bytes 0) new s later ret := by
  induction fuel generalizing head offset bytes s with
  | zero =>
    obtain rfl : bytes = 0 := by omega
    exact ⟨s, 0, [], by simp [zeroFragments], Stores.nothing unit offset s⟩
  | succ fuel ih => ?_
  by_cases empty : bytes = 0
  · subst empty
    exact ⟨s, 0, [], by simp [zeroFragments], Stores.nothing unit offset s⟩
  rw [zeroFragments]
  obtain ⟨pos, le, newHeadSmall, below⟩ := Node.zeroChunk_bounds headSmall tailSmall (by omega : 0 < bytes)
  obtain ⟨chunkAligned, newHeadAligned⟩ := Node.zeroChunk_dvd grain tailAligned headAligned bytesAligned
  generalize node.zeroChunk tail head bytes = chunk at *
  obtain ⟨num, newHead⟩ := chunk
  dsimp only at *
  rw [if_neg (by omega)]
  have maxPos := node.zeroAlignment_pos.trans_le node.zeroAlignment_le_maxWriteZeroes
  obtain ⟨middle, ret, covered, new, ran, coveredPos, coveredLe, coveredAligned, first⟩ :=
    zeroRequest_writes driver noFallback s grain offsetAligned
      (dvd_min chunkAligned (grain.align.trans node.align_dvd_maxWriteZeroes))
      (by omega : offset + min num node.maxWriteZeroes ≤ bdrvMaxLength) (by omega)
  rw [ran, show bytes = covered + (bytes - covered) by omega, replicate_add]
  simp only [bind, Except.bind]
  split
  next failed => exact ⟨_, _, _, rfl, first.failed _ failed⟩
  next done =>
    obtain rfl : ret = 0 := by simpa using done
    obtain ⟨later, ret', new', ran', second⟩ := ih (s := middle) newHeadAligned newHeadSmall
      (dvd_add offsetAligned coveredAligned) (dvd_sub bytesAligned coveredAligned) (by omega)
      (by omega)
    refine ⟨later, ret', new ++ new', ?_, first.append (by rwa [length_replicate])⟩
    rwa [Nat.add_sub_cancel_left]
  · exact empty

theorem bdrvCoDoPwriteZeroes_eq (driver : Driver) (noFallback : Bool) (s : IoState)
    (range : offset + bytes ≤ bdrvMaxLength) :
    bdrvCoDoPwriteZeroes node driver noFallback offset bytes s = if noFallback ∧
    !node.zeroNoFallback then .ok (s, -enotsup)
      else zeroFragments node driver noFallback ((offset + bytes) % node.zeroAlignment) bytes
        (offset % node.zeroAlignment) offset bytes s := by
  have whole : node.zeroAlignment % node.align = 0 := mod_eq_zero_of_dvd node.align_dvd_zeroAlignment
  have room : node.align ≤ node.maxWriteZeroes :=
    (le_max_right _ _).trans node.zeroAlignment_le_maxWriteZeroes
  rw [bdrvCoDoPwriteZeroes, bdrvCheckQiovRequest_zero range (by simp), if_neg (by decide),
    if_neg (show ¬ (_ ∨ _) by omega)]

theorem bdrvCoDoPwriteZeroes_writes (driver : Driver) {unit offset bytes : Nat} {noFallback : Bool}
    (grain : node.Grain unit) (offsetAligned : unit ∣ offset) (bytesAligned : unit ∣ bytes)
    (range : offset + bytes ≤ bdrvMaxLength) :
    ∃ later ret new, bdrvCoDoPwriteZeroes node driver noFallback offset bytes s = .ok (later, ret) ∧
      Stores driver (noFallback = true) unit offset (replicate bytes 0) new s later ret := by
  have zeroAligned : unit ∣ node.zeroAlignment := grain.align.trans node.align_dvd_zeroAlignment
  rw [bdrvCoDoPwriteZeroes_eq driver noFallback s range]
  split
  next refused => exact ⟨s, -enotsup, [], rfl, .refused offset _ s (by decide) refused.1⟩
  · exact zeroFragments_writes driver noFallback grain
      ((dvd_mod_iff zeroAligned).mpr (dvd_add offsetAligned bytesAligned))
      (mod_lt _ node.zeroAlignment_pos) ((dvd_mod_iff zeroAligned).mpr offsetAligned)
      (mod_lt _ node.zeroAlignment_pos) offsetAligned bytesAligned range le_rfl

variable {qiovOffset : Nat} {new : List DriverCall} {later : IoState} {ret : Int}

theorem Stores.window_map (foreign : Foreign qiov)
    (writes : Stores driver mayRefuse unit offset values new s later ret) :
    (window qiov qiovOffset bytes).map later.mem = (window qiov qiovOffset bytes).map s.mem := by
  refine map_congr_left fun p member => writes.mem p ?_
  obtain ⟨v, inside, same⟩ := window_mem member
  exact same ▸ foreign v inside

theorem writeFragments_writes (driver : Driver) {fuel remaining : Nat}
    (nonempty : ∀ v ∈ qiov, 0 < v.len) (foreign : Foreign qiov) (fits : qiovOffset + bytes ≤ iovSize qiov)
    (range : offset + bytes ≤ bdrvMaxLength) (unitAligned : unit ∣ node.align)
    (offsetAligned : unit ∣ offset)
    (bytesAligned : unit ∣ bytes) (left : remaining ≤ bytes) (leftAligned : unit ∣ remaining)
    (enough : remaining ≤ fuel) :
    ∃ later ret new, writeFragments node driver offset bytes qiov qiovOffset fuel remaining s =
      .ok (later, ret) ∧ Stores driver False unit (offset + (bytes - remaining))
        ((window qiov (qiovOffset + (bytes - remaining)) remaining).map s.mem) new s later ret := by
  induction fuel generalizing remaining s with
  | zero =>
    obtain rfl : remaining = 0 := by omega
    exact ⟨s, 0, [], by simp [writeFragments], by simpa [window] using Stores.nothing _ _ s⟩
  | succ fuel ih => ?_
  by_cases empty : remaining = 0
  · subst empty
    exact ⟨s, 0, [], by simp [writeFragments], by simpa [window] using Stores.nothing _ _ s⟩
  rw [writeFragments]
  have maxPos := node.maxTransfer_pos
  have numAligned : unit ∣ min remaining node.maxTransfer :=
    dvd_min leftAligned (unitAligned.trans node.align_dvd_maxTransfer)
  have numLe : min remaining node.maxTransfer ≤ remaining := min_le_left _ _
  have numPos : 0 < min remaining node.maxTransfer := by omega
  generalize min remaining node.maxTransfer = num at *
  rw [if_neg (by omega)]
  obtain ⟨middle, ret, ran, first⟩ := bdrvDriverPwritev_writes node driver s nonempty
    (by omega : qiovOffset + (bytes - remaining) + num ≤ iovSize qiov)
    (by omega : offset + (bytes - remaining) + num ≤ bdrvMaxLength)
    (dvd_add offsetAligned (dvd_sub bytesAligned leftAligned)) numAligned
  rw [ran]
  simp only [bind, Except.bind]
  split
  next failed =>
    have part := first.failed
      ((window qiov (qiovOffset + (bytes - remaining) + num) (remaining - num)).map s.mem) failed.ne
    rw [← map_append, ← window_add, Nat.add_sub_cancel' numLe] at part
    exact ⟨_, _, _, rfl, part⟩
  · obtain rfl : ret = 0 := le_antisymm first.nonpos (by omega)
    have next : bytes - (remaining - num) = bytes - remaining + num := by omega
    obtain ⟨later, ret', new', ran', second⟩ := ih (s := middle) (by omega)
      (dvd_sub leftAligned numAligned) (by omega)
    rw [next, ← add_assoc, ← add_assoc, first.window_map foreign] at second
    have size : ((window qiov (qiovOffset + (bytes - remaining)) num).map s.mem).length = num := by
      rw [length_map, window_length (by omega)]
    have whole := first.append (by rwa [size])
    rw [← map_append, ← window_add, Nat.add_sub_cancel' numLe] at whole
    exact ⟨later, ret', _, ran', whole⟩
  · exact empty

def Payload.values (bytes : Nat) (mem : Place → UInt8) : Payload → List UInt8
  | .data qiov qiovOffset => (window qiov qiovOffset bytes).map mem
  | .zeroes _ => replicate bytes 0

def Payload.noFallback : Payload → Bool
  | .data _ _ => false
  | .zeroes noFallback => noFallback

/-- A vector, if there is one, that holds the bytes. -/
structure Payload.Holds (payload : Payload) (bytes : Nat) : Prop where
  nonempty : ∀ qiov, payload.vector = some qiov → ∀ v ∈ qiov, 0 < v.len
  foreign : ∀ qiov, payload.vector = some qiov → Foreign qiov
  fits : ∀ qiov, payload.vector = some qiov → payload.vectorOffset + bytes ≤ iovSize qiov

theorem Payload.holds_data (nonempty : ∀ v ∈ qiov, 0 < v.len) (foreign : Foreign qiov)
    (fits : qiovOffset + bytes ≤ iovSize qiov) : (Payload.data qiov qiovOffset).Holds bytes := by
  constructor <;> rintro _ ⟨⟩
  · exact nonempty
  · exact foreign
  · exact fits

theorem Payload.holds_zeroes (noFallback : Bool) (bytes : Nat) :
    (Payload.zeroes noFallback).Holds bytes := by
  constructor <;> rintro _ ⟨⟩

variable {payload : Payload}

theorem forwardWrite_writes (driver : Driver)
    (holds : payload.Holds bytes) (range : offset + bytes ≤ bdrvMaxLength) (grain : node.Grain unit)
    (offsetAligned : unit ∣ offset) (bytesAligned : unit ∣ bytes) :
    ∃ later ret new, forwardWrite node driver offset bytes payload s = .ok (later, ret) ∧
      Stores driver (payload.noFallback = true) unit offset (payload.values bytes s.mem) new s later
      ret := by
  cases payload with
  | zeroes noFallback =>
    exact bdrvCoDoPwriteZeroes_writes driver grain offsetAligned bytesAligned range
  | data qiov qiovOffset => ?_
  have nonempty := holds.nonempty qiov rfl
  have fits : qiovOffset + bytes ≤ iovSize qiov := holds.fits qiov rfl
  rw [forwardWrite]
  split
  next detected =>
    simp only [Bool.and_eq_true, qemuIovecIsZero, locs_pieces, all_eq_true] at detected
    obtain ⟨-, isZero⟩ := detected
    have zeroes : (window qiov qiovOffset bytes).map s.mem = replicate bytes 0 := by
      refine eq_replicate_iff.mpr ⟨by rw [length_map, window_length fits], ?_⟩
      intro b member
      obtain ⟨p, inside, rfl⟩ := mem_map.mp member
      exact of_decide_eq_true (isZero p inside)
    obtain ⟨later, ret, new, ran, writes⟩ :=
      bdrvCoDoPwriteZeroes_writes (s := s) driver grain offsetAligned bytesAligned range
    refine ⟨later, ret, new, ran, ?_⟩
    rw [Payload.values, zeroes]
    exact writes.imp nofun
  split
  · obtain ⟨later, ret, ran, writes⟩ :=
      bdrvDriverPwritev_writes node driver s nonempty fits range offsetAligned bytesAligned
    exact ⟨later, ret, _, ran, writes.imp False.elim⟩
  obtain ⟨later, ret, new, ran, writes⟩ := writeFragments_writes (s := s) driver nonempty
    (holds.foreign qiov rfl) fits range grain.align offsetAligned bytesAligned le_rfl bytesAligned le_rfl
  refine ⟨later, ret, new, ran, ?_⟩
  rw [Nat.sub_self] at writes
  exact writes.imp False.elim

theorem writeReqFinish_of_neg (failed : ret < 0) : writeReqFinish offset bytes ret s = s :=
  if_neg (by omega)

theorem Stores.finish (start length : Nat)
    (writes : Stores driver mayRefuse unit offset values new s later ret) :
    Stores driver mayRefuse unit offset values new s (writeReqFinish start length ret later) ret := by
  unfold writeReqFinish
  dsimp only
  split
  next longer =>
    exact ⟨⟨writes.grows.trans longer.2.le, writes.mem, writes.calls, writes.aligned, writes.nonpos,
      writes.stored, writes.failure⟩, writes.covers⟩
  · exact writes

/-- The node may be written at this range: it is inside the image, or the image may grow. -/
def IoState.Permits (s : IoState) (node : Node) (limit : Nat) : Prop := limit ≤ s.length ∨
    node.permResize = true

/-- A request with a result, unless the image would have to grow without the permission for it. -/
def Ends (node : Node) (limit : Nat) (s : IoState) (run : IoResult) (good : IoState → Int → Prop) : Prop :=
  (run = .error .other ∧ ¬ s.Permits node limit) ∨ ∃ later ret, run = .ok (later, ret) ∧ good later ret

theorem IoState.Permits.mono (permits : s.Permits node limit)
    (grows : s.totalSectors ≤ later.totalSectors) (le : limit' ≤ limit) : later.Permits node limit' := by
  refine permits.imp_left fun inside => ?_
  rw [IoState.length] at *
  omega

/-- What a request after others does. -/
theorem Ends.imp (ends : Ends node limit later run good)
    (grows : s.totalSectors ≤ later.totalSectors) (le : limit ≤ limit')
    (weaker : ∀ later ret, good later ret → good' later ret) : Ends node limit' s run good' := by
  rcases ends with ⟨stopped, refused⟩ | ⟨later, ret, ran, holds⟩
  · exact .inl ⟨stopped, fun permits => refused (permits.mono grows le)⟩
  · exact .inr ⟨later, ret, ran, weaker later ret holds⟩

theorem bdrvAlignedPwritev_writes (driver : Driver)
    (holds : payload.Holds bytes) (range : offset + bytes ≤ bdrvMaxLength)
    (offsetAligned : node.align ∣ offset) (bytesAligned : node.align ∣ bytes) (grain : node.Grain unit) :
    Ends node (offset + bytes) s (bdrvAlignedPwritev node driver offset bytes payload s)
    fun later ret => ∃ new,
      Stores driver (payload.noFallback = true ∨ node.readOnly = true) unit offset
      (payload.values bytes s.mem)
        new s later ret ∧ (node.readOnly = true → later = s ∧ ret < 0) := by
  have aligned : node.checkAligned offset bytes = true :=
    Node.checkAligned_iff.mpr ⟨offsetAligned, bytesAligned⟩
  rw [bdrvAlignedPwritev, bdrvCheckQiovRequest_zero range holds.fits, if_neg (by decide),
    if_neg (by simp [aligned])]
  split
  next readOnly =>
    refine .inr ⟨_, _, rfl, [], ?_, fun _ => ⟨writeReqFinish_of_neg (by decide), by decide⟩⟩
    exact .refused offset _ s (by decide) (.inr readOnly)
  rename_i writable
  split
  next missing => exact .inl ⟨rfl, missing⟩
  · obtain ⟨later, ret, new, ran, writes⟩ := forwardWrite_writes (s := s) driver holds range grain
      (grain.align.trans offsetAligned) (grain.align.trans bytesAligned)
    rw [ran]
    exact .inr ⟨_, _, rfl, new, (writes.finish offset bytes).imp .inl,
      fun readOnly => absurd readOnly writable⟩

end Qemu.Block
