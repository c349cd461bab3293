import Qemu.Block.Limits

namespace Qemu.Block

open Transfer List

variable {node : Node} {driver : Driver} {qiov : Qiov} {s : IoState}

/-- A read of `bytes` bytes into `places` by the calls `new`: if none of them fails, the
places hold the image's bytes. A memset of 2^31 bytes or more is reported as a failure. -/
structure Reads (node : Node) (driver : Driver) (offset bytes : Nat) (places : List Place)
    (new : List DriverCall) (s later : IoState) (ret : Int) : Prop where
  image : later.image = s.image
  sectors : later.totalSectors = s.totalSectors
  calls : later.calls = s.calls ++ new
  aligned : ∀ call ∈ new, call.op = .read ∧ call.Served driver node.align
  data : (∀ call ∈ new, 0 ≤ call.ret) → later.mem = scatter s.mem places (slice s.image offset bytes)
  succeeds : (∀ call ∈ new, 0 ≤ call.ret) → bytes < 2 ^ 31 → ret = 0
  blank : (∀ call ∈ new, 0 ≤ call.ret) → bytes = 2 ^ 31 → ret = 0 ∨
    slice s.image offset bytes = replicate bytes 0
  fails : ¬ ret < 0 → ∀ call ∈ new, 0 ≤ call.ret

/-- The calls `new` are reads that the driver answers from its call `start` on: at most `total`
of them, and all of these if none fails. -/
structure Answered (driver : Driver) (start total : Nat) (new : List DriverCall) : Prop where
  rets : new.map DriverCall.ret = (range' start new.length).map fun n => min (driver .read n) 0
  most : new.length ≤ total
  all : (∀ call ∈ new, 0 ≤ call.ret) → new.length = total

theorem Answered.none (driver : Driver) (start : Nat) : Answered driver start 0 [] :=
  ⟨rfl, le_rfl, fun _ => rfl⟩

theorem Answered.failed (answered : Answered driver start total new) (failure : ∃ call ∈ new, call.ret < 0)
    (more : total ≤ total') : Answered driver start total' new := by
  refine ⟨answered.rets, answered.most.trans more, fun passed => ?_⟩
  obtain ⟨call, member, negative⟩ := failure
  have := passed call member
  omega

theorem Answered.append (first : Answered driver start total new)
    (passed : ∀ call ∈ new, 0 ≤ call.ret) (second : Answered driver (start + total) total' new') :
    Answered driver start (total + total') (new ++ new') := by
  have size := first.all passed
  refine ⟨?_, by simpa [size] using second.most, fun all => ?_⟩
  · rw [map_append, first.rets, second.rets, ← map_append, ← size, range'_append_1, length_append]
  · rw [length_append, size, second.all (forall_mem_append.mp all).2]

/-- No read fails exactly if the driver has no failure among its answers for all of them. -/
theorem Answered.passed_iff (answered : Answered driver start total new) :
    (∀ call ∈ new, 0 ≤ call.ret) ↔ ∀ k < total, 0 ≤ driver .read (start + k) := by
  have rets : (∀ call ∈ new, 0 ≤ call.ret) ↔ ∀ n ∈ range' start new.length, 0 ≤ driver .read n := by
    rw [← forall_mem_map (f := DriverCall.ret) (P := (0 ≤ ·)), answered.rets, forall_mem_map]
    simp only [le_min_iff, le_refl, and_true]
  constructor
  · intro passed k below
    rw [← answered.all passed] at below
    exact rets.mp passed _ (by simp [below])
  · intro readable
    refine rets.mpr fun n member => ?_
    obtain ⟨k, below, rfl⟩ := mem_range'.mp member
    simpa using readable k (below.trans_le answered.most)

theorem Reads.failed {offset bytes more : Nat} {places places' : List Place} {new : List DriverCall}
    {later : IoState} {ret : Int} (reads : Reads node driver offset bytes places new s later ret)
    (failure : ∃ call ∈ new, call.ret < 0) : Reads node driver offset more places' new s later ret := by
  obtain ⟨call, member, negative⟩ := failure
  have absurdity : ¬ ∀ call ∈ new, 0 ≤ call.ret := fun passed => by
    have := passed call member
    omega
  exact ⟨reads.image, reads.sectors, reads.calls, reads.aligned, fun passed => absurd passed absurdity,
    fun passed => absurd passed absurdity, fun passed => absurd passed absurdity, reads.fails⟩

variable {offset : Nat}

theorem Reads.append {a b : Nat} (first : Reads node driver offset a places new s middle ret)
    (second : Reads node driver (offset + a) b places' new' middle later ret')
    (same : places.length = a) (pos : 0 < a) (done : ¬ ret < 0) :
    Reads node driver offset (a + b) (places ++ places') (new ++ new') s later ret' := by
  refine ⟨second.image.trans first.image, second.sectors.trans first.sectors,
    by rw [second.calls, first.calls, append_assoc], ?_, ?_, ?_, ?_,
    fun done' => forall_mem_append.mpr ⟨first.fails done, second.fails done'⟩⟩
  · intro call member
    exact (mem_append.mp member).elim (first.aligned call) (second.aligned call)
  · intro passed
    obtain ⟨passed, passed'⟩ := forall_mem_append.mp passed
    rw [second.data passed', first.data passed, first.image, slice_add,
      scatter_append (by rw [same, slice_length])]
  · intro passed short
    exact second.succeeds (forall_mem_append.mp passed).2 (by omega)
  · intro passed whole
    exact .inl (second.succeeds (forall_mem_append.mp passed).2 (by omega))

variable {bytes qiovOffset : Nat}

theorem bdrvDriverPreadv_reads (node : Node) (driver : Driver) (s : IoState)
    (nonempty : ∀ v ∈ qiov, 0 < v.len)
    (fits : qiovOffset + bytes ≤ iovSize qiov) (range : offset + bytes ≤ bdrvMaxLength)
    (offsetAligned : node.align ∣ offset) (bytesAligned : node.align ∣ bytes) :
    ∃ later ret new, bdrvDriverPreadv node driver offset bytes qiov qiovOffset s = .ok (later, ret) ∧
      Reads node driver offset bytes (window qiov qiovOffset bytes) new s later ret ∧
      Answered driver s.calls.length 1 new ∧ (ret < 0 → ∃ call ∈ new, call.ret < 0) := by
  unfold bdrvDriverPreadv
  rw [if_neg (not_bdrvCheckQiovRequest_neg range fits), driverWindow_eq nonempty fits]
  simp only [bind]
  have aligned : ∀ call ∈ [DriverCall.mk .read offset bytes (driverRet driver .read s)],
      call.op = .read ∧ call.Served driver node.align := by
    intro call member
    obtain rfl := mem_singleton.mp member
    exact ⟨rfl, ⟨offsetAligned, bytesAligned⟩, _, rfl⟩
  have answered : Answered driver s.calls.length 1
    [DriverCall.mk .read offset bytes (driverRet driver .read s)] :=
    ⟨rfl, le_rfl, fun _ => rfl⟩
  split
  next failed =>
    have failure : ∃ call ∈ [DriverCall.mk .read offset bytes (driverRet driver .read s)], call.ret < 0 :=
      ⟨_, mem_singleton_self _, failed⟩
    have absurdity : ¬ ∀ call ∈ [DriverCall.mk .read offset bytes (driverRet driver .read s)],
        0 ≤ call.ret := fun passed => by
      obtain ⟨call, member, negative⟩ := failure
      have := passed call member
      omega
    exact ⟨_, _, _, rfl, ⟨rfl, rfl, rfl, aligned, fun passed => absurd passed absurdity,
      fun passed => absurd passed absurdity, fun passed => absurd passed absurdity,
      fun done => absurd failed done⟩,
      answered,
      fun _ => failure⟩
  next passed =>
    exact ⟨_, _, _, rfl, ⟨rfl, rfl, rfl, aligned, fun _ => rfl, fun _ _ => rfl, fun _ _ => .inl rfl,
      fun _ => by simpa using passed⟩, answered, by simp⟩

/-- The calls for `bytes` bytes. -/
def Node.fragments (node : Node) (bytes : Nat) : Nat := (bytes + node.maxTransfer - 1) / node.maxTransfer

theorem Node.fragments_zero (node : Node) : node.fragments 0 = 0 :=
  Nat.div_eq_of_lt (by have := node.maxTransfer_pos; omega)

theorem Node.fragments_pos (node : Node) (pos : 0 < bytes) :
    node.fragments bytes = 1 + node.fragments (bytes - min bytes node.maxTransfer) := by
  have maxPos := node.maxTransfer_pos
  rw [fragments, fragments, Nat.add_comm 1, ← Nat.add_div_right _ maxPos]
  by_cases short : bytes ≤ node.maxTransfer
  · rw [min_eq_left short, Nat.div_eq_of_lt_le (by omega : 1 * _ ≤ _) (by omega),
      Nat.div_eq_of_lt_le (by omega : 1 * _ ≤ _) (by omega)]
  · rw [min_eq_right (by omega)]
    congr 1
    omega

/-- The calls for an aligned read from an image of `length` bytes; there are none past its end. -/
def Node.readCalls (node : Node) (length offset bytes : Nat) : Nat :=
  node.fragments (min bytes (roundUp (length - offset) node.align))

/-- The image is zero past its end. -/
def IoState.ZeroPastEnd (s : IoState) : Prop := ∀ x, s.length ≤ x → s.image x = 0

theorem slice_zero_past {image : Nat → UInt8} (zero : ∀ x, start ≤ x → image x = 0)
    (n : Nat) : slice image start n = replicate n 0 := by
  refine eq_replicate_iff.mpr ⟨slice_length .., fun b member => ?_⟩
  obtain ⟨k, -, rfl⟩ := mem_map.mp member
  exact zero _ (by omega)

section

variable (driver : Driver) (nonempty : ∀ v ∈ qiov, 0 < v.len)
  (fits : qiovOffset + bytes ≤ iovSize qiov) (range : offset + bytes ≤ bdrvMaxLength)
include nonempty fits range

/-- The loop reads what is left; `maxBytes` more bytes may hold data. -/
theorem readFragments_reads {fuel remaining maxBytes : Nat} (offsetAligned : node.align ∣ offset)
    (bytesAligned : node.align ∣ bytes) (left : remaining ≤ bytes)
    (leftAligned : node.align ∣ remaining) (maxAligned : node.align ∣ maxBytes)
    (zero : ∀ x, offset + (bytes - remaining) + maxBytes ≤ x → s.image x = 0) (enough : remaining ≤ fuel) :
    ∃ later ret new, readFragments node driver offset bytes qiov qiovOffset fuel remaining maxBytes s =
        .ok (later, ret) ∧ Reads node driver (offset + (bytes - remaining)) remaining
        (window qiov (qiovOffset + (bytes - remaining)) remaining) new s later ret ∧
      Answered driver s.calls.length (node.fragments (min remaining maxBytes)) new := by
  induction fuel generalizing remaining maxBytes s with
  | zero =>
    obtain rfl : remaining = 0 := by omega
    exact ⟨s, 0, [], by simp [readFragments], ⟨rfl, rfl, by simp, by simp, fun _ => by simp [window],
      fun _ _ => rfl, fun _ _ => .inl rfl, by simp⟩,
      by simpa [node.fragments_zero] using Answered.none driver _⟩
  | succ fuel ih => ?_
  by_cases empty : remaining = 0
  · subst empty
    exact ⟨s, 0, [], by simp [readFragments], ⟨rfl, rfl, by simp, by simp, fun _ => by simp [window],
      fun _ _ => rfl, fun _ _ => .inl rfl, by simp⟩,
      by simpa [node.fragments_zero] using Answered.none driver _⟩
  rw [readFragments]
  have doneAligned : node.align ∣ bytes - remaining := Nat.dvd_sub bytesAligned leftAligned
  split
  · -- a fragment inside the image
    have maxPos := node.maxTransfer_pos
    have pos : 0 < min remaining (min maxBytes node.maxTransfer) := by omega
    rw [if_neg (by omega)]
    have numAligned : node.align ∣ min remaining (min maxBytes node.maxTransfer) :=
      dvd_min leftAligned (dvd_min maxAligned node.align_dvd_maxTransfer)
    have numLe : min remaining (min maxBytes node.maxTransfer) ≤ remaining := min_le_left _ _
    have count : node.fragments (min remaining maxBytes) = 1 + node.fragments
        (min (remaining - min remaining (min maxBytes node.maxTransfer))
          (maxBytes - min remaining (min maxBytes node.maxTransfer))) := by
      rw [node.fragments_pos (by omega)]
      congr 2
      omega
    generalize min remaining (min maxBytes node.maxTransfer) = num at *
    obtain ⟨middle, ret, new, ran, first, answered, failure⟩ :=
      bdrvDriverPreadv_reads node driver s nonempty
      (by omega : qiovOffset + (bytes - remaining) + num ≤ iovSize qiov)
      (by omega : offset + (bytes - remaining) + num ≤ bdrvMaxLength)
      (Nat.dvd_add offsetAligned doneAligned) numAligned
    rw [ran]
    simp only [bind, Except.bind]
    split
    next failed =>
      exact ⟨_, _, _, rfl, first.failed (failure failed), answered.failed (failure failed) (by omega)⟩
    next passed =>
      have next : bytes - (remaining - num) = bytes - remaining + num := by omega
      obtain ⟨later, ret', new', ran', second, answered'⟩ := ih (s := middle) (by omega)
        (Nat.dvd_sub leftAligned numAligned) (Nat.dvd_sub maxAligned numAligned)
        (fun x past => by rw [first.image]; exact zero x (by omega)) (by omega)
      rw [next, ← Nat.add_assoc, ← Nat.add_assoc] at second
      have whole := first.append second (window_length (by omega)) pos passed
      rw [← window_add, Nat.add_sub_cancel' numLe] at whole
      have size : middle.calls.length = s.calls.length + 1 := by
        rw [first.calls, length_append, answered.all (first.fails passed)]
      exact ⟨later, ret', new ++ new', ran', whole,
        count ▸ answered.append (first.fails passed) (size ▸ answered')⟩
  · -- past the end of the image
    have zeroes : slice s.image (offset + (bytes - remaining)) remaining = replicate remaining 0 :=
      slice_zero_past (fun x after => zero x (by omega)) remaining
    have data : scatter s.mem (locs (pieces qiov (qiovOffset + (bytes - remaining)) remaining))
        (replicate remaining 0) = scatter s.mem (window qiov (qiovOffset + (bytes - remaining)) remaining)
        (slice s.image (offset + (bytes - remaining)) remaining) := by
      rw [locs_pieces, zeroes]
      rfl
    have answered : Answered driver s.calls.length (node.fragments (min remaining maxBytes)) [] := by
      rw [show min remaining maxBytes = 0 by omega, node.fragments_zero]
      exact .none driver _
    split
    next large =>
      refine ⟨_, _, [], rfl, ⟨rfl, rfl, by simp, by simp, fun _ => data, fun _ short => ?_,
        fun _ _ => .inr zeroes, by simp⟩, answered⟩
      rw [toInt32] at large
      omega
    · exact ⟨_, _, [], rfl, ⟨rfl, rfl, by simp, by simp, fun _ => data, fun _ _ => rfl,
        fun _ _ => .inl rfl, by simp⟩, answered⟩
  · exact empty

theorem bdrvAlignedPreadv_reads (offsetAligned : node.align ∣ offset)
    (bytesAligned : node.align ∣ bytes) (zero : s.ZeroPastEnd) :
    ∃ later ret new, bdrvAlignedPreadv node driver offset bytes qiov qiovOffset s = .ok (later, ret) ∧
      Reads node driver offset bytes (window qiov qiovOffset bytes) new s later ret ∧
      (0 < bytes → Answered driver s.calls.length (node.readCalls s.length offset bytes) new) := by
  have aligned : node.checkAligned offset bytes = true :=
    Node.checkAligned_iff.mpr ⟨offsetAligned, bytesAligned⟩
  rw [bdrvAlignedPreadv, if_neg (not_bdrvCheckQiovRequest_neg range fits), if_neg (by simp [aligned])]
  dsimp only
  split
  next short =>
    obtain ⟨later, ret, new, ran, reads, answered, -⟩ :=
      bdrvDriverPreadv_reads node driver s nonempty fits range offsetAligned bytesAligned
    refine ⟨later, ret, new, ran, reads, fun pos => ?_⟩
    rwa [Node.readCalls, min_eq_left short.1, node.fragments_pos pos, min_eq_left short.2,
      Nat.sub_self, node.fragments_zero]
  · have past : ∀ x, offset + (bytes - bytes) + roundUp (s.length - offset) node.align ≤ x →
      s.image x = 0 := by
      intro x after
      have := le_roundUp (s.length - offset) node.align_pos
      exact zero x (by omega)
    obtain ⟨later, ret, new, ran, reads, answered⟩ :=
      readFragments_reads driver nonempty fits range offsetAligned
      bytesAligned le_rfl bytesAligned (roundUp_dvd _ _) past le_rfl
    exact ⟨later, ret, new, ran, by simpa using reads, fun _ => answered⟩

end

end Qemu.Block
