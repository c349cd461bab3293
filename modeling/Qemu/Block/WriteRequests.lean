import Qemu.Block.AlignedWrite
import Qemu.Block.PaddedVector

namespace Qemu.Block

open Transfer Int

variable {node : Node} {driver : Driver} {s : IoState}

/-- A request that stores `values` by the calls `writes`, after the calls `reads` for the
padding, of which it needs `total`. Bytes outside the request are safe if these reads succeeded. -/
structure RequestWrites (node : Node) (driver : Driver) (unit offset : Nat) (values : List UInt8)
    (total : Nat) (reads writes : List DriverCall) (s later : IoState) (ret : Int) : Prop where
  calls : later.calls = s.calls ++ reads ++ writes
  readsAligned : ∀ call ∈ reads, call.op = .read ∧ call.Served driver node.align
  answered : Answered driver s.calls.length total reads
  writesAligned : ∀ call ∈ writes, call.op ≠ .read ∧ call.Served driver unit
  nonpos : ret ≤ 0
  stored : (∀ call ∈ reads, 0 ≤ call.ret) → ret = 0 → later.image = overwrite s.image offset values
  frame : (∀ call ∈ reads, 0 ≤ call.ret) → ∀ x, x < offset ∨ offset + values.length ≤ x →
    later.image x = s.image x
  failure : ret < 0 → reads = [] ∨ node.readOnly = true ∨ ∃ call ∈ writes, call.ret < 0
  readOnly : node.readOnly = true → later.image = s.image ∧ (reads ≠ [] → ret < 0)

section

theorem RequestWrites.unchanged (node : Node) (driver : Driver) (unit offset : Nat)
    (values : List UInt8) (s : IoState)
    (nonpos : ret ≤ 0) (empty : ret = 0 → values = []) (none : total = 0) :
    RequestWrites node driver unit offset values total [] [] s s ret :=
  ⟨by simp, by simp, none ▸ .none driver _, by simp, nonpos, fun _ done => by
    rw [empty done, overwrite_nil], fun _ _ _ => rfl,
    fun _ => .inl rfl, fun _ => ⟨rfl, fun some => absurd rfl some⟩⟩

/-- The blocks written hold the values, framed by what the image held around them. -/
theorem RequestWrites.of_framed (before after : Nat)
    (image : middle.image = s.image) (calls : middle.calls = s.calls ++ reads)
    (aligned : ∀ call ∈ reads, call.op = .read ∧ call.Served driver node.align)
    (answered : Answered driver s.calls.length total reads)
    (written : Stores driver mayRefuse unit start blocks writes middle later ret)
    (framed : (∀ call ∈ reads, 0 ≤ call.ret) →
      blocks = slice s.image start before ++ values ++
      slice s.image (start + before + values.length) after)
    (refuses : mayRefuse → reads = [] ∨ node.readOnly = true)
    (readOnly : node.readOnly = true → later = middle ∧ (reads ≠ [] → ret < 0)) :
    RequestWrites node driver unit (start + before) values total reads writes s later ret := by
  refine ⟨by rw [written.calls, calls], aligned, answered, written.aligned, written.nonpos,
    fun passed done => ?_, fun passed x outside => ?_, fun failed => ?_, fun isReadOnly => ?_⟩
  · subst done
    rw [written.data, image, framed passed, overwrite_framed]
  · obtain ⟨k, stored, -⟩ := written.stored
    rw [stored, image]
    rcases overwrite_take s.image start k x blocks with new | old
    · rw [new, framed passed, overwrite_framed]
      exact outside.elim overwrite_of_lt overwrite_of_ge
    · exact old
  · rcases written.failure failed with refused | failing
    · exact (refuses refused).imp_right .inl
    · exact .inr (.inr failing)
  · obtain ⟨rfl, failed⟩ := readOnly isReadOnly
    exact ⟨image, failed⟩

end

theorem alignDown_of_dvd (multiple : align ∣ n) : alignDown n align = n := by
  rw [alignDown_eq, Nat.mod_eq_zero_of_dvd multiple, Nat.sub_zero]

theorem Node.overlap_of_aligned (offsetAligned : node.align ∣ offset)
    (bytesAligned : node.align ∣ bytes) : node.overlap offset bytes = (offset, bytes) := by
  have whole : roundUp (offset + bytes) node.align = offset + bytes + 0 :=
    roundUp_eq node.align_pos (by simpa using Nat.dvd_add offsetAligned bytesAligned)
  rw [Node.overlap, whole, alignDown_of_dvd offsetAligned, Nat.add_zero, Nat.add_sub_cancel_left]

section

theorem rmwForWrite_spec (driver : Driver)
    (paddedFor : PaddedFor node true offset bytes before after bufLen body pre rest s padded req)
    (inside : offset + bytes ≤ bdrvMaxLength) (zero : s.ZeroPastEnd) :
    ∃ later reads, rmwForWrite node driver req padded = .ok later ∧ later.image = s.image ∧
      later.totalSectors = s.totalSectors ∧ later.calls = s.calls ++ reads ∧
      (∀ call ∈ reads, call.op = .read ∧ call.Served driver node.align) ∧
      Answered driver s.calls.length (node.endReads s.length offset bytes) reads ∧
      ((∀ call ∈ reads, 0 ≤ call.ret) →
        (∀ region ≠ .pad, regionBytes later.mem region = regionBytes padded.mem region) ∧
        slice (regionBytes later.mem .pad) 0 before = slice s.image req.offset before ∧
        slice (regionBytes later.mem .pad) (bufLen - after) after = slice s.image
        (offset + bytes) after) := by
  have image : padded.image = s.image := by rw [paddedFor.copied]; rfl
  have sectors : padded.totalSectors = s.totalSectors := by rw [paddedFor.copied]; rfl
  have calls : padded.calls = s.calls := by rw [paddedFor.copied]; rfl
  rcases paddedFor.padding with ⟨none, rfl, rfl⟩ | ⟨pad, some, padding, rfl, rfl, rfl⟩
  · have answered : Answered driver s.calls.length (node.endReads s.length offset bytes) [] := by
      have offsetAligned : node.align ∣ offset := paddedFor.offset_eq ▸ paddedFor.offsetAligned
      have bytesAligned : node.align ∣ bytes := by simpa [paddedFor.bytes_eq] using paddedFor.bytesAligned
      rw [node.endReads_of_aligned offsetAligned bytesAligned]
      exact .none driver _
    exact ⟨padded, [], by simp [rmwForWrite, none], image, sectors, by simp [calls], by simp, answered,
      fun _ => ⟨fun _ _ => rfl, rfl, rfl⟩⟩
  have start : req.offset = offset - pad.head := by
    have := paddedFor.offset_eq
    omega
  have zero' : padded.ZeroPastEnd := by
    intro x past
    rw [IoState.length, sectors] at past
    rw [image]
    exact zero x past
  obtain ⟨later, ret, reads, ran, spec, -⟩ := bdrvPaddingRmwRead_spec padding inside zero' driver false
  refine ⟨later, reads, ?_, spec.image.trans image, spec.sectors.trans sectors, by rw [spec.calls, calls],
    spec.aligned, ?_, fun passed => ⟨spec.others passed, ?_, ?_⟩⟩
  · rw [rmwForWrite, some]
    dsimp only
    rw [Node.overlap_of_aligned paddedFor.offsetAligned paddedFor.bytesAligned, paddedFor.bytes_eq,
      start, ran]
    rfl
  · have answered := spec.answered
    rwa [padding.readCalls_eq, calls, IoState.length, sectors] at answered
  · rw [spec.head passed, image, start]
  · rw [spec.tail passed, image]

theorem PaddedFor.end_eq
    (paddedFor : PaddedFor node write offset bytes before after bufLen body pre rest s padded req) :
    req.offset + req.bytes = roundUp (offset + bytes) node.align := by
  have start := paddedFor.offset_eq
  have size := paddedFor.bytes_eq
  have aligned := Nat.dvd_add paddedFor.offsetAligned paddedFor.bytesAligned
  have small : after < node.align := by
    rcases paddedFor.padding with ⟨-, -, rfl⟩ | ⟨pad, -, padding, -, rfl, -⟩
    · exact node.align_pos
    · exact padding.tail_lt
  have total : req.offset + req.bytes = offset + bytes + after := by omega
  rw [total] at aligned ⊢
  exact (roundUp_eq small aligned).symm

theorem PaddedFor.blocks {later : IoState}
    (paddedFor : PaddedFor node true offset bytes before after bufLen body pre rest s padded req)
    (user : ∀ p ∈ body, p.1 = .user)
    (others : ∀ region ≠ .pad, regionBytes later.mem region = regionBytes padded.mem region) :
    (window req.qiov req.qiovOffset req.bytes).map later.mem =
      slice (regionBytes later.mem .pad) 0 before ++ body.map s.mem ++
        slice (regionBytes later.mem .pad) (bufLen - after) after := by
  have rest_user : ∀ p ∈ rest, p.1 = .user := fun p member =>
    user p (paddedFor.split ▸ List.mem_append_right _ member)
  have bounced : (bounceBuf (iovSize pre)).locs.map later.mem = (locs pre).map s.mem := by
    rw [map_locs, others (bounceBuf (iovSize pre)).region (by simp [bounceBuf]), ← map_locs,
      paddedFor.copied]
    exact map_scatter (bounceBuf (iovSize pre)).locs_nodup (by simp [bounceBuf, locs_length])
  have direct : rest.map later.mem = rest.map s.mem := by
    refine List.map_congr_left fun p member => ?_
    have isUser := rest_user p member
    have same : later.mem p = padded.mem p := congrFun (others p.1 (by simp [isUser])) p.2
    rw [same, paddedFor.copied]
    refine scatter_of_not_mem fun bounce => ?_
    simp [(mem_locs.mp bounce).1, bounceBuf] at isUser
  rw [paddedFor.places, paddedFor.split]
  simp only [List.map_append, bounced, direct, map_locs]
  rfl

end

/-- A vector of the caller, which holds its bytes in memory of its own. -/
structure UserVector (qiov : Qiov) : Prop where
  count : qiov.length ≤ iovMax
  nonempty : ∀ v ∈ qiov, 0 < v.len
  user : ∀ v ∈ qiov, v.region = .user

theorem UserVector.foreign (vector : UserVector qiov) : Foreign qiov :=
  fun v member => by simp [vector.user v member]

theorem UserVector.window_user (vector : UserVector qiov) :
    ∀ p ∈ window qiov qiovOffset bytes, p.1 = .user := by
  intro p member
  obtain ⟨v, inside, same⟩ := window_mem member
  exact same ▸ vector.user v inside

/-- The vector holds the bytes of a data request; zeroes that may be written as data fit always. -/
def Payload.admits (bytes : Int) : Payload → Bool
  | .data qiov qiovOffset => bytes ≤ bdrvRequestMaxBytes ∧ qiovOffset + bytes ≤ iovSize qiov
  | .zeroes noFallback => !noFallback

/-- The driver's calls that read the padding of a request; one that is refused makes none. -/
def paddingReads (node : Node) (length : Nat) (offset bytes : Int) (payload : Payload) : Nat :=
  if 0 ≤ offset ∧ 0 ≤ bytes ∧ offset + bytes ≤ bdrvMaxLength ∧ payload.admits bytes then
    node.endReads length offset.toNat bytes.toNat
  else 0

theorem Node.endReads_zero (node : Node) (length offset : Nat) : node.endReads length offset 0 = 0 := by
  simp [endReads]

theorem paddingReads_refused (refused : bdrvCheckRequest32 offset bytes (some qiov) qiovOffset < 0) :
    paddingReads node length offset bytes (.data qiov qiovOffset) = 0 := by
  refine if_neg ?_
  rintro ⟨offsetNonneg, bytesNonneg, range, fits⟩
  obtain ⟨offset, rfl⟩ := eq_ofNat_of_zero_le offsetNonneg
  obtain ⟨bytes, rfl⟩ := eq_ofNat_of_zero_le bytesNonneg
  simp only [Payload.admits, decide_eq_true_eq] at fits
  rw [bdrvCheckRequest32, bdrvCheckQiovRequest_zero (by omega) (by rintro _ ⟨⟩; omega)] at refused
  split_ifs at refused
  all_goals omega

theorem bdrvCoPwritevPart_data (node : Node) (driver : Driver) (s : IoState)
    (vector : UserVector qiov) (zero : s.ZeroPastEnd)
    (grain : node.Grain unit) : Ends node (roundUp (offset + bytes).toNat node.align) s
      (bdrvCoPwritevPart node driver offset bytes (.data qiov qiovOffset) s) fun later ret =>
      ∃ reads writes,
      RequestWrites node driver unit offset.toNat ((window qiov qiovOffset bytes.toNat).map s.mem)
        (paddingReads node s.length offset bytes (.data qiov qiovOffset)) reads writes s later ret := by
  rw [bdrvCoPwritevPart]
  split
  next rejected =>
    exact .inr ⟨_, _, rfl, [], [], RequestWrites.unchanged _ _ _ _ _ _ rejected.le (fun done => by omega)
      (paddingReads_refused rejected)⟩
  rename_i accepted
  split
  next nothing =>
    refine .inr ⟨_, _, rfl, [], [], RequestWrites.unchanged _ _ _ _ _ _ le_rfl (fun _ => ?_) ?_⟩
    · simp [nothing.1, window]
    · simp [paddingReads, nothing.1, Node.endReads_zero]
  rename_i something
  obtain ⟨offsetNonneg, bytesNonneg, range, short, fits⟩ := bdrvCheckRequest32_accepts accepted
  rw [paddingReads, if_pos ⟨offsetNonneg, bytesNonneg, range, by simp [Payload.admits, short, fits]⟩]
  obtain ⟨offset, rfl⟩ := eq_ofNat_of_zero_le offsetNonneg
  obtain ⟨bytes, rfl⟩ := eq_ofNat_of_zero_le bytesNonneg
  simp only [toNat_natCast] at something ⊢
  have inside : offset + bytes ≤ bdrvMaxLength := by omega
  obtain ⟨padded, req, before, after, bufLen, pre, rest, ran, paddedFor⟩ :=
    bdrvPadRequest_spec node true s accepted (by omega) vector.nonempty vector.foreign vector.count
  obtain ⟨middle, reads, ran', image, sectors, calls, aligned, answered, held⟩ :=
    rmwForWrite_spec driver paddedFor inside zero
  rw [ran]
  simp only [bind, Except.bind, pure, Except.pure, lt_irrefl, if_false, ran']
  have holds := Payload.holds_data paddedFor.nonempty paddedFor.foreign paddedFor.fits
  rcases bdrvAlignedPwritev_writes (s := middle) driver holds paddedFor.range paddedFor.offsetAligned
    paddedFor.bytesAligned grain with ⟨stopped, refused⟩ | ⟨later, ret, ran'', writes, written, readOnly⟩
  · rw [stopped]
    refine .inl ⟨rfl, ?_⟩
    rw [paddedFor.end_eq, IoState.Permits, IoState.length, sectors] at refused
    exact refused
  rw [ran'']
  have finalized : bdrvPaddingFinalize true req.pad later = later := by
    unfold bdrvPaddingFinalize
    split <;> rfl
  refine .inr ⟨later, ret, by dsimp only; rw [finalized], reads, writes, ?_⟩
  have bodySize : ((window qiov qiovOffset bytes).map s.mem).length = bytes := by
    rw [List.length_map, window_length (by omega)]
  rw [← paddedFor.offset_eq] at answered ⊢
  refine RequestWrites.of_framed before after image calls aligned answered written (fun passed => ?_) ?_
    fun isReadOnly => ⟨(readOnly isReadOnly).1, fun _ => (readOnly isReadOnly).2⟩
  · obtain ⟨others, head, tail⟩ := held passed
    rw [Payload.values, paddedFor.blocks vector.window_user others, head, tail, bodySize,
      paddedFor.offset_eq]
  · rintro (refused | isReadOnly)
    · cases refused
    · exact .inr isReadOnly

end Qemu.Block
