import Qemu.Block.ZeroRequests

namespace Qemu.Block

open Transfer

theorem bdrvPaddingFinalize_read
    (collapsed : (pad.bind Padding.preCollapse).getD [] = pre) (s : IoState) :
    bdrvPaddingFinalize false pad s =
      { s with mem := scatter s.mem (locs pre) ((bounceBuf (iovSize pre)).locs.map s.mem) } := by
  subst collapsed
  unfold bdrvPaddingFinalize
  cases pad.bind Padding.preCollapse with
  | none => rfl
  | some pre => rfl

/-- The window holds the bytes read, and the caller's other places what they held. -/
structure ReadExact (places : List Place) (data : List UInt8) (mem later : Place → UInt8) : Prop where
  data_eq : places.map later = data
  others : ∀ p, p.1 = .user → p ∉ places → later p = mem p

section

/-- A padded read, with the copy from the bounce buffer that ends it. -/
theorem PaddedFor.read_exact
    (paddedFor : PaddedFor node false offset bytes before after bufLen body pre rest s padded req)
    (user : ∀ p ∈ body, p.1 = .user) (nodup : body.Nodup) (size : body.length = bytes)
    (read : mem = scatter s.mem (window req.qiov req.qiovOffset req.bytes)
    (slice image req.offset req.bytes)) :
    ReadExact body (slice image offset bytes) s.mem
      (scatter mem (locs pre) ((bounceBuf (iovSize pre)).locs.map mem)) := by
  have pads : ∀ {start n : Nat} {p : Place}, p.1 ≠ .pad → p ∉ (padBuf start n).locs := fun other member =>
    other (mem_locs.mp member).1
  have bounces : ∀ {n : Nat} {p : Place}, p.1 ≠ .bounce → p ∉ (bounceBuf n).locs := fun other member =>
    other (mem_locs.mp member).1
  have restUser : ∀ p ∈ rest, p.1 = .user := fun p member =>
    user p (paddedFor.split ▸ List.mem_append_right _ member)
  rw [paddedFor.split] at nodup size ⊢
  obtain ⟨preNodup, restNodup, disjoint⟩ := List.nodup_append.mp nodup
  rw [List.length_append, locs_length] at size
  -- the bytes read, as they lie in the padded vector
  have data : slice image req.offset req.bytes = slice image req.offset before ++
      (slice image offset (iovSize pre) ++ slice image (offset + iovSize pre) rest.length) ++
      slice image (offset + bytes) after := by
    rw [paddedFor.bytes_eq, slice_add, slice_add, ← slice_add image offset, size,
      ← Nat.add_assoc, paddedFor.offset_eq]
  rw [paddedFor.places, data, scatter_append (by simp [padBuf, bounceBuf]),
    scatter_append (by simp [padBuf]), scatter_append (by simp [bounceBuf])] at read
  have held : (bounceBuf (iovSize pre)).locs.map mem = slice image offset (iovSize pre) := by
    rw [read, map_scatter_of_disjoint fun p member => pads (by simp [(mem_locs.mp member).1, bounceBuf]),
      map_scatter_of_disjoint fun p member inside => by
        simpa [(mem_locs.mp member).1, bounceBuf] using restUser p inside,
      map_scatter (bounceBuf (iovSize pre)).locs_nodup (by simp [bounceBuf])]
  rw [held]
  refine ⟨?_, fun p isUser absent => ?_⟩
  · have first : (locs pre).map (scatter mem (locs pre) (slice image offset (iovSize pre))) =
        slice image offset (iovSize pre) := map_scatter preNodup (by rw [locs_length, slice_length])
    have second : rest.map (scatter mem (locs pre) (slice image offset (iovSize pre))) =
        slice image (offset + iovSize pre) rest.length := by
      rw [map_scatter_of_disjoint fun p member inside => disjoint p inside p member rfl, read,
        map_scatter_of_disjoint fun p member => pads (by simp [restUser p member]),
        map_scatter restNodup (by rw [slice_length])]
    rw [List.map_append, first, second, ← slice_add, size]
  · obtain ⟨absentPre, absentRest⟩ := not_or.mp (mt List.mem_append.mpr absent)
    rw [scatter_of_not_mem absentPre, read, scatter_of_not_mem (pads (by simp [isUser])),
      scatter_of_not_mem absentRest, scatter_of_not_mem (bounces (by simp [isUser])),
      scatter_of_not_mem (pads (by simp [isUser]))]

end

section

variable (node : Node) (driver : Driver) (s : IoState) (offset bytes : Int)

/-- A read request: its calls, and what it leaves in memory if none of them fails. -/
theorem bdrvCoPreadvPart_spec
    (qiovOffset : Nat) (vector : UserVector qiov) (zero : s.ZeroPastEnd) :
    ∃ later ret new, bdrvCoPreadvPart node driver offset bytes qiov qiovOffset s =
      .ok (later, ret) ∧ later.image = s.image ∧ later.calls = s.calls ++ new ∧
      (∀ call ∈ new, call.op = .read ∧ call.Served driver node.align) ∧
      ((∀ call ∈ new, 0 ≤ call.ret) → 0 ≤ ret → (window qiov qiovOffset bytes.toNat).Nodup →
        ReadExact (window qiov qiovOffset bytes.toNat) (slice s.image offset.toNat bytes.toNat)
        s.mem later.mem) := by
  rw [bdrvCoPreadvPart]
  split
  · exact ⟨s, _, [], rfl, rfl, by simp, by simp, fun _ done => by omega⟩
  rename_i accepted
  split
  next nothing =>
    refine ⟨s, 0, [], rfl, rfl, by simp, by simp, fun _ _ _ => ⟨?_, fun _ _ _ => rfl⟩⟩
    simp [nothing.1, window]
  rename_i something
  obtain ⟨offsetNonneg, bytesNonneg, range, -, fits⟩ := bdrvCheckRequest32_accepts accepted
  obtain ⟨offset, rfl⟩ := Int.eq_ofNat_of_zero_le offsetNonneg
  obtain ⟨bytes, rfl⟩ := Int.eq_ofNat_of_zero_le bytesNonneg
  simp only [Int.toNat_natCast] at something ⊢
  obtain ⟨padded, req, before, after, bufLen, pre, rest, ran, paddedFor⟩ :=
    bdrvPadRequest_spec node false s accepted (by omega) vector.nonempty vector.foreign vector.count
  obtain rfl : padded = s := paddedFor.copied
  obtain ⟨later, ret, new, ran', reads, -⟩ :=
    bdrvAlignedPreadv_reads (s := padded) driver paddedFor.nonempty
    paddedFor.fits paddedFor.range paddedFor.offsetAligned paddedFor.bytesAligned zero
  rw [ran]
  simp only [bind, Except.bind, ran']
  rw [bdrvPaddingFinalize_read paddedFor.collapsed]
  exact ⟨_, ret, new, rfl, reads.image, reads.calls, reads.aligned, fun passed _ nodup =>
    paddedFor.read_exact vector.window_user nodup (window_length (by omega)) (reads.data passed)⟩

theorem bdrvCoPwritevPart_spec
    (vectors : ∀ qiov, payload.vector = some qiov → UserVector qiov) (zero : s.ZeroPastEnd)
    (grain : node.Grain unit) : Ends node (roundUp (offset + bytes).toNat node.align) s
      (bdrvCoPwritevPart node driver offset bytes payload s) fun later ret => ∃ reads writes,
      RequestWrites node driver unit offset.toNat (payload.values bytes.toNat s.mem)
        (paddingReads node s.length offset bytes payload) reads writes s later ret := by
  cases payload with
  | data qiov qiovOffset => exact bdrvCoPwritevPart_data node driver s (vectors qiov rfl) zero grain
  | zeroes noFallback => exact bdrvCoPwritevPart_zeroes node driver s zero grain

end

end Qemu.Block
