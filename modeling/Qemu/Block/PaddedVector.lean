import Qemu.Block.Padding

namespace Qemu.Block

open Transfer List

variable {node : Node} {qiov : Qiov} {s : IoState}

/-- A vector for `body` with its padding. The places of `pre` are reached through the bounce
buffer; a write has copied them there. -/
structure PaddedVector (pad : Padding) (write : Bool) (body : List Place) (pre : Qiov)
    (rest : List Place) (s later : IoState) (vector : Qiov) : Prop where
  nonempty : ∀ v ∈ vector, 0 < v.len
  foreign : Foreign vector
  split : body = locs pre ++ rest
  places : locs vector = (padBuf 0 pad.head).locs ++ ((bounceBuf (iovSize pre)).locs ++ rest) ++
    (padBuf (pad.bufLen - pad.tail) pad.tail).locs
  copied : later = if write then
    { s with mem := scatter s.mem (bounceBuf (iovSize pre)).locs ((locs pre).map s.mem) } else s

/-- The padding at one end, if there is any. -/
theorem locs_optional (start bytes : Nat) :
    locs (if bytes ≠ 0 then [padBuf start bytes] else []) = (padBuf start bytes).locs := by
  split
  · simp
  next none =>
    obtain rfl : bytes = 0 := by simpa using none
    rfl

variable {v : Iovec Region}

theorem mem_optional
    (member : v ∈ if bytes ≠ 0 then [padBuf start bytes] else []) : 0 < v.len ∧ v.region = .pad := by
  split at member
  · obtain rfl := List.mem_singleton.mp member
    exact ⟨by simp [padBuf]; omega, rfl⟩
  · simp at member

theorem foreign_optional : Foreign (if bytes ≠ 0 then [padBuf start bytes] else []) := by
  intro v member
  simp [(mem_optional member).2]

theorem length_optional (start bytes : Nat) :
    (if bytes ≠ 0 then [padBuf start bytes] else []).length = if bytes ≠ 0 then 1 else 0 := by
  split <;> rfl

theorem foreign_pieces (foreign : Foreign iov) : Foreign (pieces iov soffset sbytes) := by
  induction iov generalizing soffset sbytes with
  | nil => simp [pieces, Foreign]
  | cons w rest ih => ?_
  obtain ⟨first, others⟩ := forall_mem_cons.mp foreign
  rw [pieces]
  split
  · simp [Foreign]
  split
  · exact forall_mem_cons.mpr ⟨first, ih others⟩
  · exact ih others

section

variable {pad : Padding} {iov : Qiov} {qiovOffset iovOffset bytes : Nat}
  (isSlice : SliceOf qiov qiovOffset bytes iov iovOffset)
include isSlice

theorem SliceOf.foreign (foreign : Foreign qiov) : Foreign iov :=
  fun v member => foreign v (isSlice.member v member)

variable {count : Nat}

theorem SliceOf.ends_split (short : count < iov.length) :
    iovSize (iov.take count) + iovSize (iov.drop count).dropLast < iovOffset + bytes := by
  have ends := isSlice.ends (ne_nil_of_length_pos (by omega))
  have more : iov.drop count ≠ [] := ne_nil_of_length_pos (by rw [length_drop]; omega)
  rwa [← take_append_drop count iov, dropLast_append_of_ne_nil more, iovSize_append]
    at ends

theorem SliceOf.starts_take (pos : 0 < count) (some : iov ≠ []) :
    iovOffset < iovSize (iov.take count) := by
  obtain ⟨v, rest, rfl⟩ := exists_cons_of_ne_nil some
  obtain ⟨count, rfl⟩ := Nat.exists_eq_succ_of_ne_zero pos.ne'
  have first := isSlice.starts v rest rfl
  rw [take_succ_cons, iovSize_cons]
  omega

section

variable (pos : 0 < count) (short : count < iov.length) (small : bytes ≤ sizeMax)
include pos short small

theorem window_split :
    iovSize (pieces (iov.take count) iovOffset sizeMax) = iovSize (iov.take count) - iovOffset ∧
      window qiov qiovOffset bytes = locs (pieces (iov.take count) iovOffset sizeMax) ++
        (locs (iov.drop count)).take (bytes - (iovSize (iov.take count) - iovOffset)) := by
  have ends := isSlice.ends_split short
  have starts := isSlice.starts_take pos (ne_nil_of_length_pos (by omega))
  have size : ((locs (iov.take count)).drop iovOffset).length = iovSize (iov.take count) - iovOffset := by
    rw [length_drop, locs_length]
  have whole : locs (pieces (iov.take count) iovOffset sizeMax) = (locs (iov.take count)).drop
    iovOffset := by
    rw [locs_pieces, take_of_length_le (by omega)]
  refine ⟨by rw [← locs_length, whole, size], ?_⟩
  rw [whole, window, ← isSlice.window]
  nth_rewrite 1 [← take_append_drop count iov]
  rw [locs_append, drop_append_of_le_length (by rw [locs_length]; omega), take_append, size,
    take_of_length_le (by omega)]

theorem pieces_drop_length :
    (pieces (iov.drop count) 0 (bytes - iovSize (pieces (iov.take count) iovOffset sizeMax))).length =
      iov.length - count := by
  have ends := isSlice.ends_split short
  have starts := isSlice.starts_take pos (ne_nil_of_length_pos (by omega))
  have nonempty : ∀ v ∈ iov.drop count, 0 < v.len := fun v member =>
    isSlice.nonempty v (mem_of_mem_drop member)
  rw [(window_split isSlice pos short small).1, pieces_length, length_drop]
  · intro v rest same
    exact nonempty v (by rw [same]; exact mem_cons_self)
  · exact nonempty
  · intro _
    omega
  · omega

end

theorem bdrvCreatePaddedQiov_spec (write : Bool) (foreign : Foreign qiov) (fresh : pad.preCollapse = none)
    (count : qiov.length ≤ iovMax) (pos : 0 < bytes) (room : pad.head + bytes + pad.tail ≤ sizeMax) :
    ∃ later collapsed vector rest, bdrvCreatePaddedQiov pad write iov iovOffset bytes s =
        .ok (later, 0, { pad with preCollapse := collapsed }, vector) ∧
      PaddedVector pad write (window qiov qiovOffset bytes) (collapsed.getD []) rest s later vector := by
  have le := isSlice.count
  have limit : iovMax = 1024 := rfl
  unfold bdrvCreatePaddedQiov
  rw [if_neg (by omega), if_neg (by omega)]
  dsimp only
  by_cases surplus : (if pad.head ≠ 0 then 1 else 0) + iov.length +
    (if pad.tail ≠ 0 then 1 else 0) > iovMax
  · rw [if_pos surplus]
    have headCount : (if pad.head ≠ 0 then 1 else 0) ≤ 1 := by split <;> omega
    have tailCount : (if pad.tail ≠ 0 then 1 else 0) ≤ 1 := by split <;> omega
    have collapsed : 0 < (if pad.head ≠ 0 then 1 else 0) + iov.length +
        (if pad.tail ≠ 0 then 1 else 0) - iovMax + 1 := by omega
    have short : (if pad.head ≠ 0 then 1 else 0) + iov.length + (if pad.tail ≠ 0 then 1 else 0) -
        iovMax + 1 < iov.length := by omega
    have length := pieces_drop_length isSlice collapsed short (by omega)
    rw [if_neg (by omega), if_neg]
    · obtain ⟨size, split⟩ := window_split isSlice collapsed short (by omega)
      have starts := isSlice.starts_take collapsed (ne_nil_of_length_pos (by omega))
      refine ⟨_, some _, _, _, rfl, ?_, ?_, split, ?_, rfl⟩
      · simp only [collapse, forall_mem_append, forall_mem_singleton, size]
        exact ⟨⟨⟨fun v member => (mem_optional member).1, Nat.sub_pos_of_lt starts⟩, pieces_nonempty⟩,
          fun v member => (mem_optional member).1⟩
      · simp only [Foreign, forall_mem_append, forall_mem_singleton]
        exact ⟨⟨⟨foreign_optional, by simp [bounceBuf]⟩,
          foreign_pieces fun v member => isSlice.foreign foreign v (mem_of_mem_drop member)⟩,
          foreign_optional⟩
      · dsimp only [collapse, Option.getD_some]
        rw [locs_append, locs_append, locs_append, locs_optional, locs_optional, locs_pieces, size,
          drop_zero]
        simp
    · simp only [collapse, length_append, length_optional, length_singleton]
      omega
  · rw [if_neg surplus]
    have length := pieces_length isSlice.starts isSlice.nonempty isSlice.ends pos
    rw [if_neg]
    · refine ⟨s, none, _, _, by rw [← fresh], ?_, ?_, rfl, ?_, ?_⟩
      · simp only [forall_mem_append]
        exact ⟨⟨fun v member => (mem_optional member).1, pieces_nonempty⟩,
          fun v member => (mem_optional member).1⟩
      · simp only [Foreign, forall_mem_append]
        exact ⟨⟨foreign_optional, foreign_pieces (isSlice.foreign foreign)⟩, foreign_optional⟩
      · rw [locs_append, locs_append, locs_optional, locs_optional, locs_pieces, isSlice.window]
        rfl
      · cases write <;> simp [bounceBuf, Iovec.locs]
    · simp only [length_append, length_optional]
      omega

end

/-- The request that is sent on for `bytes` bytes at `offset`: `before` and `after` bytes of
padding around the caller's places. -/
structure PaddedFor (node : Node) (write : Bool) (offset bytes before after bufLen : Nat)
    (body : List Place) (pre : Qiov) (rest : List Place) (s later : IoState) (req : PaddedRequest) :
    Prop where
  offset_eq : req.offset + before = offset
  bytes_eq : req.bytes = before + bytes + after
  offsetAligned : node.align ∣ req.offset
  bytesAligned : node.align ∣ req.bytes
  range : req.offset + req.bytes ≤ bdrvMaxLength
  nonempty : ∀ v ∈ req.qiov, 0 < v.len
  foreign : Foreign req.qiov
  fits : req.qiovOffset + req.bytes ≤ iovSize req.qiov
  split : body = locs pre ++ rest
  places : window req.qiov req.qiovOffset req.bytes =
    (padBuf 0 before).locs ++ ((bounceBuf (iovSize pre)).locs ++ rest) ++
    (padBuf (bufLen - after) after).locs
  copied : later = if write then
    { s with mem := scatter s.mem (bounceBuf (iovSize pre)).locs ((locs pre).map s.mem) } else s
  collapsed : (req.pad.bind Padding.preCollapse).getD [] = pre
  padding : (req.pad = none ∧ before = 0 ∧ after = 0) ∨
    ∃ pad, req.pad = some pad ∧ PaddingOf node offset bytes pad ∧ pad.head = before ∧
      pad.tail = after ∧ pad.bufLen = bufLen

theorem bdrvPadRequest_spec (node : Node) (write : Bool) (s : IoState) {offset bytes qiovOffset : Nat}
    (accepted : ¬ bdrvCheckRequest32 offset bytes (some qiov) qiovOffset < 0)
    (nonzero : bytes ≠ 0 ∨ offset % node.align = 0) (nonempty : ∀ v ∈ qiov, 0 < v.len)
    (foreign : Foreign qiov) (count : qiov.length ≤ iovMax) :
    ∃ later req before after bufLen pre rest,
      bdrvPadRequest node write offset bytes qiov qiovOffset s = .ok (later, 0, req) ∧
      PaddedFor node write offset bytes before after bufLen (window qiov qiovOffset bytes) pre rest
      s later req := by
  obtain ⟨-, -, range, small, fits⟩ := bdrvCheckRequest32_accepts accepted
  have inside : offset + bytes ≤ bdrvMaxLength := by omega
  have fits' : qiovOffset + bytes ≤ iovSize qiov := by omega
  have maxBytes : bdrvRequestMaxBytes ≤ 2 ^ 31 := by decide
  have maxSize : sizeMax = 2 ^ 64 - 1 := rfl
  unfold bdrvPadRequest
  rw [if_neg accepted]
  rcases bdrvInitPadding_spec inside nonzero with ⟨ran, offsetAligned, bytesAligned⟩ |
    ⟨pad, ran, padding, fresh⟩
  · rw [ran]
    refine ⟨s, _, 0, 0, 0, [], _, rfl, rfl, by simp, offsetAligned, bytesAligned, inside, nonempty,
      foreign, fits', rfl, ?_, ?_, rfl, .inl ⟨rfl, rfl, rfl⟩⟩
    · simp [padBuf, bounceBuf, Iovec.locs, window]
    · cases write <;> simp [bounceBuf, Iovec.locs]
  obtain ⟨iov, head, sliced, isSlice⟩ := qemuIovecSlice_spec nonempty fits'
  have headLt := padding.head_lt
  have tailLt := padding.tail_lt
  have alignLe := node.align_le
  obtain ⟨later, collapsed, vector, rest, built, vectorOf⟩ :=
    bdrvCreatePaddedQiov_spec (s := s) isSlice write foreign fresh count padding.pos (by omega)
  have padding' : PaddingOf node offset bytes { pad with preCollapse := collapsed } :=
    ⟨padding.pos, padding.head_eq, padding.tail_lt, padding.aligned, padding.some, padding.bufLen_eq,
      padding.merge_iff⟩
  have headLe := padding.head_le
  have total : bytes + pad.head + pad.tail = pad.head + bytes + pad.tail := by omega
  have bodySize : iovSize (collapsed.getD []) + rest.length = bytes := by
    rw [← locs_length, ← length_append, ← vectorOf.split, window_length fits']
  have size : iovSize vector = bytes + pad.head + pad.tail := by
    rw [← locs_length, vectorOf.places]
    simp only [length_append, Iovec.locs_length, padBuf, bounceBuf]
    omega
  rw [ran]
  simp only [bind, Except.bind, sliced, built]
  refine ⟨later, _, pad.head, pad.tail, pad.bufLen, _, rest, rfl, Nat.sub_add_cancel headLe, total,
    padding.offset_aligned, total ▸ padding.total_aligned, total ▸ padding.range inside, vectorOf.nonempty,
    vectorOf.foreign, ?_, vectorOf.split, ?_, vectorOf.copied, rfl, .inr ⟨_, rfl, padding', rfl, rfl, rfl⟩⟩
  · dsimp only
    omega
  · rw [window, drop_zero, take_of_length_le (by rw [locs_length, size]), vectorOf.places]

end Qemu.Block
