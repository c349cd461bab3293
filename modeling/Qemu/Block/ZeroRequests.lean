import Qemu.Block.WriteRequests

namespace Qemu.Block

open Transfer List Nat RequestWrites Int

variable {node : Node} {driver : Driver} {s : IoState}

variable {later : IoState} {unit offset : Nat}

theorem padBuf_writes (driver : Driver) (start : Nat) {bytes : Nat}
    (range : offset + bytes ≤ bdrvMaxLength)
    (offsetAligned : node.align ∣ offset) (bytesAligned : node.align ∣ bytes) (pos : 0 < bytes)
    (grain : node.Grain unit) :
    Ends node (offset + bytes) s
    (bdrvAlignedPwritev node driver offset bytes (.data [padBuf start bytes] 0) s)
      fun later ret => ∃ new,
        Stores driver (node.readOnly = true) unit offset
        (slice (regionBytes s.mem .pad) start bytes) new s later ret ∧
        (node.readOnly = true → later = s ∧ ret < 0) := by
  have nonempty : ∀ v ∈ [padBuf start bytes], 0 < v.len := by simpa [padBuf] using pos
  have foreign : Foreign [padBuf start bytes] := by simp [Foreign, padBuf]
  have fits : 0 + bytes ≤ iovSize [padBuf start bytes] := by simp [padBuf]
  have whole : window [padBuf start bytes] 0 bytes = (padBuf start bytes).locs :=
    window_singleton (padBuf start bytes)
  refine (bdrvAlignedPwritev_writes driver (Payload.holds_data nonempty foreign fits) range
    offsetAligned bytesAligned grain).imp le_rfl le_rfl ?_
  rintro later ret ⟨new, written, readOnly⟩
  refine ⟨new, ?_, readOnly⟩
  rw [Payload.values, whole, map_locs] at written
  exact written.imp fun refused => refused.resolve_left (by simp [Payload.noFallback])

theorem zeroTail_writes (driver : Driver)
    (block : bytes ≠ 0 → ∃ p, pad = some p ∧ node.align = p.tail + bytes)
    (within : bytes ≠ 0 → offset + node.align ≤ limit) (range : limit ≤ bdrvMaxLength)
    (offsetAligned : node.align ∣ offset) (grain : node.Grain unit) :
    Ends node limit s (zeroTail node driver pad offset bytes s) fun later ret => ∃ new,
      Stores driver (node.readOnly = true) unit offset (if bytes = 0 then [] else
        slice (regionBytes s.mem .pad) ((pad.map fun p => p.tailBuf node.align).getD 0) node.align)
        new s later ret ∧ (node.readOnly = true → later = s ∧ (bytes ≠ 0 → ret < 0)) := by
  unfold zeroTail
  split
  next none =>
    exact .inr ⟨s, 0, rfl, [], Stores.nothing unit offset s, fun _ => ⟨rfl, fun some => absurd none some⟩⟩
  next some =>
    obtain ⟨p, rfl, size⟩ := block some
    rw [if_neg (by simp [mod_eq_zero_of_dvd offsetAligned])]
    dsimp only
    rw [if_neg (by omega)]
    refine (padBuf_writes driver (p.tailBuf node.align) ((within some).trans range) offsetAligned
      dvd_rfl node.align_pos
      grain).imp le_rfl (within some) fun later ret ⟨new, written, readOnly⟩ =>
        ⟨new, written, fun isReadOnly => ?_⟩
    exact ⟨(readOnly isReadOnly).1, fun _ => (readOnly isReadOnly).2⟩

/-- What the middle and the tail of a zero write store. -/
def zeroBlocks (node : Node) (pad : Option Padding) (bytes : Nat) (mem : Place → UInt8) : List UInt8 :=
  replicate (alignDown bytes node.align) 0 ++
    if bytes % node.align = 0 then [] else
      slice (regionBytes mem .pad) ((pad.map fun p => p.tailBuf node.align).getD 0) node.align

theorem alignDown_add_mod (n align : Nat) : alignDown n align + n % align = n := by
  rw [alignDown, mul_comm]
  exact div_add_mod n align

theorem Stores.padBytes (written : Stores driver mayRefuse unit offset values new s later ret) :
    regionBytes later.mem .pad = regionBytes s.mem .pad := by
  funext k
  exact written.mem (.pad, k) (by simp)

section

variable {unit offset bytes limit : Nat} {pad : Option Padding}
  (block : bytes % node.align ≠ 0 → ∃ p, pad = some p ∧ node.align = p.tail + bytes % node.align)
  (within : offset + alignDown bytes node.align + (if bytes % node.align = 0 then 0
  else node.align) ≤ limit)
  (range : limit ≤ bdrvMaxLength) (offsetAligned : node.align ∣ offset) (grain : node.Grain unit)
include block within range offsetAligned grain

theorem zeroTail_after (driver : Driver)
    (first : Stores driver (noFallback = true ∨ node.readOnly = true) unit offset
      (replicate (alignDown bytes node.align) 0) new s middle 0) :
    Ends node limit s (zeroTail node driver pad (offset + alignDown bytes node.align)
    (bytes % node.align) middle)
      fun later ret => ∃ new,
        Stores driver (noFallback = true ∨ node.readOnly = true) unit offset
        (zeroBlocks node pad bytes s.mem) new s
          later ret ∧ (node.readOnly = true → later = middle ∧ (bytes % node.align ≠ 0 → ret < 0)) := by
  have inside : bytes % node.align ≠ 0 → offset + alignDown bytes node.align + node.align ≤ limit := by
    intro some
    rwa [if_neg some] at within
  refine (zeroTail_writes driver block inside range (dvd_add offsetAligned (alignDown_dvd bytes _))
    grain).imp
    first.grows le_rfl fun later ret ⟨new', second, readOnly⟩ => ⟨new ++ new', ?_, readOnly⟩
  rw [first.padBytes] at second
  exact first.append (by rw [length_replicate]; exact second.imp .inr)

theorem zeroMiddleAndTail_writes (driver : Driver) (noFallback : Bool) (s : IoState) :
    Ends node limit s (zeroMiddleAndTail node driver noFallback pad offset bytes s) fun later ret => ∃ new,
      Stores driver (noFallback = true ∨ node.readOnly = true) unit offset
      (zeroBlocks node pad bytes s.mem) new s
        later ret ∧ (node.readOnly = true → later = s ∧ (bytes ≠ 0 → ret < 0)) := by
  have sum := alignDown_add_mod bytes node.align
  have partAligned : node.align ∣ alignDown bytes node.align := alignDown_dvd _ _
  unfold zeroMiddleAndTail
  dsimp only
  rw [if_neg (by simp [mod_eq_zero_of_dvd offsetAligned])]
  split
  · rcases bdrvAlignedPwritev_writes (s := s) driver
      (Payload.holds_zeroes noFallback (alignDown bytes node.align))
      (by omega : offset + alignDown bytes node.align ≤ bdrvMaxLength) offsetAligned partAligned grain with
      ⟨stopped, refused⟩ | ⟨middle, ret, ran, new, first, readOnly⟩
    · rw [stopped]
      exact .inl ⟨rfl, fun permits => refused (permits.mono le_rfl (by omega))⟩
    rw [ran, show bytes - alignDown bytes node.align = bytes % node.align by omega]
    simp only [bind, Except.bind]
    split
    next failed =>
      exact .inr ⟨_, _, rfl, new, first.failed _ failed.ne,
        fun isReadOnly => ⟨(readOnly isReadOnly).1, fun _ => failed⟩⟩
    rename_i passed
    obtain rfl : ret = 0 := le_antisymm first.nonpos (by omega)
    exact (zeroTail_after block within range offsetAligned grain driver first).imp le_rfl le_rfl
      fun later ret ⟨new', written, _⟩ =>
        ⟨new', written, fun isReadOnly => absurd (readOnly isReadOnly).2 passed⟩
  · have whole : bytes % node.align = bytes := mod_eq_of_lt (by omega)
    have none : alignDown bytes node.align = 0 := by omega
    have first : Stores driver (noFallback = true ∨ node.readOnly = true) unit offset
        (replicate (alignDown bytes node.align) 0) [] s s 0 := by
      rw [none]
      exact Stores.nothing unit offset s
    have spec := zeroTail_after block within range offsetAligned grain driver first
    rwa [none, whole] at spec

end

/-- The partial last block, from the padding that ends it. -/
theorem mod_add_eq (aligned : align ∣ n + missing) (small : missing < align) :
    (n % align = 0 ∧ missing = 0) ∨ (n % align ≠ 0 ∧ align = missing + n % align) := by
  have pos : 0 < align := by omega
  have less := mod_lt n pos
  have whole : align ∣ n % align + missing := by
    rw [← div_add_mod n align, add_assoc] at aligned
    exact (Nat.dvd_add_right (Dvd.intro _ rfl)).mp aligned
  obtain ⟨k, sum⟩ := whole
  have bound : k < 2 := by
    by_contra large
    have := mul_le_mul_left align (by omega : 2 ≤ k)
    omega
  interval_cases k
  · exact .inl (by omega)
  · exact .inr (by omega)

/-- The padding buffer of a zero write after the reads: the bytes around the request, and zeroes. -/
structure ZeroPadded (offset bytes : Nat) (pad : Padding) (mem : Place → UInt8)
    (image : Nat → UInt8) : Prop where
  head : slice (regionBytes mem .pad) 0 pad.head = slice image (offset - pad.head) pad.head
  zeroes : slice (regionBytes mem .pad) pad.head (pad.bufLen - pad.head - pad.tail) =
    replicate (pad.bufLen - pad.head - pad.tail) 0
  tail : slice (regionBytes mem .pad) (pad.bufLen - pad.tail) pad.tail = slice image
    (offset + bytes) pad.tail

section

variable {offset bytes : Nat} {pad : Padding} (padding : PaddingOf node offset bytes pad)
include padding

section

variable {mem : Place → UInt8} {image : Nat → UInt8} (buffer : ZeroPadded offset bytes pad mem image)
include buffer

/-- The blocks of the middle and the tail, if the padding buffer holds what it should. -/
theorem zeroBlocks_eq (aligned : node.align ∣ left + pad.tail) (apart : pad.mergeReads ≠ true) :
    zeroBlocks node (some pad) left mem = replicate left 0 ++ slice image (offset + bytes) pad.tail := by
  have sum := alignDown_add_mod left node.align
  have headLt := padding.head_lt
  have tailLt := padding.tail_lt
  have bufLe := padding.align_le_bufLen
  unfold zeroBlocks
  rcases mod_add_eq aligned tailLt with ⟨whole, none⟩ | ⟨partly, size⟩
  · rw [if_pos whole, none, slice_zero, show alignDown left node.align = left by omega]
  have less := mod_lt left node.align_pos
  have headSmall : pad.head ≤ pad.bufLen - node.align := by
    by_cases head : pad.head = 0
    · omega
    · have := padding.bufLen_of_not_merge apart head (by omega)
      omega
  have block : slice (regionBytes mem .pad) (pad.bufLen - node.align) node.align =
      replicate (left % node.align) 0 ++ slice image (offset + bytes) pad.tail := by
    nth_rewrite 2 [show node.align = left % node.align + pad.tail by omega]
    rw [slice_add, slice_replicate buffer.zeroes headSmall (by omega),
      show pad.bufLen - node.align + left % node.align = pad.bufLen - pad.tail by omega, buffer.tail]
  rw [if_neg partly]
  dsimp only [Option.map_some, Option.getD_some, Padding.tailBuf]
  rw [block, ← append_assoc, ← replicate_add, sum]

theorem mergedBlocks_eq (merged : pad.mergeReads = true) :
    slice (regionBytes mem .pad) 0 pad.bufLen = slice image (offset - pad.head) pad.head ++
      replicate bytes 0 ++ slice image (offset + bytes) pad.tail := by
  have total := padding.merge_iff.mp merged
  have zeroes := buffer.zeroes
  have tail := buffer.tail
  rw [show pad.bufLen - pad.head - pad.tail = bytes by omega] at zeroes
  rw [show pad.bufLen - pad.tail = 0 + (pad.head + bytes) by omega] at tail
  rw [← total, slice_add, slice_add, buffer.head, tail, zero_add, zeroes]

theorem headBlock_eq (apart : pad.mergeReads ≠ true) (some : pad.head ≠ 0) :
    slice (regionBytes mem .pad) 0 node.align = slice image (offset - pad.head) pad.head ++
      replicate (node.align - pad.head) 0 := by
  have headLt := padding.head_lt
  have tailLt := padding.tail_lt
  have bufLe := padding.align_le_bufLen
  have bufTwo := padding.bufLen_of_not_merge apart some
  rw [show node.align = pad.head + (node.align - pad.head) by omega, slice_add, buffer.head, zero_add,
    slice_replicate buffer.zeroes le_rfl (by omega), Nat.add_sub_cancel_left]

end

variable {unit : Nat} {noFallback : Bool} {reads writes : List DriverCall} {middle : IoState}
  {readRet : Int}

/-- Every path ends in a write of the blocks the request lies in. -/
theorem PaddingRead.request (fallback : noFallback = false)
    (held : PaddingRead node driver offset bytes pad reads s middle readRet)
    (written : Stores driver (noFallback = true ∨ node.readOnly = true) unit
    (offset - pad.head) blocks writes middle
      later ret) (framed : (∀ call ∈ reads, 0 ≤ call.ret) → blocks = slice s.image
      (offset - pad.head) pad.head ++ replicate bytes 0 ++ slice s.image (offset + bytes) pad.tail)
    (readOnly : node.readOnly = true → later = middle ∧ ret < 0) :
    RequestWrites node driver unit offset (replicate bytes 0)
      (node.endReads s.length offset bytes) reads writes s later ret := by
  have start : offset - pad.head + pad.head = offset := Nat.sub_add_cancel padding.head_le
  have request : RequestWrites node driver unit (offset - pad.head + pad.head) (replicate bytes 0)
      (node.endReads s.length offset bytes) reads writes s later ret :=
    of_framed pad.head pad.tail held.image held.calls held.aligned
      (padding.readCalls_eq ▸ held.answered) written
      (by rwa [start, length_replicate]) (fun refused => refused.imp (by simp [fallback]) id)
      fun isReadOnly => ⟨(readOnly isReadOnly).1, fun _ => (readOnly isReadOnly).2⟩
  rwa [start] at request

section

variable (fallback : noFallback = false) (grain : node.Grain unit)
  (inside : offset + bytes ≤ bdrvMaxLength)
  (held : PaddingRead node driver offset bytes pad reads s middle readRet)
  (buffer : (∀ call ∈ reads, 0 ≤ call.ret) → ZeroPadded offset bytes pad middle.mem s.image)
include fallback grain inside held buffer

theorem zeroMiddleAndTail_request {next : IoState} (apart : pad.mergeReads ≠ true)
    (small : done ≤ bytes) (doneAligned : node.align ∣ offset + done)
    (first : Stores driver (noFallback = true ∨ node.readOnly = true) unit
    (offset - pad.head) blocks new middle next 0)
    (size : blocks.length = pad.head + done)
    (framed : (∀ call ∈ reads, 0 ≤ call.ret) → blocks = slice s.image (offset - pad.head) pad.head ++
      replicate done 0) (some : bytes - done ≠ 0)
    (untouched : node.readOnly = true → next = middle) : Ends node (offset + bytes + pad.tail) s
      (zeroMiddleAndTail node driver noFallback (.some pad) (offset + done) (bytes - done) next)
      fun later ret => ∃ reads writes, RequestWrites node driver unit offset (replicate bytes 0)
        (node.endReads s.length offset bytes) reads writes s later ret := by
  have headLe := padding.head_le
  have leftAligned : node.align ∣ bytes - done + pad.tail := by
    have := dvd_sub padding.aligned doneAligned
    rwa [show offset + bytes + pad.tail - (offset + done) = bytes - done + pad.tail by omega] at this
  have sum := alignDown_add_mod (bytes - done) node.align
  have last := mod_add_eq leftAligned padding.tail_lt
  have range := padding.range inside
  have within : offset + done + alignDown (bytes - done) node.align +
      (if (bytes - done) % node.align = 0 then 0 else node.align) ≤ offset + bytes + pad.tail := by
    rcases last with ⟨whole, -⟩ | ⟨partly, block⟩
    · rw [if_pos whole]
      omega
    · rw [if_neg partly]
      omega
  refine (zeroMiddleAndTail_writes
    (fun partly => ⟨pad, rfl, (last.resolve_left fun whole => partly whole.1).2⟩)
    within (by omega) doneAligned grain driver noFallback next).imp
      (held.sectors.ge.trans first.grows) le_rfl
    fun later ret ⟨new', second, readOnly⟩ => ⟨reads, new ++ new', held.request padding fallback
      (first.append (by rwa [size, show offset - pad.head + (pad.head + done) = offset + done by omega]))
      (fun passed => ?_) fun isReadOnly => ?_⟩
  · have still : ZeroPadded offset bytes pad next.mem s.image := by
      have pads : regionBytes next.mem .pad = regionBytes middle.mem .pad := first.padBytes
      obtain ⟨head, zeroes, tail⟩ := buffer passed
      exact ⟨pads ▸ head, pads ▸ zeroes, pads ▸ tail⟩
    rw [framed passed, zeroBlocks_eq padding still leftAligned apart, append_assoc,
      ← append_assoc (replicate done 0), ← replicate_add, Nat.add_sub_cancel' small, append_assoc]
  · exact ⟨(readOnly isReadOnly).1.trans (untouched isReadOnly), (readOnly isReadOnly).2 some⟩

end

theorem bdrvCoDoZeroPwritev_padded (driver : Driver) (zero : s.ZeroPastEnd)
    (inside : offset + bytes ≤ bdrvMaxLength) (ran : bdrvInitPadding node offset bytes = .ok (some pad))
    (grain : node.Grain unit) (fallback : noFallback = false) :
    Ends node (offset + bytes + pad.tail) s
    (bdrvCoDoZeroPwritev node driver noFallback offset bytes s) fun later ret =>
      ∃ reads writes, RequestWrites node driver unit offset (replicate bytes 0)
        (node.endReads s.length offset bytes) reads writes s later ret := by
  have headLe := padding.head_le
  have range := padding.range inside
  have totalLe := padding.align_le_total
  have totalAligned := padding.total_aligned
  have alignPos := node.align_pos
  have startAligned := padding.offset_aligned
  obtain ⟨middle, readRet, reads, ran', held, zeroes⟩ :=
    bdrvPaddingRmwRead_spec padding inside zero driver true
  have buffer : (∀ call ∈ reads, 0 ≤ call.ret) → ZeroPadded offset bytes pad middle.mem s.image :=
    fun passed => ⟨held.head passed, zeroes passed rfl, held.tail passed⟩
  unfold bdrvCoDoZeroPwritev
  rw [ran]
  simp only [bind, Except.bind, pure, padding.overlap_eq, ran']
  by_cases merged : pad.mergeReads = true
  · -- one block, or two, that hold the whole request
    have total := padding.merge_iff.mp merged
    simp only [merged, or_true, if_true]
    rw [alignDown_eq, ← padding.head_eq]
    rcases padBuf_writes (s := middle) driver 0
      (by omega : offset - pad.head + pad.bufLen ≤ bdrvMaxLength) startAligned
      (total ▸ totalAligned) (by omega) grain with ⟨stopped, refused⟩ |
        ⟨later, ret, ran'', writes, written, readOnly⟩
    · rw [stopped]
      exact .inl ⟨rfl, fun permits => refused (permits.mono held.sectors.ge (by omega))⟩
    · rw [ran'']
      exact .inr ⟨later, ret, rfl, reads, writes, held.request padding fallback (written.imp .inr)
        (fun passed => mergedBlocks_eq padding (buffer passed) merged) readOnly⟩
  have apart : pad.mergeReads = false := by simpa using merged
  have two := padding.two_align_le_total merged
  have headLt := padding.head_lt
  have tailLt := padding.tail_lt
  simp only [apart, Bool.false_eq_true, or_false, if_false]
  split
  · -- the first block, then the others
    rename_i some
    have done : node.align ∣ offset + (node.align - pad.head) := by
      have := dvd_add startAligned (dvd_refl node.align)
      rwa [show offset - pad.head + node.align = offset + (node.align - pad.head) by omega] at this
    rw [alignDown_eq, ← padding.head_eq]
    rcases padBuf_writes (s := middle) driver 0 (by omega : offset - pad.head + node.align ≤ bdrvMaxLength)
      startAligned dvd_rfl alignPos grain with ⟨stopped, refused⟩ |
      ⟨next, ret, ran'', new, first, readOnly⟩
    · rw [stopped]
      exact .inl ⟨rfl, fun permits => refused (permits.mono held.sectors.ge (by omega))⟩
    rw [ran'']
    dsimp only
    have block := fun passed => headBlock_eq padding (buffer passed) merged some
    split
    next failed =>
      have framed : (∀ call ∈ reads, 0 ≤ call.ret) → slice (regionBytes middle.mem .pad) 0 node.align ++
          (replicate (bytes - (node.align - pad.head)) 0 ++ slice s.image (offset + bytes) pad.tail) =
          slice s.image (offset - pad.head) pad.head ++ replicate bytes 0 ++
            slice s.image (offset + bytes) pad.tail := by
        intro passed
        rw [block passed, ← append_assoc, append_assoc (slice s.image _ _), ← replicate_add,
          show node.align - pad.head + (bytes - (node.align - pad.head)) = bytes by omega]
      exact .inr ⟨next, ret, rfl, reads, new,
        held.request padding fallback ((first.imp .inr).failed _ failed.ne) framed readOnly⟩
    · obtain rfl : ret = 0 := le_antisymm first.nonpos (by omega)
      exact zeroMiddleAndTail_request padding fallback grain inside held buffer merged
        (by omega) done (first.imp .inr) (by rw [slice_length]; omega) block (by omega)
        fun isReadOnly => (readOnly isReadOnly).1
  next aligned =>
    have none : pad.head = 0 := by simpa using aligned
    exact zeroMiddleAndTail_request padding fallback grain inside held buffer merged
      (zero_le _) (by simpa [none] using startAligned) (Stores.nothing unit (offset - pad.head) middle)
      (by simp [none]) (fun _ => by simp [none]) (by omega) fun _ => rfl

end

theorem bdrvCoPwritevPart_zeroes (node : Node) (driver : Driver) (s : IoState) {offset bytes : Int}
    (zero : s.ZeroPastEnd) (grain : node.Grain unit) :
    Ends node (roundUp (offset + bytes).toNat node.align) s
      (bdrvCoPwritevPart node driver offset bytes (.zeroes noFallback) s) fun later ret =>
      ∃ reads writes, RequestWrites node driver unit offset.toNat (replicate bytes.toNat 0)
        (paddingReads node s.length offset bytes (.zeroes noFallback)) reads writes s later ret := by
  rw [bdrvCoPwritevPart]
  split
  next rejected =>
    refine .inr ⟨_, _, rfl, [], [], unchanged _ _ _ _ _ _ rejected.le (fun done => by omega) (if_neg ?_)⟩
    rintro ⟨offsetNonneg, bytesNonneg, range, -⟩
    obtain ⟨offset, rfl⟩ := eq_ofNat_of_zero_le offsetNonneg
    obtain ⟨bytes, rfl⟩ := eq_ofNat_of_zero_le bytesNonneg
    rw [bdrvCheckQiovRequest_zero (by omega) (by simp)] at rejected
    exact lt_irrefl _ rejected
  rename_i accepted
  split
  next refuses =>
    exact .inr ⟨_, _, rfl, [], [], unchanged _ _ _ _ _ _ (by decide) (by simp [enotsup])
      (if_neg fun valid => by simp [Payload.admits, refuses.1] at valid)⟩
  rename_i mayFallBack
  split
  next nothing =>
    exact .inr ⟨_, _, rfl, [], [], unchanged _ _ _ _ _ _ le_rfl (fun _ => by simp [nothing.1])
      (by simp [paddingReads, nothing.1, Node.endReads_zero])⟩
  rename_i something
  obtain ⟨offsetNonneg, bytesNonneg, range, -⟩ := bdrvCheckQiovRequest_accepts accepted
  obtain ⟨offset, rfl⟩ := eq_ofNat_of_zero_le offsetNonneg
  obtain ⟨bytes, rfl⟩ := eq_ofNat_of_zero_le bytesNonneg
  rw [show ((offset : Int) + bytes).toNat = offset + bytes by omega]
  simp only [toNat_natCast] at something mayFallBack ⊢
  have inside : offset + bytes ≤ bdrvMaxLength := by omega
  have nonzero : bytes ≠ 0 ∨ offset % node.align = 0 := by omega
  rcases bdrvInitPadding_spec inside nonzero with ⟨ran, offsetAligned, bytesAligned⟩ |
    ⟨pad, ran, padding, -⟩
  · -- whole blocks
    have whole : bytes % node.align = 0 := mod_eq_zero_of_dvd bytesAligned
    have limit : roundUp (offset + bytes) node.align = offset + bytes :=
      roundUp_eq node.align_pos (by simpa using dvd_add offsetAligned bytesAligned)
    have blocks : zeroBlocks node none bytes s.mem = replicate bytes 0 := by
      rw [zeroBlocks, if_pos whole, append_nil, alignDown_of_dvd bytesAligned]
    rw [limit, bdrvCoDoZeroPwritev, ran]
    have within : offset + alignDown bytes node.align + (if bytes % node.align = 0 then 0
        else node.align) ≤
        offset + bytes := by rw [if_pos whole, alignDown_of_dvd bytesAligned, add_zero]
    refine (zeroMiddleAndTail_writes (fun partly => absurd whole partly) within inside offsetAligned
      grain driver noFallback s).imp le_rfl le_rfl ?_
    rintro later ret ⟨writes, written, readOnly⟩
    rw [blocks] at written
    refine ⟨[], writes, ?_⟩
    have none : paddingReads node s.length offset bytes (.zeroes noFallback) = 0 := by
      rw [paddingReads, toNat_natCast, toNat_natCast,
        node.endReads_of_aligned offsetAligned bytesAligned, ite_self]
    exact of_framed 0 0 rfl (by simp) (by simp) (none ▸ .none driver _) written (fun _ => by simp)
      (fun _ => .inl rfl) fun isReadOnly => ⟨(readOnly isReadOnly).1, fun some => absurd rfl some⟩
  · have fallback : noFallback = false := by
      by_contra refuses
      obtain ⟨offsetAligned, bytesAligned⟩ : offset % node.align = 0 ∧ bytes % node.align = 0 := by
        by_contra unaligned
        exact mayFallBack ⟨by simpa using refuses, unaligned⟩
      have endAligned : node.align ∣ offset + bytes :=
        dvd_add (dvd_of_mod_eq_zero offsetAligned) (dvd_of_mod_eq_zero bytesAligned)
      have tail : pad.tail = 0 :=
        eq_zero_of_dvd_of_lt ((Nat.dvd_add_right endAligned).mp padding.aligned) padding.tail_lt
      exact padding.some.elim (absurd (padding.head_eq.trans offsetAligned)) (absurd tail)
    have limit : roundUp (offset + bytes) node.align = offset + bytes + pad.tail :=
      roundUp_eq padding.tail_lt padding.aligned
    rw [limit, paddingReads, if_pos ⟨offsetNonneg, bytesNonneg, range, by simp [Payload.admits, fallback]⟩]
    exact bdrvCoDoZeroPwritev_padded padding driver zero inside ran grain fallback

end Qemu.Block
