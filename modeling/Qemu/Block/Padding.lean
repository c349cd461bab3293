import Qemu.Block.AlignedRead

namespace Qemu.Block

open Transfer List Nat Padding

variable {node : Node} {driver : Driver} {s : IoState}

/-- The bytes of one allocation. -/
def regionBytes (mem : Place → UInt8) (region : Region) (k : Nat) : UInt8 := mem (region, k)

theorem map_locs (mem : Place → UInt8) (v : Iovec Region) :
    v.locs.map mem = slice (regionBytes mem v.region) v.base v.len := by
  simp [Iovec.locs, slice, regionBytes]

variable {v : Iovec Region}

theorem mem_locs : p ∈ v.locs ↔ p.1 = v.region ∧ v.base ≤ p.2 ∧ p.2 < v.base + v.len := by
  obtain ⟨region, k⟩ := p
  simp only [Iovec.locs, mem_map, mem_range, Prod.mk.injEq]
  constructor
  · rintro ⟨i, inside, rfl, rfl⟩
    exact ⟨rfl, by omega, by omega⟩
  · rintro ⟨rfl, above, below⟩
    exact ⟨k - v.base, by omega, rfl, by omega⟩

/-- Storing into an element overwrites a range of its allocation. -/
theorem regionBytes_scatter (size : vs.length = v.len) :
    regionBytes (scatter mem v.locs vs) v.region = overwrite (regionBytes mem v.region) v.base vs := by
  funext k
  by_cases inside : v.base ≤ k ∧ k < v.base + v.len
  · obtain ⟨i, rfl⟩ := Nat.exists_eq_add_of_le inside.1
    have stored := map_scatter (m := mem) v.locs_nodup
      (by rw [Iovec.locs_length, size] : v.locs.length = vs.length)
    rw [map_locs] at stored
    have here := congrArg (fun l => l[i]?) stored
    rw [slice_getElem? _ (by omega), getElem?_eq_getElem (by omega)] at here
    rw [overwrite_getElem (by omega)]
    exact Option.some.inj here
  · have absent : (v.region, k) ∉ v.locs := fun member => inside (mem_locs.mp member).2
    rw [regionBytes, scatter_of_not_mem absent]
    by_cases before : k < v.base
    · rw [overwrite_of_lt before]
      rfl
    · rw [overwrite_of_ge (by omega)]
      rfl

theorem regionBytes_scatter_other
    (other : region ≠ v.region) : regionBytes (scatter mem v.locs vs) region = regionBytes mem region := by
  funext k
  exact scatter_of_not_mem fun member => other (mem_locs.mp member).1

/-- The padding of a request: `head` bytes before and `tail` bytes after it make it aligned. -/
structure PaddingOf (node : Node) (offset bytes : Nat) (pad : Padding) : Prop where
  pos : 0 < bytes
  head_eq : pad.head = offset % node.align
  tail_lt : pad.tail < node.align
  aligned : node.align ∣ offset + bytes + pad.tail
  some : pad.head ≠ 0 ∨ pad.tail ≠ 0
  bufLen_eq : pad.bufLen =
    if pad.head + bytes + pad.tail > node.align ∧ pad.head ≠ 0 ∧ pad.tail ≠ 0 then 2 * node.align
    else node.align
  merge_iff : pad.mergeReads = true ↔ pad.head + bytes + pad.tail = pad.bufLen

/-- The bytes missing to the next multiple. -/
theorem tailTo_spec (n : Nat) (pos : 0 < align) :
    (if n % align = 0 then 0 else align - n % align) < align ∧
      align ∣ n + if n % align = 0 then 0 else align - n % align := by
  have small := mod_lt n pos
  split
  next whole => exact ⟨pos, dvd_of_mod_eq_zero whole⟩
  · have sum := div_add_mod n align
    refine ⟨by omega, n / align + 1, ?_⟩
    rw [mul_add]
    omega

variable {offset bytes : Nat}

theorem bdrvInitPadding_spec (range : offset + bytes ≤ bdrvMaxLength)
    (nonempty : bytes ≠ 0 ∨ offset % node.align = 0) :
    (bdrvInitPadding node offset bytes = .ok none ∧ node.align ∣ offset ∧ node.align ∣ bytes) ∨
      ∃ pad, bdrvInitPadding node offset bytes = .ok (some pad) ∧ PaddingOf node offset bytes pad ∧
        pad.preCollapse = none := by
  obtain ⟨tailSmall, endAligned⟩ := tailTo_spec (offset + bytes) node.align_pos
  have headAligned : offset % node.align = 0 → node.align ∣ offset := dvd_of_mod_eq_zero
  unfold bdrvInitPadding
  rw [bdrvCheckQiovRequest_zero range (by simp), if_neg (by decide)]
  generalize (if (offset + bytes) % node.align = 0 then 0
    else node.align - (offset + bytes) % node.align) = tail at *
  by_cases aligned : offset % node.align = 0 ∧ tail = 0
  · obtain ⟨head, rfl⟩ := aligned
    rw [if_pos ⟨head, rfl⟩]
    exact .inl ⟨rfl, headAligned head, (Nat.dvd_add_right (headAligned head)).mp endAligned⟩
  have nonzero : bytes ≠ 0 := by
    rintro rfl
    have head := nonempty.resolve_left (by simp)
    have tailAligned : node.align ∣ tail := (Nat.dvd_add_right (headAligned head)).mp endAligned
    exact aligned ⟨head, eq_zero_of_dvd_of_lt tailAligned tailSmall⟩
  rw [if_neg aligned, if_neg nonzero]
  exact .inr ⟨_, rfl, ⟨by omega, rfl, tailSmall, endAligned, by rw [← not_and_or]; exact aligned,
    rfl, by simp⟩, rfl⟩

theorem alignDown_eq (n align : Nat) : alignDown n align = n - n % align := by
  have sum := div_add_mod n align
  rw [alignDown, mul_comm]
  omega

theorem roundUp_eq (small : missing < align) (multiple : align ∣ n + missing) :
    roundUp n align = n + missing := by
  obtain ⟨k, whole⟩ := multiple
  have split : n + align - 1 = (align - 1 - missing) + align * k := by omega
  rw [roundUp, split, add_mul_div_left _ _ (by omega), div_eq_of_lt (by omega), zero_add, mul_comm, whole]

namespace PaddingOf

variable {offset bytes : Nat} {pad : Padding} (padding : PaddingOf node offset bytes pad)
include padding

theorem head_le : pad.head ≤ offset := padding.head_eq ▸ mod_le _ _

theorem head_lt : pad.head < node.align := padding.head_eq ▸ mod_lt _ node.align_pos

theorem offset_aligned : node.align ∣ offset - pad.head := padding.head_eq ▸ dvd_sub_mod offset

theorem total_aligned : node.align ∣ pad.head + bytes + pad.tail := by
  have whole := dvd_sub padding.aligned padding.offset_aligned
  have le := padding.head_le
  rwa [show offset + bytes + pad.tail - (offset - pad.head) = pad.head + bytes + pad.tail by
    omega] at whole

theorem align_le_total : node.align ≤ pad.head + bytes + pad.tail := by
  have pos := padding.pos
  exact le_of_dvd (by omega) padding.total_aligned

theorem overlap_eq : node.overlap offset bytes = (offset - pad.head, pad.head + bytes + pad.tail) := by
  have le := padding.head_le
  rw [Node.overlap, alignDown_eq, ← padding.head_eq, roundUp_eq padding.tail_lt padding.aligned]
  simp only [Prod.mk.injEq, true_and]
  omega

/-- The longest image ends at a multiple of every alignment. -/
theorem range (inside : offset + bytes ≤ bdrvMaxLength) :
    offset - pad.head + (pad.head + bytes + pad.tail) ≤ bdrvMaxLength := by
  have le := padding.head_le
  have small := padding.tail_lt
  have limitAligned : node.align ∣ bdrvMaxLength := by
    obtain ⟨k, le, power⟩ := node.align_power
    have unit : 2 ^ k ∣ 2 ^ 30 := pow_dvd_pow 2 le
    rw [power]
    exact unit.trans (by decide)
  obtain ⟨a, endEq⟩ := padding.aligned
  obtain ⟨b, limitEq⟩ := limitAligned
  -- the end of the padded request and the limit are multiples less than one unit apart
  have close : node.align * a < node.align * (b + 1) := by
    rw [mul_add]
    omega
  have le' : a ≤ b := Nat.lt_succ_iff.mp (Nat.lt_of_mul_lt_mul_left close)
  have bound := mul_le_mul_left node.align le'
  omega

theorem align_le_bufLen : node.align ≤ pad.bufLen := by
  rw [padding.bufLen_eq]
  split <;> omega

theorem bufLen_le : pad.bufLen ≤ 2 ^ 31 := by
  have small := node.align_le
  rw [padding.bufLen_eq]
  split <;> omega

/-- Without a merged read the two ends do not share a block of the buffer. -/
theorem bufLen_of_not_merge (apart : pad.mergeReads ≠ true) (head : pad.head ≠ 0)
    (tail : pad.tail ≠ 0) : pad.bufLen = 2 * node.align := by
  have le := padding.align_le_total
  have ne : pad.head + bytes + pad.tail ≠ pad.bufLen := fun same => apart (padding.merge_iff.mpr same)
  have buf := padding.bufLen_eq
  split at buf
  · exact buf
  · omega

/-- Without a merged read there is more than one block. -/
theorem two_align_le_total (apart : pad.mergeReads ≠ true) :
    2 * node.align ≤ pad.head + bytes + pad.tail := by
  obtain ⟨k, total⟩ := padding.total_aligned
  have le := padding.align_le_total
  have more : k ≠ 1 := by
    rintro rfl
    have buf := padding.bufLen_eq
    rw [if_neg (by omega)] at buf
    exact apart (padding.merge_iff.mpr (by omega))
  have pos := node.align_pos
  have nonzero : k ≠ 0 := by
    rintro rfl
    omega
  have bound := mul_le_mul_left node.align (by omega : 2 ≤ k)
  omega

theorem head_add_tail_le : pad.head + pad.tail ≤ pad.bufLen := by
  have headSmall := padding.head_lt
  have tailSmall := padding.tail_lt
  have buf := padding.bufLen_eq
  split at buf
  · omega
  · omega

end PaddingOf

/-- The calls that read the ends of a padded request. -/
def Padding.readCalls (pad : Padding) (node : Node) (length offset bytes : Nat) : Nat :=
  if pad.mergeReads then node.readCalls length (offset - pad.head) pad.bufLen
  else (if pad.head ≠ 0 then node.readCalls length (offset - pad.head) node.align else 0) +
    if pad.tail ≠ 0 then node.readCalls length (offset + bytes + pad.tail - node.align) node.align else 0

/-- The calls that read the blocks around a request: the first and the last block where it
leaves a part of them out, in one call where these are neighbours and no limit is below two
blocks. -/
def Node.endReads (node : Node) (length offset bytes : Nat) : Nat :=
  let first := alignDown offset node.align
  let last := alignDown (offset + bytes) node.align
  let head := if first < offset then node.readCalls length first node.align else 0
  let tail := if last < offset + bytes then node.readCalls length last node.align else 0
  if bytes = 0 then 0
  else if first = last then tail
  else if first < offset ∧ last < offset + bytes ∧ last = first + node.align then
    node.readCalls length first (2 * node.align)
  else head + tail

/-- What the padding buffer holds once the reads for it succeeded. -/
structure PaddingRead (node : Node) (driver : Driver) (offset bytes : Nat) (pad : Padding)
    (new : List DriverCall) (s later : IoState) (ret : Int) : Prop where
  image : later.image = s.image
  sectors : later.totalSectors = s.totalSectors
  calls : later.calls = s.calls ++ new
  aligned : ∀ call ∈ new, call.op = .read ∧ call.Served driver node.align
  answered : Answered driver s.calls.length (pad.readCalls node s.length offset bytes) new
  others : (∀ call ∈ new, 0 ≤ call.ret) → ∀ region ≠ .pad, regionBytes later.mem region =
    regionBytes s.mem region
  head : (∀ call ∈ new, 0 ≤ call.ret) →
    slice (regionBytes later.mem .pad) 0 pad.head = slice s.image (offset - pad.head) pad.head
  tail : (∀ call ∈ new, 0 ≤ call.ret) →
    slice (regionBytes later.mem .pad) (pad.bufLen - pad.tail) pad.tail = slice s.image
    (offset + bytes) pad.tail
  blank : (∀ call ∈ new, 0 ≤ call.ret) → ret = 0 ∨
    slice (regionBytes later.mem .pad) pad.head (pad.bufLen - pad.head - pad.tail) =
      replicate (pad.bufLen - pad.head - pad.tail) 0

theorem Node.endReads_of_aligned {length : Nat} (offsetAligned : node.align ∣ offset)
    (bytesAligned : node.align ∣ bytes) : node.endReads length offset bytes = 0 := by
  have first : alignDown offset node.align = offset := Nat.div_mul_cancel offsetAligned
  have last : alignDown (offset + bytes) node.align = offset + bytes :=
    Nat.div_mul_cancel (dvd_add offsetAligned bytesAligned)
  simp [endReads, first, last]

theorem PaddingOf.readCalls_eq {length : Nat} (padding : PaddingOf node offset bytes pad) :
    pad.readCalls node length offset bytes = node.endReads length offset bytes := by
  have pos := padding.pos
  have headLe := padding.head_le
  have headLt := padding.head_lt
  have tailLt := padding.tail_lt
  have totalLe := padding.align_le_total
  have first : alignDown offset node.align = offset - pad.head := by rw [alignDown_eq, padding.head_eq]
  have bufLen := padding.bufLen_eq
  have merge := padding.merge_iff
  have apart := padding.two_align_le_total
  rw [readCalls, Node.endReads, first, if_neg pos.ne']
  by_cases none : pad.tail = 0
  · -- the request ends with its last block
    have head := padding.some.resolve_right (not_not.mpr none)
    have last : alignDown (offset + bytes) node.align = offset + bytes :=
      Nat.div_mul_cancel (by simpa [none] using padding.aligned)
    have below : offset - pad.head < offset := by omega
    have apart' : offset - pad.head ≠ offset + bytes := by omega
    simp [last, none, head, below, apart', bufLen]
  have last : alignDown (offset + bytes) node.align = offset + bytes + pad.tail - node.align := by
    obtain ⟨k, total⟩ := padding.aligned
    rw [alignDown, Nat.div_eq_of_lt_le (k := k - 1), Nat.sub_mul, mul_comm, total, one_mul]
    · rw [Nat.sub_mul, mul_comm, ← total]
      omega
    · rw [Nat.sub_add_cancel (Nat.pos_of_ne_zero (by rintro rfl; omega)), mul_comm, ← total]
      omega
  rw [last, if_pos none]
  by_cases merged : pad.mergeReads = true
  · have total := merge.mp merged
    rw [if_pos merged, bufLen]
    split
    next both =>
      rw [if_pos both] at bufLen
      rw [if_neg (by omega), if_pos (by omega)]
    next one =>
      rw [if_neg one] at bufLen
      rw [if_pos (by omega), if_pos (by omega),
        show offset + bytes + pad.tail - node.align = offset - pad.head by omega]
  · have two := apart merged
    have three : ¬ (offset - pad.head < offset ∧ offset + bytes + pad.tail - node.align < offset + bytes ∧
        offset + bytes + pad.tail - node.align = offset - pad.head + node.align) := by
      rintro ⟨head, -, next⟩
      exact merged (merge.mpr (by rw [bufLen, if_pos (by omega)]; omega))
    have below : offset - pad.head < offset ↔ pad.head ≠ 0 := by omega
    have blocks : offset - pad.head ≠ offset + bytes + pad.tail - node.align := by omega
    have ends : offset + bytes + pad.tail - node.align < offset + bytes := by omega
    rw [if_neg merged, if_neg blocks, if_neg three, if_pos ends]
    simp only [below]

/-- A read into a part of the padding buffer. -/
theorem padBuf_reads (driver : Driver) (start : Nat) (range : offset + bytes ≤ bdrvMaxLength)
    (offsetAligned : node.align ∣ offset) (bytesAligned : node.align ∣ bytes) (pos : 0 < bytes)
    (zero : s.ZeroPastEnd) :
    ∃ later ret new, bdrvAlignedPreadv node driver offset bytes [padBuf start bytes] 0 s =
      .ok (later, ret) ∧ Reads node driver offset bytes (padBuf start bytes).locs new s later ret ∧
      Answered driver s.calls.length (node.readCalls s.length offset bytes) new := by
  have nonempty : ∀ v ∈ [padBuf start bytes], 0 < v.len := by simpa [padBuf] using pos
  have fits : 0 + bytes ≤ iovSize [padBuf start bytes] := by simp [padBuf]
  have whole : window [padBuf start bytes] 0 bytes = (padBuf start bytes).locs :=
    window_singleton (padBuf start bytes)
  obtain ⟨later, ret, new, ran, reads, answered⟩ :=
    bdrvAlignedPreadv_reads driver nonempty fits range offsetAligned bytesAligned zero
  exact ⟨later, ret, new, ran, whole ▸ reads, answered pos⟩

section

variable (reads : Reads node driver offset bytes (padBuf start bytes).locs new s later ret)
  (passed : ∀ call ∈ new, 0 ≤ call.ret)
include reads passed

theorem Reads.padBytes :
    regionBytes later.mem .pad = overwrite (regionBytes s.mem .pad) start (slice s.image offset bytes) ∧
      ∀ region ≠ .pad, regionBytes later.mem region = regionBytes s.mem region := by
  rw [reads.data passed]
  have size : (slice s.image offset bytes).length = (padBuf start bytes).len := slice_length ..
  exact ⟨regionBytes_scatter size, fun region other => regionBytes_scatter_other other⟩

theorem Reads.padSlice (above : start ≤ first) (below : first + n ≤ start + bytes) :
    slice (regionBytes later.mem .pad) first n = slice s.image (offset + (first - start)) n := by
  obtain ⟨i, rfl⟩ := Nat.exists_eq_add_of_le above
  rw [(reads.padBytes passed).1, slice_overwrite_slice (by omega), Nat.add_sub_cancel_left]

end

theorem padBlock_reads (driver : Driver) (start : Nat) (wanted : Prop) [Decidable wanted]
    (range : wanted → offset + node.align ≤ bdrvMaxLength)
    (offsetAligned : wanted → node.align ∣ offset) (zero : s.ZeroPastEnd) :
    ∃ later ret new, (if wanted then
        bdrvAlignedPreadv node driver offset node.align [padBuf start node.align] 0 s else .ok (s, 0)) =
          .ok (later, ret) ∧ Reads node driver offset (if wanted then node.align else 0)
        (padBuf start (if wanted then node.align else 0)).locs new s later ret ∧
      Answered driver s.calls.length (if wanted then node.readCalls s.length offset node.align else 0)
      new := by
  split
  next holds =>
    exact padBuf_reads driver start (range holds) (offsetAligned holds) dvd_rfl node.align_pos zero
  · exact ⟨s, 0, [], rfl, ⟨rfl, rfl, by simp, by simp, fun _ => by simp [padBuf, Iovec.locs],
      fun _ _ => rfl, fun _ _ => .inl rfl, by simp⟩, .none driver _⟩

section

variable {offset bytes : Nat} {pad : Padding} (padding : PaddingOf node offset bytes pad)
  (inside : offset + bytes ≤ bdrvMaxLength) (zero : s.ZeroPastEnd)
include padding inside zero

theorem rmwReads_of_merge (driver : Driver) (merged : pad.mergeReads = true) :
    ∃ later ret new, rmwReads node driver pad (offset - pad.head) (pad.head + bytes + pad.tail) s =
      .ok (later, ret) ∧ PaddingRead node driver offset bytes pad new s later ret := by
  have total := padding.merge_iff.mp merged
  have le := padding.head_le
  have range := padding.range inside
  have pos := padding.pos
  obtain ⟨later, ret, new, ran, reads, answered⟩ := padBuf_reads (s := s) driver 0 (total ▸ range)
    padding.offset_aligned (total ▸ padding.total_aligned) (by omega) zero
  refine ⟨later, min ret 0, new, ?_, reads.image, reads.sectors, reads.calls, reads.aligned,
    by rwa [readCalls, if_pos merged], fun passed => (reads.padBytes passed).2, fun passed => ?_,
    fun passed => ?_, fun passed => ?_⟩
  · simp only [rmwReads, merged, or_true, if_true, ran, bind, Except.bind, pure, Except.pure]
    split
    · rw [min_eq_left (by omega)]
    · rw [min_eq_right (by omega)]
      simp
  · exact reads.padSlice passed le_rfl (by omega)
  · rw [reads.padSlice passed (zero_le _) (by omega)]
    congr 1
    omega
  have small := padding.bufLen_le
  by_cases short : pad.bufLen < 2 ^ 31
  · exact .inl (by rw [reads.succeeds passed short]; rfl)
  rcases reads.blank passed (by omega) with done | zeroes
  · exact .inl (by rw [done]; rfl)
  · right
    rw [reads.padSlice passed (zero_le _) (by omega)]
    exact slice_replicate zeroes (by omega) (by omega)

theorem rmwReads_of_not_merge (driver : Driver) (apart : pad.mergeReads ≠ true) :
    ∃ later ret new, rmwReads node driver pad (offset - pad.head) (pad.head + bytes + pad.tail) s =
      .ok (later, ret) ∧ PaddingRead node driver offset bytes pad new s later ret := by
  have le := padding.head_le
  have range := padding.range inside
  have totalLe := padding.align_le_total
  have alignLe := node.align_le
  have headLt := padding.head_lt
  have tailLt := padding.tail_lt
  have bufLe := padding.align_le_bufLen
  have bufTwo := padding.bufLen_of_not_merge apart
  have bufOne := fun none : ¬ pad.tail ≠ 0 => padding.bufLen_eq.trans (if_neg fun both => none both.2.2)
  have apart' : pad.mergeReads = false := by simpa using apart
  obtain ⟨middle, ret, new, ran, first, answered⟩ := padBlock_reads driver 0 (pad.head ≠ 0)
    (fun _ => (by omega : offset - pad.head + node.align ≤ bdrvMaxLength))
    (fun _ => padding.offset_aligned) zero
  have headLe : pad.head ≤ if pad.head ≠ 0 then node.align else 0 := by split <;> omega
  have headSize : (if pad.head ≠ 0 then node.align else 0) < 2 ^ 31 := by split <;> omega
  generalize (if pad.head ≠ 0 then node.align else 0) = headBytes at *
  simp only [rmwReads, apart', Bool.false_eq_true, or_false, if_false, Bool.not_false, and_true, bind,
    Except.bind, pure, Except.pure]
  rw [ran]
  dsimp only
  split
  · have absurdity : ¬ ∀ call ∈ new, 0 ≤ call.ret := fun passed => by
      have := first.succeeds passed headSize
      omega
    have failure : ∃ call ∈ new, call.ret < 0 := by simpa using absurdity
    exact ⟨_, _, new, rfl, first.image, first.sectors, first.calls, first.aligned,
      answered.failed failure (by rw [readCalls, if_neg apart]; exact le_add_right _ _),
      fun passed => absurd passed absurdity, fun passed => absurd passed absurdity,
      fun passed => absurd passed absurdity, fun passed => absurd passed absurdity⟩
  rename_i done
  have zero' : middle.ZeroPastEnd := by
    intro x past
    rw [IoState.length, first.sectors] at past
    rw [first.image]
    exact zero x past
  have lastAligned : node.align ∣ offset - pad.head + (pad.head + bytes + pad.tail) - node.align :=
    dvd_sub (dvd_add padding.offset_aligned padding.total_aligned) dvd_rfl
  obtain ⟨later, ret', new', ran', second, answered'⟩ :=
    padBlock_reads driver (pad.tailBuf node.align) (pad.tail ≠ 0) (fun _ => (by omega :
      offset - pad.head + (pad.head + bytes + pad.tail) - node.align + node.align ≤ bdrvMaxLength))
    (fun _ => lastAligned) zero'
  rw [ran']
  refine ⟨later, ret', new ++ new', rfl, second.image.trans first.image,
    second.sectors.trans first.sectors,
    by rw [second.calls, first.calls, append_assoc], fun call member =>
      (mem_append.mp member).elim (first.aligned call) (second.aligned call), ?_, ?_, ?_, ?_, ?_⟩
  · have passed := first.fails done
    have last : offset - pad.head + (pad.head + bytes + pad.tail) - node.align =
        offset + bytes + pad.tail - node.align := by omega
    rw [IoState.length, first.sectors, last, first.calls, length_append, answered.all passed] at answered'
    rw [readCalls, if_neg apart]
    exact answered.append passed answered'
  all_goals
    intro passed
    obtain ⟨passed, passed'⟩ := forall_mem_append.mp passed
  · intro region other
    rw [(second.padBytes passed').2 region other, (first.padBytes passed).2 region other]
  · have headHeld := first.padSlice passed le_rfl (by omega : 0 + pad.head ≤ 0 + headBytes)
    rw [(second.padBytes passed').1, slice_overwrite_of_disjoint]
    · exact headHeld
    · rw [slice_length, tailBuf]
      split
      · omega
      · omega
  · by_cases none : pad.tail = 0
    · simp [none]
    rw [if_pos none] at second
    have tailHeld := second.padSlice passed'
      (by rw [tailBuf]; omega : pad.tailBuf node.align ≤ pad.bufLen - pad.tail)
      (by rw [tailBuf]; omega : pad.bufLen - pad.tail + pad.tail ≤ pad.tailBuf node.align + node.align)
    rw [tailHeld, first.image, tailBuf]
    congr 1
    omega
  · refine .inl (second.succeeds passed' ?_)
    split <;> omega

theorem rmwReads_spec (driver : Driver) :
    ∃ later ret new, rmwReads node driver pad (offset - pad.head) (pad.head + bytes + pad.tail) s =
      .ok (later, ret) ∧ PaddingRead node driver offset bytes pad new s later ret := by
  by_cases merged : pad.mergeReads = true
  · exact rmwReads_of_merge padding inside zero driver merged
  · exact rmwReads_of_not_merge padding inside zero driver merged

/-- With a zeroed middle the buffer holds the two ends and zeroes between them. -/
theorem bdrvPaddingRmwRead_spec (driver : Driver) (zeroMiddle : Bool) :
    ∃ later ret new, bdrvPaddingRmwRead node driver pad (offset - pad.head) (pad.head + bytes + pad.tail)
        zeroMiddle s = .ok (later, ret) ∧ PaddingRead node driver offset bytes pad new s later ret ∧
      ((∀ call ∈ new, 0 ≤ call.ret) → zeroMiddle = true →
        slice (regionBytes later.mem .pad) pad.head (pad.bufLen - pad.head - pad.tail) =
          replicate (pad.bufLen - pad.head - pad.tail) 0) := by
  set blank := pad.bufLen - pad.head - pad.tail with gap
  have fits := padding.head_add_tail_le
  obtain ⟨middle, ret, new, ran, reads⟩ := rmwReads_spec padding inside zero driver
  unfold bdrvPaddingRmwRead
  rw [ran]
  simp only [bind, Except.bind]
  split
  · exact ⟨_, _, new, rfl, reads, fun passed _ => (reads.blank passed).resolve_left (by omega)⟩
  split
  · have size : (replicate blank (0 : UInt8)).length = (padBuf pad.head blank).len := length_replicate
    have stored : regionBytes (scatter middle.mem (padBuf pad.head blank).locs
          (replicate blank 0)) .pad =
        overwrite (regionBytes middle.mem .pad) pad.head (replicate blank 0) :=
      regionBytes_scatter size
    refine ⟨_, 0, new, rfl, ⟨reads.image, reads.sectors, reads.calls, reads.aligned, reads.answered,
        ?_, ?_, ?_, fun _ => .inl rfl⟩,
      ?_⟩
    · intro passed region other
      exact (regionBytes_scatter_other other).trans (reads.others passed region other)
    · intro passed
      exact (congrArg (slice · 0 pad.head) stored).trans
        ((slice_overwrite_of_disjoint (.inl (by omega))).trans (reads.head passed))
    · intro passed
      exact (congrArg (slice · (pad.bufLen - pad.tail) pad.tail) stored).trans
        ((slice_overwrite_of_disjoint (.inr (by rw [length_replicate]; omega))).trans (reads.tail passed))
    intro _ _
    have zeroes := slice_overwrite (regionBytes middle.mem .pad) pad.head
      (replicate blank 0)
    rw [length_replicate] at zeroes
    exact (congrArg (slice · pad.head blank) stored).trans zeroes
  next plain =>
    exact ⟨_, 0, new, rfl, ⟨reads.image, reads.sectors, reads.calls, reads.aligned, reads.answered,
      reads.others, reads.head, reads.tail, fun _ => .inl rfl⟩, fun _ zeroed => absurd zeroed plain⟩

end

end Qemu.Block
