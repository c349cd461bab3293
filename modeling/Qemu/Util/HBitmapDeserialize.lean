import Qemu.Util.HBitmapSerial
import Qemu.Util.HBitmapTruncate

/-! Deserializing a bitmap rebuilds its upper levels and its count, but takes the
bits past the size as they come. -/

namespace Qemu.HBitmap

open BitWords Function List Option BitVec

section Stores

theorem length_storeWords : (storeWords words first elCount value).length = words.length := length_mapIdx

theorem word_storeWords (inside : first + elCount ≤ words.length) (index : Nat) :
    word (storeWords words first elCount value) index =
      if first ≤ index ∧ index < first + elCount then value (index - first) else word words index := by
  rcases Nat.lt_or_ge index words.length with here | past
  · have entry : (storeWords words first elCount value)[index]? =
        some (if first ≤ index ∧ index < first + elCount then value (index - first)
          else word words index) := by
      rw [storeWords, getElem?_mapIdx, List.getElem?_eq_getElem here, map_some, word,
        getD_eq_getElem _ _ here]
    rw [word, getD_eq_getElem?_getD, entry]
    rfl
  · rw [word_of_length_le (length_storeWords.trans_le past), if_neg (by omega), word_of_length_le past]

end Stores

section Restore

variable {levels : Levels} {lower upper : List Word} {size : Nat}

theorem length_markWords (n : Nat) : (markWords lower n upper).length = upper.length := by
  induction n with
  | zero => rfl
  | succ n ih =>
    rw [markWords]
    split
    · rw [length_set, ih]
    · exact ih

theorem bits_set_or {n : Nat} (inside : n / 64 < upper.length) :
    bits (upper.set (n / 64) (word upper (n / 64) ||| ((1 : Word) <<< (n % 64)))) = bits upper ∪ {n} := by
  refine bits_eq_of_words fun index k small => ?_
  rw [word_set _ inside, Set.mem_union, mem_bits, bit_in_word small, Set.mem_singleton_iff]
  split
  next here =>
    rw [getLsbD_or, Bool.or_eq_true, getLsbD_one_shiftLeft (by omega), decide_eq_true_eq, here]
    exact or_congr Iff.rfl (by omega)
  · exact (or_iff_left (by omega)).symm

/-- The marked bits are the words in use among the first `n`. -/
theorem bits_markWords {n : Nat} (room : n ≤ 64 * upper.length) (clear : bits upper = ∅) :
    bits (markWords lower n upper) = {index ∈ blocks (bits lower) | index < n} := by
  induction n with
  | zero =>
    rw [markWords, clear]
    refine (Set.eq_empty_iff_forall_notMem.mpr ?_).symm
    rintro index ⟨-, low⟩
    exact Nat.not_lt_zero index low
  | succ n ih => ?_
  have before := ih (by omega)
  have length := @length_markWords lower upper n
  rw [markWords]
  split
  next used =>
    rw [bits_set_or (by omega), before]
    ext index
    constructor
    · rintro (⟨isUsed, low⟩ | rfl)
      · exact ⟨isUsed, Nat.lt_succ_of_lt low⟩
      · exact ⟨word_ne_zero_iff.mp used, Nat.lt_succ_self _⟩
    · rintro ⟨isUsed, low⟩
      rcases Nat.lt_succ_iff_lt_or_eq.mp low with under | rfl
      · exact .inl ⟨isUsed, under⟩
      · exact .inr rfl
  next unused =>
    rw [before]
    ext index
    refine and_congr_right fun isUsed => ⟨Nat.lt_succ_of_lt, fun low => ?_⟩
    rcases Nat.lt_succ_iff_lt_or_eq.mp low with under | rfl
    · exact under
    · exact absurd (word_ne_zero_iff.mpr isUsed) unused

/-- The rebuilt levels have their lengths, and the bits of the words below. -/
theorem restoreLevels_spec {lev : Nat}
    (shape : ∀ i < lev, (levels i).length = wordsFor (levels (i + 1)).length)
    (bottom : size = (levels lev).length) :
    (∀ i, lev ≤ i → restoreLevels lev size levels i = levels i) ∧
    (∀ i, (restoreLevels lev size levels i).length = (levels i).length) ∧
    ∀ i < lev, bits (restoreLevels lev size levels i) = blocks
    (bits (restoreLevels lev size levels (i + 1))) := by
  induction lev generalizing size levels with
  | zero => exact ⟨fun i _ => rfl, fun i => rfl, fun i low => absurd low (Nat.not_lt_zero i)⟩
  | succ lev ih => ?_
  have here := shape lev (Nat.lt_succ_self lev)
  rw [← bottom] at here
  have cleared : List.replicate (wordsFor size) 0 ++ (levels lev).drop (wordsFor size) =
      List.replicate (wordsFor size) (0 : Word) := by
    rw [← here, drop_length, append_nil]
  have room : size ≤ 64 * (List.replicate (wordsFor size) (0 : Word)).length := by
    rw [length_replicate]
    exact le_wordsFor size
  have marked := @bits_markWords (levels (lev + 1)) _ size room (bits_replicate _)
  have markedLength : (markWords (levels (lev + 1)) size
      (replicate (wordsFor size) 0)).length = (levels lev).length := by
    rw [length_markWords, length_replicate, here]
  rw [restoreLevels, cleared]
  generalize markWords (levels (lev + 1)) size (replicate (wordsFor size) 0) = new at *
  have lengths := @length_update levels new lev markedLength
  obtain ⟨kept, same, summary⟩ := @ih (update levels lev new) (wordsFor size)
    (fun i low => by rw [lengths, lengths]; exact shape i (by omega))
    (by rw [update_self, markedLength, here])
  have atLev := kept lev (Nat.le_refl lev)
  rw [update_self] at atLev
  refine ⟨fun i high => ?_, fun i => (same i).trans (lengths i), fun i low => ?_⟩
  · rw [kept i (by omega), update_of_ne (by omega)]
  rcases Nat.lt_succ_iff_lt_or_eq.mp low with under | rfl
  · exact summary i under
  rw [atLev, marked, kept _ (by omega), update_of_ne (by omega)]
  refine Set.sep_eq_self_iff_mem_true.mpr ?_
  rintro index ⟨n, set, block⟩
  have := lt_of_mem_bits set
  dsimp only at block
  omega

end Restore

section Finish

/-- The rebuilt levels summarise the last one, which is left alone. -/
theorem rebuild_spec (sized : Sized hb) :
    (∀ i, (hb.rebuild i).length = (hb.levels i).length) ∧ hb.rebuild 6 = hb.levels 6 ∧
    Summarised hb.rebuild 6 := by
  obtain ⟨kept, lengths, summary⟩ := @restoreLevels_spec hb.levels (wordsFor hb.size) 6
    sized.shaped.upperLength sized.shaped.lastLength.symm
  rw [rebuild]
  generalize restoreLevels 6 (wordsFor hb.size) hb.levels = restored at *
  have single := sized.shaped.single sized.size_le
  have guarded : bits ((restored 0).set 0 (word (restored 0) 0 ||| sentinel)) = bits (restored 0) ∪ {63} :=
    @bits_set_or (restored 0) 63 (by rw [lengths, single]; decide)
  refine ⟨fun i => ?_, ?_, fun i below => ?_⟩
  · exact (length_update length_set i).trans (lengths i)
  · rw [update_of_ne (by decide), kept 6 (Nat.le_refl 6)]
  rw [update_of_ne (Nat.succ_ne_zero i), ← summary i below]
  cases i with
  | zero =>
    rw [update_self, guarded]
    rfl
  | succ i =>
    rw [update_of_ne (Nat.succ_ne_zero i)]
    exact (Set.union_empty _).symm

/-- The final repair leaves the last level alone and makes the rest fit it; what
may be missing of the invariant is that no bit is set past the size. -/
theorem deserializeFinish_spec (sized : Sized hb) (nonempty : 0 < hb.size) :
    ∃ new, hb.deserializeFinish = some new ∧ new.origSize = hb.origSize ∧
      new.granularity = hb.granularity ∧ new.size = hb.size ∧ new.levels 6 = hb.levels 6 ∧
      (WellFormed new ↔ ∀ n ∈ bits (hb.levels 6), n < hb.size) := by
  obtain ⟨lengths, last, summarised⟩ := rebuild_spec sized
  have fits : hb.size ≤ 64 * (hb.levels 6).length := by
    rw [sized.shaped.lastLength]
    exact le_wordsFor _
  have counted := @countBetween_spec { hb with levels := hb.rebuild }
    ((sized.shaped.stacked sized.size_le).of_lengths lengths) summarised 0 (hb.size - 1)
    (Nat.zero_le _) (Nat.sub_lt nonempty Nat.one_pos) (by exact fits)
  rw [countFrom_zero, show hb.size - 1 + 1 = hb.size by omega] at counted
  have result : hb.deserializeFinish = some { hb with
      levels := hb.rebuild
      count := BitVec.ofNat 64 (Nat.count (IsSet hb.rebuild) hb.size) } := by
    simp [deserializeFinish, counted]
  refine ⟨_, result, rfl, rfl, rfl, last, fun formed n set => ?_, fun bounded => ?_⟩
  · exact formed.lt_size (show n ∈ bits (hb.rebuild 6) by rwa [last])
  · refine (sized.leaves lengths summarised (congrArg bits last) bounded ?_).wellFormed
    have bound : Nat.count (IsSet hb.rebuild) hb.size ≤ 2 ^ 41 :=
      Nat.le_trans (Nat.count_le _) sized.size_le
    rw [toNat_ofNat, Nat.mod_eq_of_lt (Nat.lt_of_le_of_lt bound (by decide))]

end Finish

section Calls

variable {hb : HBitmap}

/-- The word that a call stores at an index of the last level. -/
def Call.stores (call : Call) (hb : HBitmap) (index : Nat) : Option Word :=
  if call.count = 0 then none
  else do
    let (first, elCount) ← hb.serializationChunk call.start call.count
    if first ≤ index ∧ index < first + elCount.toNat then some (call.source.value (index - first))
    else none

/-- The chunk passes the assertions. -/
def Call.Accepted (call : Call) (hb : HBitmap) : Prop :=
  call.count = 0 ∨ (hb.serializationChunk call.start call.count).isSome = true

/-- The words of the chunk lie in the bitmap, and in the buffer. -/
def Call.InBounds (call : Call) (hb : HBitmap) : Prop :=
  call.count = 0 ∨ ∀ first elCount,
    hb.serializationChunk call.start call.count = some (first, elCount) →
      first + elCount.toNat ≤ (hb.levels 6).length ∧ call.source.Holds elCount.toNat

/-- The word left at an index by a series of calls. -/
def finalWord (hb : HBitmap) (calls : List Call) (index : Nat) : Word :=
  calls.foldl (fun old call => (call.stores hb index).getD old) (word (hb.levels 6) index)

/-- The bits past the size in the last word are left clear. -/
def TailClear (hb : HBitmap) (calls : List Call) : Prop :=
  hb.size % 64 = 0 ∨ ∀ k, hb.size % 64 ≤ k → (hb.finalWord calls (hb.size / 64)).getLsbD k = false

/-- A bitmap with other words in its last level. -/
def withWords (hb : HBitmap) (words : List Word) : HBitmap :=
  { hb with levels := update hb.levels 6 words }

theorem withWords_last (words : List Word) : (hb.withWords words).levels 6 = words := by
  simp [withWords]

theorem Sized.withWords (sized : Sized hb)
    (length : words.length = (hb.levels 6).length) : Sized (hb.withWords words) where
  origSize_lt := sized.origSize_lt
  granularity_lt := sized.granularity_lt
  size_eq := sized.size_eq
  size_le := sized.size_le
  shaped := sized.shaped.of_lengths (length_update length)

variable {words : List Word} (sameLength : words.length = (hb.levels 6).length) {call : Call}
include sameLength

/-- One call: it stores its words, unless they do not lie in the bitmap. -/
theorem deserializeChunk_spec (accepted : call.Accepted hb) :
    (call.InBounds hb → ∃ new, (hb.withWords words).deserializeChunk call.source call.start call.count =
        some (hb.withWords new) ∧ new.length = (hb.levels 6).length ∧
      ∀ index, word new index = (call.stores hb index).getD (word words index)) ∧ (¬ call.InBounds hb →
      (hb.withWords words).deserializeChunk call.source call.start call.count = none) := by
  by_cases empty : call.count = 0
  · refine ⟨fun _ => ⟨words, ?_, sameLength, fun index => ?_⟩, fun out => absurd (.inl empty) out⟩
    · rw [deserializeChunk, if_pos empty]
    · rw [Call.stores, if_pos empty]
      rfl
  obtain ⟨⟨first, elCount⟩, chunk⟩ := isSome_iff_exists.mp (accepted.resolve_left empty)
  have sameChunk : (hb.withWords words).serializationChunk call.start call.count =
    some (first, elCount) := chunk
  have bounds : call.InBounds hb ↔ first + elCount.toNat ≤ words.length ∧
    call.source.Holds elCount.toNat := by
    rw [sameLength]
    constructor
    · intro inBounds
      exact (inBounds.resolve_left empty) first elCount chunk
    · intro fits
      refine .inr fun first' elCount' chunk' => ?_
      rw [chunk] at chunk'
      obtain ⟨rfl, rfl⟩ := chunk'
      exact fits
  constructor
  · intro inBounds
    have fits := bounds.mp inBounds
    refine ⟨storeWords words first elCount.toNat call.source.value, ?_,
      length_storeWords.trans sameLength, fun index => ?_⟩
    · simp only [deserializeChunk, empty, sameChunk, bind_eq_bind, bind_some, withWords_last, fits]
      exact congrArg some (by simp [withWords])
    · simp only [word_storeWords fits.1, Call.stores, chunk, bind_eq_bind, bind_some]
      split <;> rfl
  · intro out
    have outside := mt bounds.mpr out
    simp only [deserializeChunk, empty, if_false, sameChunk, bind_eq_bind, bind_some,
      withWords_last, outside]

/-- A series of calls leaves the last word stored at each index. -/
theorem deserializeChunks_spec {calls : List Call} (accepted : ∀ call ∈ calls, call.Accepted hb) :
    ((∀ call ∈ calls, call.InBounds hb) → ∃ new,
      calls.foldlM (fun hb call => hb.deserializeChunk call.source call.start call.count)
        (hb.withWords words) = some (hb.withWords new) ∧ new.length = (hb.levels 6).length ∧
        ∀ index, word new index =
        calls.foldl (fun old call => (call.stores hb index).getD old) (word words index)) ∧
    ((∃ call ∈ calls, ¬ call.InBounds hb) →
      calls.foldlM (fun hb call => hb.deserializeChunk call.source call.start call.count)
        (hb.withWords words) = none) := by
  induction calls generalizing words with
  | nil =>
    exact ⟨fun _ => ⟨words, rfl, sameLength, fun _ => rfl⟩, fun ⟨_, member, _⟩ => by simp at member⟩
  | cons call calls ih => ?_
  rw [forall_mem_cons] at accepted
  obtain ⟨stored, refused⟩ := deserializeChunk_spec sameLength accepted.1
  constructor
  · intro inBounds
    rw [forall_mem_cons] at inBounds
    obtain ⟨middle, ran, length, contents⟩ := stored inBounds.1
    obtain ⟨new, rest, newLength, newContents⟩ := (ih length accepted.2).1 inBounds.2
    refine ⟨new, ?_, newLength, fun index => ?_⟩
    · rw [foldlM_cons, ran]
      exact rest
    · rw [newContents, contents, foldl_cons]
  · rintro ⟨bad, member, out⟩
    rw [foldlM_cons]
    by_cases here : call.InBounds hb
    · obtain ⟨middle, ran, length, -⟩ := stored here
      rw [ran]
      rcases mem_cons.mp member with rfl | later
      · exact absurd here out
      · exact (ih length accepted.2).2 ⟨bad, later, out⟩
    · rw [refused here]
      rfl

end Calls

section Deserialize

variable {hb : HBitmap} (sized : Sized hb) (nonempty : 0 < hb.size) {calls : List Call}
  (accepted : ∀ call ∈ calls, call.Accepted hb)
include sized nonempty accepted

theorem deserialize_spec :
    ((∀ call ∈ calls, call.InBounds hb) → ∃ new, hb.deserialize calls = some new ∧
      new.origSize = hb.origSize ∧ new.granularity = hb.granularity ∧ new.size = hb.size ∧
      (new.levels 6).length = (hb.levels 6).length ∧
      (∀ index, word (new.levels 6) index = hb.finalWord calls index) ∧
      (WellFormed new ↔ ∀ n ∈ bits (new.levels 6), n < hb.size)) ∧
    ((∃ call ∈ calls, ¬ call.InBounds hb) → hb.deserialize calls = none) := by
  have self : hb.withWords (hb.levels 6) = hb := by
    simp [withWords]
  obtain ⟨stored, refused⟩ := @deserializeChunks_spec hb (hb.levels 6) rfl calls accepted
  rw [self] at stored refused
  constructor
  · intro inBounds
    obtain ⟨words, ran, length, contents⟩ := stored inBounds
    obtain ⟨new, finished, origSize_eq, granularity_eq, size_eq, last, iff⟩ :=
      deserializeFinish_spec (sized.withWords length) nonempty
    refine ⟨new, ?_, origSize_eq, granularity_eq, size_eq, ?_, fun index => ?_, ?_⟩
    · rw [deserialize, ran]
      exact finished
    · rw [last, withWords_last, length]
    · rw [last]
      exact contents index
    · rw [last]
      exact iff
  · intro out
    rw [deserialize, refused out]
    rfl

omit nonempty accepted in
/-- Only the last word has bits past the size. -/
theorem tailClear_iff (length : words.length = (hb.levels 6).length)
    (nonempty : 0 < hb.size) (contents : ∀ index, word words index = hb.finalWord calls index) :
    (∀ n ∈ bits words, n < hb.size) ↔ hb.TailClear calls := by
  have room := sized.shaped.lastLength
  rw [wordsFor] at room
  constructor
  · intro bounded
    refine or_iff_not_imp_left.mpr fun uneven k high => ?_
    rw [Bool.eq_false_iff, ← contents]
    intro set
    have small := lt_of_getLsbD set
    have := bounded (64 * (hb.size / 64) + k) ((bit_in_word small).trans set)
    omega
  · rintro (whole | clear) n set
    · have := lt_of_mem_bits set
      omega
    by_contra past
    have inside := lt_of_mem_bits set
    have same : n / 64 = hb.size / 64 := by omega
    rw [mem_bits, bit, contents, same, clear _ (by omega)] at set
    exact absurd set Bool.false_ne_true

theorem deserialize_wellFormed_iff :
    (∃ new, hb.deserialize calls = some new ∧ WellFormed new) ↔
      (∀ call ∈ calls, call.InBounds hb) ∧ hb.TailClear calls := by
  obtain ⟨stored, refused⟩ := deserialize_spec sized nonempty accepted
  constructor
  · rintro ⟨new, ran, formed⟩
    have inBounds : ∀ call ∈ calls, call.InBounds hb := by
      by_contra out
      simp only [not_forall] at out
      obtain ⟨call, member, out⟩ := out
      rw [refused ⟨call, member, out⟩] at ran
      cases ran
    obtain ⟨new', ran', -, -, -, length, contents, iff⟩ := stored inBounds
    rw [ran, some_inj] at ran'
    subst ran'
    exact ⟨inBounds, (tailClear_iff sized length nonempty contents).mp (iff.mp formed)⟩
  · rintro ⟨inBounds, clear⟩
    obtain ⟨new, ran, -, -, -, length, contents, iff⟩ := stored inBounds
    exact ⟨new, ran, iff.mpr ((tailClear_iff sized length nonempty contents).mpr clear)⟩

end Deserialize

end Qemu.HBitmap
