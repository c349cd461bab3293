import Qemu.Util.HBitmapDeserialize

/-! A bitmap that is serialized in chunks and deserialized again reads the same,
and when deserialization restores the invariant. -/

namespace Qemu.HBitmap

open BitWords List BitVec Option

section Bytes

theorem getLsbD_ofLe (bytes : List (BitVec 8)) (k : Nat) :
    (ofLe bytes).getLsbD k = (decide (k < 64) && (bytes.getD (k / 8) 0).getLsbD (k % 8)) := by
  induction bytes generalizing k with
  | nil => simp [ofLe]
  | cons byte bytes ih => ?_
  rw [ofLe, getLsbD_or, getLsbD_shiftLeft, getLsbD_setWidth, ih]
  rcases Nat.lt_or_ge k 8 with low | high
  · rw [Nat.div_eq_of_lt low, Nat.mod_eq_of_lt low]
    simp [low]
  have next : k / 8 = (k - 8) / 8 + 1 := by omega
  rw [next, show (k - 8) % 8 = k % 8 by omega, getLsbD_of_ge byte k high]
  by_cases small : k < 64
  · simp [Nat.not_lt.mpr high, show k - 8 < 64 by omega]
  · simp [small]

theorem ofLe_toLe (value : Word) : ofLe (toLe value) = value := by
  refine eq_of_getLsbD_eq fun k small => ?_
  have entry : (toLe value).getD (k / 8) 0 = value.extractLsb' (8 * (k / 8)) 8 := by
    rw [toLe, getD_eq_getElem?_getD, getElem?_map, getElem?_range (by omega)]
    rfl
  rw [getLsbD_ofLe, decide_eq_true small, Bool.true_and, entry, getLsbD_extractLsb',
    decide_eq_true (by omega), Bool.true_and, show 8 * (k / 8) + k % 8 = k by omega]

section

variable {α β : Type} {size : Nat} {f : α → List β} (items : List α)
  (uniform : ∀ item, (f item).length = size)
include items uniform

theorem take_drop_flatMap (found : items[j]? = some item) :
    ((items.flatMap f).drop (size * j)).take size = f item := by
  induction items generalizing j with
  | nil => simp at found
  | cons head tail ih => ?_
  cases j with
  | zero =>
    rw [getElem?_cons_zero, some_inj] at found
    subst found
    exact take_left' (uniform head)
  | succ j =>
    rw [flatMap_cons, Nat.mul_succ, Nat.add_comm, ← drop_drop, drop_left' (uniform head)]
    exact ih found

theorem length_flatMap_uniform : (items.flatMap f).length = size * items.length := by
  induction items with
  | nil => rfl
  | cons head tail ih =>
    rw [flatMap_cons, length_append, uniform, ih, length_cons, Nat.mul_succ, Nat.add_comm]

end

end Bytes

section RoundTrip

variable {hb src : HBitmap} {calls : List Call} {call : Call}

/-- The call loads the bytes that the source bitmap serializes for its chunk. -/
def Call.Copies (call : Call) (src : HBitmap) : Prop :=
  ∃ buf, call.source = .part buf ∧ src.serializePart call.start call.count = some buf

theorem copies_spec (sameSize : hb.size = src.size) (sameUnit : hb.granularity = src.granularity)
    (sameLength : (hb.levels 6).length = (src.levels 6).length) (copies : call.Copies src) :
    call.Accepted hb ∧ call.InBounds hb ∧
      ∀ index value, call.stores hb index = some value → value = word (src.levels 6) index := by
  have sameChunk : hb.serializationChunk call.start call.count = src.serializationChunk call.start
    call.count := by
    cases hb
    cases src
    subst sameSize sameUnit
    rfl
  obtain ⟨buf, source, ran⟩ := copies
  by_cases empty : call.count = 0
  · refine ⟨.inl empty, .inl empty, fun index value stored => ?_⟩
    rw [Call.stores, if_pos empty] at stored
    cases stored
  rw [serializePart, if_neg empty] at ran
  obtain ⟨⟨first, elCount⟩, chunk, ran⟩ := bind_eq_some_iff.mp ran
  obtain ⟨fits, ran⟩ := ite_none_right_eq_some.mp ran
  rw [some_inj] at ran
  have uniform (j : Nat) : (toLe (word (src.levels 6) (first + j))).length = 8 := by
    simp [toLe]
  refine ⟨.inr (by rw [sameChunk, chunk]; rfl), .inr fun first' elCount' chunk' => ?_,
    fun index value stored => ?_⟩
  · rw [sameChunk, chunk, some_inj] at chunk'
    obtain ⟨rfl, rfl⟩ := chunk'
    have total : buf.length = 8 * elCount.toNat := by
      rw [← ran, length_flatMap_uniform _ uniform, length_range]
    refine ⟨sameLength ▸ fits, ?_⟩
    rw [source]
    exact total.ge
  · simp only [Call.stores, empty, if_false, sameChunk, chunk, bind_eq_bind, bind_some] at stored
    obtain ⟨inside, stored⟩ := ite_none_right_eq_some.mp stored
    rw [some_inj, source] at stored
    have entry : (List.range elCount.toNat)[index - first]? = some (index - first) :=
      getElem?_range (by omega)
    rw [← stored, Source.value, ← ran, take_drop_flatMap _ uniform entry, ofLe_toLe,
      show first + (index - first) = index by omega]

/-- Calls that store only words of the source, at least one at an index. -/
theorem foldl_stores (old : Word)
    (same : ∀ call ∈ calls, ∀ stored, call.stores hb index = some stored → stored = value)
    (reached : old = value ∨ ∃ call ∈ calls, (call.stores hb index).isSome = true) :
    calls.foldl (fun old call => (call.stores hb index).getD old) old = value := by
  induction calls generalizing old with
  | nil =>
    rcases reached with rfl | ⟨call, member, -⟩
    · rfl
    · simp at member
  | cons call calls ih => ?_
  rw [forall_mem_cons] at same
  rw [foldl_cons]
  refine ih _ same.2 ?_
  cases stored : call.stores hb index with
  | none =>
    rcases reached with rfl | ⟨other, member, found⟩
    · exact .inl rfl
    · rcases mem_cons.mp member with rfl | later
      · rw [stored] at found
        cases found
      · exact .inr ⟨other, later, found⟩
  | some found => exact .inl (same.1 found stored)

/-- Any chunking that covers the bitmap reproduces it. -/
theorem round_trip (sized : Sized hb) (nonempty : 0 < hb.size) (srcFormed : WellFormed src)
    (sameItems : hb.origSize = src.origSize) (sameUnit : hb.granularity = src.granularity)
    (copies : ∀ call ∈ calls, call.Copies src)
    (covers : ∀ index < (hb.levels 6).length, ∃ call ∈ calls, (call.stores hb index).isSome = true) :
    ∃ new, hb.deserialize calls = some new ∧ WellFormed new ∧ ∀ item, new.get item = src.get item := by
  have sameSize : hb.size = src.size := by
    rw [sized.size_eq, srcFormed.size_eq, sameItems, sameUnit]
  have sameLength : (hb.levels 6).length = (src.levels 6).length := by
    rw [sized.shaped.lastLength, srcFormed.lastLength, sameSize]
  have each (call : Call) (member : call ∈ calls) :=
    copies_spec sameSize sameUnit sameLength (copies call member)
  obtain ⟨new, ran, -, granularity_eq, size_eq, length, contents, iff⟩ :=
    (deserialize_spec sized nonempty fun call member => (each call member).1).1
      fun call member => (each call member).2.1
  have sameWords (index : Nat) : word (new.levels 6) index = word (src.levels 6) index := by
    rcases Nat.lt_or_ge index (hb.levels 6).length with inside | past
    · rw [contents]
      exact foldl_stores _ (fun call member => (each call member).2.2 index)
        (.inr (covers index inside))
    · rw [word_of_length_le (by omega), word_of_length_le (by omega)]
  have sameBit (n : Nat) : bit (new.levels 6) n = bit (src.levels 6) n := by
    rw [bit, sameWords, bit]
  refine ⟨new, ran, iff.mpr fun n set => ?_, fun item => ?_⟩
  · rw [sameSize]
    exact srcFormed.lt_size ((sameBit n).symm.trans set)
  · simp [get, granularity_eq, sameUnit, size_eq, sameSize, sameBit]

end RoundTrip

/-- Deserialization restores the invariant exactly when every chunk lies in the
bitmap and its last word is left clear past the size; a bitmap so restored grows
by clear items only; and the chunks of a serialized bitmap reproduce it. -/
theorem deserialize_restores_iff (hb : HBitmap) (wellFormed : WellFormed hb)
    (nonempty : 0 < hb.size) (calls : List Call) (accepted : ∀ call ∈ calls, call.Accepted hb) :
    ((∃ new, hb.deserialize calls = some new ∧ WellFormed new) ↔
      (∀ call ∈ calls, call.InBounds hb) ∧ hb.TailClear calls) ∧
    (∀ new, hb.deserialize calls = some new → WellFormed new → ∀ numElements,
      numElements < 2 ^ 63 → groups numElements new.granularity ≤ 2 ^ 41 →
      ∃ grown, new.truncate numElements = some grown ∧ WellFormed grown ∧
        ∀ item, new.size ≤ item / 2 ^ new.granularity → item / 2 ^ new.granularity < grown.size →
          grown.get item = some false) ∧
    (∀ src, WellFormed src → hb.origSize = src.origSize → hb.granularity = src.granularity →
      (∀ call ∈ calls, call.Copies src) →
      (∀ index < (hb.levels 6).length, ∃ call ∈ calls, (call.stores hb index).isSome = true) →
      ∃ new, hb.deserialize calls = some new ∧ WellFormed new ∧ ∀ item, new.get item = src.get item) := by
  refine ⟨deserialize_wellFormed_iff wellFormed.sized nonempty accepted,
    fun hb _ wellFormed _ small bounded => ?_, fun _ srcFormed sameItems sameUnit copies covers =>
      round_trip wellFormed.sized nonempty srcFormed sameItems sameUnit copies covers⟩
  -- Growing a well-formed bitmap adds clear items only.
  obtain ⟨grown, ran, formed, -, granularity_eq, bits_eq⟩ := truncate_spec wellFormed small bounded
  refine ⟨grown, ran, formed, fun item new inside => ?_⟩
  rw [get, granularity_eq, if_pos inside, some_inj, Bool.eq_false_iff]
  intro set
  have old : item / 2 ^ hb.granularity ∈ bits (grown.levels 6) := set
  rw [bits_eq] at old
  exact absurd (wellFormed.lt_size old.1) (Nat.not_lt.mpr new)

/-- All ones in a bitmap of one item: a later resize to two items shows a dirty
second item that was never set, and counts one set bit of two. -/
theorem deserialize_ones_grows_dirty :
    (do
      let hb ← alloc 1 0
      let hb ← hb.deserialize [⟨.ones, 0, 1⟩]
      let grown ← hb.truncate 2
      let item ← grown.get 1
      some (item, grown.count, Nat.count (fun n => bit (grown.levels 6) n = true) 2)) =
    some (true, 1, 2) := by
  decide +kernel

/-- Seventy items of which the last six are loaded as zeroes. -/
theorem deserialize_restores_at_zero_tail : ∃ hb, alloc 70 0 = some hb ∧
    ((∃ new, hb.deserialize [⟨.ones, 0, 64⟩, ⟨.zeroes, 64, 6⟩] = some new ∧ WellFormed new) ↔
      (∀ call ∈ ([⟨.ones, 0, 64⟩, ⟨.zeroes, 64, 6⟩] : List Call), call.InBounds hb) ∧
        hb.TailClear [⟨.ones, 0, 64⟩, ⟨.zeroes, 64, 6⟩]) := by
  obtain ⟨hb, made, formed, size_eq, unit_eq, -⟩ :=
    alloc_spec (show 70 < 2 ^ 63 by decide) (show 0 < 64 by decide) (by decide)
  have chunks : (alloc 70 0).all (fun hb => decide (0 < hb.size) &&
      ((hb.serializationChunk 0 64).isSome && (hb.serializationChunk 64 6).isSome)) = true := by
    decide +kernel
  rw [made, all_some, Bool.and_eq_true, Bool.and_eq_true, decide_eq_true_eq] at chunks
  refine ⟨hb, made, (deserialize_restores_iff hb formed chunks.1 _ fun call member => ?_).1⟩
  rw [mem_cons, mem_singleton] at member
  rcases member with rfl | rfl
  · exact .inr chunks.2.1
  · exact .inr chunks.2.2

end Qemu.HBitmap
