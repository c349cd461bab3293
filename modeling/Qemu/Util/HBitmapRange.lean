import Qemu.Util.HBitmap

namespace Qemu.HBitmap

open BitWords

section OneLevel

theorem or_sixtyThree (start : Nat) : start ||| 63 = 64 * (start / 64) + 63 := by
  refine Nat.eq_of_testBit_eq fun k => ?_
  rw [Nat.testBit_or, Nat.testBit_two_pow_mul_add (i := 6) _ (by decide),
    show 63 = 2 ^ 6 - 1 from rfl, Nat.testBit_two_pow_sub_one]
  by_cases low : k < 6
  · simp [low]
  · simp only [low, decide_false, Bool.or_false, if_false]
    rw [show 64 = 2 ^ 6 from rfl, Nat.testBit_div_two_pow, Nat.sub_add_cancel (by omega)]

theorem fillWords_spec (test : Word → Bool) (value : Word)
    (words : List Word) (i next : Nat) (changed : Bool)
    (distance : i + steps + 1 = lastpos) (inside : lastpos < words.length) :
    ∃ new changed', fillWords test value lastpos (steps + 1) words i next changed =
        some (new, next + 64 * steps, changed') ∧ new.length = words.length ∧
      (∀ j, word new j = if i < j ∧ j < lastpos then value else word words j) ∧ (changed' = true ↔
        changed = true ∨ ∃ j, i < j ∧ j < lastpos ∧ test (word words j) = true) := by
  induction steps generalizing words i next changed with
  | zero =>
    refine ⟨words, changed, ?_, rfl, fun j => ?_, ?_⟩
    · rw [fillWords, if_pos (by omega)]
      rfl
    · rw [if_neg (by omega)]
    constructor
    · exact .inl
    · rintro (set | ⟨j, above, below, -⟩)
      · exact set
      · omega
  | succ steps ih =>
    obtain ⟨new, changed', ran, length, contents, flag⟩ :=
      ih (words.set (i + 1) value) (i + 1) (next + 64) (changed || test (word words (i + 1)))
        (by omega) (by rw [List.length_set]; exact inside)
    have untouched (j : Nat) (other : i + 1 ≠ j) : word (words.set (i + 1) value) j = word words j := by
      rw [word_set value (by omega), if_neg other]
    refine ⟨new, changed', ?_, length.trans List.length_set, fun j => ?_, flag.trans ?_⟩
    · rw [fillWords, if_neg (by omega), ran]
      congr 3
      omega
    · rw [contents j]
      by_cases here : i + 1 = j
      · subst here
        rw [if_neg (by omega), if_pos (by omega), word_set value (by omega), if_pos rfl]
      · rw [untouched j here]
        exact if_congr (by omega) rfl rfl
    · rw [Bool.or_eq_true, or_assoc]
      refine or_congr Iff.rfl ⟨?_, ?_⟩
      · rintro (found | ⟨j, above, below, found⟩)
        · exact ⟨i + 1, by omega, by omega, found⟩
        · exact ⟨j, by omega, below, by rwa [untouched j (by omega)] at found⟩
      · rintro ⟨j, above, below, found⟩
        by_cases here : i + 1 = j
        · exact .inl (here ▸ found)
        · exact .inr ⟨j, by omega, below, by rwa [untouched j here]⟩

variable {words : List Word} {start last : Nat}

section

variable (elem : Word) (block : last / 64 = start / 64) (ordered : start ≤ last)
include block ordered

theorem setElem_eq :
    setElem elem start last = some (elem ||| rangeMask (start % 64) (last % 64),
      elem != elem ||| rangeMask (start % 64) (last % 64)) := by
  rw [setElem, if_pos ⟨block, ordered⟩]

theorem resetElem_eq :
    resetElem elem start last = some (elem &&& ~~~rangeMask (start % 64) (last % 64),
      elem != 0 && (elem &&& ~~~rangeMask (start % 64) (last % 64)) == 0) := by
  rw [resetElem, if_pos ⟨block, ordered⟩]

end

variable {elem : Word}

theorem ne_zero_of_or_rangeMask (ordered : low ≤ high)
    (small : high < 64) (same : (elem != elem ||| rangeMask low high) = false) : elem ≠ 0 := by
  have equal : elem = elem ||| rangeMask low high := by simpa using same
  refine ne_zero_iff.mpr ⟨high, small, ?_⟩
  rw [equal, BitVec.getLsbD_or, getLsbD_rangeMask ordered small]
  simp [ordered]

/-- Words that agree with a set block by block are that set. -/
theorem bits_eq_of_words (agree : ∀ index k, k < 64 →
    ((word words index).getLsbD k = true ↔ 64 * index + k ∈ positions)) :
    bits words = positions := by
  ext n
  have here := agree (n / 64) (n % 64) (by omega)
  rwa [show 64 * (n / 64) + n % 64 = n by omega] at here

/-- The words of a range that spans several: a head, full words and a tail. -/
theorem fillWords_between (test : Word → Bool) (value head : Word) (changed : Bool)
    (several : pos < lastpos) (inside : lastpos < words.length) :
    ∃ new changed', fillWords test value lastpos (lastpos - pos) (words.set pos head) pos
          (64 * pos + 63 + 1) changed = some (new, 64 * lastpos, changed') ∧
          word new lastpos = word words lastpos ∧
      (∀ tail, (new.set lastpos tail).length = words.length) ∧ (∀ tail j, word (new.set lastpos tail) j =
        if j = pos then head else if j = lastpos then tail
        else if pos < j ∧ j < lastpos then value else word words j) ∧ (changed' = true ↔
        changed = true ∨ ∃ j, pos < j ∧ j < lastpos ∧ test (word words j) = true) := by
  have headLength : (words.set pos head).length = words.length := List.length_set
  have other (j : Nat) (away : pos ≠ j) : word (words.set pos head) j = word words j := by
    rw [word_set head (by omega), if_neg away]
  have distance : pos + (lastpos - pos - 1) + 1 = lastpos := by omega
  obtain ⟨new, changed', ran, length, contents, flag⟩ :=
    fillWords_spec test value (words.set pos head) pos (64 * pos + 63 + 1) changed distance
      (by omega)
  rw [show lastpos - pos - 1 + 1 = lastpos - pos by omega,
    show 64 * pos + 63 + 1 + 64 * (lastpos - pos - 1) = 64 * lastpos by omega] at ran
  refine ⟨new, changed', ran, ?_, fun tail => ?_, fun tail j => ?_, flag.trans ?_⟩
  · rw [contents, if_neg (by omega), other _ (by omega)]
  · rw [List.length_set, length, headLength]
  · rw [word_set tail (by omega), contents]
    by_cases first : j = pos
    · rw [if_neg (by omega), if_neg (by omega), if_pos first, first, word_set head (by omega), if_pos rfl]
    · rw [if_neg first, other j (by omega)]
      exact if_congr eq_comm rfl rfl
  · refine or_congr Iff.rfl (exists_congr fun j => and_congr_right fun above => ?_)
    rw [other j (by omega)]

/-- What setting a range does to a level, and what an unchanged level means for
the one above. -/
structure RangeSet (words : List Word) (start last : Nat) (new : List Word) (changed : Bool) : Prop where
  length_eq : new.length = words.length
  bits_eq : bits new = bits words ∪ Set.Icc start last
  unchanged : changed = false → Set.Icc (start / 64) (last / 64) ⊆ blocks (bits words)

theorem setWords_several (several : start / 64 < last / 64) (inside : last / 64 < words.length) :
    ∃ new changed, setWords words start last = some (new, changed) ∧
    RangeSet words start last new changed := by
  have fits : ¬ words.length ≤ max (start / 64) (last / 64) := by omega
  have headElem := setElem_eq (word words (start / 64))
    (show (64 * (start / 64) + 63) / 64 = start / 64 by omega) (by omega)
  have tailElem := setElem_eq (word words (last / 64))
    (show last / 64 = 64 * (last / 64) / 64 by omega) (by omega)
  rw [show (64 * (start / 64) + 63) % 64 = 63 by omega] at headElem
  rw [show 64 * (last / 64) % 64 = 0 by omega] at tailElem
  generalize headValue : word words (start / 64) ||| rangeMask (start % 64) 63 = head at *
  generalize tailValue : word words (last / 64) ||| rangeMask 0 (last % 64) = tail at *
  obtain ⟨new, changed, ran, lastWord, length, contents, flag⟩ :=
    fillWords_between (· == 0) (BitVec.allOnes 64) head (word words (start / 64) != head)
      several inside
  refine ⟨new.set (last / 64) tail, changed || (word words (last / 64) != tail), ?_, length tail, ?_, ?_⟩
  · simp only [setWords, fits, several, if_false, if_true, or_sixtyThree, Nat.add_sub_cancel,
      headElem, Option.bind_eq_bind, Option.bind_some, ran, lastWord, tailElem]
  · refine bits_eq_of_words fun index k small => ?_
    rw [contents, Set.mem_union, mem_bits, bit_in_word small, Set.mem_Icc]
    split
    next here =>
      rw [← headValue, BitVec.getLsbD_or, Bool.or_eq_true,
        getLsbD_rangeMask (by omega) (by omega), decide_eq_true_eq, here]
      exact or_congr Iff.rfl (by omega)
    split
    next here =>
      rw [← tailValue, BitVec.getLsbD_or, Bool.or_eq_true,
        getLsbD_rangeMask (by omega) (by omega), decide_eq_true_eq, here]
      exact or_congr Iff.rfl (by omega)
    split
    · rw [BitVec.getLsbD_allOnes, decide_eq_true small]
      exact iff_of_true rfl (.inr (by omega))
    · exact (or_iff_left (by omega)).symm
  · intro same index range
    rw [Bool.or_eq_false_iff] at same
    have unchanged := mt flag.mpr (by simp [same.1])
    rw [not_or] at unchanged
    rw [← word_ne_zero_iff]
    rcases Nat.eq_or_lt_of_le range.1 with rfl | above
    · exact ne_zero_of_or_rangeMask (by omega) (by omega)
        (headValue ▸ Bool.not_eq_true _ ▸ unchanged.1)
    rcases Nat.eq_or_lt_of_le range.2 with rfl | short
    · exact ne_zero_of_or_rangeMask (by omega) (by omega) (tailValue ▸ same.2)
    · intro zero
      exact unchanged.2 ⟨index, above, short, by simp [zero]⟩

theorem setWords_single (ordered : start ≤ last) (block : last / 64 = start / 64)
    (inside : last / 64 < words.length) :
    ∃ new changed, setWords words start last = some (new, changed) ∧
    RangeSet words start last new changed := by
  have fits : ¬ words.length ≤ max (start / 64) (last / 64) := by omega
  have several : ¬ start / 64 < last / 64 := by omega
  refine ⟨words.set (start / 64) (word words (start / 64) ||| rangeMask (start % 64) (last % 64)),
    word words (start / 64) != word words (start / 64) ||| rangeMask (start % 64) (last % 64),
    ?_, List.length_set, ?_, ?_⟩
  · simp only [setWords, fits, several, setElem_eq _ block ordered]
    rfl
  · refine bits_eq_of_words fun index k small => ?_
    rw [word_set _ (by omega), Set.mem_union, mem_bits, bit_in_word small, Set.mem_Icc]
    split
    next here =>
      rw [BitVec.getLsbD_or, Bool.or_eq_true, getLsbD_rangeMask (by omega) (by omega),
        decide_eq_true_eq, ← here]
      exact or_congr Iff.rfl (by omega)
    · exact (or_iff_left (by omega)).symm
  · intro same index range
    have here : index = start / 64 := by
      rw [Set.mem_Icc] at range
      omega
    rw [here, ← word_ne_zero_iff]
    exact ne_zero_of_or_rangeMask (by omega) (by omega) same

theorem setWords_spec (ordered : start ≤ last) (inside : last / 64 < words.length) :
    ∃ new changed, setWords words start last = some (new, changed) ∧
    RangeSet words start last new changed := by
  rcases Nat.eq_or_lt_of_le (Nat.div_le_div_right (c := 64) ordered) with block | several
  · exact setWords_single ordered block.symm inside
  · exact setWords_several several inside

/-- What resetting a range does to a level, and the range of words that it
leaves to reset in the level above. -/
structure RangeReset (words : List Word) (start last : Nat) (new : List Word) (changed : Bool)
    (pos lastpos : Nat) : Prop where
  length_eq : new.length = words.length
  bits_eq : bits new = bits words \ Set.Icc start last
  unchanged : changed = false → blocks (bits new) = blocks (bits words)
  changed_range : changed = true → pos ≤ lastpos ∧ lastpos ≤ last / 64
  changed_blocks : changed = true → blocks (bits new) = blocks (bits words) \ Set.Icc pos lastpos

/-- A blanked element is zero, any other one is in use exactly when it was. -/
theorem blanked_iff (value : elem &&& mask = new)
    (flag : (elem != 0 && new == 0) = blanked) :
    new ≠ 0 ↔ elem ≠ 0 ∧ blanked = false := by
  subst value
  rw [← flag, Bool.and_eq_false_iff, bne_eq_false_iff_eq, beq_eq_false_iff_ne]
  constructor
  · intro used
    refine ⟨?_, .inr used⟩
    rintro rfl
    exact used BitVec.zero_and
  · rintro ⟨used, zero | kept⟩
    · exact absurd zero used
    · exact kept

theorem blocks_eq_diff
    (used : ∀ index, word new index ≠ 0 ↔ word words index ≠ 0 ∧ index ∉ removed) :
    blocks (bits new) = blocks (bits words) \ removed := by
  ext index
  rw [Set.mem_sdiff, ← word_ne_zero_iff, ← word_ne_zero_iff]
  exact used index

theorem getLsbD_and_not_rangeMask (ordered : low ≤ high) (small : high < 64) (inside : k < 64) :
    (elem &&& ~~~rangeMask low high).getLsbD k = true ↔ elem.getLsbD k = true ∧
    ¬ (low ≤ k ∧ k ≤ high) := by
  rw [BitVec.getLsbD_and, BitVec.getLsbD_not, getLsbD_rangeMask ordered small, decide_eq_true inside,
    Bool.true_and, Bool.and_eq_true, Bool.not_eq_true', decide_eq_false_iff_not]

theorem resetWords_several (several : start / 64 < last / 64) (inside : last / 64 < words.length) :
    ∃ new changed pos lastpos, resetWords words start last = some (new, changed, pos, lastpos) ∧
      RangeReset words start last new changed pos lastpos := by
  have fits : ¬ words.length ≤ max (start / 64) (last / 64) := by omega
  have headElem := resetElem_eq (word words (start / 64))
    (show (64 * (start / 64) + 63) / 64 = start / 64 by omega) (by omega)
  have tailElem := resetElem_eq (word words (last / 64))
    (show last / 64 = 64 * (last / 64) / 64 by omega) (by omega)
  rw [show (64 * (start / 64) + 63) % 64 = 63 by omega] at headElem
  rw [show 64 * (last / 64) % 64 = 0 by omega] at tailElem
  generalize headValue : word words (start / 64) &&& ~~~rangeMask (start % 64) 63 = head at *
  generalize tailValue : word words (last / 64) &&& ~~~rangeMask 0 (last % 64) = tail at *
  generalize headFlag : (word words (start / 64) != 0 && head == 0) = blanked at *
  generalize tailFlag : (word words (last / 64) != 0 && tail == 0) = blankedLast at *
  obtain ⟨new, changed, ran, lastWord, length, contents, flag⟩ :=
    fillWords_between (· != 0) 0 head blanked several inside
  have headUsed := blanked_iff headValue headFlag
  have tailUsed := blanked_iff tailValue tailFlag
  have used : ∀ index, word (new.set (last / 64) tail) index ≠ 0 ↔ word words index ≠ 0 ∧
      index ∉ Set.Icc (if blanked then start / 64 else start / 64 + 1)
        (if blankedLast then last / 64 else last / 64 - 1) := by
    intro index
    rw [contents]
    split
    next here =>
      rw [headUsed, here]
      cases blanked <;> cases blankedLast <;> simp <;> omega
    split
    next here =>
      rw [tailUsed, here]
      cases blanked <;> cases blankedLast <;> simp <;> omega
    split
    · refine iff_of_false (fun absurdity => absurdity rfl) (fun both => both.2 ?_)
      cases blanked <;> cases blankedLast <;> simp <;> omega
    · refine (and_iff_left ?_).symm
      cases blanked <;> cases blankedLast <;> simp <;> omega
  refine ⟨new.set (last / 64) tail, changed || blankedLast, _, _, ?_,
    { length_eq := length tail, bits_eq := ?_, unchanged := ?_, changed_range := ?_,
      changed_blocks := fun _ => blocks_eq_diff used }⟩
  · simp only [resetWords, fits, several, if_false, if_true, or_sixtyThree, Nat.add_sub_cancel,
      headElem, Option.bind_eq_bind, Option.bind_some, ran, lastWord, tailElem]
  · refine bits_eq_of_words fun index k small => ?_
    rw [contents, Set.mem_sdiff, mem_bits, bit_in_word small, Set.mem_Icc]
    split
    next here =>
      rw [← headValue, getLsbD_and_not_rangeMask (by omega) (by omega) small, here]
      exact and_congr_right fun _ => not_congr (by omega)
    split
    next here =>
      rw [← tailValue, getLsbD_and_not_rangeMask (by omega) (by omega) small, here]
      exact and_congr_right fun _ => not_congr (by omega)
    split
    · exact iff_of_false (by simp) (fun both => both.2 (by omega))
    · exact (and_iff_left (by omega)).symm
  · intro same
    obtain ⟨noneChanged, keptLast⟩ := Bool.or_eq_false_iff.mp same
    have unchanged := mt flag.mpr (by simp [noneChanged])
    rw [not_or, Bool.not_eq_true] at unchanged
    rw [blocks_eq_diff used, unchanged.1, keptLast]
    ext index
    rw [Set.mem_sdiff, ← word_ne_zero_iff]
    refine and_iff_left_of_imp fun nonzero range => unchanged.2 ⟨index, ?_, ?_, bne_iff_ne.mpr nonzero⟩
    · simp at range; omega
    · simp at range; omega
  · intro moved
    rcases Bool.or_eq_true _ _ ▸ moved with some | lastOnly
    · rcases flag.mp some with headBlanked | ⟨j, above, below, -⟩
      · rw [headBlanked]
        cases blankedLast <;> simp <;> omega
      · cases blanked <;> cases blankedLast <;> simp <;> omega
    · rw [lastOnly]
      cases blanked <;> simp <;> omega

theorem resetWords_single (ordered : start ≤ last) (block : last / 64 = start / 64)
    (inside : last / 64 < words.length) :
    ∃ new changed pos lastpos, resetWords words start last = some (new, changed, pos, lastpos) ∧
      RangeReset words start last new changed pos lastpos := by
  have fits : ¬ words.length ≤ max (start / 64) (last / 64) := by omega
  have several : ¬ start / 64 < last / 64 := by omega
  have elem := resetElem_eq (word words (start / 64)) block ordered
  generalize value : word words (start / 64) &&& ~~~rangeMask (start % 64) (last % 64) = new at *
  generalize flag : (word words (start / 64) != 0 && new == 0) = blanked at *
  have used : ∀ index, word (words.set (start / 64) new) index ≠ 0 ↔
      word words index ≠ 0 ∧ index ∉ (if blanked then {start / 64} else ∅ : Set Nat) := by
    intro index
    rw [word_set _ (by omega)]
    split
    next here =>
      rw [blanked_iff value flag, here]
      cases blanked <;> simp
    next away =>
      refine (and_iff_left ?_).symm
      cases blanked <;> simp [Ne.symm away]
  refine ⟨words.set (start / 64) new, blanked, start / 64,
    if blanked then last / 64 else last / 64 - 1, ?_,
    { length_eq := List.length_set, bits_eq := ?_, unchanged := ?_, changed_range := ?_,
      changed_blocks := ?_ }⟩
  · simp only [resetWords, fits, several, elem]
    rfl
  · refine bits_eq_of_words fun index k small => ?_
    rw [word_set _ (by omega), Set.mem_sdiff, mem_bits, bit_in_word small, Set.mem_Icc]
    split
    next here =>
      rw [← value, getLsbD_and_not_rangeMask (by omega) (by omega) small, ← here]
      exact and_congr_right fun _ => not_congr (by omega)
    · exact (and_iff_left (by omega)).symm
  · rintro rfl
    rw [blocks_eq_diff used]
    simp
  · rintro rfl
    simp only [if_true]
    omega
  · rintro rfl
    rw [blocks_eq_diff used, block]
    simp

theorem resetWords_spec (ordered : start ≤ last) (inside : last / 64 < words.length) :
    ∃ new changed pos lastpos, resetWords words start last = some (new, changed, pos, lastpos) ∧
      RangeReset words start last new changed pos lastpos := by
  rcases Nat.eq_or_lt_of_le (Nat.div_le_div_right (c := 64) ordered) with block | several
  · exact resetWords_single ordered block.symm inside
  · exact resetWords_several several inside

/-- A range that ends before it starts runs into an assertion. -/
theorem setWords_unordered (unordered : last < start) : setWords words start last = none := by
  have several : ¬ start / 64 < last / 64 := by omega
  have failed : setElem (word words (start / 64)) start last = none := by
    rw [setElem, if_neg (by omega)]
  simp only [setWords, failed]
  split <;> rfl

theorem resetWords_unordered (unordered : last < start) : resetWords words start last = none := by
  have several : ¬ start / 64 < last / 64 := by omega
  have failed : resetElem (word words (start / 64)) start last = none := by
    rw [resetElem, if_neg (by omega)]
  simp only [resetWords, failed]
  split <;> rfl

end OneLevel

end Qemu.HBitmap
