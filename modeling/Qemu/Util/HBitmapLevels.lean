import Qemu.Util.HBitmapRange

namespace Qemu.HBitmap

open BitWords Function

section Stack

/-- The positions in use at a level besides those of its words below. -/
def guard (level : Nat) : Set Nat := if level = 0 then {63} else ∅

/-- Each level above `top` holds the bits of the words in use one level down. -/
def Summarised (levels : Levels) (top : Nat) : Prop :=
  ∀ i < top, bits (levels i) = blocks (bits (levels (i + 1))) ∪ guard i

/-- Every word has its bit in the level above, below the guard of level 0. -/
structure Stacked (levels : Levels) : Prop where
  room : ∀ i < 6, (levels (i + 1)).length ≤ 64 * (levels i).length
  short : (levels 1).length ≤ 63

variable {levels : Levels} {words : List Word} {start last level : Nat}

theorem Stacked.of_lengths (stacked : Stacked levels)
    (same : ∀ i, (new i).length = (levels i).length) : Stacked new := by
  refine ⟨fun i below => ?_, ?_⟩
  · rw [same, same]
    exact stacked.room i below
  · rw [same]
    exact stacked.short

theorem length_update (length : words.length = (levels level).length) (i : Nat) :
    (update levels level words i).length = (levels i).length := by
  by_cases here : i = level
  · subst here
    rw [update_self, length]
  · rw [update_of_ne here]

theorem Summarised.mono (summarised : Summarised levels top) (below : level ≤ top) :
    Summarised levels level := fun i early => summarised i (by omega)

theorem Summarised.updated (summarised : Summarised levels top) (below : top < level)
    (words : List Word) : Summarised (update levels level words) top := by
  intro i early
  rw [update_of_ne (by omega), update_of_ne (by omega)]
  exact summarised i early

/-- What a range operation on a level leaves: the positions of that level, the
levels below it, the lengths, and the summaries above it. -/
structure Updated (levels : Levels) (level : Nat) (positions : Set Nat) (new : Levels) : Prop where
  length_eq : ∀ i, (new i).length = (levels i).length
  bits_eq : bits (new level) = positions
  below : ∀ i, level < i → new i = levels i
  summarised : Summarised new level

/-- An operation that ends at a level, its summaries untouched and still right. -/
theorem Updated.stop (length : words.length = (levels level).length)
    (summarised : Summarised (update levels level words) level) :
    Updated levels level (bits words) (update levels level words) where
  length_eq := length_update length
  bits_eq := by rw [update_self]
  below i above := update_of_ne (by omega) _ _
  summarised := summarised

theorem Updated.up (length : words.length = (levels (level + 1)).length)
    (upper : Updated (update levels (level + 1) words) level positions new)
    (summary : positions = blocks (bits words) ∪ guard level) :
    Updated levels (level + 1) (bits words) new where
  length_eq i := (upper.length_eq i).trans (length_update length i)
  bits_eq := by rw [upper.below _ (by omega), update_self]
  below i above := by rw [upper.below i (by omega), update_of_ne (by omega)]
  summarised i early := by
    rcases Nat.lt_succ_iff_lt_or_eq.mp early with under | rfl
    · exact upper.summarised i under
    · rw [upper.bits_eq, upper.below _ (by omega), update_self, summary]

theorem Summarised.stop (summarised : Summarised levels (level + 1))
    (summary : bits (levels level) = blocks (bits words) ∪ guard level) :
    Summarised (update levels (level + 1) words) (level + 1) := by
  intro i early
  rcases Nat.lt_succ_iff_lt_or_eq.mp early with under | rfl
  · rw [update_of_ne (by omega), update_of_ne (by omega)]
    exact summarised i early
  · rw [update_self, update_of_ne (by omega), summary]

section

variable (stacked : Stacked levels) (summarised : Summarised levels level) (bottom : level ≤ 6)
    (ordered : start ≤ last) (inside : last / 64 < (levels level).length)
include stacked summarised bottom ordered inside

theorem setBetween_spec : ∃ new, setBetween levels level start last = some new ∧
      Updated levels level (bits (levels level) ∪ Set.Icc start last) new := by
  induction level generalizing levels start last with
  | zero =>
    obtain ⟨words, changed, ran, wrote⟩ := setWords_spec ordered inside
    refine ⟨update levels 0 words, ?_, ?_⟩
    · simp only [setBetween, ran]
      rfl
    · rw [← wrote.bits_eq]
      exact .stop wrote.length_eq fun i early => absurd early (Nat.not_lt_zero i)
  | succ level ih =>
    obtain ⟨words, changed, ran, wrote⟩ := setWords_spec ordered inside
    have parents := blocks_union (bits (levels (level + 1))) (Set.Icc start last)
    rw [← wrote.bits_eq, blocks_Icc ordered] at parents
    have summary := summarised level (by omega)
    cases changed with
    | false =>
      refine ⟨update levels (level + 1) words, ?_, ?_⟩
      · simp only [setBetween, ran]
        rfl
      · rw [← wrote.bits_eq]
        refine .stop wrote.length_eq (summarised.stop ?_)
        rw [parents, Set.union_eq_left.mpr (wrote.unchanged rfl)]
        exact summary
    | true =>
      have lengths := @length_update levels _ _ wrote.length_eq
      have room := stacked.room level (by omega)
      obtain ⟨new, rest, upper⟩ := ih (stacked.of_lengths lengths)
        ((summarised.mono (Nat.le_succ level)).updated (Nat.lt_succ_self level) words) (by omega)
        (Nat.div_le_div_right (c := 64) ordered) (by rw [lengths]; omega)
      refine ⟨new, ?_, ?_⟩
      · simp only [setBetween, ran]
        exact rest
      · rw [← wrote.bits_eq]
        refine .up wrote.length_eq upper ?_
        rw [update_of_ne (by omega), parents, summary, Set.union_right_comm]

theorem resetBetween_spec : ∃ new, resetBetween levels level start last = some new ∧
      Updated levels level (bits (levels level) \ Set.Icc start last) new := by
  induction level generalizing levels start last with
  | zero =>
    obtain ⟨words, changed, pos, lastpos, ran, wrote⟩ := resetWords_spec ordered inside
    refine ⟨update levels 0 words, ?_, ?_⟩
    · simp only [resetBetween, ran]
      rfl
    · rw [← wrote.bits_eq]
      exact .stop wrote.length_eq fun i early => absurd early (Nat.not_lt_zero i)
  | succ level ih => ?_
  obtain ⟨words, changed, pos, lastpos, ran, wrote⟩ := resetWords_spec ordered inside
  have summary := summarised level (by omega)
  cases changed with
  | false =>
    refine ⟨update levels (level + 1) words, ?_, ?_⟩
    · simp only [resetBetween, ran]
      rfl
    · rw [← wrote.bits_eq]
      refine .stop wrote.length_eq (summarised.stop ?_)
      rw [wrote.unchanged rfl]
      exact summary
  | true =>
    have lengths := @length_update levels _ _ wrote.length_eq
    have room := stacked.room level (by omega)
    obtain ⟨nonempty, high⟩ := wrote.changed_range rfl
    obtain ⟨new, rest, upper⟩ := ih (stacked.of_lengths lengths)
      ((summarised.mono (Nat.le_succ level)).updated (Nat.lt_succ_self level) words) (by omega)
      nonempty (by rw [lengths]; omega)
    refine ⟨new, ?_, ?_⟩
    · simp only [resetBetween, ran]
      exact rest
    rw [← wrote.bits_eq]
    refine .up wrote.length_eq upper ?_
    -- the guard of level 0 lies above every word of level 1
    have apart : guard level \ Set.Icc pos lastpos = guard level := by
      refine sdiff_eq_left.mpr (Set.disjoint_left.mpr fun n mem range => ?_)
      unfold guard at mem
      split at mem
      next top =>
        subst top
        have short : (levels (0 + 1)).length ≤ 63 := stacked.short
        rw [Set.mem_singleton_iff] at mem
        have := range.2
        omega
      · exact mem
    rw [update_of_ne (by omega), wrote.changed_blocks rfl, summary, Set.union_sdiff_distrib, apart]

end

theorem setBetween_unordered (unordered : last < start) : setBetween levels level start last = none := by
  cases level with
  | zero => simp only [setBetween, setWords_unordered unordered]; rfl
  | succ level => simp only [setBetween, setWords_unordered unordered]; rfl

theorem resetBetween_unordered (unordered : last < start) :
    resetBetween levels level start last = none := by
  cases level with
  | zero => simp only [resetBetween, resetWords_unordered unordered]; rfl
  | succ level => simp only [resetBetween, resetWords_unordered unordered]; rfl

end Stack

end Qemu.HBitmap
