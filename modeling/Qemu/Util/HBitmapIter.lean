import Qemu.Util.HBitmapSkip

namespace Qemu.HBitmap

open BitWords Function Option Nat

/-- The iterator stands before position `next` of the last level. -/
structure Tracks (kept seen : Nat → Set Nat) (levels : Levels) (hbi : HBitmapIter) (next : Nat) :
    Prop where
  ahead : Ahead kept seen hbi.cur 7 hbi.pos (next - 64 * hbi.pos)
  inside : hbi.pos < (levels 6).length
  low : 64 * hbi.pos ≤ next
  high : next ≤ 64 * (hbi.pos + 1)

/-- Its words are not stale. -/
abbrev Iterating (levels : Levels) : HBitmapIter → Nat → Prop :=
  Tracks (fun i => bits (levels i)) (fun i => bits (levels i)) levels

/-- The word that holds the first set bits from `next` on. -/
structure NextWord (levels : Levels) (next pos : Nat) (cur : Word) : Prop where
  nonzero : cur ≠ 0
  early : next ≤ 64 * (pos + 1)
  skipped : ∀ n, next ≤ n → n < 64 * pos → n ∉ bits (levels 6)
  shows : ∀ k, cur.getLsbD k = true ↔ k < 64 ∧ next ≤ 64 * pos + k ∧ 64 * pos + k ∈ bits (levels 6)

section Iteration

variable {levels : Levels} {hbi : HBitmapIter} {next : Nat}

theorem iterInitCur_other (high : top ≤ j) : iterInitCur levels top pos cur j = cur j := by
  induction top generalizing pos cur with
  | zero => rfl
  | succ top ih =>
    rw [iterInitCur, ih (by omega), update_of_ne (by omega)]

theorem iterInitCur_ahead (upper : top ≤ 7) : Ahead (fun i => bits (levels i)) (fun i => bits (levels i))
    (iterInitCur levels top pos cur) top (pos / 64) (if top = 7 then pos % 64 else pos % 64 + 1) := by
  induction top generalizing pos cur with
  | zero => trivial
  | succ top ih => ?_
  have shown (k : Nat) : (iterInitCur levels (top + 1) pos cur top).getLsbD k = true ↔
      k < 64 ∧ (if top + 1 = 7 then pos % 64 else pos % 64 + 1) ≤ k ∧
      64 * (pos / 64) + k ∈ bits (levels top) := by
    rw [iterInitCur, iterInitCur_other (le_refl top), update_self, mem_bits]
    by_cases small : k < 64
    swap
    · exact iff_of_false (fun set => small (BitVec.lt_of_getLsbD set)) (by omega)
    rw [bit_in_word small]
    by_cases last : top = 6
    · rw [if_pos last, if_pos (by omega), BitVec.getLsbD_and, BitVec.getLsbD_not,
        getLsbD_lowMask (by omega)]
      simp [small, and_comm]
    rw [if_neg last, if_neg (by omega), BitVec.getLsbD_and, BitVec.getLsbD_and, BitVec.getLsbD_not,
      BitVec.getLsbD_not, getLsbD_lowMask (by omega), getLsbD_one_shiftLeft (by omega)]
    simp only [small, decide_true, Bool.and_eq_true, Bool.not_eq_true', decide_eq_false_iff_not, true_and]
    constructor
    · rintro ⟨⟨set, above⟩, other⟩
      exact ⟨by omega, set⟩
    · rintro ⟨above, set⟩
      exact ⟨⟨set, by omega⟩, by omega⟩
  refine ⟨fun k set => ((shown k).mp set).2,
    fun k small above live => (shown k).mpr ⟨small, above, live⟩, ?_⟩
  have low : (if top = 7 then pos / 64 % 64 else pos / 64 % 64 + 1) = pos / 64 % 64 + 1 :=
    if_neg (by omega)
  rw [← low]
  exact ih (by omega)

theorem iterInit_spec {hb : HBitmap} (inside : group < hb.size)
    (fits : group / 64 < (hb.levels 6).length) (grouped : first / 2 ^ hb.granularity = group) :
    ∃ hbi, hb.iterInit first = some hbi ∧ Iterating hb.levels hbi group := by
  refine ⟨⟨group / 64, iterInitCur hb.levels 7 group fun _ => 0⟩,
    by rw [iterInit, grouped, if_pos inside], ?_, fits, by dsimp only; omega, by dsimp only; omega⟩
  rw [show group - 64 * (group / 64) = group % 64 by omega]
  exact iterInitCur_ahead (le_refl 7)

section

variable {kept seen : Nat → Set Nat} (stacked : Stacked levels) (summarised : Summarised levels 6)
  (keeps : Keeps levels kept seen) (tracks : Tracks kept seen levels hbi next)
include keeps tracks

theorem Tracks.here (left : hbi.cur 6 &&& word (levels 6) hbi.pos ≠ 0) :
    Reached levels kept seen 6 next ⟨6, hbi.pos, hbi.cur 6 &&& word (levels 6) hbi.pos, hbi.cur⟩ := by
  have reached := tracks.ahead.reached keeps (Nat.le_refl 6) left
  rwa [Nat.add_sub_cancel' tracks.low] at reached

include stacked summarised

/-- With no bit left in its word, the iterator moves to the next word in use. -/
theorem iterSkipWords_cases (empty : hbi.cur 6 &&& word (levels 6) hbi.pos = 0) :
    (iterSkipWords levels hbi = some (0, hbi) ∧ ∀ n ∈ kept 6, n < next) ∨
    ∃ walk, iterSkipWords levels hbi = some (walk.cur, ⟨walk.pos, walk.hbiCur⟩) ∧
      Reached levels kept seen 6 next walk := by
  have block : 64 * hbi.pos / 64 = hbi.pos := by omega
  have high := tracks.high
  have skipped := @skip_spec levels kept seen 5 (next - 64 * hbi.pos) (64 * hbi.pos) hbi keeps
    stacked summarised
    (by rw [block]; exact tracks.ahead) (by omega) (by omega) (by rw [block]; exact tracks.inside)
  rw [block, Nat.add_sub_cancel' tracks.low] at skipped
  have climbed : climb levels hbi 7 (64 * hbi.pos) = climb levels hbi 6 hbi.pos := by
    rw [climb, block, if_pos empty]
  rcases skipped with ⟨finished, nothing⟩ | ⟨j, p, w, walk, found, under, more, descended, reached⟩
  · rw [climbed] at finished
    refine .inl ⟨by simp [iterSkipWords, finished], fun n member => ?_⟩
    by_contra late
    exact absurd (nothing n member (by omega)).1 (by decide)
  · rw [climbed] at found
    refine .inr ⟨walk, ?_, reached⟩
    simp only [iterSkipWords, found, bind_eq_bind, bind_some, more, if_false, descended, reached.nonzero]

end

/-- The word reached holds the first set bits, and can be used up. -/
theorem Reached.nextWord
    (reached : Reached levels (fun i => bits (levels i)) (fun i => bits (levels i)) 6 next walk) :
    NextWord levels next walk.pos walk.cur ∧
      Iterating levels ⟨walk.pos, update walk.hbiCur 6 0⟩ (64 * (walk.pos + 1)) := by
  have small := ctz_lt reached.nonzero
  obtain ⟨late, live⟩ := reached.shows _ (getLsbD_ctz reached.nonzero)
  have inside := lt_of_mem_bits live
  refine ⟨⟨reached.nonzero, by omega, fun n high early set => ?_,
    fun k => ⟨fun set => ⟨BitVec.lt_of_getLsbD set, reached.shows k set⟩,
    fun ⟨small, high, set⟩ => ?_⟩⟩, ⟨fun k => by simp, fun k below above => ?_, ?_⟩,
      by dsimp only; omega, by dsimp only; omega, le_refl _⟩
  · have := (reached.keeps n set high).1
    omega
  · have here := (reached.keeps _ set high).2 (by omega)
    rwa [show (64 * walk.pos + k) % 64 = k by omega] at here
  · dsimp only at above
    omega
  · exact reached.ahead.congr fun l below => update_of_ne (Nat.ne_of_lt below) _ _

variable (stacked : Stacked levels) (summarised : Summarised levels 6)
  (iterating : Iterating levels hbi next)
include stacked summarised iterating

theorem iterNextWord_spec :
    (∃ hbi', iterNextWord levels hbi = some (none, hbi') ∧ ∀ n, next ≤ n → n ∉ bits (levels 6)) ∨
    ∃ pos cur hbi', iterNextWord levels hbi = some (some (pos, cur), hbi') ∧
      NextWord levels next pos cur ∧ Iterating levels hbi' (64 * (pos + 1)) ∧
      hbi'.pos = pos ∧ hbi'.cur 6 = 0 ∧ hbi.pos ≤ pos ∧ (hbi.cur 6 = 0 → hbi.pos < pos) := by
  have keeps := keeps_live summarised
  have whole : hbi.cur 6 &&& word (levels 6) hbi.pos = hbi.cur 6 := by
    refine BitVec.eq_of_getLsbD_eq fun k small => ?_
    rw [BitVec.getLsbD_and, Bool.and_eq_left_iff_imp]
    intro set
    rw [← bit_in_word small]
    exact (iterating.ahead.1 k set).2
  have low := iterating.low
  by_cases empty : hbi.cur 6 = 0
  · rcases iterSkipWords_cases stacked summarised keeps iterating (whole.trans empty) with
      ⟨finished, nothing⟩ | ⟨walk, moved, reached⟩
    · refine .inl ⟨hbi, ?_, fun n late set => absurd (nothing n set) (by omega)⟩
      simp [iterNextWord, empty, finished]
    obtain ⟨word, rest⟩ := reached.nextWord
    have small := ctz_lt reached.nonzero
    obtain ⟨late, live⟩ := reached.shows _ (getLsbD_ctz reached.nonzero)
    have further : hbi.pos < walk.pos := by
      by_contra same
      have left := iterating.ahead.left keeps (le_refl 6) live (by omega) (by omega)
      rw [empty] at left
      simp at left
    refine .inr ⟨walk.pos, walk.cur, _, ?_, word, rest, rfl, update_self 6 0 walk.hbiCur, by omega,
      fun _ => further⟩
    simp only [iterNextWord, empty, if_true, moved, bind_eq_bind, bind_some, reached.nonzero, if_false]
  · have reached := iterating.here keeps (by rwa [whole])
    obtain ⟨word, rest⟩ := reached.nextWord
    rw [whole] at word
    refine .inr ⟨hbi.pos, hbi.cur 6, _, ?_, word, rest, rfl, update_self 6 0 hbi.cur, le_refl _,
      fun zero => absurd zero empty⟩
    simp only [iterNextWord, empty, if_false, bind_eq_bind, bind_some]

end Iteration

section Counting

variable {levels : Levels} {start stop next : Nat} {state : Nat × HBitmapIter}

/-- Whether a position of the last level is set. -/
abbrev IsSet (levels : Levels) (n : Nat) : Prop := bit (levels 6) n = true

/-- The loop state once the set bits from `start` up to `next` are counted. -/
structure Counted (levels : Levels) (start stop : Nat) (state : Nat × HBitmapIter) (next : Nat) :
    Prop where
  iterating : Iterating levels state.2 next
  later : start ≤ next
  early : next ≤ stop
  total : state.1 = countFrom (IsSet levels) start next

/-- The rounds left: the word at hand, if it is not used up, and those after it. -/
def roundsLeft (stop : Nat) (state : Nat × HBitmapIter) : Nat :=
  stop / 64 - state.2.pos + if state.2.cur 6 = 0 then 0 else 1

variable (stacked : Stacked levels) (summarised : Summarised levels 6)
include stacked summarised

theorem countWord_spec (counted : Counted levels start stop state next) :
    Loop.Decides (fun later => (∃ next', Counted levels start stop later next') ∧
      roundsLeft stop later < roundsLeft stop state) (· = countFrom (IsSet levels) start stop)
      (countWord levels stop state) := by
  have upTo := countFrom_trans (p := IsSet levels) counted.later counted.early
  have early := counted.early
  rcases iterNextWord_spec stacked summarised counted.iterating with
    ⟨hbi, finished, nothing⟩ | ⟨pos, cur, hbi, found, next', rest, here, clear, onward, moved⟩
  · have none : countFrom (IsSet levels) next stop = 0 := countFrom_eq_zero fun n low _ => nothing n low
    rw [countWord, finished, upTo, none, add_zero]
    exact counted.total
  have high := next'.early
  -- from `next` up to this word there is no set bit
  have gap {bound : Nat} (word : 64 * pos ≤ bound) (late : next ≤ bound) :
      countFrom (IsSet levels) next bound = countFrom (IsSet levels) (max next (64 * pos)) bound := by
    have none : countFrom (IsSet levels) next (max next (64 * pos)) = 0 :=
      countFrom_eq_zero fun n low below => next'.skipped n low (by omega)
    rw [countFrom_trans (le_max_left next (64 * pos)) (max_le late word), none, zero_add]
  rcases lt_trichotomy pos (stop / 64) with before | same | past
  · simp only [countWord, found, before, bind_eq_bind, bind_some, if_true]
    refine ⟨⟨64 * (pos + 1), rest, ?_, ?_, ?_⟩, ?_⟩
    · exact counted.later.trans high
    · omega
    · have whole : popcount cur = countFrom (IsSet levels) (max next (64 * pos)) (64 * (pos + 1)) := by
        refine popcount_eq_countFrom (le_max_right _ _) (by omega) (le_refl _) fun k small => ?_
        rw [next'.shows]
        exact ⟨fun both => ⟨both.2.2, by omega, by omega⟩, fun both => ⟨small, by omega, both.1⟩⟩
      rw [countFrom_trans counted.later high, gap (by omega) high, counted.total, whole]
    · simp only [roundsLeft, clear, if_true]
      split
      next empty =>
        have := moved empty
        omega
      · omega
  · have part : popcount (cur &&& lowMask (stop % 64)) = countFrom (IsSet levels)
      (max next (64 * pos)) stop := by
      refine popcount_eq_countFrom (le_max_right _ _) (by omega) (by omega) fun k small => ?_
      rw [BitVec.getLsbD_and, Bool.and_eq_true, next'.shows, getLsbD_lowMask (by omega), decide_eq_true_eq]
      exact ⟨fun both => ⟨both.1.2.2, by omega, by omega⟩,
        fun both => ⟨⟨small, by omega, both.1⟩, by omega⟩⟩
    rw [upTo, gap (by omega) early, ← counted.total, ← part]
    simp [countWord, found, same, Loop.Decides]
  · have none : countFrom (IsSet levels) next stop = 0 :=
      countFrom_eq_zero fun n low below => next'.skipped n low (by omega)
    simp [countWord, found, not_lt.mpr past.le, ne_of_gt past, Loop.Decides, upTo, counted.total, none]

end Counting

/-- Counting a range walks over the words in use and adds up their bits. -/
theorem countBetween_spec {hb : HBitmap} (stacked : Stacked hb.levels)
    (summarised : Summarised hb.levels 6) {start last : Nat} (ordered : start ≤ last)
    (inside : last < hb.size) (fits : hb.size ≤ 64 * (hb.levels 6).length) :
    hb.countBetween start last = some (countFrom (IsSet hb.levels) start (last + 1)) := by
  obtain ⟨hbi, started, iterating⟩ := iterInit_spec (show start < hb.size by omega) (by omega)
    (Nat.mul_div_cancel start (Nat.two_pow_pos hb.granularity))
  have initial : Counted hb.levels start (last + 1) (0, hbi) start :=
    ⟨iterating, Nat.le_refl _, by omega, by simp [countFrom]⟩
  have enough : roundsLeft (last + 1) (0, hbi) < (last + 1) / 64 + 2 := by
    simp only [roundsLeft]
    split <;> omega
  obtain ⟨result, ran, value⟩ := Loop.run_spec
    (fun state => ∃ next, Counted hb.levels start (last + 1) state next)
    (roundsLeft (last + 1)) (fun state some => some.elim fun _ => countWord_spec stacked summarised)
    ⟨start, initial⟩ enough
  rw [countBetween, started, bind_eq_bind, bind_some, ran, value]

end Qemu.HBitmap
