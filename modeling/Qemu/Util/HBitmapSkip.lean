import Qemu.Util.HBitmapLevels

/-! How an iterator finds the next bit through the levels of a bitmap. The words that it caches may
be stale: they can hold bits that are set no more, but they hold every bit that is kept. -/

namespace Qemu.HBitmap

open BitWords Function

/-- The cached words of the levels below `top`, where the last of them is at word `q` from bit `low`
on: bits after the way down only, all of them `seen`, and among them every `kept` one. -/
def Ahead (kept seen : Nat → Set Nat) (cur : Nat → Word) : Nat → Nat → Nat → Prop
  | 0, _, _ => True
  | i + 1, q, low =>
    (∀ k, (cur i).getLsbD k = true → low ≤ k ∧ 64 * q + k ∈ seen i) ∧
    (∀ k < 64, low ≤ k → 64 * q + k ∈ kept i → (cur i).getLsbD k = true) ∧
    Ahead kept seen cur i (q / 64) (q % 64 + 1)

/-- What is kept is set and what is set is seen; a kept bit keeps the one above it, and the sentinel
is kept. -/
structure Keeps (levels : Levels) (kept seen : Nat → Set Nat) : Prop where
  live : ∀ i ≤ 6, kept i ⊆ bits (levels i)
  seen : ∀ i ≤ 6, bits (levels i) ⊆ seen i
  up : ∀ i < 6, blocks (kept (i + 1)) ⊆ kept i
  guarded : 63 ∈ kept 0

/-- A walk that has come to a word of level `i` with bits from `start` on, before which none is
kept. -/
structure Reached (levels : Levels) (kept seen : Nat → Set Nat) (i start : Nat) (walk : Descent) :
    Prop where
  level : walk.i = i
  nonzero : walk.cur ≠ 0
  shows : ∀ k, walk.cur.getLsbD k = true → start ≤ 64 * walk.pos + k ∧ 64 * walk.pos + k ∈ bits (levels i)
  keeps : ∀ n ∈ kept i, start ≤ n → walk.pos ≤ n / 64 ∧
    (n / 64 = walk.pos → walk.cur.getLsbD (n % 64) = true)
  ahead : Ahead kept seen walk.hbiCur i (walk.pos / 64) (walk.pos % 64 + 1)

/-- The climb from level `i` and the walk back down to it find the next word there, or that nothing
is kept. -/
def Skipped (levels : Levels) (kept seen : Nat → Set Nat) (hbi : HBitmapIter) (i pos start : Nat) : Prop :=
  (climb levels hbi (i + 1) pos = some (0, 0, sentinel) ∧ ∀ n ∈ kept i, start ≤ n → i = 0 ∧ n = 63) ∨
  ∃ j p w walk, climb levels hbi (i + 1) pos = some (j, p, w) ∧ j ≤ i ∧ ¬ (j = 0 ∧ w = sentinel) ∧
    descend levels (i - j) ⟨j, p, w, hbi.cur⟩ = some walk ∧ Reached levels kept seen i start walk

theorem getLsbD_sentinel (k : Nat) : sentinel.getLsbD k = decide (63 = k) :=
  getLsbD_one_shiftLeft (by decide)

theorem eq_sentinel_of_ctz (nonzero : w ≠ 0) (high : ctz w = 63) : w = sentinel := by
  refine BitVec.eq_of_getLsbD_eq fun k small => ?_
  rw [getLsbD_sentinel]
  by_cases top : 63 = k
  · subst top
    rw [← high, getLsbD_ctz nonzero, decide_eq_true rfl]
  · rw [decide_eq_false top, Bool.eq_false_iff]
    intro set
    have := ctz_le set
    omega

section

variable {levels : Levels} {kept seen : Nat → Set Nat} {i q low pos start : Nat}

theorem Ahead.congr (same : ∀ l < i, other l = cur l) (ahead : Ahead kept seen cur i q low) :
    Ahead kept seen other i q low := by
  induction i generalizing q low with
  | zero => trivial
  | succ i ih =>
    rw [Ahead, same i (by omega)]
    exact ⟨ahead.1, ahead.2.1, ih (fun l below => same l (by omega)) ahead.2.2⟩

/-- Fewer bits can be kept and more seen. -/
theorem Ahead.weaken (keeps : ∀ l < i, kept l ⊆ live l) (sees : ∀ l < i, live l ⊆ seen l)
    (ahead : Ahead live live cur i q low) : Ahead kept seen cur i q low := by
  induction i generalizing q low with
  | zero => trivial
  | succ i ih =>
    obtain ⟨shows, holds, rest⟩ := ahead
    refine ⟨fun k set => ⟨(shows k set).1, sees i (by omega) (shows k set).2⟩,
      fun k small above member => holds k small above (keeps i (by omega) member),
      ih (fun l below => keeps l (by omega)) (fun l below => sees l (by omega)) rest⟩

theorem mem_blocks_of_mem_bits (summarised : Summarised levels 6) (below : i < 6)
    (set : q ∈ bits (levels i))
    (unguarded : ¬ (i = 0 ∧ q = 63)) : q ∈ blocks (bits (levels (i + 1))) := by
  rw [summarised i below] at set
  rcases set with used | guarded
  · exact used
  · unfold guard at guarded
    split at guarded
    · exact absurd ⟨by assumption, guarded⟩ unguarded
    · exact absurd guarded (Set.notMem_empty _)

theorem keeps_live (summarised : Summarised levels 6) :
    Keeps levels (fun i => bits (levels i)) (fun i => bits (levels i)) where
  live _ _ := Set.Subset.rfl
  seen _ _ := Set.Subset.rfl
  up i below := by
    rw [summarised i below]
    exact Set.subset_union_left
  guarded := by
    rw [summarised 0 (by omega)]
    exact .inr rfl

variable {hbi : HBitmapIter} (keeps : Keeps levels kept seen)

/-- No kept bit comes before the lowest one of the word. -/
theorem Reached.least (reached : Reached levels kept seen i start walk) (member : n ∈ kept i)
    (late : start ≤ n) : 64 * walk.pos + ctz walk.cur ≤ n := by
  obtain ⟨block, set⟩ := reached.keeps n member late
  have small := ctz_lt reached.nonzero
  rcases Nat.eq_or_lt_of_le block with same | further
  · have := ctz_le (set same.symm)
    omega
  · omega

include keeps

/-- The words cached once the lowest bit is taken -/
theorem Reached.take (reached : Reached levels kept seen i start walk) (upper : i ≤ 6) :
    Ahead kept seen (update walk.hbiCur i (walk.cur &&& (walk.cur - 1))) (i + 1) walk.pos
    (ctz walk.cur + 1) := by
  have lowest := (reached.shows _ (getLsbD_ctz reached.nonzero)).1
  rw [Ahead, update_self]
  refine ⟨fun k => ?_, fun k small above member => ?_,
    reached.ahead.congr fun l below => update_of_ne (by omega) _ _⟩
  · rw [getLsbD_and_pred reached.nonzero, Bool.and_eq_true, decide_eq_true_eq]
    exact fun ⟨set, above⟩ => ⟨above, keeps.seen i upper (reached.shows k set).2⟩
  · rw [getLsbD_and_pred reached.nonzero, Bool.and_eq_true, decide_eq_true_eq]
    have set := (reached.keeps _ member (by omega)).2 (by omega)
    rw [show (64 * walk.pos + k) % 64 = k by omega] at set
    exact ⟨set, above⟩

section

variable (ahead : Ahead kept seen hbi.cur (i + 1) q low) (upper : i ≤ 6)
include ahead upper

/-- A kept bit is left in the word at hand. -/
theorem Ahead.left (member : n ∈ kept i)
    (late : 64 * q + low ≤ n) (block : n / 64 = q) :
    (hbi.cur i &&& word (levels i) q).getLsbD (n % 64) = true := by
  have here : 64 * q + n % 64 = n := by omega
  rw [BitVec.getLsbD_and, ahead.2.1 (n % 64) (by omega) (by omega) (by rwa [here]), ← bit_in_word
    (by omega), here]
  exact keeps.live i upper member

theorem Ahead.reached
    (left : hbi.cur i &&& word (levels i) q ≠ 0) :
    Reached levels kept seen i (64 * q + low) ⟨i, q, hbi.cur i &&& word (levels i) q, hbi.cur⟩ := by
  refine ⟨rfl, left, fun k set => ?_, fun n member late => ⟨by dsimp only; omega, ?_⟩, ahead.2.2⟩
  · have small : k < 64 := BitVec.lt_of_getLsbD set
    rw [BitVec.getLsbD_and, Bool.and_eq_true, ← bit_in_word small] at set
    have := (ahead.1 k set.1).1
    exact ⟨by dsimp only; omega, set.2⟩
  · exact ahead.left keeps upper member late

end

variable (stacked : Stacked levels) (summarised : Summarised levels 6)
include stacked summarised

theorem skip_here (ahead : Ahead kept seen hbi.cur (i + 1) (pos / 64) low) (upper : i ≤ 6)
    (left : hbi.cur i &&& word (levels i) (pos / 64) ≠ 0) (top : i = 0 → pos / 64 = 0) :
    Skipped levels kept seen hbi i pos (64 * (pos / 64) + low) := by
  have reached := ahead.reached keeps upper left
  have climbed : climb levels hbi (i + 1) pos =
    some (i, pos / 64, hbi.cur i &&& word (levels i) (pos / 64)) := by
    rw [climb, if_neg left]
  by_cases finished : i = 0 ∧ hbi.cur i &&& word (levels i) (pos / 64) = sentinel
  · obtain ⟨rfl, only⟩ := finished
    refine .inl ⟨by rw [climbed, only, top rfl], fun n member late => ⟨rfl, ?_⟩⟩
    have bound : n ≤ 63 := by
      have live := keeps.live 0 (by omega) member
      rw [summarised 0 (by omega)] at live
      rcases live with ⟨m, set, block⟩ | guarded
      · have := lt_of_mem_bits set
        have short : (levels (0 + 1)).length ≤ 63 := stacked.short
        dsimp only at block
        omega
      · exact Nat.le_of_eq guarded
    have set := ahead.left keeps (by omega) member late (by omega)
    rw [only, getLsbD_sentinel, decide_eq_true_eq] at set
    omega
  · exact .inr ⟨i, _, _, _, climbed, Nat.le_refl i, finished, by rw [Nat.sub_self]; rfl, reached⟩

section

variable (ahead : Ahead kept seen hbi.cur (i + 2) (pos / 64) low) (upper : i < 6) (small : low ≤ 64)
include ahead upper small

theorem skip_up (above : Skipped levels kept seen hbi i (pos / 64) (pos / 64 + 1)) :
    Skipped levels kept seen hbi (i + 1) pos (64 * (pos / 64) + low) := by
  by_cases left : hbi.cur (i + 1) &&& word (levels (i + 1)) (pos / 64) = 0
  swap
  · exact skip_here keeps stacked summarised ahead upper left (by omega)
  have climbed : climb levels hbi (i + 2) pos = climb levels hbi (i + 1) (pos / 64) := by
    rw [climb, if_pos left]
  have parent {n : Nat} (member : n ∈ kept (i + 1)) (late : 64 * (pos / 64) + low ≤ n) :
      n / 64 ∈ kept i ∧ pos / 64 + 1 ≤ n / 64 := by
    refine ⟨keeps.up i upper ⟨n, member, rfl⟩, ?_⟩
    by_contra same
    have set := ahead.left keeps upper member late (by omega)
    rw [eq_zero_iff.mp left] at set
    exact absurd set Bool.false_ne_true
  rcases above with ⟨finished, nothing⟩ | ⟨j, p, w, walk, found, under, more, descended, reached⟩
  · refine .inl ⟨climbed.trans finished, fun n member late => ?_⟩
    obtain ⟨up, further⟩ := parent member late
    obtain ⟨rfl, last⟩ := nothing _ up further
    have := lt_of_mem_bits (keeps.live 1 (by omega) member)
    have := stacked.short
    omega
  have lowest := ctz_lt reached.nonzero
  obtain ⟨later, live⟩ := reached.shows _ (getLsbD_ctz reached.nonzero)
  have used : 64 * walk.pos + ctz walk.cur ∈ blocks (bits (levels (i + 1))) := by
    refine mem_blocks_of_mem_bits summarised upper live ?_
    rintro ⟨rfl, top⟩
    obtain rfl : j = 0 := by omega
    obtain rfl := Option.some.inj descended
    dsimp only at top lowest
    exact more ⟨rfl, eq_sentinel_of_ctz reached.nonzero (by omega)⟩
  refine .inr ⟨j, p, w, ⟨i + 1, 64 * walk.pos + ctz walk.cur, _,
    update walk.hbiCur i (walk.cur &&& (walk.cur - 1))⟩,
    climbed.trans found, by omega, more, ?_, ⟨rfl, word_ne_zero_iff.mpr used,
    fun k set => ⟨?_, (bit_in_word (BitVec.lt_of_getLsbD set)).trans set⟩,
    fun n member late => ⟨reached.least (parent member late).1 (parent member late).2,
      fun block => ?_⟩, ?_⟩⟩
  · rw [show i + 1 - j = i - j + 1 by omega, descend, descended, Option.bind_some, descendStep,
      if_neg reached.nonzero, reached.level, Nat.mul_comm walk.pos]
    rfl
  · dsimp only
    omega
  · dsimp only at block ⊢
    rw [← block]
    exact keeps.live (i + 1) upper member
  · rw [show (64 * walk.pos + ctz walk.cur) / 64 = walk.pos by omega,
      show (64 * walk.pos + ctz walk.cur) % 64 = ctz walk.cur by omega]
    exact reached.take keeps (by omega)

theorem skip_spec (inside : pos / 64 < (levels (i + 1)).length) :
    Skipped levels kept seen hbi (i + 1) pos (64 * (pos / 64) + low) := by
  have room := stacked.room i upper
  refine skip_up keeps stacked summarised ahead upper small ?_
  rw [show pos / 64 + 1 = 64 * (pos / 64 / 64) + (pos / 64 % 64 + 1) by omega]
  induction i generalizing pos low with
  | zero =>
    have short : (levels (0 + 1)).length ≤ 63 := stacked.short
    refine skip_here keeps stacked summarised ahead.2.2 (by omega) ?_ (by omega)
    exact ne_zero_iff.mpr ⟨63, by decide, ahead.2.2.left keeps (by omega) keeps.guarded (by omega)
      (by omega)⟩
  | succ i ih =>
    have room := stacked.room i (by omega)
    refine skip_up keeps stacked summarised ahead.2.2 (by omega) (by omega) ?_
    rw [show pos / 64 / 64 + 1 = 64 * (pos / 64 / 64 / 64) + (pos / 64 / 64 % 64 + 1) by omega]
    exact ih ahead.2.2 (by omega) (by omega) (by omega) (by omega)

end

end

end Qemu.HBitmap
