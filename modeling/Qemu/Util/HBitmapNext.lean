import Qemu.Util.HBitmapInvariant

namespace Qemu.HBitmap

open BitWords Function Nat
open Option hiding min_eq_left min_eq_right

/-- Whether an item lies in a dirty group. -/
def DirtyItem (hb : HBitmap) (item : Nat) : Prop := item / 2 ^ hb.granularity ∈ bits (hb.levels 6)

/-- `found` is the first item with a property from `start` up to `stop`, if any. -/
def IsFirst (p : Nat → Prop) (start stop : Nat) : Option Nat → Prop
  | none => ∀ item, start ≤ item → item < stop → ¬ p item
  | some found => start ≤ found ∧ found < stop ∧ p found ∧
      ∀ item, start ≤ item → item < found → ¬ p item

/-- A property holds from `first` on for `length` items, the most that there are up to `limit`. -/
def IsRun (p : Nat → Prop) (first limit length : Nat) : Prop :=
  0 < length ∧ length ≤ limit ∧ (∀ item, first ≤ item → item < first + length → p item) ∧
    (length < limit → ¬ p (first + length))

/-- The run ends where the property first fails. -/
theorem IsFirst.run {p : Nat → Prop} {start limit : Nat} {found : Option Nat}
    (first : IsFirst (fun item => ¬ p item) start (start + limit) found) (holds : p start)
    (positive : 0 < limit) : IsRun p start limit (found.getD (start + limit) - start) := by
  cases found with
  | none =>
    rw [getD_none, Nat.add_sub_cancel_left]
    exact ⟨positive, Nat.le_refl limit, fun item low high => Classical.not_not.mp (first item low high),
      fun less => absurd less (Nat.lt_irrefl limit)⟩
  | some stop => ?_
  obtain ⟨after, inside, fails, before⟩ := first
  have apart : start ≠ stop := by
    rintro rfl
    exact fails holds
  rw [getD_some]
  refine ⟨by omega, by omega,
    fun item low high => Classical.not_not.mp (before item low (by omega)), fun _ => ?_⟩
  rwa [Nat.add_sub_cancel' after]

/-- A property of groups is first met at the start of the first such group, or at
once if the search starts inside it. -/
theorem isFirst_of_group {p : Nat → Prop} {unit start stop group : Nat} (positive : 0 < unit)
    (holds : p group) (from' : start / unit ≤ group)
    (first : ∀ other, start / unit ≤ other → other < group → ¬ p other)
    (early : group * unit < stop) (nonempty : start < stop) :
    IsFirst (fun item => p (item / unit)) start stop (some (max start (group * unit))) := by
  have later (item : Nat) (low : start ≤ item) (dirty : p (item / unit)) : group * unit ≤ item := by
    by_contra under
    exact first _ (Nat.div_le_div_right low)
      ((Nat.div_lt_iff_lt_mul positive).mpr (Nat.lt_of_not_le under)) dirty
  have inGroup : max start (group * unit) / unit = group := by
    rcases Nat.le_total start (group * unit) with before | inside
    · rw [max_eq_right before, Nat.mul_div_cancel _ positive]
    · rw [max_eq_left inside]
      exact Nat.le_antisymm from' ((Nat.le_div_iff_mul_le positive).mpr inside)
  refine ⟨le_max_left _ _, max_lt nonempty early, ?_, fun item low high dirty => ?_⟩
  · dsimp only
    rwa [inGroup]
  · have := later item low dirty
    omega

section Items

variable {hb : HBitmap}

/-- A call returns a set item that no kept one comes before, or -1 if none is kept. -/
theorem iterNextItem_spec (wellFormed : WellFormed hb) (keeps : Keeps hb.levels kept seen)
    (tracks : Tracks kept seen hb.levels hbi next) :
    (hb.iterNextItem hbi = some (none, hbi) ∧ ∀ n ∈ kept 6, n < next) ∨
    ∃ n hbi', hb.iterNextItem hbi = some (some (n * 2 ^ hb.granularity), hbi') ∧ next ≤ n ∧
    n ∈ bits (hb.levels 6) ∧
      (∀ m ∈ kept 6, next ≤ m → n ≤ m) ∧ Tracks kept seen hb.levels hbi' (n + 1) := by
  -- the lowest bit of the word that the walk ends at
  have taken {walk : Descent} (reached : Reached hb.levels kept seen 6 next walk) :
      next ≤ walk.pos * 64 + ctz walk.cur ∧ walk.pos * 64 + ctz walk.cur ∈ bits (hb.levels 6) ∧
        (∀ m ∈ kept 6, next ≤ m → walk.pos * 64 + ctz walk.cur ≤ m) ∧
        Tracks kept seen hb.levels ⟨walk.pos, update walk.hbiCur 6 (walk.cur &&& (walk.cur - 1))⟩
          (walk.pos * 64 + ctz walk.cur + 1) := by
    have small := ctz_lt reached.nonzero
    obtain ⟨later, live⟩ := reached.shows _ (getLsbD_ctz reached.nonzero)
    have inside := lt_of_mem_bits live
    rw [Nat.mul_comm walk.pos]
    refine ⟨later, live, fun m => reached.least, ?_, by dsimp only; omega, by dsimp only; omega,
      by dsimp only; omega⟩
    rw [Nat.add_assoc, Nat.add_sub_cancel_left]
    exact reached.take keeps (Nat.le_refl 6)
  by_cases empty : hbi.cur 6 &&& word (hb.levels 6) hbi.pos = 0
  · rcases iterSkipWords_cases wellFormed.stacked wellFormed.summarised keeps tracks empty with
      ⟨finished, nothing⟩ | ⟨walk, moved, reached⟩
    · exact .inl ⟨by simp [iterNextItem, empty, finished], nothing⟩
    · refine .inr ⟨_, _, ?_, taken reached⟩
      simp only [iterNextItem, empty, if_true, moved, bind_eq_bind, bind_some, reached.nonzero, if_false]
  · refine .inr ⟨_, _, ?_, taken (tracks.here keeps empty)⟩
    simp only [iterNextItem, empty, if_false, bind_eq_bind, bind_some]

end Items

section Dirty

variable {hb : HBitmap} (wellFormed : WellFormed hb) {start count : Nat}
include wellFormed

theorem WellFormed.group_lt (inside : item < hb.origSize) : item / 2 ^ hb.granularity < hb.size := by
  have positive := Nat.two_pow_pos hb.granularity
  rw [wellFormed.size_eq, ← succ_le_iff, succ_eq_add_one, ← add_div_right item positive]
  exact Nat.div_le_div_right (by omega)

theorem WellFormed.item_lt (inside : group < hb.size) : group * 2 ^ hb.granularity < hb.origSize := by
  have positive := Nat.two_pow_pos hb.granularity
  rw [wellFormed.size_eq, groups, ← succ_le_iff, Nat.le_div_iff_mul_le positive, succ_mul] at inside
  omega

theorem iterNext_spec (iterating : Iterating hb.levels hbi next) :
    (hb.iterNext hbi = some none ∧ ∀ n, next ≤ n → n ∉ bits (hb.levels 6)) ∨
    ∃ n, hb.iterNext hbi = some (some (n * 2 ^ hb.granularity)) ∧ next ≤ n ∧
      n ∈ bits (hb.levels 6) ∧ ∀ m, next ≤ m → m < n → m ∉ bits (hb.levels 6) := by
  rcases iterNextItem_spec wellFormed (keeps_live wellFormed.summarised) iterating with
    ⟨finished, nothing⟩ | ⟨n, hbi', found, later, set, first, -⟩
  · exact .inl ⟨by rw [iterNext, finished]; rfl, fun n late set => absurd (nothing n set) (by omega)⟩
  · refine .inr ⟨n, by rw [iterNext, found]; rfl, later, set, fun m late early member => ?_⟩
    exact absurd (first m member late) (by omega)

theorem nextDirty_spec : ∃ found, hb.nextDirty start count = some found ∧
    IsFirst hb.DirtyItem start (min hb.origSize (start + count)) found := by
  by_cases proper : start ≥ hb.origSize ∨ count = 0
  · exact ⟨none, if_pos proper, fun item low high => by omega⟩
  have positive := Nat.two_pow_pos hb.granularity
  have fits := wellFormed.fits
  have group := wellFormed.group_lt (show start < hb.origSize by omega)
  obtain ⟨hbi, started, iterating⟩ := iterInit_spec group (by omega) rfl
  have limit : (if count > hb.origSize - start then hb.origSize else start + count) =
      min hb.origSize (start + count) := by
    split <;> omega
  rcases iterNext_spec wellFormed iterating with ⟨finished, nothing⟩ | ⟨n, found, later, set, first⟩
  · refine ⟨none, ?_, fun item low _ dirty => nothing _ (Nat.div_le_div_right low) dirty⟩
    simp only [nextDirty, proper, started, finished, bind_eq_bind, bind_some]
    rfl
  by_cases late : min hb.origSize (start + count) ≤ n * 2 ^ hb.granularity
  · refine ⟨none, ?_, fun item low high =>
      first _ (Nat.div_le_div_right low) ((Nat.div_lt_iff_lt_mul positive).mpr (by omega))⟩
    simp only [nextDirty, proper, if_false, started, found, bind_eq_bind, bind_some,
      limit, late, if_true]
  · refine ⟨some (max start (n * 2 ^ hb.granularity)), ?_,
      isFirst_of_group positive set later first (Nat.lt_of_not_le late) (by omega)⟩
    simp only [nextDirty, proper, if_false, started, found, bind_eq_bind, bind_some, limit, late]

end Dirty

theorem cto_spec {word : Word} (gap : word ≠ BitVec.allOnes 64) :
    cto word < 64 ∧ word.getLsbD (cto word) = false ∧ ∀ k < cto word, word.getLsbD k = true := by
  have nonzero : ~~~word ≠ 0 := by
    intro zero
    exact gap (by rw [← @BitVec.not_not 64 word, zero]; rfl)
  have small := ctz_lt nonzero
  refine ⟨small, ?_, fun k below => ?_⟩
  · have set := getLsbD_ctz nonzero
    rw [BitVec.getLsbD_not, Bool.and_eq_true, Bool.not_eq_true'] at set
    exact set.2
  · have clear := BitVec.getLsbD_false_of_lt_ctz (show k < (~~~word).ctz.toNat from below)
    have under : k < 64 := Nat.lt_trans below small
    rwa [BitVec.getLsbD_not, decide_eq_true under, Bool.true_and, Bool.not_eq_false'] at clear

/-- The scan over full words stops at the first other one, or at the end. -/
theorem skipFull_spec (words : List Word) (first sz : Nat) :
    ∃ pos, Loop.repeatWhile
        (fun pos => decide (pos < sz) && word words pos == BitVec.allOnes 64) (· + 1) sz first =
      pos ∧ first ≤ pos ∧
      (∀ index, first ≤ index → index < pos → word words index = BitVec.allOnes 64) ∧
      (pos < sz → word words pos ≠ BitVec.allOnes 64) := by
  have initial : first ≤ first ∧ ∀ index, first ≤ index → index < first →
    word words index = BitVec.allOnes 64 :=
    ⟨Nat.le_refl first, fun index low high => by omega⟩
  obtain ⟨⟨later, full⟩, stopped⟩ := Loop.repeatWhile_spec
    (fun pos => decide (pos < sz) && word words pos == BitVec.allOnes 64) (· + 1)
    (fun pos => first ≤ pos ∧ ∀ index, first ≤ index → index < pos → word words index = BitVec.allOnes 64)
    (fun pos => sz - pos)
    (fun pos holds more => by
      rw [Bool.and_eq_true, decide_eq_true_eq, beq_iff_eq] at more
      refine ⟨⟨by omega, fun index low high => ?_⟩, by omega⟩
      rcases Nat.lt_succ_iff_lt_or_eq.mp high with before | rfl
      · exact holds.2 index low before
      · exact more.2)
    initial (sub_le sz first)
  refine ⟨_, rfl, later, full, fun inside => ?_⟩
  rw [decide_eq_true inside, Bool.true_and, beq_eq_false_iff_ne] at stopped
  exact stopped

/-- A clear bit is found first, unless all are set up to the scanned end. -/
theorem scanClear_spec {words : List Word} {position sz : Nat} :
    match scanClear words position sz with
    | none => ∀ n, position ≤ n → n < 64 * sz → n ∈ bits words
    | some found => position ≤ found ∧ found ∉ bits words ∧
        ∀ n, position ≤ n → n < found → n ∈ bits words := by
  have shown {n : Nat} {w : Word} (here : w = word words (n / 64))
      (set : w.getLsbD (n % 64) = true) : n ∈ bits words := by rwa [here] at set
  have masked (k : Nat) : (word words (position / 64) ||| lowMask (position % 64)).getLsbD k =
      true ↔ (word words (position / 64)).getLsbD k = true ∨ k < position % 64 := by
    rw [BitVec.getLsbD_or, Bool.or_eq_true, getLsbD_lowMask (by omega), decide_eq_true_eq]
  by_cases full : word words (position / 64) ||| lowMask (position % 64) = BitVec.allOnes 64
  · obtain ⟨pos, ran, later, skipped, stopped⟩ := skipFull_spec words (position / 64 + 1) sz
    have passed (n : Nat) (low : position ≤ n) (high : n / 64 < pos) : n ∈ bits words := by
      rcases Nat.eq_or_lt_of_le (Nat.div_le_div_right (c := 64) low) with same | after
      · have set := (masked (n % 64)).mp (by
          rw [full, BitVec.getLsbD_allOnes, decide_eq_true (by omega)])
        exact shown (by rw [same]) (set.resolve_right (by omega))
      · refine shown (skipped _ after high).symm ?_
        rw [BitVec.getLsbD_allOnes, decide_eq_true (by omega)]
    by_cases finished : sz ≤ pos
    · simp only [scanClear, full, ran, finished]
      exact fun n low high => passed n low (by omega)
    simp only [scanClear, full, ran, finished]
    obtain ⟨small, clear, below⟩ := cto_spec (stopped (Nat.lt_of_not_le finished))
    refine ⟨by omega, fun set => ?_, fun n low high => ?_⟩
    · rw [mem_bits, Nat.mul_comm, bit_in_word small, clear] at set
      exact Bool.false_ne_true set
    · rcases Nat.lt_or_ge (n / 64) pos with before | within
      · exact passed n low before
      · exact shown (by congr 1; omega) (below _ (by omega))
  · simp only [scanClear, full]
    obtain ⟨small, clear, below⟩ := cto_spec full
    generalize cto (word words (position / 64) ||| lowMask (position % 64)) = k at *
    have notSet := mt (masked k).mpr (by rw [clear]; exact Bool.false_ne_true)
    rw [not_or] at notSet
    refine ⟨by omega, fun set => notSet.1 ?_, fun n low high => ?_⟩
    · rw [mem_bits, Nat.mul_comm, bit_in_word small] at set
      exact set
    · have set := (masked (n % 64)).mp (below _ (by omega))
      exact shown (by congr 1; omega) (set.resolve_right (by omega))

section Areas

variable {hb : HBitmap} (wellFormed : WellFormed hb) {start count : Nat}
include wellFormed

theorem nextZero_spec (inside : start < hb.origSize) : ∃ found, hb.nextZero start count = some found ∧
    IsFirst (fun item => ¬ hb.DirtyItem item) start (min hb.origSize (start + count)) found := by
  set stop := min hb.origSize (start + count) with ends
  by_cases proper : start ≥ hb.origSize ∨ count = 0
  · exact ⟨none, if_pos proper, fun item low high => by omega⟩
  have positive := Nat.two_pow_pos hb.granularity
  have group := wellFormed.group_lt inside
  -- the scanned groups are those of the items before the end
  have limit : (if count > hb.origSize - start then hb.size
        else (start + count - 1) / 2 ^ hb.granularity + 1) =
      (stop - 1) / 2 ^ hb.granularity + 1 := by
    split
    · rw [ends, min_eq_left (by omega)]
      have last := wellFormed.group_lt (show hb.origSize - 1 < hb.origSize by omega)
      have whole := wellFormed.item_lt (sub_lt (zero_lt_of_lt group) Nat.one_pos)
      have := (Nat.le_div_iff_mul_le positive).mpr (show (hb.size - 1) * 2 ^ hb.granularity ≤
        hb.origSize - 1 by omega)
      omega
    · rw [ends, min_eq_right (by omega)]
  have early {n : Nat} (low : n < (stop - 1) / 2 ^ hb.granularity + 1) :
    n * 2 ^ hb.granularity < stop := by
    have := (Nat.le_div_iff_mul_le positive).mp (le_of_lt_succ low)
    omega
  have scanned := @scanClear_spec (hb.levels 6) (start / 2 ^ hb.granularity)
    (((stop - 1) / 2 ^ hb.granularity + 1 + 63) / 64)
  have bounded {item : Nat} (high : item < stop) :
    item / 2 ^ hb.granularity ≤ (stop - 1) / 2 ^ hb.granularity :=
    Nat.div_le_div_right (by omega)
  simp only [nextZero, proper, if_false, limit, group, if_true]
  cases result : scanClear (hb.levels 6) (start / 2 ^ hb.granularity)
      (((stop - 1) / 2 ^ hb.granularity + 1 + 63) / 64) with
  | none =>
    rw [result] at scanned
    refine ⟨none, rfl, fun item low high clear => clear (scanned _ (Nat.div_le_div_right low) ?_)⟩
    have := bounded high
    omega
  | some res =>
    rw [result] at scanned
    obtain ⟨later, clear, first⟩ := scanned
    dsimp only
    split
    · refine ⟨none, rfl, fun item low high isClear =>
        isClear (first _ (Nat.div_le_div_right low) ?_)⟩
      have := bounded high
      omega
    next found =>
      have isFirst := isFirst_of_group (p := fun n => n ∉ bits (hb.levels 6)) positive clear later
        (fun other low high notSet => notSet (first other low high)) (early (Nat.lt_of_not_le found))
        (show start < stop by omega)
      split
      next before =>
        have same : res = start / 2 ^ hb.granularity :=
          Nat.le_antisymm ((Nat.le_div_iff_mul_le positive).mpr before.le) later
        have rest : (start - res * 2 ^ hb.granularity) / 2 ^ hb.granularity = 0 := by
          have := div_add_mod' start (2 ^ hb.granularity)
          rw [same]
          exact div_eq_of_lt (by omega)
        rw [if_pos rest]
        rw [max_eq_left before.le] at isFirst
        exact ⟨_, rfl, isFirst⟩
      · rw [max_eq_right (by omega)] at isFirst
        exact ⟨_, rfl, isFirst⟩

/-- The next dirty area starts at the first dirty item, and is all of the run there up to the
limits. -/
theorem nextDirtyArea_spec (stop : Nat) {maxDirtyCount : Nat} (positive : 0 < maxDirtyCount) :
    ∃ area, hb.nextDirtyArea start stop maxDirtyCount = some area ∧
      IsFirst hb.DirtyItem start (min stop hb.origSize) (area.map Prod.fst) ∧
      ∀ first length, area = some (first, length) →
        IsRun hb.DirtyItem first (min (min stop hb.origSize - first) maxDirtyCount) length := by
  by_cases proper : start ≥ min stop hb.origSize
  · exact ⟨none, if_pos proper, fun item low high => by omega, nofun⟩
  obtain ⟨found, dirty, isDirty⟩ := @nextDirty_spec _ wellFormed start (min stop hb.origSize - start)
  rw [show min hb.origSize (start + (min stop hb.origSize - start)) = min stop hb.origSize by
    omega] at isDirty
  cases found with
  | none =>
    refine ⟨none, ?_, isDirty, nofun⟩
    simp [nextDirtyArea, dirty]
  | some first => ?_
  have high := isDirty.2.1
  obtain ⟨zero, scanned, isZero⟩ := @nextZero_spec _ wellFormed first
    (min (min stop hb.origSize - first) maxDirtyCount) (by omega)
  rw [min_eq_right (by omega)] at isZero
  refine ⟨some (first, zero.getD (first + min (min stop hb.origSize - first) maxDirtyCount) -
    first), ?_, isDirty, ?_⟩
  · simp only [nextDirtyArea, proper, if_false, dirty, bind_eq_bind, bind_some,
      Nat.add_sub_cancel_left, scanned]
  · rintro _ _ ⟨⟩
    exact isZero.run isDirty.2.2.1 (by omega)

end Areas

end Qemu.HBitmap
