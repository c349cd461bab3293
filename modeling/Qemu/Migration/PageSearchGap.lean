import Qemu.Migration.PageSearchExact

namespace Qemu.PageSearch

open List Option

variable {m : Migration} {rs : RAMState} {pss : PageSearchStatus}

/-- The places passed by a search that began at `start`. -/
def Passed (start : Nat × Nat) (pss : PageSearchStatus) (place : Nat × Nat) : Prop :=
  if pss.completeRound then ¬Before place start ∨ Before place (pss.block, pss.page)
  else ¬Before place start ∧ Before place (pss.block, pss.page)

/-- What the search has passed is clean. -/
def Covered (m : Migration) (start : Nat × Nat) (bmap : Bitmap) (pss : PageSearchStatus) : Prop :=
  ∀ block page, Migratable m.blocks block page → Passed start pss (block, page) → bmap block page = false

variable {start : Nat × Nat}

variable {later : PageSearchStatus}

theorem Passed.split (round : later.completeRound = pss.completeRound)
    (reached : Passed start later place) : Passed start pss place ∨
      ¬Before place (pss.block, pss.page) ∧ Before place (later.block, later.page) := by
  by_cases wrapped : pss.completeRound = true
  · simp only [Passed, round, wrapped, if_true] at reached ⊢
    tauto
  · simp only [Passed, round, wrapped, Bool.false_eq_true, if_false] at reached ⊢
    tauto

theorem Covered.advance {later : PageSearchStatus} {cleared : Bitmap}
    (covered : Covered m start rs.bmap pss)
    (round : later.completeRound = pss.completeRound)
    (shrinks : ∀ b p, cleared b p = true → rs.bmap b p = true)
    (passed : ∀ block page, Migratable m.blocks block page → ¬Before (block, page) (pss.block, pss.page) →
      Before (block, page) (later.block, later.page) → cleared block page = false) :
    Covered m start cleared later := by
  intro block page pageOf reached
  rcases reached.split round with already | ⟨after, before⟩
  · exact Bitmap.clean_of_le shrinks (covered block page pageOf already)
  · exact passed block page pageOf after before

variable {last block page : Nat}

theorem Covered.allClean (covered : Covered m start rs.bmap pss)
    (step : DirtyStep m rs pss .allClean later) (seen : rs.lastSeenBlock = some last)
    (pageOf : Migratable m.blocks block page)
    (place : ¬Before (block, page) start ∨ Before (block, page) (last, rs.lastPage)) :
    rs.bmap block page = false := by
  cases step with
  | allClean found next wrapped atLast past =>
    obtain rfl : pss.block = last := some.inj (atLast.symm.trans seen)
    by_cases reached : Passed start pss (block, page)
    · exact covered block page pageOf reached
    simp only [Passed, wrapped, if_true, not_or, not_not] at reached
    have before := place.resolve_left (not_not.mpr reached.1)
    simp only [Before] at before reached
    obtain rfl : block = pss.block := by omega
    exact next.passed page pageOf (by omega) (by dsimp only; omega)

theorem Covered.tryAgain (covered : Covered m start rs.bmap pss)
    (step : DirtyStep m rs pss .tryAgain later) (search : Searching m last rs pss) :
    Covered m start rs.bmap later := by
  cases step with
  | nextBlock found next none notLast more =>
    refine covered.advance rfl (fun _ _ => id) fun block page pageOf after before => ?_
    simp only [Before] at after before
    obtain rfl : block = pss.block := by omega
    exact next.passed page pageOf (by omega) (by have := pageOf.inside; dsimp only; omega)
  | wrap found next none notLast atEnd flushed =>
    intro block page pageOf reached
    have round := search.firstRound none notLast atEnd
    simp only [Passed, if_true, Before] at reached
    by_cases passed : Passed start pss (block, page)
    · exact covered block page pageOf passed
    simp only [Passed, round, Bool.false_eq_true, if_false, Before] at passed
    have := pageOf.inList
    have := pageOf.inside
    obtain rfl : block = pss.block := by omega
    exact next.passed page pageOf (by omega) (by dsimp only; omega)

theorem getQueuedPage_empty (noRequests : rs.requests = []) (noFaults : rs.faults = []) :
    getQueuedPage rs pss = (false, pss, rs) := by
  obtain ⟨bmap, seen, page, hint, requests, faults⟩ := rs
  subst noRequests noFaults
  rfl

/-- Sending a host page keeps to the search. -/
theorem Searching.found (search : Searching m last rs pss) (step : DirtyStep m rs pss .dirtyFound later) :
    Searching m last { rs with bmap := (ramSaveHostPage m later rs.bmap).2.2 }
    (ramSaveHostPage m later rs.bmap).2.1 := by
  cases step with
  | dirtyFound page next found notLast =>
    have there : Searching m last rs { pss with page } :=
      ⟨search.placed, search.seen, search.inList, search.round, search.idle⟩
    exact there.sent

theorem Covered.found (covered : Covered m start rs.bmap pss)
    (step : DirtyStep m rs pss .dirtyFound later) (search : Searching m last rs pss)
    (pages : 0 ≤ (ramSaveHostPage m later rs.bmap).1) :
    Covered m start (ramSaveHostPage m later rs.bmap).2.2 (ramSaveHostPage m later rs.bmap).2.1 := by
  cases step with
  | dirtyFound found next inside notLast =>
    have sent := @ramSaveHostPage_sent m { pss with page := found } rs.bmap (next.dirty inside).1
    obtain ⟨sameBlock, sameRound, -⟩ :=
      @ramSaveHostPage_place m { pss with page := found } rs.bmap search.idle
    refine covered.advance sameRound sent.shrinks fun block page pageOf after before => ?_
    rw [sameBlock] at before
    simp only [Before] at after before
    obtain rfl : block = pss.block := by omega
    by_cases early : page < found
    · exact Bitmap.clean_of_le sent.shrinks (next.passed page pageOf (by omega) early)
    · exact (sent.passed pages).2 page (not_lt.mp early) (by omega)

variable {pss' : PageSearchStatus} {rs' : RAMState}

/-- Once the search reports completion, everything is clean but what lies between the place
where it ends and the place where it began. -/
theorem searchLoop_covers (n : Nat) (search : Searching m last rs pss) (noRequests : rs.requests = [])
    (noFaults : rs.faults = []) (covered : Covered m start rs.bmap pss)
    (ran : searchLoop m n rs pss = some (0, pss', rs')) (pageOf : Migratable m.blocks block page)
    (place : ¬Before (block, page) start ∨ Before (block, page) (last, rs.lastPage)) :
    rs'.bmap block page = false := by
  induction n generalizing rs pss with
  | zero => exact absurd ran (by simp [searchLoop])
  | succ n ih => ?_
  rw [searchLoop_search (getQueuedPage_empty noRequests noFaults)] at ran
  have step := @findDirtyBlock_step m rs pss search.idle
  generalize findDirtyBlock m rs pss = outcome at step ran
  obtain ⟨found, later⟩ := outcome
  cases found with
  | allClean =>
    obtain ⟨-, -, rfl⟩ : 0 = 0 ∧ later = pss' ∧ rs = rs' := by simpa using ran
    exact covered.allClean step search.seen pageOf place
  | error => exact absurd ran (by simp)
  | tryAgain =>
    exact ih (search.tryAgain step).1 noRequests noFaults (covered.tryAgain step search) ran place
  | dirtyFound =>
    dsimp only [sendRound] at ran
    split at ran
    next sent => exact absurd (Prod.mk.inj (some.inj ran)).1 sent
    · have pages : 0 ≤ (ramSaveHostPage m later rs.bmap).1 := by omega
      exact ih (search.found step) noRequests noFaults (covered.found step search pages) ran place

/-- The dirty bits in front of the search, in the order in which it will meet them. -/
def Ahead (last : Nat × Nat) (pss : PageSearchStatus) (place : Nat × Nat) : Prop :=
  if pss.completeRound then ¬Before place (pss.block, pss.page) ∧ Before place last
  else ¬Before place (pss.block, pss.page) ∨ Before place last

section

variable (n : Nat) (search : Searching m last rs pss) (noRequests : rs.requests = [])
  (noFaults : rs.faults = [])
include n search noRequests noFaults

/-- With no dirty page in front of it, the search reports completion and changes no bit. -/
theorem searchLoop_completes (flushed : m.flushFails = false)
    (clean : ∀ block page, Migratable m.blocks block page →
    Ahead (last, rs.lastPage) pss (block, page) → rs.bmap block page = false)
    (ran : searchLoop m n rs pss = some result) : result.1 = 0 ∧ result.2.2.bmap = rs.bmap := by
  induction n generalizing rs pss with
  | zero => exact absurd ran (by simp [searchLoop])
  | succ n ih => ?_
  rw [searchLoop_search (getQueuedPage_empty noRequests noFaults)] at ran
  have step := @findDirtyBlock_step m rs pss search.idle
  generalize findDirtyBlock m rs pss = outcome at step ran
  obtain ⟨found, later⟩ := outcome
  cases found with
  | allClean =>
    cases ran
    exact ⟨rfl, rfl⟩
  | error =>
    cases step with
    | error atEnd failed => exact absurd (flushed.symm.trans failed) Bool.false_ne_true
  | tryAgain =>
    refine ih (search.tryAgain step).1 noRequests noFaults (fun block page pageOf ahead => ?_) ran
    refine clean block page pageOf ?_
    cases step with
    | nextBlock found next none notLast more =>
      by_cases round : pss.completeRound = true
      · simp only [Ahead, Before, round, if_true] at ahead ⊢
        omega
      · simp only [Ahead, Before, round, Bool.false_eq_true, if_false] at ahead ⊢
        omega
    | wrap found next none notLast atEnd flushed =>
      have round := search.firstRound none notLast atEnd
      simp only [Ahead, round] at ahead ⊢
      exact Or.inr ahead.2
  | dirtyFound =>
    exfalso
    cases step with
    | dirtyFound page next found notLast =>
      obtain ⟨pageOf, dirty, onward⟩ := next.dirty found
      replace onward : pss.page ≤ page := onward
      refine absurd ((clean _ _ pageOf ?_).symm.trans dirty) Bool.false_ne_true
      by_cases round : pss.completeRound = true
      · simp only [Ahead, Before, round, if_true]
        have bound := search.round round
        have early := notLast round
        rw [search.seen, some.injEq] at early
        omega
      · simp only [Ahead, Before, round, Bool.false_eq_true, if_false]
        omega

/-- In postcopy a search that reports completion has sent nothing and has passed the end of the
list. -/
theorem searchLoop_zero (postcopy : m.inPostcopy = true)
    (ran : searchLoop m n rs pss = some (0, pss', rs')) :
    rs'.bmap = rs.bmap ∧ (pss.completeRound = true ∨ m.flushFails = false) := by
  induction n generalizing rs pss with
  | zero => exact absurd ran (by simp [searchLoop])
  | succ n ih => ?_
  rw [searchLoop_search (getQueuedPage_empty noRequests noFaults)] at ran
  have step := @findDirtyBlock_step m rs pss search.idle
  generalize findDirtyBlock m rs pss = outcome at step ran
  obtain ⟨found, later⟩ := outcome
  cases found with
  | allClean =>
    cases ran
    cases step with
    | allClean page next wrapped atLast past => exact ⟨rfl, Or.inl wrapped⟩
  | error => exact absurd ran (by simp)
  | tryAgain =>
    obtain ⟨same, flushed⟩ := ih (search.tryAgain step).1 noRequests noFaults ran
    refine ⟨same, ?_⟩
    cases step with
    | nextBlock page next none notLast more => exact flushed
    | wrap page next none notLast atEnd passed => exact Or.inr passed
  | dirtyFound =>
    exfalso
    cases step with
    | dirtyFound page next found notLast =>
      obtain ⟨pageOf, dirty, -⟩ := next.dirty found
      have counts := (@ramSaveHostPage_sent m { pss with page } rs.bmap pageOf).counts
      have sent : (ramSaveHostPage m { pss with page } rs.bmap).1 ≠ 0 := by
        rcases counts with failed | ⟨-, counted⟩
        · exact failed.ne
        · exact (counted postcopy dirty).ne'
      dsimp only [sendRound] at ran
      rw [if_pos sent] at ran
      exact sent (Prod.mk.inj (some.inj ran)).1

end

/-- Where `find_dirty_block` takes the search to be complete. -/
def lastPlace (rs : RAMState) : Nat × Nat :=
  match rs.lastSeenBlock with
  | some block => (block, rs.lastPage)
  | none => (0, 0)

theorem migratable_ramBytesTotal (pageOf : Migratable m.blocks block page) : ramBytesTotal m ≠ 0 := by
  intro none
  have inList := pageOf.inList
  have kept := pageOf.kept
  have inside := pageOf.inside
  rw [blockAt, getD_eq_getElem _ _ inList] at kept inside
  have member : m.blocks[block].pages ∈ (m.blocks.filter fun rb => !rb.ignored).map RAMBlock.pages :=
    mem_map_of_mem (mem_filter.mpr ⟨getElem_mem inList, by simp [kept]⟩)
  have bound := le_sum_of_mem member
  rw [ramBytesTotal] at none
  omega

/-- The state that the loop starts from. -/
structure Starts (m : Migration) (rs : RAMState) (pss : PageSearchStatus) : Prop where
  searching : Searching m (lastPlace rs).1 (searchStart m rs).1
    (pssInit pss (searchStart m rs).2.1 (searchStart m rs).2.2)
  lastPage : (searchStart m rs).1.lastPage = (lastPlace rs).2
  bmap : (searchStart m rs).1.bmap = rs.bmap
  requests : (searchStart m rs).1.requests = rs.requests
  faults : (searchStart m rs).1.faults = rs.faults
  place : (searchStart m rs).2 = lastPlace rs ∨ m.preemptActive = true ∧
    rs.pageHint = some (searchStart m rs).2
  hinted : ∀ hint, m.preemptActive = true → rs.pageHint = some hint → (searchStart m rs).2 = hint

theorem lastPlace_seen :
    (if rs.lastSeenBlock = none then { rs with lastSeenBlock := some 0, lastPage := 0 } else rs) =
    { rs with lastSeenBlock := some (lastPlace rs).1, lastPage := (lastPlace rs).2 } := by
  obtain ⟨bmap, _ | seen, lastPage, hint, requests, faults⟩ := rs <;> rfl

theorem Placed.lastPlace (placed : Placed m rs) (some : 0 < m.blocks.length) :
    (lastPlace rs).1 < m.blocks.length ∧
    (lastPlace rs).2 ≤ (blockAt m.blocks (lastPlace rs).1).pages := by
  rw [PageSearch.lastPlace]
  cases seen : rs.lastSeenBlock with
  | none => exact ⟨some, Nat.zero_le _⟩
  | some block => exact placed.last block seen

theorem searchStart_starts (placed : Placed m rs) (idle : pss.hostPageSending = false)
    (some : 0 < m.blocks.length) : Starts m rs pss := by
  have last := placed.lastPlace some
  have placed' : ∀ hint, (∀ place, hint = Option.some place → place.1 < m.blocks.length) →
      Placed m { rs with
        lastSeenBlock := .some (lastPlace rs).1, lastPage := (lastPlace rs).2, pageHint := hint } :=
    fun hint valid => ⟨fun block seen => Option.some.inj seen ▸ last, valid, placed.requests,
      placed.faults⟩
  have stays : searchStart m rs =
      ({ rs with lastSeenBlock := .some (lastPlace rs).1, lastPage := (lastPlace rs).2 }, lastPlace rs) →
      (∀ hint, m.preemptActive = true → rs.pageHint = .some hint → False) → Starts m rs pss := by
    intro start noHint
    constructor
    all_goals rw [start]
    · exact ⟨placed' _ placed.hint, rfl, last.1, fun round => absurd round Bool.false_ne_true, idle⟩
    · exact Or.inl rfl
    · exact fun hint active pending => (noHint hint active pending).elim
  cases active : m.preemptActive with
  | false =>
    refine stays ?_ fun hint preempt => absurd (active.symm.trans preempt) Bool.false_ne_true
    rw [searchStart, lastPlace_seen, active]
    rfl
  | true => ?_
  cases pending : rs.pageHint with
  | none =>
    refine stays ?_ fun hint _ some => absurd (pending.symm.trans some) (by simp)
    rw [searchStart, lastPlace_seen, active]
    simp only [pending]
    rfl
  | some hint =>
    have start : searchStart m rs = ({ rs with
        lastSeenBlock := .some (lastPlace rs).1, lastPage := (lastPlace rs).2, pageHint := none },
          hint) := by
      rw [searchStart, lastPlace_seen, active]
      simp [pending]
    constructor
    all_goals rw [start]
    · exact ⟨placed' _ (by simp), rfl, placed.hint hint pending,
        fun round => absurd round Bool.false_ne_true, idle⟩
    · exact Or.inr ⟨active, pending⟩
    · exact fun other _ same => Option.some.inj (pending.symm.trans same)

/-- The search ends, and it misses no dirty page when it reports completion. -/
structure Sound (m : Migration) (pss : PageSearchStatus) (rs : RAMState) : Prop where
  ends : ∃ n result, ramFindAndSaveBlock m n pss rs = some result
  complete : rs.requests = [] → rs.faults = [] → ∀ n pss' rs',
    ramFindAndSaveBlock m n pss rs = some (0, pss', rs') →
      ∀ block page, Migratable m.blocks block page → rs'.bmap block page = false

/-- All dirty pages lie between the last place and a hint after it. -/
structure HintHides (m : Migration) (rs : RAMState) (hint : Nat × Nat) : Prop where
  active : m.preemptActive = true
  pending : rs.pageHint = some hint
  noRequests : rs.requests = []
  noFaults : rs.faults = []
  flushed : m.flushFails = false
  some : ∃ block page, Migratable m.blocks block page ∧ rs.bmap block page = true
  hidden : ∀ block page, Migratable m.blocks block page → rs.bmap block page = true →
    ¬Before (block, page) (lastPlace rs) ∧ Before (block, page) hint

theorem ramFindAndSaveBlock_loop (some : ramBytesTotal m ≠ 0) (n : Nat) : ramFindAndSaveBlock m n pss rs =
    (searchLoop m n (searchStart m rs).1 (pssInit pss (searchStart m rs).2.1 (searchStart m rs).2.2)).map
      fun result => (result.1, result.2.1, { result.2.2 with
        lastSeenBlock := if result.2.1.block < m.blocks.length then .some result.2.1.block else none
        lastPage := result.2.1.page }) := by
  rw [ramFindAndSaveBlock, if_neg some]
  rcases searchStart m rs with ⟨rs', block, page⟩
  dsimp only
  cases searchLoop m n rs' (pssInit pss block page) <;> rfl

theorem blocks_nonempty (some : ramBytesTotal m ≠ 0) : 0 < m.blocks.length := by
  refine Nat.pos_of_ne_zero fun none => some ?_
  rw [ramBytesTotal, eq_nil_of_length_eq_zero none]
  rfl

theorem HintHides.unsound (hides : HintHides m rs hint) (placed : Placed m rs)
    (idle : pss.hostPageSending = false) : ¬Sound m pss rs := by
  intro sound
  obtain ⟨block, page, pageOf, dirty⟩ := hides.some
  have some := migratable_ramBytesTotal pageOf
  have starts := @searchStart_starts m rs pss placed idle (blocks_nonempty some)
  obtain ⟨n, result, ran⟩ := sound.ends
  have complete := sound.complete hides.noRequests hides.noFaults n
  rw [ramFindAndSaveBlock_loop some] at ran
  simp only [ramFindAndSaveBlock_loop some] at complete
  obtain ⟨⟨pages, pss', rs'⟩, looped, -⟩ := map_eq_some_iff.mp ran
  -- in front of the search there are only the pages after the hint and before the last place
  have clean : ∀ block page, Migratable m.blocks block page →
      Ahead ((lastPlace rs).1, (searchStart m rs).1.lastPage)
        (pssInit pss (searchStart m rs).2.1 (searchStart m rs).2.2) (block, page) →
      (searchStart m rs).1.bmap block page = false := by
    intro block page pageOf ahead
    rw [starts.bmap]
    by_contra set
    have between := hides.hidden block page pageOf (by simpa using set)
    rw [starts.lastPage, starts.hinted hint hides.active hides.pending] at ahead
    exact ahead.elim (fun after => after between.2) between.1
  obtain ⟨zero, same⟩ := searchLoop_completes n starts.searching (starts.requests.trans hides.noRequests)
    (starts.faults.trans hides.noFaults) hides.flushed clean looped
  subst zero
  have missed := complete pss' _ (by rw [looped]; rfl) block page pageOf
  rw [same, starts.bmap, dirty] at missed
  exact Bool.noConfusion missed

/-- Pages that a completed search leaves dirty are hidden by a hint. -/
theorem hides_of_missed (placed : Placed m rs) (idle : pss.hostPageSending = false)
    (noRequests : rs.requests = [])
    (noFaults : rs.faults = []) (ran : ramFindAndSaveBlock m n pss rs = some (0, pss', rs'))
    (pageOf : Migratable m.blocks block page) (dirty : rs'.bmap block page = true) :
    ∃ hint, HintHides m rs hint := by
  have some := migratable_ramBytesTotal pageOf
  have starts := @searchStart_starts m rs pss placed idle (blocks_nonempty some)
  rw [ramFindAndSaveBlock_loop some] at ran
  obtain ⟨⟨pages, pss'', rs''⟩, looped, result⟩ := map_eq_some_iff.mp ran
  obtain ⟨rfl, -, rfl⟩ := Prod.mk.inj result |>.imp id Prod.mk.inj
  have noRequests' := starts.requests.trans noRequests
  have noFaults' := starts.faults.trans noFaults
  have covered : Covered m (searchStart m rs).2 (searchStart m rs).1.bmap
      (pssInit pss (searchStart m rs).2.1 (searchStart m rs).2.2) := by
    intro block page _ passed
    exact absurd passed.2 passed.1
  have covers : ∀ block page, Migratable m.blocks block page → rs''.bmap block page = true →
      ¬Before (block, page) (lastPlace rs) ∧ Before (block, page) (searchStart m rs).2 := by
    intro block page pageOf dirty
    have missed := mt (searchLoop_covers n starts.searching noRequests' noFaults' covered looped pageOf)
      (by simp [dirty])
    rw [starts.lastPage, not_or, not_not] at missed
    exact ⟨missed.2, missed.1⟩
  rcases starts.place with same | ⟨active, pending⟩
  · have between := covers block page pageOf dirty
    rw [same] at between
    exact absurd between.2 between.1
  obtain ⟨unchanged, flushed⟩ := searchLoop_zero n starts.searching noRequests' noFaults'
    (m.preempt_inPostcopy active) looped
  rw [starts.bmap] at unchanged
  rw [unchanged] at covers
  exact ⟨_, active, pending, noRequests, noFaults, flushed.resolve_left Bool.false_ne_true,
    ⟨block, page, pageOf, unchanged ▸ dirty⟩, covers⟩

/-- The search ends in every state, and a search without queued requests that reports completion
leaves no dirty page, exactly if no pending hint hides all of them. -/
theorem search_sound_iff (m : Migration) (pss : PageSearchStatus) (rs : RAMState) (placed : Placed m rs)
    (idle : pss.hostPageSending = false) : Sound m pss rs ↔ ¬∃ hint, HintHides m rs hint := by
  constructor
  · rintro sound ⟨hint, hides⟩
    exact hides.unsound placed idle sound
  · intro unhidden
    refine ⟨?_, ?_⟩
    · by_cases none : ramBytesTotal m = 0
      · exact ⟨0, _, if_pos none⟩
      · have starts := @searchStart_starts m rs pss placed idle (blocks_nonempty none)
        obtain ⟨n, result, ran⟩ := searchLoop_ends starts.searching
        exact ⟨n, _, by rw [ramFindAndSaveBlock_loop none, ran]; rfl⟩
    · intro noRequests noFaults n pss' rs' ran block page pageOf
      by_contra dirty
      exact unhidden (hides_of_missed placed idle noRequests noFaults ran pageOf (by simpa using dirty))

/-- One block of four pages in postcopy with preemption. -/
def preempted : Migration where
  blocks := [⟨4, false, 1⟩]
  preemptActive := true
  inPostcopy := true
  preempt_inPostcopy _ := rfl
  sendFails _ _ := false
  unchanged _ _ := false
  releaseFails _ _ := false
  flushFails := false

/-- Page 1 is dirty; the search stopped at page 1, and page 2 was sent on the urgent channel. -/
def urgentAhead : RAMState where
  bmap block page := block == 0 && page == 1
  lastSeenBlock := some 0
  lastPage := 1
  pageHint := some (0, 3)
  requests := []
  faults := []

theorem urgentAhead_placed : Placed preempted urgentAhead := by
  refine ⟨?_, ?_, by simp [urgentAhead], by simp [urgentAhead]⟩
  · intro block seen
    cases seen
    decide
  · intro place pending
    cases pending
    decide

theorem search_sound_iff_preempted : Placed preempted urgentAhead ∧
    (Sound preempted ⟨0, 0, false, false, 0, 0⟩ urgentAhead ↔
    ¬∃ hint, HintHides preempted urgentAhead hint) :=
  ⟨urgentAhead_placed, search_sound_iff preempted ⟨0, 0, false, false, 0, 0⟩ urgentAhead
    urgentAhead_placed rfl⟩

/-- The search reports completion although page 1 is dirty. -/
theorem search_misses_page : urgentAhead.requests = [] ∧ Migratable preempted.blocks 0 1 ∧
    (ramFindAndSaveBlock preempted 3 ⟨0, 0, false, false, 0, 0⟩ urgentAhead).map
      (fun result => (result.1, result.2.2.bmap 0 1)) = some (0, true) := by
  decide

end Qemu.PageSearch
