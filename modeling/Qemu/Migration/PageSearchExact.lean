import Mathlib.Data.List.GetD
import Qemu.Migration.PageSearch

namespace Qemu.PageSearch

open BitScan List Bool Bitmap

variable {m : Migration} {rs : RAMState} {pss : PageSearchStatus} {bmap : Bitmap}

/-- The order in which the search passes the pages of all blocks. -/
def Before (x y : Nat × Nat) : Prop := x.1 < y.1 ∨ x.1 = y.1 ∧ x.2 < y.2

instance (x y : Nat × Nat) : Decidable (Before x y) := inferInstanceAs (Decidable (_ ∨ _))

/-- The pages that migration has to send. -/
structure Migratable (blocks : List RAMBlock) (block page : Nat) : Prop where
  inside : page < (blockAt blocks block).pages
  kept : (blockAt blocks block).ignored = false

variable {block page : Nat}

theorem Migratable.inList (pageOf : Migratable blocks block page) : block < blocks.length := by
  by_contra beyond
  have inside := pageOf.inside
  rw [blockAt, getD_eq_default _ _ (by omega)] at inside
  exact absurd inside (Nat.not_lt_zero _)

instance (blocks : List RAMBlock) (block page : Nat) : Decidable (Migratable blocks block page) :=
  decidable_of_iff (page < (blockAt blocks block).pages ∧ (blockAt blocks block).ignored = false)
    ⟨fun both => ⟨both.1, both.2⟩, fun pageOf => ⟨pageOf.inside, pageOf.kept⟩⟩

@[simp] theorem Bitmap.clear_self (bmap : Bitmap) (block page : Nat) :
    bmap.clear block page block page = false := by
  simp [clear]

theorem Bitmap.clear_le (set : bmap.clear block page b p = true) : bmap b p = true := by
  by_cases sameBlock : b = block
  · subst sameBlock
    by_cases samePage : p = page
    · simp [samePage] at set
    · simpa [clear, samePage] using set
  · simpa [clear, sameBlock] using set

theorem Bitmap.clean_of_le {cleared : Bitmap} (le : ∀ b p, cleared b p = true → bmap b p = true)
    (clean : bmap block page = false) : cleared block page = false := by
  by_contra set
  rw [le block page (by simpa using set)] at clean
  exact Bool.noConfusion clean

/-- What `pss_find_next_dirty` does outside of a host page. -/
structure NextDirty (m : Migration) (bmap : Bitmap) (pss found : PageSearchStatus) : Prop where
  moved : found = { pss with page := found.page }
  within : found.page ≤ (blockAt m.blocks pss.block).pages
  passed : ∀ page, Migratable m.blocks pss.block page → pss.page ≤ page → page < found.page →
    bmap pss.block page = false
  dirty : found.page < (blockAt m.blocks pss.block).pages →
    Migratable m.blocks pss.block found.page ∧ bmap pss.block found.page = true ∧ pss.page ≤ found.page

theorem pssFindNextDirty_next (idle : pss.hostPageSending = false) :
    NextDirty m bmap pss (pssFindNextDirty m.blocks bmap pss) := by
  rw [pssFindNextDirty]
  by_cases ignored : (blockAt m.blocks pss.block).ignored = true
  · simp only [ignored]
    refine ⟨rfl, le_rfl, fun page pageOf => ?_, fun inside => absurd inside (lt_irrefl _)⟩
    rw [pageOf.kept] at ignored
    exact absurd ignored Bool.false_ne_true
  simp only [ignored, idle, false_eq_true, if_false]
  refine ⟨by simp [idle], findNext_le, fun page _ above below => clear_before_findNext above below,
    fun inside => ?_⟩
  refine ⟨⟨inside, by simpa using ignored⟩, holds_findNext inside, ?_⟩
  by_contra behind
  rw [findNext] at inside behind
  split at inside
  · exact lt_irrefl _ inside
  next start =>
    rw [if_neg start] at behind
    exact behind le_scan

/-- The outcomes of `find_dirty_block`; `page` is where the next dirty bit of the block is. -/
inductive DirtyStep (m : Migration) (rs : RAMState) (pss : PageSearchStatus) :
    Search → PageSearchStatus → Prop
  | allClean (page : Nat) (next : NextDirty m rs.bmap pss { pss with page })
    (wrapped : pss.completeRound = true)
      (atLast : rs.lastSeenBlock = some pss.block) (past : rs.lastPage ≤ page) :
      DirtyStep m rs pss .allClean { pss with page }
  | nextBlock (page : Nat) (next : NextDirty m rs.bmap pss { pss with page })
      (none : page = (blockAt m.blocks pss.block).pages)
      (notLast : pss.completeRound = true → rs.lastSeenBlock = some pss.block → page < rs.lastPage)
      (more : pss.block + 1 < m.blocks.length) :
      DirtyStep m rs pss .tryAgain { pss with page := 0, block := pss.block + 1 }
  | wrap (page : Nat) (next : NextDirty m rs.bmap pss { pss with page })
      (none : page = (blockAt m.blocks pss.block).pages)
      (notLast : pss.completeRound = true → rs.lastSeenBlock = some pss.block → page < rs.lastPage)
      (atEnd : m.blocks.length ≤ pss.block + 1) (flushed : m.flushFails = false) :
      DirtyStep m rs pss .tryAgain { pss with page := 0, block := 0, completeRound := true }
  | error (atEnd : m.blocks.length ≤ pss.block + 1) (failed : m.flushFails = true) :
      DirtyStep m rs pss .error { pss with page := 0, block := pss.block + 1 }
  | dirtyFound (page : Nat) (next : NextDirty m rs.bmap pss { pss with page })
      (found : page < (blockAt m.blocks pss.block).pages)
      (notLast : pss.completeRound = true → rs.lastSeenBlock = some pss.block → page < rs.lastPage) :
      DirtyStep m rs pss .dirtyFound { pss with page }

theorem findDirtyBlock_step (idle : pss.hostPageSending = false) :
    DirtyStep m rs pss (findDirtyBlock m rs pss).1 (findDirtyBlock m rs pss).2 := by
  have next := @pssFindNextDirty_next m pss rs.bmap idle
  rw [findDirtyBlock]
  generalize pssFindNextDirty m.blocks rs.bmap pss = found at next
  obtain ⟨page, rfl⟩ : ∃ page, found = { pss with page } := ⟨_, next.moved⟩
  by_cases finished : pss.completeRound ∧ rs.lastSeenBlock = some pss.block ∧ page ≥ rs.lastPage
  · rw [if_pos finished]
    exact .allClean page next finished.1 finished.2.1 finished.2.2
  rw [if_neg finished]
  have notLast : pss.completeRound = true → rs.lastSeenBlock = some pss.block → page < rs.lastPage :=
    fun wrapped atLast => not_le.mp fun past => finished ⟨wrapped, atLast, past⟩
  by_cases inside : page < (blockAt m.blocks pss.block).pages
  · simp only [offsetInRamblock, inside]
    exact .dirtyFound page next inside notLast
  simp only [offsetInRamblock, inside]
  have none := le_antisymm next.within (not_lt.mp inside)
  by_cases atEnd : pss.block + 1 ≥ m.blocks.length
  · rw [if_pos atEnd]
    cases flush : m.flushFails with
    | true => exact .error atEnd flush
    | false => exact .wrap page next none notLast atEnd flush
  · rw [if_neg atEnd]
    exact .nextBlock page next none notLast (not_le.mp atEnd)

/-- Sending pages stays in the block and in the round. -/
theorem saveTargetPages_place (n : Nat) (acc : Int) :
    (saveTargetPages m n pss bmap acc).2.1.block = pss.block ∧
      (saveTargetPages m n pss bmap acc).2.1.completeRound = pss.completeRound := by
  induction n generalizing pss bmap acc with
  | zero => exact ⟨rfl, rfl⟩
  | succ n ih => ?_
  have kept : ∀ bmap' : Bitmap, (pssFindNextDirty m.blocks bmap' pss).block = pss.block ∧
      (pssFindNextDirty m.blocks bmap' pss).completeRound = pss.completeRound := fun bmap' => by
    rw [pssFindNextDirty]
    split <;> exact ⟨rfl, rfl⟩
  simp only [saveTargetPages]
  generalize (if bmap pss.block pss.page = true then _ else (0 : Int)) = tmppages
  split
  · exact ⟨rfl, rfl⟩
  · split
    · rw [(ih _).1, (ih _).2]
      exact kept _
    · exact kept _

theorem ramSaveHostPage_place (idle : pss.hostPageSending = false) :
    (ramSaveHostPage m pss bmap).2.1.block = pss.block ∧
      (ramSaveHostPage m pss bmap).2.1.completeRound = pss.completeRound ∧
      (ramSaveHostPage m pss bmap).2.1.hostPageSending = false := by
  rw [ramSaveHostPage]
  split
  · exact ⟨rfl, rfl, idle⟩
  have prepared : (pssHostPagePrepare m.blocks pss).block = pss.block ∧
      (pssHostPagePrepare m.blocks pss).completeRound = pss.completeRound := by
    rw [pssHostPagePrepare]
    split <;> exact ⟨rfl, rfl⟩
  have place := @saveTargetPages_place m (pssHostPagePrepare m.blocks pss) bmap
    ((pssHostPagePrepare m.blocks pss).hostPageEnd - (pssHostPagePrepare m.blocks pss).page) 0
  rw [prepared.1, prepared.2] at place
  dsimp only
  split <;> exact ⟨place.1, place.2, rfl⟩

/-- What sending the dirty pages of a host page does, from a page of the block on. -/
structure Sent (m : Migration) (pss : PageSearchStatus) (bmap : Bitmap) (acc pages : Int)
    (later : PageSearchStatus) (cleared : Bitmap) : Prop where
  shrinks : ∀ b p, cleared b p = true → bmap b p = true
  first : cleared pss.block pss.page = false
  /-- the pages passed are clean, unless sending one of them failed -/
  passed : 0 ≤ pages → pss.page ≤ later.page ∧
    ∀ page, pss.page ≤ page → page < later.page → cleared pss.block page = false
  counts : pages < 0 ∨ acc ≤ pages ∧ (m.inPostcopy = true → bmap pss.block pss.page = true → acc < pages)

theorem saveTargetPages_sent (n : Nat) {acc : Int} (start : 0 ≤ acc)
    (kept : (blockAt m.blocks pss.block).ignored = false)
    (sending : pss.hostPageSending = true) (inBlock : pss.page < (blockAt m.blocks pss.block).pages)
    (inPage : pss.page < pss.hostPageEnd) (enough : pss.hostPageEnd - pss.page ≤ n) :
    Sent m pss bmap acc (saveTargetPages m n pss bmap acc).1 (saveTargetPages m n pss bmap acc).2.1
      (saveTargetPages m n pss bmap acc).2.2 := by
  induction n generalizing pss bmap acc with
  | zero => omega
  | succ n ih => ?_
  simp only [saveTargetPages]
  have counted : ∀ t, t = (if bmap pss.block pss.page = true then ramSaveTargetPage m pss.block
      pss.page else 0) → m.inPostcopy = true → bmap pss.block pss.page = true → t ≠ 0 := by
    rintro t rfl postcopy dirty
    rw [if_pos dirty]
    rw [ramSaveTargetPage, postcopy]
    split <;> simp
  generalize hsent : (if bmap pss.block pss.page = true then _ else (0 : Int)) = tmppages
  replace counted := counted tmppages hsent.symm
  have cleared := clear_self bmap pss.block pss.page
  have shrunk : ∀ b p, bmap.clear pss.block pss.page b p = true → bmap b p = true := fun _ _ => clear_le
  generalize bmap.clear pss.block pss.page = bmap' at cleared shrunk
  by_cases failed : tmppages < 0
  · rw [if_pos failed]
    exact ⟨shrunk, cleared, fun sent => absurd failed (not_lt.mpr sent), Or.inl failed⟩
  rw [if_neg failed]
  -- the bit just cleared makes the next dirty page a later one
  obtain ⟨next, hnext, below, after, clean⟩ :
    ∃ next, pssFindNextDirty m.blocks bmap' pss = { pss with page := next } ∧
      next ≤ pss.hostPageEnd ∧ pss.page < next ∧ ∀ page, pss.page ≤ page → page < next →
      bmap' pss.block page = false := by
    refine ⟨findNext (bmap' pss.block) (min (blockAt m.blocks pss.block).pages pss.hostPageEnd)
      pss.page, ?_, ?_, ?_, ?_⟩
    · simp [pssFindNextDirty, kept, sending]
    · exact findNext_le.trans (min_le_right _ _)
    · have inSize : pss.page < min (blockAt m.blocks pss.block).pages pss.hostPageEnd :=
        lt_min inBlock inPage
      have reached := @le_findNext (bmap' pss.block) _ _ inSize.le
      refine lt_of_le_of_ne reached fun same => ?_
      have dirty := @holds_findNext (bmap' pss.block) _ pss.page (by rwa [← same])
      rw [← same, cleared] at dirty
      exact Bool.false_ne_true dirty
    · exact fun page above before => clear_before_findNext above before
  rw [hnext]
  have more : acc ≤ acc + tmppages := by omega
  by_cases within : pssWithinRange m.blocks { pss with page := next } = true
  · rw [if_pos within]
    simp only [pssWithinRange, offsetInRamblock, and_eq_true, decide_eq_true_eq] at within
    have rest := @ih { pss with page := next } bmap' (acc + tmppages)
      (by omega) kept sending within.2 within.1 (by dsimp only; omega)
    refine ⟨fun b p set => shrunk b p (rest.shrinks b p set), clean_of_le rest.shrinks cleared,
      fun sent => ?_, ?_⟩
    · obtain ⟨onward, passed⟩ := rest.passed sent
      refine ⟨after.le.trans onward, fun page above before => ?_⟩
      by_cases early : page < next
      · exact clean_of_le rest.shrinks (clean page above early)
      · exact passed page (not_lt.mp early) before
    · refine rest.counts.imp id fun counts => ⟨more.trans counts.1, fun postcopy dirty => ?_⟩
      have := counted postcopy dirty
      omega
  · rw [if_neg within]
    refine ⟨shrunk, cleared, fun _ => ⟨after.le, clean⟩, Or.inr ⟨more, fun postcopy dirty => ?_⟩⟩
    have := counted postcopy dirty
    omega

theorem pssHostPagePrepare_prepared : ∃ first last, pssHostPagePrepare m.blocks pss =
    { pss with hostPageSending := true, hostPageStart := first, hostPageEnd := last } ∧
    pss.page < last := by
  rw [pssHostPagePrepare]
  split
  · exact ⟨_, _, rfl, Nat.lt_succ_self _⟩
  · refine ⟨_, _, rfl, ?_⟩
    have positive : 0 < (blockAt m.blocks pss.block).guestPfns := by omega
    have rounded := Nat.lt_div_mul_add
      (a := pss.page + 1 + (blockAt m.blocks pss.block).guestPfns - 1) positive
    omega

theorem ramSaveHostPage_sent (pageOf : Migratable m.blocks pss.block pss.page) :
    Sent m pss bmap 0 (ramSaveHostPage m pss bmap).1 (ramSaveHostPage m pss bmap).2.1
      (ramSaveHostPage m pss bmap).2.2 := by
  rw [ramSaveHostPage, pageOf.kept]
  simp only [false_eq_true, if_false]
  obtain ⟨first, last, prepared, inPage⟩ := @pssHostPagePrepare_prepared m pss
  rw [prepared]
  have sent := @saveTargetPages_sent m
    { pss with hostPageSending := true, hostPageStart := first, hostPageEnd := last }
    bmap (last - pss.page) 0 le_rfl pageOf.kept rfl pageOf.inside inPage le_rfl
  generalize saveTargetPages m (last - pss.page) _ bmap 0 = result at sent ⊢
  split
  · have failed : (-1 : Int) < 0 := by decide
    exact ⟨sent.shrinks, sent.first, fun none => absurd none (not_le.mpr failed), Or.inl failed⟩
  · exact ⟨sent.shrinks, sent.first, sent.passed, sent.counts⟩

/-- The dirty pages that are left to send. -/
def dirtyPages (blocks : List RAMBlock) (bmap : Bitmap) : Finset (Σ _ : Nat, Nat) :=
  ((Finset.range blocks.length).sigma fun block => Finset.range (blockAt blocks block).pages).filter
    fun place => bmap place.1 place.2 = true

theorem dirtyPages_card_lt (pageOf : Migratable m.blocks block page)
    (shrinks : ∀ b p, cleared b p = true → bmap b p = true) (dirty : bmap block page = true)
    (clean : cleared block page = false) :
    (dirtyPages m.blocks cleared).card < (dirtyPages m.blocks bmap).card := by
  apply Finset.card_lt_card
  refine Finset.ssubset_iff_of_subset ?_ |>.mpr ⟨⟨block, page⟩, ?_, ?_⟩
  · exact Finset.monotone_filter_right _ fun place _ => shrinks place.1 place.2
  · simp [dirtyPages, pageOf.inList, pageOf.inside, dirty]
  · simp [dirtyPages, clean]

/-- The places that the search is told about are in the list of blocks. -/
structure Placed (m : Migration) (rs : RAMState) : Prop where
  last : ∀ block, rs.lastSeenBlock = some block →
    block < m.blocks.length ∧ rs.lastPage ≤ (blockAt m.blocks block).pages
  hint : ∀ place, rs.pageHint = some place → place.1 < m.blocks.length
  requests : ∀ place ∈ rs.requests, place.1 < m.blocks.length
  faults : ∀ place ∈ rs.faults, place.1 < m.blocks.length

/-- The state of the search between two rounds. -/
structure Searching (m : Migration) (last : Nat) (rs : RAMState) (pss : PageSearchStatus) : Prop where
  placed : Placed m rs
  seen : rs.lastSeenBlock = some last
  inList : pss.block < m.blocks.length
  round : pss.completeRound = true → pss.block ≤ last
  idle : pss.hostPageSending = false

theorem unqueueDirty_none (empty : unqueueDirty bmap requests = (none, rest)) : rest = [] := by
  induction requests with
  | nil => exact (Prod.mk.inj empty).2.symm
  | cons place requests ih =>
    rw [unqueueDirty] at empty
    split at empty
    · exact absurd (Prod.mk.inj empty).1 (by simp)
    · exact ih empty

theorem unqueueDirty_some
    (taken : unqueueDirty bmap requests = (some place, rest)) : (place :: rest).Sublist requests := by
  induction requests with
  | nil => exact absurd (Prod.mk.inj taken).1 (by simp)
  | cons head requests ih => ?_
  rw [unqueueDirty] at taken
  split at taken
  · obtain ⟨⟨⟩, ⟨⟩⟩ := Prod.mk.inj taken
    exact List.Sublist.refl _
  · exact (ih taken).cons _

variable {last : Nat}

/-- A round takes a page off the queues, or finds them empty. -/
theorem getQueuedPage_cases (search : Searching m last rs pss) :
    (∃ pss' rs', getQueuedPage rs pss = (true, pss', rs') ∧ Searching m last rs' pss' ∧
    rs'.bmap = rs.bmap ∧
      rs'.requests.length + rs'.faults.length < rs.requests.length + rs.faults.length) ∨
    getQueuedPage rs pss = (false, pss, { rs with requests := [] }) ∧ rs.faults = [] := by
  rw [getQueuedPage]
  rcases taken : unqueueDirty rs.bmap rs.requests with ⟨_ | ⟨block, page⟩, rest⟩
  · obtain rfl := unqueueDirty_none taken
    cases faults : rs.faults with
    | nil => exact Or.inr ⟨rfl, rfl⟩
    | cons place faults' => ?_
    refine Or.inl ⟨_, _, rfl,
      ⟨?_, search.seen, ?_, fun round => absurd round Bool.false_ne_true, search.idle⟩, rfl, ?_⟩
    · exact ⟨search.placed.last, search.placed.hint, by simp,
        fun place' member => search.placed.faults place' (by rw [faults]; exact .tail _ member)⟩
    · exact search.placed.faults place (by rw [faults]; exact .head _)
    · simp only [length_nil, length_cons]
      omega
  · have sub := unqueueDirty_some taken
    refine Or.inl ⟨_, _, rfl,
      ⟨?_, search.seen, ?_, fun round => absurd round Bool.false_ne_true, search.idle⟩, rfl, ?_⟩
    · exact ⟨search.placed.last, search.placed.hint,
        fun place' member => search.placed.requests place' (sub.subset (.tail _ member)),
          search.placed.faults⟩
    · exact search.placed.requests (block, page) (sub.subset (.head _))
    · have := sub.length_le
      simp only [length_cons] at this
      simp only
      omega

/-- Blocks left to look at before the search gives up. -/
def blocksLeft (m : Migration) (last : Nat) (pss : PageSearchStatus) : Nat :=
  if pss.completeRound then last - pss.block else m.blocks.length + last + 1 - pss.block

section

variable (search : Searching m last rs pss)
include search

/-- A page sent from a search state leads to one with fewer dirty pages. -/
theorem Searching.sent :
    Searching m last { rs with bmap := (ramSaveHostPage m pss rs.bmap).2.2 }
    (ramSaveHostPage m pss rs.bmap).2.1 := by
  obtain ⟨block, round, idle⟩ := @ramSaveHostPage_place m pss rs.bmap search.idle
  refine ⟨⟨search.placed.last, search.placed.hint, search.placed.requests, search.placed.faults⟩,
    search.seen, ?_, ?_, idle⟩
  · rw [block]
    exact search.inList
  · rw [block, round]
    exact search.round

section

variable (none : page = (blockAt m.blocks pss.block).pages)
  (notLast : pss.completeRound = true → rs.lastSeenBlock = some pss.block → page < rs.lastPage)
include none notLast

/-- In the second round the search does not leave the block where it ends. -/
theorem Searching.beforeLast
    (round : pss.completeRound = true) : pss.block < last := by
  refine lt_of_le_of_ne (search.round round) fun same => ?_
  have early := notLast round (by rw [search.seen, same])
  have lastPage := (search.placed.last last search.seen).2
  rw [same] at none
  omega

theorem Searching.firstRound
    (atEnd : m.blocks.length ≤ pss.block + 1) : pss.completeRound = false := by
  by_contra again
  have before := search.beforeLast none notLast (by simpa using again)
  have lastIn := (search.placed.last last search.seen).1
  omega

end

/-- A block without dirty pages is left for one that brings the search nearer to its end. -/
theorem Searching.tryAgain (step : DirtyStep m rs pss .tryAgain later) :
    Searching m last rs later ∧ blocksLeft m last later < blocksLeft m last pss := by
  have inList := search.inList
  cases step with
  | nextBlock page next none notLast more =>
    have before := search.beforeLast none notLast
    refine ⟨⟨search.placed, search.seen, more, before, search.idle⟩, ?_⟩
    simp only [blocksLeft]
    split
    next round =>
      have := before round
      omega
    · omega
  | wrap page next none notLast atEnd flushed =>
    have firstRound := search.firstRound none notLast atEnd
    refine ⟨⟨search.placed, search.seen, by dsimp only; omega, fun _ => Nat.zero_le _, search.idle⟩, ?_⟩
    simp only [blocksLeft, firstRound, false_eq_true, if_true, if_false]
    omega

end

variable {rs' : RAMState}

/-- The rest of a round that has found a dirty page. -/
def sendRound (m : Migration) (n : Nat) (rs : RAMState) (pss : PageSearchStatus) :
    Option (Int × PageSearchStatus × RAMState) :=
  let (pages, pss, bmap) := ramSaveHostPage m pss rs.bmap
  if pages ≠ 0 then some (pages, pss, { rs with bmap }) else searchLoop m n { rs with bmap } pss

theorem searchLoop_queued (taken : getQueuedPage rs pss = (true, pss', rs'))
    (n : Nat) : searchLoop m (n + 1) rs pss = sendRound m n rs' pss' := by
  simp [searchLoop, taken, sendRound]

theorem searchLoop_search (empty : getQueuedPage rs pss = (false, pss, rs')) (n : Nat) :
    searchLoop m (n + 1) rs pss =
      match findDirtyBlock m rs' pss with
      | (.allClean, later) => some (0, later, rs')
      | (.tryAgain, later) => searchLoop m n rs' later
      | (.error, later) => some (-1, later, rs')
      | (.dirtyFound, later) => sendRound m n rs' later := by
  simp only [searchLoop, empty]
  rcases findDirtyBlock m rs' pss with ⟨_ | _ | _ | _, later⟩ <;> rfl

theorem searchLoop_ends {rs : RAMState} {pss : PageSearchStatus}
    (search : Searching m last rs pss) : ∃ n result, searchLoop m n rs pss = some result := by
  rcases getQueuedPage_cases search with ⟨pss', rs', taken, search', same, fewer⟩ | ⟨empty, noFaults⟩
  · by_cases sent : (ramSaveHostPage m pss' rs'.bmap).1 ≠ 0
    · exact ⟨1, _, (searchLoop_queued taken 0).trans (if_pos sent)⟩
    · obtain ⟨n, result, ran⟩ := searchLoop_ends search'.sent
      exact ⟨n + 1, result, (searchLoop_queued taken n).trans ((if_neg sent).trans ran)⟩
  have search' : Searching m last { rs with requests := [] } pss :=
    ⟨⟨search.placed.last, search.placed.hint, by simp, search.placed.faults⟩, search.seen, search.inList,
      search.round, search.idle⟩
  have step := @findDirtyBlock_step m { rs with requests := [] } pss search.idle
  have unfolds := searchLoop_search (m := m) empty
  generalize findDirtyBlock m { rs with requests := [] } pss = outcome at step unfolds
  obtain ⟨found, later⟩ := outcome
  cases found with
  | allClean => exact ⟨1, _, unfolds 0⟩
  | error => exact ⟨1, _, unfolds 0⟩
  | tryAgain =>
    obtain ⟨again, nearer⟩ := search'.tryAgain step
    obtain ⟨n, result, ran⟩ := searchLoop_ends again
    exact ⟨n + 1, result, (unfolds n).trans ran⟩
  | dirtyFound =>
    by_cases sent : (ramSaveHostPage m later rs.bmap).1 ≠ 0
    · exact ⟨1, _, (unfolds 0).trans (if_pos sent)⟩
    cases step with
    | dirtyFound page next found notLast =>
      obtain ⟨pageOf, dirty, -⟩ := next.dirty found
      have search'' : Searching m last { rs with requests := [] } { pss with page } :=
        ⟨search'.placed, search'.seen, search'.inList, search'.round, search'.idle⟩
      have fewer := dirtyPages_card_lt pageOf
        (@ramSaveHostPage_sent m { pss with page } rs.bmap pageOf).shrinks dirty
        (@ramSaveHostPage_sent m { pss with page } rs.bmap pageOf).first
      obtain ⟨n, result, ran⟩ := searchLoop_ends search''.sent
      exact ⟨n + 1, result, (unfolds n).trans ((if_neg sent).trans ran)⟩
termination_by (rs.requests.length + rs.faults.length, (dirtyPages m.blocks rs.bmap).card,
  blocksLeft m last pss)
decreasing_by
  · exact Prod.Lex.left _ _ fewer
  all_goals
    simp only [noFaults]
    rcases Nat.eq_zero_or_pos rs.requests.length with none | some
    · rw [none]
      first
        | exact Prod.Lex.right _ (Prod.Lex.right _ nearer)
        | exact Prod.Lex.right _ (Prod.Lex.left _ _ fewer)
    · exact Prod.Lex.left _ _ (by omega)

end Qemu.PageSearch
