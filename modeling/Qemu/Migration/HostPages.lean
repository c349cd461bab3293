import Qemu.Lib.BitScan
import Qemu.Lib.Loop

/-! The pass over the dirty bitmap of a block that leaves each host page dirty or clean as a
whole. -/

namespace Qemu.Postcopy

open BitScan Loop List Nat Finset

/-- Postcopy is refused where a host page is smaller than a target page. -/
structure RAMBlock where
  targetPageBits : Nat
  usedLength : Nat
  pageSize : Nat
  wholePages : 2 ^ targetPageBits ∣ pageSize
  nonempty : 0 < pageSize

/-- The set bits of the bitmap, and the counter of dirty pages. -/
structure Dirty where
  bitmap : Finset Nat
  migrationDirtyPages : Nat

def findNextBit (bitmap : Finset Nat) (size offset : Nat) : Nat :=
  findNext (fun page => page ∈ bitmap) size offset

def findNextZeroBit (bitmap : Finset Nat) (size offset : Nat) : Nat :=
  findNext (fun page => page ∉ bitmap) size offset

/-- `migration_dirty_pages += !test_and_set_bit(page, bitmap)` -/
def Dirty.remark (dirty : Dirty) (page : Nat) : Dirty where
  bitmap := insert page dirty.bitmap
  migrationDirtyPages := dirty.migrationDirtyPages + if page ∈ dirty.bitmap then 0 else 1

section

variable (hostRatio pages : Nat)

/-- The end of the run, if it starts with a host page. -/
def runEnd (bitmap : Finset Nat) (runStart : Nat) : Nat :=
  if runStart % hostRatio = 0 then findNextZeroBit bitmap pages (runStart + 1) else runStart

/-- The body of the loop, from a dirty page on. -/
def chunkRun : Nat × Dirty → Step (Nat × Dirty) Dirty
  | (runStart, dirty) =>
    if runStart < pages then
      let runStart := runEnd hostRatio pages dirty.bitmap runStart
      if runStart % hostRatio = 0 then .next (findNextBit dirty.bitmap pages runStart, dirty)
      else
        let fixupStartAddr := runStart / hostRatio * hostRatio
        let runStart := (runStart + hostRatio - 1) / hostRatio * hostRatio
        let dirty := (range' fixupStartAddr hostRatio).foldl Dirty.remark dirty
        .next (findNextBit dirty.bitmap pages runStart, dirty)
    else .done dirty

end

def RAMBlock.hostRatio (block : RAMBlock) : Nat := block.pageSize / 2 ^ block.targetPageBits

def RAMBlock.pages (block : RAMBlock) : Nat := block.usedLength >>> block.targetPageBits

/-- `none` would be a loop that does not end. -/
def postcopyChunkHostpagesPass (block : RAMBlock) (dirty : Dirty) : Option Dirty :=
  if block.pageSize = 2 ^ block.targetPageBits then some dirty
  else
    run (fun s => some (chunkRun block.hostRatio block.pages s)) (block.pages + 1)
      (findNextBit dirty.bitmap block.pages 0, dirty)

theorem remark_foldl (list : List Nat) (dirty : Dirty) :
    (list.foldl Dirty.remark dirty).bitmap = dirty.bitmap ∪ list.toFinset ∧
      (list.foldl Dirty.remark dirty).migrationDirtyPages + dirty.bitmap.card =
        dirty.migrationDirtyPages + (list.foldl Dirty.remark dirty).bitmap.card := by
  induction list generalizing dirty with
  | nil => simp
  | cons page rest ih => ?_
  obtain ⟨bits, count⟩ := ih (dirty.remark page)
  have one : (dirty.remark page).migrationDirtyPages + dirty.bitmap.card =
      dirty.migrationDirtyPages + (dirty.remark page).bitmap.card := by
    simp only [Dirty.remark, card_insert_eq_ite]
    split <;> omega
  rw [foldl_cons]
  refine ⟨?_, by omega⟩
  rw [bits, Dirty.remark, toFinset_cons, insert_union, union_insert]

/-- The host pages with a dirty target page. -/
def dirtyHosts (ratio : Nat) (bitmap : Finset Nat) : Finset Nat := bitmap.image (· / ratio)

/-- The host pages before `host` are dirty as a whole or clean; `dirty` is what was dirty at
first. -/
structure Chunked (ratio : Nat) (dirty : Dirty) (host : Nat) (now : Dirty) : Prop where
  same : dirtyHosts ratio now.bitmap = dirtyHosts ratio dirty.bitmap
  whole : ∀ page, page / ratio < host → page / ratio ∈ dirtyHosts ratio now.bitmap → page ∈ now.bitmap
  counted : now.migrationDirtyPages + dirty.bitmap.card = dirty.migrationDirtyPages + now.bitmap.card

variable {ratio pages start host page : Nat} {dirty now : Dirty}

theorem findNextBit_after (inside : start < pages) {next : Nat} (later : start < next) :
    start < findNextBit bitmap pages next := by
  rcases le_total next pages with fits | beyond
  · exact later.trans_le (le_findNext fits)
  · rwa [findNextBit, findNext, if_pos beyond]

section

variable (pos : 0 < ratio)
include pos

theorem findNextBit_clean (low : host ≤ page / ratio)
    (before : page < findNextBit bitmap pages (host * ratio)) : page ∉ bitmap := by
  simpa using clear_before_findNext ((le_div_iff_mul_le pos).mp low) before

/-- The host pages from the start of a run to its end are dirty, and if it ends inside of one, so is
a part of that. -/
theorem runEnd_spec (here : start ∈ bitmap) (inside : start < pages)
    (ends : runEnd ratio pages bitmap start = stop) :
    start ≤ stop ∧ (stop % ratio = 0 → start < stop) ∧
      (∀ page, start / ratio ≤ page / ratio → page / ratio < stop / ratio → page ∈ bitmap) ∧
      (stop % ratio ≠ 0 → stop / ratio ∈ dirtyHosts ratio bitmap) := by
  rw [runEnd] at ends
  split at ends
  next aligned =>
    have beyond : start < stop := ends ▸ le_findNext inside
    have first := Nat.div_mul_cancel (dvd_of_mod_eq_zero aligned)
    have set : ∀ page, start / ratio * ratio ≤ page → page < stop → page ∈ bitmap := by
      intro page low high
      rcases (first ▸ low).eq_or_lt with rfl | later
      · exact here
      · simpa using clear_before_findNext later (high.trans_eq ends.symm)
    refine ⟨beyond.le, fun _ => beyond, fun page low high => ?_,
      fun part => mem_image.mpr ⟨stop / ratio * ratio, ?_, ?_⟩⟩
    · exact set page ((le_div_iff_mul_le pos).mp low) (lt_of_div_lt_div high)
    · have rest := div_add_mod' stop ratio
      exact set _ (Nat.mul_le_mul_right _ (Nat.div_le_div_right beyond.le)) (by omega)
    · exact Nat.mul_div_cancel _ pos
  next unaligned =>
    subst ends
    exact ⟨le_rfl, fun aligned => absurd aligned unaligned,
      fun page low high => absurd low (not_le.mpr high), fun _ => mem_image_of_mem _ here⟩

section

variable (chunked : Chunked ratio dirty host now)
include chunked

theorem Chunked.advance {stop : Nat} (found : findNextBit now.bitmap pages (host * ratio) = start)
    (run : ∀ page, start / ratio ≤ page / ratio → page / ratio < stop → page ∈ now.bitmap) :
    Chunked ratio dirty stop now := by
  refine { chunked with whole := fun page before set => ?_ }
  by_cases done : page / ratio < host
  · exact chunked.whole page done set
  by_cases reached : start / ratio ≤ page / ratio
  · exact run page reached before
  obtain ⟨other, here, same⟩ := mem_image.mp set
  rw [← same] at done reached
  exact absurd here (findNextBit_clean pos (not_lt.mp done)
    (found ▸ lt_of_div_lt_div (not_le.mp reached)))

/-- The host page that is marked again is dirty as a whole. -/
theorem Chunked.remark (part : host ∈ dirtyHosts ratio now.bitmap) :
    Chunked ratio dirty (host + 1) ((range' (host * ratio) ratio).foldl Dirty.remark now) := by
  obtain ⟨bits, count⟩ := remark_foldl (range' (host * ratio) ratio) now
  have inside : ∀ page, page ∈ (range' (host * ratio) ratio).toFinset ↔ page / ratio = host := by
    intro page
    rw [mem_toFinset, mem_range'_1, Nat.div_eq_iff pos]
    refine and_congr_right fun _ => ?_
    omega
  have hosts : dirtyHosts ratio ((range' (host * ratio) ratio).foldl Dirty.remark now).bitmap =
    dirtyHosts ratio now.bitmap := by
    rw [bits, dirtyHosts, image_union]
    refine union_eq_left.mpr ?_
    intro other set
    obtain ⟨page, here, rfl⟩ := mem_image.mp set
    rwa [(inside page).mp here]
  refine ⟨hosts.trans chunked.same, fun page before set => ?_, by have := chunked.counted; omega⟩
  rw [hosts] at set
  rw [bits, mem_union, inside]
  exact (Nat.lt_succ_iff_lt_or_eq.mp before).imp_left fun below => chunked.whole page below set

/-- Each pass of the loop gets further. -/
theorem chunkRun_chunked (found : findNextBit now.bitmap pages (host * ratio) = start)
    (inside : start < pages) :
    ∃ host' later, chunkRun ratio pages (start, now) =
    .next (findNextBit later.bitmap pages (host' * ratio), later) ∧
      Chunked ratio dirty host' later ∧ start < findNextBit later.bitmap pages (host' * ratio) := by
  have here : start ∈ now.bitmap := found ▸ of_decide_eq_true (holds_findNext (found ▸ inside))
  rw [chunkRun, if_pos inside]
  generalize ends : runEnd ratio pages now.bitmap start = stop
  obtain ⟨beyond, further, run, part⟩ := runEnd_spec pos here inside ends
  have advanced := chunked.advance pos found run
  dsimp only
  split
  next aligned =>
    refine ⟨stop / ratio, now, ?_, advanced, findNextBit_after inside ?_⟩
    · rw [Nat.div_mul_cancel (dvd_of_mod_eq_zero aligned)]
    · rw [Nat.div_mul_cancel (dvd_of_mod_eq_zero aligned)]
      exact further aligned
  next unaligned =>
    have rest := div_add_mod' stop ratio
    have up : (stop + ratio - 1) / ratio = stop / ratio + 1 := by
      rw [Nat.div_eq_iff pos, Nat.add_mul]
      have := mod_lt stop pos
      omega
    refine ⟨stop / ratio + 1, _, by rw [up], advanced.remark pos (part unaligned),
      findNextBit_after inside ?_⟩
    rw [Nat.add_mul]
    have := mod_lt stop pos
    omega

end

end

/-- What the pass is for. -/
structure Canonical (block : RAMBlock) (dirty later : Dirty) : Prop where
  whole : ∀ page other, page < block.pages → other < block.pages →
    page / block.hostRatio = other / block.hostRatio → (page ∈ later.bitmap ↔ other ∈ later.bitmap)
  same : dirtyHosts block.hostRatio later.bitmap = dirtyHosts block.hostRatio dirty.bitmap
  inside : ∀ page ∈ later.bitmap, page < block.pages
  counted : later.migrationDirtyPages + dirty.bitmap.card = dirty.migrationDirtyPages + later.bitmap.card

variable {block : RAMBlock} {later : Dirty}

theorem RAMBlock.hostRatio_pos (block : RAMBlock) : 0 < block.hostRatio :=
  Nat.div_pos (le_of_dvd block.nonempty block.wholePages) (Nat.two_pow_pos _)

/-- The loop goes on at a dirty page of the host pages that are left. -/
def Chunking (block : RAMBlock) (dirty : Dirty) (s : Nat × Dirty) : Prop :=
  ∃ host, Chunked block.hostRatio dirty host s.2 ∧
    findNextBit s.2.bitmap block.pages (host * block.hostRatio) = s.1

theorem pass_chunking (block : RAMBlock) (dirty : Dirty) :
    ∃ later, postcopyChunkHostpagesPass block dirty = some later ∧
      ∃ start, block.pages ≤ start ∧ Chunking block dirty (start, later) := by
  have before : Chunked block.hostRatio dirty 0 dirty := ⟨rfl, nofun, rfl⟩
  rw [postcopyChunkHostpagesPass]
  split
  next small =>
    have one : block.hostRatio = 1 := by rw [RAMBlock.hostRatio, small, Nat.div_self (Nat.two_pow_pos _)]
    refine ⟨dirty, rfl, _, le_rfl, block.pages, { before with whole := fun page _ set => ?_ }, ?_⟩
    · rw [one] at set
      simpa [dirtyHosts] using set
    · rw [one, Nat.mul_one, findNextBit, findNext, if_pos le_rfl]
  · refine @run_spec _ _ _ (_, dirty) _ _ (Chunking block dirty) (fun s => block.pages - s.1) ?_
      ⟨0, before, by rw [Nat.zero_mul]⟩ (lt_succ_of_le (sub_le _ _))
    rintro ⟨start, now⟩ ⟨host, chunked, found⟩
    by_cases inside : start < block.pages
    · obtain ⟨host', later, ran, chunked', further⟩ :=
        chunkRun_chunked block.hostRatio_pos chunked found inside
      rw [ran]
      exact ⟨⟨host', chunked', rfl⟩, Nat.sub_lt_sub_left inside further⟩
    · rw [chunkRun, if_neg inside]
      exact ⟨start, Nat.not_lt.mp inside, host, chunked, found⟩

/-- The pass is right iff no dirty host page reaches beyond the end of the block. -/
theorem canonical_iff (block : RAMBlock) (dirty : Dirty) :
    ∃ later, postcopyChunkHostpagesPass block dirty = some later ∧
      (Canonical block dirty later ↔ ∀ page ∈ dirty.bitmap,
      (page / block.hostRatio + 1) * block.hostRatio ≤ block.pages) := by
  have pos := block.hostRatio_pos
  obtain ⟨later, ran, start, ended, host, chunked, found⟩ := pass_chunking block dirty
  have whole : ∀ page ∈ later.bitmap, page < block.pages →
      ∀ other, other / block.hostRatio = page / block.hostRatio → other ∈ later.bitmap := by
    intro page set inside other same
    refine chunked.whole other ?_ (same ▸ mem_image_of_mem _ set)
    by_contra left
    rw [same] at left
    exact findNextBit_clean pos (not_lt.mp left) (inside.trans_le (ended.trans_eq found.symm)) set
  refine ⟨later, ran, fun canonical page set => ?_, fun fits => ?_⟩
  · obtain ⟨now, here, same⟩ := mem_image.mp (canonical.same.ge (mem_image_of_mem _ set))
    have last := canonical.inside _ (whole now here (canonical.inside now here)
      (now / block.hostRatio * block.hostRatio + (block.hostRatio - 1)) ?_)
    · rw [← same, add_mul]
      omega
    · rw [Nat.div_eq_iff pos]
      omega
  · have inside : ∀ page ∈ later.bitmap, page < block.pages := fun page set => by
      obtain ⟨old, dirtied, same⟩ := mem_image.mp (chunked.same.le (mem_image_of_mem _ set))
      have := fits old dirtied
      rw [same] at this
      exact (lt_div_mul_add pos).trans_le (by rwa [add_mul, one_mul] at this)
    exact ⟨fun page other here there same => ⟨fun set => whole page set here other same.symm,
      fun set => whole other set there page same⟩, chunked.same, inside, chunked.counted⟩

/-- A block of three target pages with host pages of two. -/
def oddBlock : RAMBlock := ⟨12, 0x3000, 0x2000, by decide, by decide⟩

/-- The last page is dirty, and the pass marks the one after it. -/
theorem oddBlock_overrun : ∃ later, postcopyChunkHostpagesPass oddBlock ⟨{2}, 1⟩ = some later ∧
    later.bitmap = {2, 3} ∧ oddBlock.pages = 3 ∧ ¬Canonical oddBlock ⟨{2}, 1⟩ later := by
  refine ⟨_, rfl, by decide, rfl, fun canonical => ?_⟩
  exact absurd (canonical.inside 3 (by decide)) (by decide)

end Qemu.Postcopy
