import Qemu.Memory.DispatchPieces

namespace Qemu.Memory

open AddressSpaceDispatch MemoryRegionSection List Nat Piece

def MemoryRegionSection.Holds (s : MemoryRegionSection) (addr : Nat) : Prop :=
  s.offsetWithinAddressSpace ≤ addr ∧ addr < s.stop

namespace AddressSpaceDispatch

variable {t : Target} {d d' : AddressSpaceDispatch} {done : List Piece} {parts : Finset Nat}
  {frontier page : Nat}

def subpageSection (t : Target) (index page : Nat) : MemoryRegionSection :=
  ⟨.subpage index, 0, page * t.pageSize, t.pageSize, false, false, false⟩

/-- An entry of a subpage leads to the piece that has the byte. -/
def ByteOk (d : AddressSpaceDispatch) (done : List Piece) (addr sec : Nat) : Prop :=
  (sec = physSectionUnassigned ∧ ∀ piece ∈ done, ¬ piece.section.Holds addr) ∨
    ∃ s, .part s ∈ done ∧ d.sections[sec]? = some s ∧ s.Holds addr

/-- A page is free, in a run of whole pages, or has a subpage. -/
inductive PageOk (t : Target) (d : AddressSpaceDispatch) (done : List Piece) (parts : Finset Nat)
    (page : Nat) : Prop
  | free (noPart : page ∉ parts) (value : pageSection t d page = physSectionUnassigned)
      (nothing : ∀ piece ∈ done, ∀ addr, addr / t.pageSize = page → ¬ piece.section.Holds addr)
  | whole {s : MemoryRegionSection} (noPart : page ∉ parts) (registered : .whole s ∈ done)
      (found : d.sections[pageSection t d page]? = some s)
      (first : s.offsetWithinAddressSpace ≤ page * t.pageSize)
      (last : (page + 1) * t.pageSize ≤ s.stop)
  | part {index : Nat} {sub : Subpage} (isPart : page ∈ parts)
      (found : d.sections[pageSection t d page]? = some (subpageSection t index page))
      (subpage : d.subpages[index]? = some sub) (base : sub.base = page * t.pageSize)
      (bytes : ∀ k < t.pageSize, ByteOk d done (page * t.pageSize + k) (sub.subSection k))

/-- The table after some pieces, which end at `frontier`; `parts` are the pages that have
subpages. -/
structure Building (t : Target) (d : AddressSpaceDispatch) (done : List Piece) (parts : Finset Nat)
    (frontier : Nat) : Prop where
  placed : ∃ pos, Placed t.levels d pos
  unassigned : d.sections[0]? = some unassignedSection
  count : d.sections.length = 1 + done.length + parts.card
  room : d.sections.length ≤ t.pageSize
  nodes : d.nodesNb ≤ 3 * t.levels * d.sections.length
  pieces : ∀ piece ∈ done, piece.section.Fits ∧ piece.Shape t ∧ piece.section.stop ≤ frontier
  low : ∀ page ∈ parts, page * t.pageSize < frontier
  pages : ∀ page < 2 ^ (64 - t.pageBits), PageOk t d done parts page
  -- the tree may be higher than the address space
  beyond : ∀ page < span t.levels, 2 ^ (64 - t.pageBits) ≤ page →
    pageSection t d page = physSectionUnassigned

variable {more : List MemoryRegionSection} {i : Nat} {s : MemoryRegionSection}

theorem getElem?_extended (extended : list' = list ++ more)
    (found : list[i]? = some s) : list'[i]? = some s := by
  rw [extended, getElem?_append_left (List.getElem?_eq_some_iff.mp found).1]
  exact found

variable {new : List Piece}

/-- A byte that the new pieces do not have. -/
theorem ByteOk.mono (ok : ByteOk d done addr sec)
    (extended : d'.sections = d.sections ++ more)
    (away : ∀ piece ∈ new, ¬ piece.section.Holds addr) : ByteOk d' (done ++ new) addr sec := by
  rcases ok with ⟨none, nothing⟩ | ⟨s, registered, found, holds⟩
  · exact .inl ⟨none, List.forall_mem_append.mpr ⟨nothing, away⟩⟩
  · exact .inr ⟨s, mem_append_left _ registered, getElem?_extended extended found, holds⟩

theorem page_add_div (t : Target) (page : Nat) (small : k < t.pageSize) :
    (page * t.pageSize + k) / t.pageSize = page := by
  rw [add_comm, mul_comm, add_mul_div_left _ _ t.pageSize_pos, div_eq_of_lt small, zero_add]

theorem PageOk.mono (ok : PageOk t d done parts page) (extended : d'.sections = d.sections ++ more)
    (value : pageSection t d' page = pageSection t d page)
    (subpages : ∀ (i : Nat) (sub : Subpage), d.subpages[i]? = some sub →
    sub.base = page * t.pageSize → d'.subpages[i]? = some sub)
    (away : ∀ piece ∈ new, ∀ addr, addr / t.pageSize = page → ¬ piece.section.Holds addr)
    (same : page ∈ parts' ↔ page ∈ parts) : PageOk t d' (done ++ new) parts' page := by
  cases ok with
  | free noPart unset nothing =>
    exact .free (same.not.mpr noPart) (value.trans unset) (List.forall_mem_append.mpr ⟨nothing, away⟩)
  | whole noPart registered found first last =>
    refine .whole (same.not.mpr noPart) (mem_append_left _ registered) ?_ first last
    rw [value]
    exact getElem?_extended extended found
  | part isPart found subpage base bytes =>
    refine .part (same.mpr isPart) ?_ (subpages _ _ subpage base) base fun k small => ?_
    · rw [value]
      exact getElem?_extended extended found
    · exact (bytes k small).mono extended fun piece member =>
        away piece member _ (page_add_div t page small)

variable (building : Building t d done parts frontier)
include building

/-- Pages at the frontier are free. -/
theorem Building.unset (inside : page < 2 ^ (64 - t.pageBits))
    (noPart : page ∉ parts) (high : frontier < (page + 1) * t.pageSize) :
    pageSection t d page = physSectionUnassigned ∧
      ∀ piece ∈ done, ∀ addr, addr / t.pageSize = page → ¬ piece.section.Holds addr := by
  cases building.pages page inside with
  | free _ value nothing => exact ⟨value, nothing⟩
  | whole _ registered _ _ last =>
    have stop := (building.pieces _ registered).2.2
    exact absurd (last.trans stop) (not_le.mpr high)
  | part isPart => exact absurd isPart noPart

theorem Building.few : d.nodesNb + 3 * t.levels ≤ physMapNodeNil := by
  have levels : t.levels ≤ 7 := by
    have bits := t.pageBits_pos
    rw [Target.levels]
    omega
  have nodes := building.nodes
  have room := building.room.trans t.pageSize_le
  have total : 3 * t.levels * d.sections.length ≤ 21 * 2 ^ 16 := Nat.mul_le_mul (by omega) room
  rw [physMapNodeNil]
  omega

theorem Building.sections_ne : d.sections.length ≠ physSectionUnassigned := by
  rw [building.count, physSectionUnassigned]
  omega

theorem Building.raise (above : frontier ≤ frontier') : Building t d done parts frontier' :=
  { building with
    pieces := fun piece member =>
      ⟨(building.pieces piece member).1, (building.pieces piece member).2.1,
        (building.pieces piece member).2.2.trans above⟩
    low := fun page member => (building.low page member).trans_le above }

/-- The table after one more section, for new pieces or for the subpage of another page. -/
theorem Building.extend (placed : ∃ pos, Placed t.levels d' pos)
    (sections : d'.sections = d.sections ++ [s]) (room : d.sections.length < t.pageSize)
    (nodes : d'.nodesNb ≤ d.nodesNb + 3 * t.levels)
    (one : new.length + parts'.card = parts.card + 1) (above : frontier ≤ frontier')
    (pieces : ∀ piece ∈ new, piece.section.Fits ∧ piece.Shape t ∧ piece.section.stop ≤ frontier')
    (low : ∀ page ∈ parts', page ∈ parts ∨ page * t.pageSize < frontier')
    (pages : ∀ page < 2 ^ (64 - t.pageBits), PageOk t d' (done ++ new) parts' page)
    (beyond : ∀ page < span t.levels, 2 ^ (64 - t.pageBits) ≤ page →
    pageSection t d' page = pageSection t d page) :
    Building t d' (done ++ new) parts' frontier' := by
  have count := building.count
  have before := building.nodes
  have length : d'.sections.length = d.sections.length + 1 := by
    rw [sections, length_append, length_singleton]
  refine ⟨placed, getElem?_extended sections building.unassigned, ?_, ?_, ?_,
    List.forall_mem_append.mpr ⟨(building.raise above).pieces, pieces⟩, fun page member => ?_, pages,
    fun page small high => (beyond page small high).trans (building.beyond page small high)⟩
  · rw [length_append]
    omega
  · omega
  · rw [length, mul_succ]
    omega
  · rcases low page member with old | reached
    · exact (building.raise above).low page old
    · exact reached

omit building

/-- A computation after which there are `n` sections: it succeeds if there is room for them. -/
def Yields {α : Type} (t : Target) (x : Except Assertion α) (n : Nat) (good : α → Prop) : Prop :=
  if n ≤ t.pageSize then ∃ a, x = .ok a ∧ good a else ∃ e, x = .error e

variable {α : Type}

theorem Yields.bind (yields : Yields t x n good) (grows : n ≤ n')
    (next : ∀ a, good a → Yields t (f a) n' good') : Yields t (x >>= f) n' good' := by
  rw [Yields] at yields
  split at yields
  · obtain ⟨a, rfl, holds⟩ := yields
    exact next a holds
  · obtain ⟨e, rfl⟩ := yields
    rw [Yields, if_neg (by omega)]
    exact ⟨e, rfl⟩

theorem Yields.imp (yields : Yields t x n good)
    (weaker : ∀ a, good a → good' a) : Yields t x n good' := by
  rw [Yields] at yields ⊢
  split at yields
  next room =>
    obtain ⟨a, result, holds⟩ := yields
    rw [if_pos room]
    exact ⟨a, result, weaker a holds⟩
  next full =>
    rw [if_neg full]
    exact yields

theorem Yields.of_ok (room : n ≤ t.pageSize) (holds : good a) : Yields t (.ok a) n good := by
  rw [Yields, if_pos room]
  exact ⟨a, rfl, holds⟩

theorem physSectionAdd_yields (s : MemoryRegionSection) :
    Yields t (d.physSectionAdd t s) (d.sections.length + 1)
    fun result => result = ({ d with sections := d.sections ++ [s] }, d.sections.length) ∧
    d.sections.length < t.pageSize := by
  rw [Yields, physSectionAdd]
  by_cases room : d.sections.length < t.pageSize
  · rw [if_pos (succ_le_of_lt room), if_pos room]
    exact ⟨_, rfl, rfl, room⟩
  · rw [if_neg (by omega), if_neg room]
    exact ⟨_, rfl⟩

theorem sectionAt_eq (found : d.sections[i]? = some s) : d.sectionAt i = s := by
  rw [sectionAt, getD_eq_getElem?_getD, found, Option.getD_some]

theorem unassigned_covers (addr : Nat) : unassignedSection.sectionCoversAddr addr = true := rfl

theorem covers_iff (fits : s.Fits) (inside : addr < 2 ^ 64) : s.sectionCoversAddr addr = true ↔
    s.Holds addr := by
  obtain ⟨nonempty, stop⟩ := fits
  simp only [sectionCoversAddr, Holds, MemoryRegionSection.stop, Bool.or_eq_true, Bool.and_eq_true,
    decide_eq_true_eq]
  by_cases full : s.size ≥ 2 ^ 64
  · exact ⟨fun _ => by omega, fun _ => .inl full⟩
  · exact ⟨fun covers => by omega, fun holds => .inr (by omega)⟩

theorem physPageFind_eq (placed : Placed t.levels d pos)
    (unassigned : d.sections[0]? = some unassignedSection) (inside : addr / t.pageSize < span t.levels) :
    d.physPageFind t addr = if (d.sectionAt (pageSection t d (addr / t.pageSize))).sectionCoversAddr addr
      then d.sectionAt (pageSection t d (addr / t.pageSize)) else unassignedSection := by
  have walked := @walk_getD d pos t.levels placed .root t.levels 0 (addr / t.pageSize)
    (t.levels + 1) ⟨rfl, rfl⟩ (zero_le _) (by omega) (lt_succ_self _)
  rw [read, ← pageSection] at walked
  have first : d.sectionAt physSectionUnassigned = unassignedSection := sectionAt_eq unassigned
  rw [physPageFind]
  cases found : d.walk (addr / t.pageSize) (t.levels + 1) t.levels d.physMap with
  | none =>
    rw [found, Option.getD_none] at walked
    rw [← walked, first, unassigned_covers, if_pos rfl]
  | some ptr =>
    rw [found, Option.getD_some] at walked
    rw [← walked, first]

variable {index : Nat}

theorem subpageSection_fits (inside : page < 2 ^ (64 - t.pageBits)) :
    (subpageSection t index page).Fits := by
  have pos := t.pageSize_pos
  have total := t.pageSize_mul
  have last := mul_le_mul_left t.pageSize (succ_le_of_lt inside)
  rw [mul_succ] at last
  refine ⟨by simp only [subpageSection]; omega, ?_⟩
  simp only [subpageSection]
  rw [mul_comm]
  omega

theorem page_mul_div (t : Target) (page : Nat) : page * t.pageSize / t.pageSize = page :=
  Nat.mul_div_cancel _ t.pageSize_pos

/-- A page that has its subpage, and where it is. -/
structure HasSubpage (t : Target) (d : AddressSpaceDispatch) (page index : Nat) : Prop where
  found : d.sections[pageSection t d page]? = some (subpageSection t index page)
  subpage : ∃ sub, d.subpages[index]? = some sub ∧ sub.base = page * t.pageSize

/-- A section that pages are mapped to for the first time. -/
structure Mapped (t : Target) (d : AddressSpaceDispatch) (s : MemoryRegionSection) (index nb : Nat)
    (d' : AddressSpaceDispatch) : Prop where
  placed : ∃ pos, Placed t.levels d' pos
  sections : d'.sections = d.sections ++ [s]
  room : d.sections.length < t.pageSize
  subpages : d'.subpages = d.subpages
  nodes : d'.nodesNb ≤ d.nodesNb + 3 * t.levels
  value : ∀ page < span t.levels, pageSection t d' page =
    if index ≤ page ∧ page < index + nb then d.sections.length else pageSection t d page

/-- Adding a section and mapping free pages to it. -/
theorem addAndSet_yields (building : Building t d done parts frontier) {d₀ : AddressSpaceDispatch}
    (tree : SameTree d d₀)
    (sections : d₀.sections = d.sections) (s : MemoryRegionSection) {index nb : Nat} (some : nb ≠ 0)
    (inside : index + nb ≤ 2 ^ (64 - t.pageBits))
    (unset : ∀ page, index ≤ page → page < index + nb → pageSection t d page = physSectionUnassigned) :
    Yields t (d₀.physSectionAdd t s >>= fun result => result.1.physPageSet t index nb result.2)
      (d.sections.length + 1) fun d' => Mapped t d₀ s index nb d' := by
  obtain ⟨pos, placed⟩ := building.placed
  have added := @physSectionAdd_yields t d₀ s
  rw [sections] at added
  refine added.bind le_rfl ?_
  rintro _ ⟨rfl, room⟩
  have tree' : SameTree d { d₀ with sections := d.sections ++ [s] } :=
    ⟨tree.physMap, tree.nodes, tree.nodesNb⟩
  have bound := pages_le_span t
  have few := building.few
  obtain ⟨d', set, result⟩ :=
    @physPageSet_spec t { d₀ with sections := d.sections ++ [s] } pos index nb d.sections.length
    building.sections_ne (tree'.placed placed) some (by omega) (by rw [tree'.nodesNb]; exact few)
    (fun page low high => (tree'.pageSection_eq page).trans (unset page low high))
  rw [set]
  refine .of_ok (succ_le_of_lt room) ⟨result.placed, ?_, sections ▸ room, result.subpages,
    result.nodes, fun page small => ?_⟩
  · rw [result.sections, sections]
  · rw [result.value page small, tree'.pageSection_eq, tree.pageSection_eq, sections]

/-- A new subpage, not yet mapped. -/
def withSubpage (d : AddressSpaceDispatch) (base : Nat) : AddressSpaceDispatch :=
  { d with subpages := d.subpages ++ [⟨base, fun _ => physSectionUnassigned⟩] }

section NewSubpage

variable (inside : page < 2 ^ (64 - t.pageBits)) (noPart : page ∉ parts)
  (mapped : Mapped t (d.withSubpage (page * t.pageSize)) (subpageSection t d.subpages.length page)
  page 1 d')
include inside mapped

theorem newSubpage_has : d'.sections[pageSection t d' page]? =
    some (subpageSection t d.subpages.length page) ∧
    d'.subpages[d.subpages.length]? = some ⟨page * t.pageSize, fun _ => physSectionUnassigned⟩ := by
  have bound := pages_le_span t
  constructor
  · rw [mapped.value page (by omega), if_pos (by omega), mapped.sections]
    exact getElem?_concat_length ..
  · rw [mapped.subpages]
    exact getElem?_concat_length ..

include building noPart

theorem newSubpage_building (nothing : ∀ piece ∈ done, ∀ addr, addr / t.pageSize = page →
    ¬ piece.section.Holds addr)
    (above : frontier ≤ frontier') (reaches : page * t.pageSize < frontier') :
    Building t d' done (insert page parts) frontier' := by
  have sections : d'.sections = d.sections ++ _ := mapped.sections
  have bound := pages_le_span t
  have tree : SameTree d (d.withSubpage (page * t.pageSize)) := ⟨rfl, rfl, rfl⟩
  have extended : Building t d' (done ++ []) (insert page parts) frontier' :=
    building.extend mapped.placed sections mapped.room
    mapped.nodes ((zero_add _).trans (Finset.card_insert_of_notMem noPart)) above (forall_mem_nil _)
      (fun other member => ?_)
    (fun other small => ?_) fun other small high => ?_
  · rwa [append_nil] at extended
  · exact (Finset.mem_insert.mp member).symm.imp_right (by rintro rfl; exact reaches)
  · by_cases same : other = page
    · subst same
      obtain ⟨found, fresh⟩ := newSubpage_has inside mapped
      rw [append_nil]
      exact .part (Finset.mem_insert_self ..) found fresh rfl fun k less =>
        .inl ⟨rfl, fun piece member => nothing piece member _ (page_add_div t other less)⟩
    · refine (building.pages other small).mono sections ?_ (fun i sub found _ => ?_) (by simp)
        (by simp [same])
      · rw [mapped.value other (by omega), if_neg (by omega), tree.pageSection_eq]
      · rw [mapped.subpages]
        exact (getElem?_append_left (List.getElem?_eq_some_iff.mp found).1).trans found
  · rw [mapped.value other small, if_neg (by omega), tree.pageSection_eq]

end NewSubpage

section

variable (building : Building t d done parts frontier) (inside : page < 2 ^ (64 - t.pageBits))
include building inside

theorem newSubpage_yields
    (noPart : page ∉ parts) (unset : pageSection t d page = physSectionUnassigned)
    (nothing : ∀ piece ∈ done, ∀ addr, addr / t.pageSize = page → ¬ piece.section.Holds addr)
    (above : frontier ≤ frontier') (reaches : page * t.pageSize < frontier') :
    Yields t (physSectionAdd t (subpageSection t d.subpages.length page)
    (d.withSubpage (page * t.pageSize)) >>=
      fun result => result.1.physPageSet t page 1 result.2 >>= fun d' =>
      .ok (d', d.subpages.length)) (1 + done.length + (insert page parts).card) fun result =>
      Building t result.1 done (insert page parts) frontier' ∧ HasSubpage t result.1 page result.2 := by
  have count := building.count
  rw [Finset.card_insert_of_notMem noPart, ← bind_assoc,
    show 1 + done.length + (parts.card + 1) = d.sections.length + 1 by omega]
  have mapped := @addAndSet_yields t d done parts frontier building
    (d.withSubpage (page * t.pageSize)) ⟨rfl, rfl, rfl⟩ rfl
    (subpageSection t d.subpages.length page) page 1 one_ne_zero (succ_le_of_lt inside)
      (fun other low high => by
      obtain rfl : other = page := by omega
      exact unset)
  exact mapped.bind le_rfl fun d' result => .of_ok (succ_le_of_lt result.room)
    ⟨newSubpage_building building inside noPart result nothing above reaches,
      (newSubpage_has inside result).1, _, (newSubpage_has inside result).2, rfl⟩

theorem subpageOf_yields
    (high : page ∉ parts → frontier < (page + 1) * t.pageSize) (above : frontier ≤ frontier')
    (reaches : page * t.pageSize < frontier') :
    Yields t (d.subpageOf t (page * t.pageSize)) (1 + done.length + (insert page parts).card)
    fun result =>
      Building t result.1 done (insert page parts) frontier' ∧ HasSubpage t result.1 page result.2 := by
  obtain ⟨pos, placed⟩ := building.placed
  have inTree : page * t.pageSize / t.pageSize < span t.levels := by
    rw [page_mul_div]
    exact inside.trans_le (pages_le_span t)
  have find := physPageFind_eq placed building.unassigned inTree
  rw [page_mul_div] at find
  rw [subpageOf]
  by_cases isPart : page ∈ parts
  · cases building.pages page inside with
    | free noPart => exact absurd isPart noPart
    | whole noPart => exact absurd isPart noPart
    | @part index sub _ found subpage base bytes => ?_
    have fits : (subpageSection t index page).Fits := subpageSection_fits inside
    have small : page * t.pageSize < 2 ^ 64 := by
      have total := t.pageSize_mul
      have less := mul_lt_mul_of_pos_left inside t.pageSize_pos
      rw [mul_comm page]
      omega
    have covers : (subpageSection t index page).sectionCoversAddr (page * t.pageSize) = true := by
      refine (covers_iff fits small).mpr ⟨le_rfl, ?_⟩
      have pos := t.pageSize_pos
      simp only [stop, subpageSection]
      omega
    rw [sectionAt_eq found, if_pos covers] at find
    rw [find, Finset.insert_eq_of_mem isPart]
    refine .of_ok (building.count ▸ building.room) ⟨?_, found, sub, subpage, base⟩
    exact building.raise above
  · obtain ⟨unset, nothing⟩ := building.unset inside isPart (high isPart)
    rw [unset, show d.sectionAt physSectionUnassigned = unassignedSection from sectionAt_eq
      building.unassigned] at find
    have new := newSubpage_yields building inside isPart unset nothing above reaches
    rw [find]
    simp only [page_mul_div]
    exact new

end

/-- A subpage in which the bytes of a part lead to a section. -/
def coverPart (t : Target) (s : MemoryRegionSection) (sec : Nat) (p : Subpage) : Subpage :=
  { p with subSection := fun i =>
    if s.offsetWithinAddressSpace % t.pageSize ≤ i ∧ i ≤
      s.offsetWithinAddressSpace % t.pageSize + s.size.toNat - 1 then sec
    else p.subSection i }

def withPart (t : Target) (d : AddressSpaceDispatch) (index : Nat) (s : MemoryRegionSection) :
    AddressSpaceDispatch :=
  { d with
    sections := d.sections ++ [s]
    subpages := d.subpages.modify index (coverPart t s d.sections.length) }

/-- The bytes of a part are in one page. -/
theorem div_of_part (shape : (part s).Shape t) (holds : s.Holds addr) :
    addr / t.pageSize = s.offsetWithinAddressSpace / t.pageSize := by
  have division := div_add_mod s.offsetWithinAddressSpace t.pageSize
  have mul := mul_comm t.pageSize (s.offsetWithinAddressSpace / t.pageSize)
  obtain ⟨first, last⟩ := holds
  rw [Piece.Shape] at shape
  rw [stop] at last
  refine Nat.div_eq_of_lt_le (by omega) ?_
  rw [succ_mul]
  omega

section Part

/-- The bytes of a page after a part was registered: those of the part lead to it. -/
theorem ByteOk.registered (fits : s.Fits)
    (inPage : s.offsetWithinAddressSpace / t.pageSize = page)
    (old : ByteOk d done (page * t.pageSize + k) (sub.subSection k)) :
    ByteOk (withPart t d index s) (done ++ [.part s]) (page * t.pageSize + k)
      ((coverPart t s d.sections.length sub).subSection k) := by
  have division := div_add_mod s.offsetWithinAddressSpace t.pageSize
  have mul := mul_comm t.pageSize page
  have nonempty := fits.nonempty
  rw [inPage] at division
  simp only [coverPart]
  split_ifs with mine
  · refine .inr ⟨s, by simp, getElem?_concat_length .., ?_, ?_⟩
    · omega
    · rw [stop]
      omega
  · refine old.mono rfl fun piece member holds => ?_
    obtain rfl := List.mem_singleton.mp member
    obtain ⟨first, last⟩ := holds
    simp only [Piece.section, stop] at first last
    omega

variable (building : Building t d done parts frontier) (isPart : page ∈ parts)
  (has : HasSubpage t d page index)
  (fits : s.Fits) (shape : (part s).Shape t)
  (inPage : s.offsetWithinAddressSpace / t.pageSize = page) (below : s.stop ≤ frontier)
include building isPart has fits shape inPage below

/-- The table after a part was registered in the subpage of its page. -/
theorem Building.registerPart (room : d.sections.length < t.pageSize) :
    Building t (withPart t d index s) (done ++ [.part s]) parts frontier := by
  have tree : SameTree d (withPart t d index s) := ⟨rfl, rfl, rfl⟩
  have sections : (withPart t d index s).sections = d.sections ++ [s] := rfl
  obtain ⟨pos, placed⟩ := building.placed
  refine building.extend ⟨pos, tree.placed placed⟩ sections room (Nat.le_add_right ..)
    (Nat.add_comm ..) le_rfl
    (List.forall_mem_singleton.mpr ⟨fits, shape, below⟩) (fun _ => .inl) (fun other small => ?_)
    fun other _ _ => tree.pageSection_eq other
  by_cases same : other = page
  · subst same
    cases building.pages other small with
    | free noPart => exact absurd isPart noPart
    | whole noPart => exact absurd isPart noPart
    | @part index' sub _ found subpage base bytes => ?_
    obtain rfl : index' = index := by
      have equal := Option.some.inj (found.symm.trans has.found)
      simpa [subpageSection] using equal
    have changed : (withPart t d index' s).subpages[index']? =
      some (coverPart t s d.sections.length sub) := by
      rw [withPart, getElem?_modify_eq, subpage]
      rfl
    refine .part isPart ?_ changed base fun k less => .registered fits inPage (bytes k less)
    rw [tree.pageSection_eq]
    exact getElem?_extended sections found
  · refine (building.pages other small).mono sections (tree.pageSection_eq other)
      (fun i sub found base => ?_) (fun piece member addr here holds => ?_) Iff.rfl
    · obtain ⟨sub', at_, base'⟩ := has.subpage
      have apart : index ≠ i := by
        rintro rfl
        obtain rfl := Option.some.inj (found.symm.trans at_)
        exact same (eq_of_mul_eq_mul_right t.pageSize_pos (base.symm.trans base'))
      simp only [withPart, getElem?_modify, apart, found]
      rfl
    · obtain rfl := List.mem_singleton.mp member
      exact same (here.symm.trans ((div_of_part shape holds).trans inPage))

theorem registerPart_yields :
    Yields t (int128Get64 s.size >>= fun size => d.physSectionAdd t s >>= fun result =>
        .ok (result.1.subpageRegister t index (s.offsetWithinAddressSpace % t.pageSize)
          (s.offsetWithinAddressSpace % t.pageSize + size - 1) result.2))
      (d.sections.length + 1) fun d' => Building t d' (done ++ [part s]) parts frontier := by
  have nonempty := fits.nonempty
  have small := t.pageSize_le
  have within : ((s.offsetWithinAddressSpace % t.pageSize : Nat) : Int) + s.size ≤ t.pageSize := shape
  rw [int128Get64_eq nonempty.le (by omega)]
  refine (physSectionAdd_yields s).bind le_rfl ?_
  rintro _ ⟨rfl, room⟩
  refine .of_ok (succ_le_of_lt room) ?_
  rw [subpageRegister, if_neg (by omega)]
  exact building.registerPart isPart has fits shape inPage below room

end Part

theorem registerSubpage_yields (building : Building t d done parts frontier) (fits : s.Fits)
    (shape : (part s).Shape t) (after : frontier ≤ s.offsetWithinAddressSpace) :
    Yields t (d.registerSubpage t s)
      (1 + (done ++ [part s]).length +
      (insert (s.offsetWithinAddressSpace / t.pageSize) parts).card) fun d' =>
      Building t d' (done ++ [part s]) (insert (s.offsetWithinAddressSpace / t.pageSize) parts)
      s.stop := by
  have pos := t.pageSize_pos
  have total := t.pageSize_mul
  have division := div_add_mod s.offsetWithinAddressSpace t.pageSize
  have small := mod_lt s.offsetWithinAddressSpace pos
  have nonempty := fits.nonempty
  have last := fits.stop
  have inside : s.offsetWithinAddressSpace / t.pageSize < 2 ^ (64 - t.pageBits) := by
    rw [div_lt_iff_lt_mul pos, mul_comm]
    omega
  have mul := mul_comm t.pageSize (s.offsetWithinAddressSpace / t.pageSize)
  have found := subpageOf_yields building inside (fun _ => by rw [add_mul]; omega)
    (show frontier ≤ s.stop by rw [stop]; omega) (by rw [stop]; omega)
  refine found.bind (by simp) ?_
  rintro ⟨d', index⟩ ⟨building', has⟩
  have registered := registerPart_yields building' (Finset.mem_insert_self ..) has fits shape rfl le_rfl
  have count : d'.sections.length = _ := building'.count
  rw [show d'.sections.length + 1 = 1 + (done ++ [part s]).length +
    (insert (s.offsetWithinAddressSpace / t.pageSize) parts).card by simp; omega] at registered
  exact registered

theorem whole_pages (fits : s.Fits) (shape : (whole s).Shape t) :
    s.offsetWithinAddressSpace / t.pageSize * t.pageSize = s.offsetWithinAddressSpace ∧
      (s.offsetWithinAddressSpace / t.pageSize + (s.size / t.pageSize).toNat) * t.pageSize =
      s.stop ∧ 0 < s.size / t.pageSize ∧ s.size / t.pageSize < 2 ^ 64 := by
  obtain ⟨nonempty, stop⟩ := fits
  obtain ⟨aligned, n, length⟩ := shape
  have pos := t.pageSize_pos
  have quotient : s.size / t.pageSize = n := by
    rw [length]
    exact Int.mul_ediv_cancel_left n (by omega)
  have positive : 0 < n := by
    by_contra! none
    have : (t.pageSize : Int) * n ≤ 0 := mul_nonpos_of_nonneg_of_nonpos (by omega) none
    omega
  have two : 2 ≤ t.pageSize := by
    have bits := t.pageBits_pos
    exact (Nat.pow_le_pow_right (by decide) bits : 2 ^ 1 ≤ 2 ^ t.pageBits)
  have less : n < 2 ^ 64 := by
    have twice : (2 : Int) * n ≤ t.pageSize * n :=
      mul_le_mul_of_nonneg_right (by exact_mod_cast two) positive.le
    omega
  have first := Nat.div_mul_cancel aligned
  refine ⟨first, ?_, quotient ▸ positive, quotient ▸ less⟩
  rw [quotient, add_mul, MemoryRegionSection.stop, length]
  congr 1
  have back : ((t.pageSize : Int) * n).toNat = t.pageSize * n.toNat := by
    rw [Int.toNat_mul (by omega) positive.le, Int.toNat_natCast]
  rw [back, mul_comm]

theorem registerMultipage_yields (building : Building t d done parts frontier) (fits : s.Fits)
    (shape : (whole s).Shape t) (after : frontier ≤ s.offsetWithinAddressSpace) :
    Yields t (d.registerMultipage t s) (1 + (done ++ [whole s]).length + parts.card) fun d' =>
      Building t d' (done ++ [whole s]) parts s.stop := by
  obtain ⟨first, last, positive, less⟩ := whole_pages fits shape
  have pos := t.pageSize_pos
  have total := t.pageSize_mul
  have count := building.count
  have nonempty := fits.nonempty
  have stop := fits.stop
  have stopEq : s.stop = s.offsetWithinAddressSpace + s.size.toNat := rfl
  generalize start : s.offsetWithinAddressSpace / t.pageSize = index at first last
  generalize number : (s.size / t.pageSize).toNat = nb at last
  have inside : index + nb ≤ 2 ^ (64 - t.pageBits) := by
    refine le_of_mul_le_mul_right ?_ pos
    rw [last, mul_comm, total]
    omega
  have free : ∀ page, index ≤ page → page < index + nb → page ∉ parts ∧
    frontier < (page + 1) * t.pageSize := by
    intro page low high
    have lower := mul_le_mul_right t.pageSize low
    rw [add_mul, one_mul]
    refine ⟨fun isPart => ?_, by omega⟩
    have before := building.low page isPart
    omega
  have body : d.registerMultipage t s =
    (d.physSectionAdd t s >>= fun result => result.1.physPageSet t index nb result.2) := by
    rw [registerMultipage]
    refine congrArg (_ >>= ·) (funext fun result => ?_)
    obtain ⟨added, sec⟩ := result
    dsimp only
    rw [int128Get64_eq positive.le less, Checked.ok_bind, number, if_neg (by omega), start]
  have mapped := @addAndSet_yields t d done parts frontier building d ⟨rfl, rfl, rfl⟩ rfl s index nb
    (by omega) inside
    (fun page low high => (building.unset (by omega) (free page low high).1 (free page low high).2).1)
  rw [body, show 1 + (done ++ [whole s]).length + parts.card = d.sections.length + 1 by simp; omega]
  refine mapped.imp fun d' result => ?_
  have bound := pages_le_span t
  refine building.extend result.placed result.sections result.room result.nodes (add_comm ..) (by omega)
    (List.forall_mem_singleton.mpr ⟨fits, shape, le_rfl⟩) (fun _ => .inl) (fun page small => ?_)
    fun page small high => ?_
  · by_cases inRun : index ≤ page ∧ page < index + nb
    · have lower := mul_le_mul_right t.pageSize inRun.1
      have upper := mul_le_mul_right t.pageSize (succ_le_of_lt inRun.2)
      refine .whole (free page inRun.1 inRun.2).1 (mem_append_right _ (mem_singleton_self _)) ?_
        (by omega) (by rw [← last]; exact upper)
      rw [result.value page (by omega), if_pos inRun, result.sections]
      exact getElem?_concat_length ..
    refine (building.pages page small).mono result.sections ?_ (fun i sub found _ => ?_)
      (fun piece member addr here holds => ?_) Iff.rfl
    · rw [result.value page (by omega), if_neg inRun]
    · rw [result.subpages]
      exact found
    obtain rfl := List.mem_singleton.mp member
    obtain ⟨low, high⟩ := holds
    refine inRun ⟨?_, ?_⟩
    · rw [← here, ← start]
      exact Nat.div_le_div_right low
    · rw [← here, div_lt_iff_lt_mul pos, last]
      exact high
  · rw [result.value page small, if_neg (by omega)]

/-- The page of a part. -/
def partPage? (t : Target) : Piece → Option Nat
  | .part s => some (s.offsetWithinAddressSpace / t.pageSize)
  | .whole _ => none

/-- The pages that need a subpage. -/
def partPages (t : Target) (list : List Piece) : Finset Nat := (list.filterMap (partPage? t)).toFinset

theorem partPages_append (t : Target) (a b : List Piece) :
    partPages t (a ++ b) = partPages t a ∪ partPages t b := by
  rw [partPages, filterMap_append, toFinset_append]
  rfl

/-- The sections of a table: the unassigned one, one for each piece and one for each subpage. -/
def sectionsFor (t : Target) (list : List Piece) : Nat := 1 + list.length + (partPages t list).card

theorem sectionsFor_append_le (t : Target) (a b : List Piece) :
    sectionsFor t a ≤ sectionsFor t (a ++ b) := by
  have more : (partPages t a).card ≤ (partPages t (a ++ b)).card := by
    rw [partPages_append]
    exact Finset.card_le_card Finset.subset_union_left
  rw [sectionsFor, sectionsFor, length_append]
  omega

/-- Pieces in order, from an address on. -/
inductive InOrder (t : Target) : Nat → List Piece → Nat → Prop
  | nil {a b : Nat} (below : a ≤ b) : InOrder t a [] b
  | cons {a b : Nat} {piece : Piece} {rest : List Piece} (fits : piece.section.Fits)
      (shape : piece.Shape t)
      (after : a ≤ piece.section.offsetWithinAddressSpace) (more : InOrder t piece.section.stop rest b) :
      InOrder t a (piece :: rest) b

theorem registerPiece_yields (building : Building t d done (partPages t done) frontier)
    (fits : piece.section.Fits) (shape : piece.Shape t)
    (after : frontier ≤ piece.section.offsetWithinAddressSpace) :
    Yields t (registerPiece t d piece) (sectionsFor t (done ++ [piece])) fun d' =>
      Building t d' (done ++ [piece]) (partPages t (done ++ [piece])) piece.section.stop := by
  rw [sectionsFor, partPages_append]
  cases piece with
  | part s =>
    have same : partPages t done ∪ partPages t [.part s] =
        insert (s.offsetWithinAddressSpace / t.pageSize) (partPages t done) := by
      simp [partPages, partPage?]
    rw [same]
    exact registerSubpage_yields building fits shape after
  | whole s =>
    have same : partPages t done ∪ partPages t [.whole s] = partPages t done := by
      ext page
      simp [partPages, partPage?]
    rw [same]
    exact registerMultipage_yields building fits shape after

theorem registerAll_yields (ordered : InOrder t frontier list last)
    (building : Building t d done (partPages t done) frontier) :
    Yields t (list.foldlM (registerPiece t) d) (sectionsFor t (done ++ list)) fun d' =>
      Building t d' (done ++ list) (partPages t (done ++ list)) last := by
  induction ordered generalizing d done with
  | nil below =>
    rw [append_nil]
    refine .of_ok ?_ (building.raise below)
    rw [sectionsFor, ← building.count]
    exact building.room
  | @cons a b piece rest fits shape after more ih =>
    refine (registerPiece_yields building fits shape after).bind ?_ fun d' building' => ?_
    · rw [show done ++ piece :: rest = (done ++ [piece]) ++ rest by simp]
      exact sectionsFor_append_le t _ _
    · have others := ih building'
      rwa [append_assoc] at others

end AddressSpaceDispatch

end Qemu.Memory
