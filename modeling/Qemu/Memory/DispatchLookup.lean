import Qemu.Memory.PhysMapCompact
import Qemu.Memory.TopologyTotal

/-! Looking an address up in the table of a view: the section that has the address, whatever section
was used last. -/

namespace Qemu.Memory

open AddressSpaceDispatch MemoryRegionSection Spans List Nat

namespace AddressSpaceDispatch

section Model

variable (t : Target) (addr : Nat) (d : AddressSpaceDispatch)

/-- The index of the section that `physPageFind` returns. -/
def findSection : Nat :=
  match d.walk (addr / t.pageSize) (t.levels + 1) t.levels d.physMap with
  | none => physSectionUnassigned
  | some ptr => if (d.sectionAt ptr).sectionCoversAddr addr then ptr else physSectionUnassigned

/-- The section used last, unless it is the unassigned one or does not have the address. -/
def cachedSection (mruSection : Option Nat) : Nat :=
  match mruSection with
  | none => d.findSection t addr
  | some sec =>
    if sec = physSectionUnassigned ∨ (d.sectionAt sec).sectionCoversAddr addr = false then
      d.findSection t addr else sec

/-- The section of a byte, if the section is a subpage. -/
def resolve (sec : Nat) : Nat :=
  match (d.sectionAt sec).mr with
  | .subpage index =>
    match d.subpages[index]? with
    | some sub => sub.subSection (addr % t.pageSize)
    | none => sec
  | _ => sec

/-- The section used last after the lookup, and the section that is found. -/
def addressSpaceLookupRegion (resolveSubpage : Bool) (mruSection : Option Nat) : Option Nat × Nat :=
  let sec := d.cachedSection t addr mruSection
  (some sec, if resolveSubpage then d.resolve t addr sec else sec)

end Model

/-- The section used last after some lookups. -/
def mruAfter (t : Target) (d : AddressSpaceDispatch) (lookups : List (Fin (2 ^ 64) × Bool)) :
    Option Nat :=
  lookups.foldl (fun mru lookup => (d.addressSpaceLookupRegion t lookup.1 lookup.2 mru).1) none

variable {t : Target} {d c : AddressSpaceDispatch} {done : List Piece} {parts : Finset Nat}
  {frontier : Nat}

/-- What is left of a table after compaction. -/
structure CompactOf (t : Target) (d c : AddressSpaceDispatch) : Prop where
  sections : c.sections = d.sections
  subpages : c.subpages = d.subpages
  finds : ∀ page < span t.levels, ∃ other < span t.levels,
    (c.walk page (t.levels + 1) t.levels c.physMap).getD physSectionUnassigned = pageSection t d other ∧
    (other = page ∨ pageSection t d page = physSectionUnassigned)

theorem Building.pageSection_lt (building : Building t d done parts frontier)
    (small : page < span t.levels) : pageSection t d page < t.pageSize := by
  have room := building.room
  have pos := t.pageSize_pos
  by_cases inside : page < 2 ^ (64 - t.pageBits)
  · cases building.pages page inside with
    | free _ value =>
      rw [value]
      exact pos
    | whole _ _ found => exact (List.getElem?_eq_some_iff.mp found).1.trans_le room
    | part _ found => exact (List.getElem?_eq_some_iff.mp found).1.trans_le room
  · rw [building.beyond page small (by omega)]
    exact pos

theorem Building.compactOf (building : Building t d done parts frontier) :
    CompactOf t d (d.addressSpaceDispatchCompact t) := by
  obtain ⟨pos, placed⟩ := building.placed
  have root : SlotAt t.levels d pos t.levels 0 .root := ⟨rfl, rfl⟩
  rw [addressSpaceDispatchCompact]
  split
  next deep =>
    have small : ∀ page, 0 ≤ page → page < 0 + span t.levels →
      pageValue d t.levels (d.read .root) page ≠ physMapNodeNil := by
      intro page _ inside
      have less := building.pageSection_lt (show page < span t.levels by omega)
      have bound := t.pageSize_le
      have value : pageSection t d page = pageValue d t.levels (d.read .root) page := rfl
      rw [physMapNodeNil]
      omega
    obtain ⟨touches, compacted⟩ :=
      physPageCompact_spec placed t.levels root deep small fun _ _ _ _ _ _ _ => rfl
    refine ⟨touches.sections, touches.subpages, fun page inside => ?_⟩
    obtain ⟨other, -, less, value, same⟩ := compacted.finds page (zero_le _) (by omega)
    exact ⟨other, by omega, value, same⟩
  · refine ⟨rfl, rfl, fun page inside => ⟨page, inside, ?_, .inl rfl⟩⟩
    exact walk_getD placed root (zero_le _) (by omega) (lt_succ_self _)

theorem CompactOf.sectionAt_eq (compact : CompactOf t d c)
    (found : d.sections[i]? = some s) : c.sectionAt i = s :=
  AddressSpaceDispatch.sectionAt_eq (by rw [compact.sections]; exact found)

theorem findSection_eq
    (walked : (c.walk (addr / t.pageSize) (t.levels + 1) t.levels c.physMap).getD
    physSectionUnassigned = value) :
    c.findSection t addr = if (c.sectionAt value).sectionCoversAddr addr then value
    else physSectionUnassigned := by
  subst walked
  rw [findSection]
  cases c.walk (addr / t.pageSize) (t.levels + 1) t.levels c.physMap with
  | none => rw [Option.getD_none, ite_self]
  | some ptr => rfl

/-- A section that answers for an address, before subpages are resolved. -/
inductive Answers (t : Target) (d : AddressSpaceDispatch) (done : List Piece) (addr sec : Nat) : Prop
  | unassigned (is : sec = physSectionUnassigned) (nothing : ∀ piece ∈ done, ¬ piece.section.Holds addr)
  | whole {s : MemoryRegionSection} (registered : .whole s ∈ done)
      (found : d.sections[sec]? = some s) (holds : s.Holds addr)
  | part {index : Nat} {sub : Subpage} {page : Nat} (inside : page < 2 ^ (64 - t.pageBits))
      (inPage : addr / t.pageSize = page)
      (found : d.sections[sec]? = some (subpageSection t index page))
        (subpage : d.subpages[index]? = some sub)
      (bytes : ∀ k < t.pageSize, ByteOk d done (page * t.pageSize + k) (sub.subSection k))

theorem subpage_holds_iff : (subpageSection t index page).Holds addr ↔ addr / t.pageSize = page := by
  have pos := t.pageSize_pos
  rw [Nat.div_eq_iff pos]
  simp only [Holds, subpageSection, stop]
  omega

/-- The sections of pieces are those of regions. -/
def FromRegions (done : List Piece) : Prop := ∀ piece ∈ done, ∃ id, piece.section.mr = .region id

section Lookup

variable (building : Building t d done parts frontier) {addr : Nat} (small : addr < 2 ^ 64)
include building small

/-- The walk answers for every address. -/
theorem Building.findSection_answers (regions : FromRegions done) (compact : CompactOf t d c) :
    Answers t d done addr (c.findSection t addr) := by
  have pos := t.pageSize_pos
  have bound := pages_le_span t
  have inside : addr / t.pageSize < 2 ^ (64 - t.pageBits) := by
    rw [div_lt_iff_lt_mul pos, mul_comm, t.pageSize_mul]
    exact small
  obtain ⟨other, less, walked, same⟩ := compact.finds (addr / t.pageSize) (by omega)
  rw [findSection_eq walked]
  cases building.pages _ inside with
  | free _ unset nothing =>
    -- a page that has nothing may be led to the section of another page, which does not have the address
    have none : ∀ piece ∈ done, ¬ piece.section.Holds addr :=
      fun piece member => nothing piece member addr rfl
    suffices missed : (if (c.sectionAt (pageSection t d other)).sectionCoversAddr addr then
        pageSection t d other else physSectionUnassigned) = physSectionUnassigned by
      rw [missed]
      exact .unassigned rfl none
    by_cases low : other < 2 ^ (64 - t.pageBits)
    · cases building.pages other low with
      | free _ value => rw [value, ite_self]
      | @whole s _ registered found =>
        have fits : s.Fits := (building.pieces _ registered).1
        rw [compact.sectionAt_eq found,
          if_neg fun covers => none _ registered ((covers_iff fits small).mp covers)]
      | part _ found => ?_
      rcases same with rfl | -
      · rw [unset, ite_self]
      · by_cases here : addr / t.pageSize = other
        · rw [← here, unset, ite_self]
        · rw [compact.sectionAt_eq found, if_neg fun covers =>
            here (subpage_holds_iff.mp ((covers_iff (subpageSection_fits low) small).mp covers))]
    · rw [building.beyond other less (by omega), ite_self]
  | @whole s _ registered found first last =>
    have direct : other = addr / t.pageSize := by
      refine same.resolve_right fun unset => ?_
      rw [unset, physSectionUnassigned, building.unassigned] at found
      obtain ⟨id, region⟩ := regions _ registered
      rw [← Option.some.inj found] at region
      cases region
    have fits : s.Fits := (building.pieces _ registered).1
    have holds : s.Holds addr :=
      ⟨first.trans (div_mul_le_self ..), (lt_mul_of_div_lt (lt_succ_self _) pos).trans_le last⟩
    rw [direct, compact.sectionAt_eq found, if_pos ((covers_iff fits small).mpr holds)]
    exact .whole registered found holds
  | part _ found subpage _ bytes =>
    have direct : other = addr / t.pageSize := by
      refine same.resolve_right fun unset => ?_
      rw [unset, physSectionUnassigned, building.unassigned] at found
      cases found
    rw [direct, compact.sectionAt_eq found,
      if_pos ((covers_iff (subpageSection_fits inside) small).mpr (subpage_holds_iff.mpr rfl))]
    exact .part inside rfl found subpage bytes

/-- A section that answered for one address answers for every address that it has. -/
theorem Building.answers_of_covers (answers : Answers t d done addr' sec)
    (assigned : sec ≠ physSectionUnassigned)
    (covers : (d.sectionAt sec).sectionCoversAddr addr = true) : Answers t d done addr sec := by
  cases answers with
  | unassigned is => exact absurd is assigned
  | whole registered found =>
    rw [sectionAt_eq found] at covers
    exact .whole registered found ((covers_iff (building.pieces _ registered).1 small).mp covers)
  | part inside _ found subpage bytes =>
    rw [sectionAt_eq found] at covers
    exact .part inside (subpage_holds_iff.mp
      ((covers_iff (subpageSection_fits inside) small).mp covers)) found subpage bytes

theorem Building.cachedSection_answers (regions : FromRegions done) (compact : CompactOf t d c)
    (used : ∀ sec, mru = some sec → ∃ addr', Answers t d done addr' sec) :
    Answers t d done addr (c.cachedSection t addr mru) := by
  have found := building.findSection_answers small regions compact
  have same : ∀ sec, c.sectionAt sec = d.sectionAt sec :=
    fun sec => by rw [sectionAt, sectionAt, compact.sections]
  cases mru with
  | none => exact found
  | some sec => ?_
  rw [cachedSection]
  split
  · exact found
  next hit =>
    obtain ⟨addr', answers⟩ := used sec rfl
    rw [not_or, Bool.not_eq_false, same] at hit
    exact building.answers_of_covers small answers hit.1 hit.2

end Lookup

section

variable (building : Building t d done parts frontier) (regions : FromRegions done)
  (compact : CompactOf t d c)
include building regions compact

/-- The section used last answered for some address. -/
theorem Building.mruAfter_answers (lookups : List (Fin (2 ^ 64) × Bool))
    (used : mruAfter t c lookups = some sec) : ∃ addr, Answers t d done addr sec := by
  induction lookups using reverseRecOn generalizing sec with
  | nil => cases used
  | append_singleton earlier lookup ih =>
    rw [mruAfter, foldl_concat] at used
    obtain rfl := Option.some.inj used
    exact ⟨lookup.1, building.cachedSection_answers lookup.1.isLt regions compact fun sec before =>
      ih before⟩

/-- The section that is returned: the unassigned one, or that of the piece that has the address. -/
theorem Answers.resolve (answers : Answers t d done addr sec) :
    (c.sectionAt (c.resolve t addr sec) = unassignedSection ∧
    ∀ piece ∈ done, ¬ piece.section.Holds addr) ∨
      ∃ piece ∈ done, c.sectionAt (c.resolve t addr sec) = piece.section ∧ piece.section.Holds addr := by
  cases answers with
  | unassigned is nothing =>
    subst is
    have first := compact.sectionAt_eq building.unassigned
    refine .inl ⟨?_, nothing⟩
    rw [AddressSpaceDispatch.resolve, physSectionUnassigned, first]
    exact first
  | whole registered found holds =>
    refine .inr ⟨_, registered, ?_, holds⟩
    obtain ⟨id, region⟩ := regions _ registered
    have here := compact.sectionAt_eq found
    rw [Piece.section] at region
    rw [AddressSpaceDispatch.resolve, here, region]
    exact here
  | @part index sub page inside inPage found subpage bytes =>
    have place : page * t.pageSize + addr % t.pageSize = addr := by
      rw [← inPage, mul_comm]
      exact div_add_mod addr t.pageSize
    have byte := bytes (addr % t.pageSize) (mod_lt _ t.pageSize_pos)
    rw [place] at byte
    have resolved : c.resolve t addr sec = sub.subSection (addr % t.pageSize) := by
      rw [AddressSpaceDispatch.resolve, compact.sectionAt_eq found, subpageSection]
      dsimp only
      rw [compact.subpages, subpage]
    rw [resolved]
    rcases byte with ⟨none, nothing⟩ | ⟨s, registered, found, holds⟩
    · rw [none]
      exact .inl ⟨compact.sectionAt_eq building.unassigned, nothing⟩
    · exact .inr ⟨_, registered, compact.sectionAt_eq found, holds⟩

end

end AddressSpaceDispatch

variable {t : Target} {a b : Nat} {list : List Piece}

theorem Tiles.partOf (tiles : Tiles t s a list b) (member : piece ∈ list) : PartOf piece.section s := by
  induction tiles with
  | nil => cases member
  | cons piece_of _ ih =>
    rcases mem_cons.mp member with rfl | later
    · exact piece_of.part
    · exact ih later

theorem Tiles.exists_holds (tiles : Tiles t s a list b) (low : a ≤ addr) (high : addr < b) :
    ∃ piece ∈ list, piece.section.Holds addr := by
  induction tiles with
  | nil => omega
  | @cons piece rest b _ _ ih =>
    by_cases here : addr < piece.section.stop
    · exact ⟨piece, mem_cons_self, low, here⟩
    · obtain ⟨later, member, holds⟩ := ih (by omega) high
      exact ⟨later, mem_cons_of_mem _ member, holds⟩

theorem MemoryRegionSection.PartOf.holds (part_of : PartOf part whole) (has : part.Holds addr) :
    whole.Holds addr := by
  obtain ⟨low, high⟩ := has
  have after := part_of.after
  have before := part_of.before
  simp only [stop] at high
  refine ⟨after.trans low, ?_⟩
  simp only [stop]
  omega

namespace AddressSpaceDispatch

theorem InOrder.after (ordered : InOrder t a list b) {piece : Piece} (member : piece ∈ list) :
    a ≤ piece.section.offsetWithinAddressSpace := by
  induction ordered with
  | nil => cases member
  | @cons a b head rest fits shape after more ih => ?_
  rcases mem_cons.mp member with rfl | later
  · exact after
  · have next := ih later
    simp only [stop] at next
    omega

/-- No two pieces have an address in common. -/
theorem InOrder.unique (ordered : InOrder t a list b) (member : piece ∈ list)
    (member' : piece' ∈ list) (holds : piece.section.Holds addr)
    (holds' : piece'.section.Holds addr) : piece = piece' := by
  induction ordered with
  | nil => cases member
  | @cons a b head rest fits shape after more ih => ?_
  have apart : ∀ later ∈ rest, head.section.Holds addr → ¬ later.section.Holds addr :=
    fun later here first second => absurd (first.2.trans_le (more.after here)) (not_lt.mpr second.1)
  rcases mem_cons.mp member with rfl | later
  · rcases mem_cons.mp member' with rfl | later'
    · rfl
    · exact absurd holds' (apart _ later' holds)
  · rcases mem_cons.mp member' with rfl | later'
    · exact absurd holds (apart _ later holds')
    · exact ih later later'

end AddressSpaceDispatch

theorem viewPieces_fromRegions (t : Target) {ranges : List FlatRange} (valid : ValidView ranges) :
    FromRegions (viewPieces t ranges) := by
  intro piece member
  obtain ⟨fr, range, inRange⟩ := mem_flatMap.mp member
  exact ⟨fr.mr, ((pieces_tiles (rangeSection_fits valid range)).partOf inRange).mr⟩

/-- A lookup with subpages resolved, after any lookups, finds the part of the range that has the
address, or the unassigned section. -/
theorem addressSpaceLookupRegion_exact (t : Target) (allocHint : Nat) {ranges : List FlatRange}
    (valid : ValidView ranges) {d : AddressSpaceDispatch}
    (registered : (addressSpaceDispatchNew t allocHint >>= fun d => ranges.foldlM (addRange t) d) = .ok d)
    (earlier : List (Fin (2 ^ 64) × Bool)) (addr : Fin (2 ^ 64)) :
    let c := d.addressSpaceDispatchCompact t
    let found := c.sectionAt (c.addressSpaceLookupRegion t addr true (c.mruAfter t earlier)).2
    (∀ fr ∈ ranges, (rangeSection fr).Holds addr → found.PartOf (rangeSection fr) ∧ found.Holds addr) ∧
      ((∀ fr ∈ ranges, ¬ (rangeSection fr).Holds addr) → found = unassignedSection) ∧
      found = c.sectionAt (c.addressSpaceLookupRegion t addr true none).2 := by
  intro c found
  have yields := registerView_yields t allocHint valid
  rw [Yields, registered] at yields
  split at yields
  case isFalse =>
    obtain ⟨e, ⟨⟩⟩ := yields
  case isTrue =>
    obtain ⟨_, ⟨⟩, building⟩ := yields
    have regions := viewPieces_fromRegions t valid
    have compact := building.compactOf
    have ordered := viewPieces_inOrder (t := t) valid (zero_le _) fun fr member => (valid.bounds member).1
    have answer := (building.cachedSection_answers addr.isLt regions compact fun sec used =>
      building.mruAfter_answers regions compact earlier used).resolve building regions compact
    have nothingUsed : ∀ sec, none = some sec →
      ∃ addr', Answers t d (viewPieces t ranges) addr' sec := by simp
    have fresh := (building.cachedSection_answers addr.isLt regions compact nothingUsed).resolve
      building regions compact
    refine ⟨fun fr member holds => ?_, fun nothing => ?_, ?_⟩
    · have tiles := pieces_tiles (t := t) (rangeSection_fits valid member)
      obtain ⟨piece, inRange, has⟩ := tiles.exists_holds holds.1 holds.2
      have inView : piece ∈ viewPieces t ranges := mem_flatMap.mpr ⟨fr, member, inRange⟩
      rcases answer with ⟨-, nothing⟩ | ⟨piece', inView', is, has'⟩
      · exact absurd has (nothing piece inView)
      · obtain rfl := ordered.unique inView inView' has has'
        rw [show found = piece.section from is]
        exact ⟨tiles.partOf inRange, has⟩
    · rcases answer with ⟨is, -⟩ | ⟨piece, inView, is, has⟩
      · exact is
      · obtain ⟨fr, member, inRange⟩ := mem_flatMap.mp inView
        exact absurd (((pieces_tiles (rangeSection_fits valid member)).partOf inRange).holds has)
          (nothing fr member)
    · rcases answer with ⟨is, nothing⟩ | ⟨piece, inView, is, has⟩
      · rcases fresh with ⟨is', -⟩ | ⟨piece', inView', is', has'⟩
        · exact is.trans is'.symm
        · exact absurd has' (nothing piece' inView')
      · rcases fresh with ⟨-, nothing⟩ | ⟨piece', inView', is', has'⟩
        · exact absurd has (nothing piece inView)
        · obtain rfl := ordered.unique inView inView' has has'
          exact is.trans is'.symm

/-- Two pages and a half, and a few bytes that share the last page. -/
def sharedPage : List FlatRange :=
  [⟨1, 0, ⟨0x1000, 0x2800⟩, 0, true, false, false, false⟩,
    ⟨2, 0x100, ⟨0x3800, 0x20⟩, 0, true, false, false, false⟩]

theorem sharedPage_valid : ValidView sharedPage := by
  refine ⟨ordered_cons.mpr ⟨by decide, by decide,
    ordered_cons.mpr ⟨by decide, by decide, ordered_nil⟩⟩, ?_, ?_⟩
  · rw [Layout.Within]
    decide
  · decide

theorem addressSpaceLookupRegion_sharedPage :
    ∃ d, (addressSpaceDispatchNew ⟨12, by decide, by decide⟩ 0 >>= fun d =>
        sharedPage.foldlM (addRange ⟨12, by decide, by decide⟩) d) = .ok d ∧
      let c := d.addressSpaceDispatchCompact ⟨12, by decide, by decide⟩
      (c.sectionAt (c.addressSpaceLookupRegion ⟨12, by decide, by decide⟩ 0x3805 true
        (c.mruAfter ⟨12, by decide, by decide⟩ [(0x1004, true), (0x3004, false)])).2).PartOf
        ⟨.region 2, 0x100, 0x3800, 0x20, false, false, false⟩ := by
  have yields := registerView_yields ⟨12, by decide, by decide⟩ 0 sharedPage_valid
  obtain ⟨d, registered, -⟩ := yields
  exact ⟨d, registered, ((addressSpaceLookupRegion_exact ⟨12, by decide, by decide⟩ 0
    sharedPage_valid registered
    [(0x1004, true), (0x3004, false)] 0x3805).1 ⟨2, 0x100, ⟨0x3800, 0x20⟩, 0, true, false, false, false⟩
    (mem_cons_of_mem _ mem_cons_self) ⟨by decide, by decide⟩).1⟩

end Qemu.Memory
