import Qemu.Block.StatusLayers

namespace Qemu.Block.Status

open BlockNode

variable {node : BlockNode} {i : Nat}

theorem Sound.layerAt (sound : Sound node) (i : Nat) : Sound (node.layerAt i) := by
  induction i with
  | zero => exact sound
  | succ i ih => ?_
  rw [BlockNode.layerAt]
  cases here : node.layerAt i with
  | null => trivial
  | mk layer next files =>
    rw [here] at ih
    exact ih.2.1

theorem layerAt_exist (exist : (node.layerAt j).isNull = false) (above : i ≤ j) :
    (node.layerAt i).isNull = false := by
  induction j, above using Nat.le_induction with
  | base => exact exist
  | succ j above ih => ?_
  refine ih ?_
  cases here : node.layerAt j with
  | null =>
    rw [layerAt, here] at exist
    exact absurd exist (by simp [bdrvFilterOrCowBs, isNull])
  | mk layer next files => rfl

/-- A layer that does not determine a byte shows what is below it. -/
theorem read_next (sound : Sound node) (unowned : node.owns x = false)
    (inside : node.past x = false) (more : node.bdrvFilterOrCowBs.isNull = false) :
    node.read x = node.bdrvFilterOrCowBs.read x := by
  cases node with
  | null => rfl
  | mk layer next files => ?_
  have exist : next.isNull = false := more
  rw [BlockNode.read, if_neg (by simp [inside]), BlockNode.bdrvFilterOrCowBs]
  split
  · rfl
  next direct =>
    rw [owns, if_neg direct] at unowned
    cases kind : layer.kind with
    | filter => exact absurd (by simp [Layer.filters, kind, exist]) direct
    | plain => exact absurd (sound.1.plain kind) (by simp [exist])
    | backing => rw [if_neg (by simp [unowned])]

/-- The chain and the base are as a caller may give them. -/
structure ValidChain (bs : BlockNode) (base : Option Nat) (includeBase : Bool) : Prop where
  sound : Sound bs
  inChain : ∀ b, base = some b → (bs.layerAt b).isNull = false
  included : includeBase = true → base ≠ none

section

variable (bs : BlockNode) (base : Option Nat) (includeBase : Bool) (mode offset bytes : Nat)

/-- `p == base` -/
def IsBase (i : Nat) : Prop := base = some i ∨ base = none ∧ (bs.layerAt i).isNull = true

/-- The layer at depth `i` is asked about so many bytes. -/
inductive Asked : Nat → Nat → Prop
  | first (asks : ¬(includeBase = false ∧ base = some 0)) : Asked 0 bytes
  | next {i n : Nat} {status : BlockStatus} (asked : Asked i n)
      (answered : bdrvCoDoBlockStatus (bs.layerAt i) mode offset n = .ok (.ok status))
      (unallocated : status.allocated = false) (nonzero : status.pnum ≠ 0) (notBase : base ≠ some i)
      (asks : includeBase = true ∨ ¬IsBase bs base (i + 1)) : Asked (i + 1) status.pnum

/-- The layer at depth `i` is the last one that is asked. -/
structure Last (i n : Nat) (reply : Except Int BlockStatus) : Prop where
  asked : Asked bs base includeBase mode offset bytes i n
  answered : bdrvCoDoBlockStatus (bs.layerAt i) mode offset n = .ok reply
  stops : ∀ status, reply = .ok status → status.pnum = 0 ∨ status.allocated = true ∨ base = some i ∨
    includeBase = false ∧ IsBase bs base (i + 1)

/-- How the loop ends. -/
inductive Ended : Nat → Except Int BlockStatus → Prop
  | failed {i n : Nat} {error : Int}
    (last : Last bs base includeBase mode offset bytes i n (.error error)) :
      Ended (i + 1) (.error error)
  | unallocated {i n : Nat} {status : BlockStatus}
      (last : Last bs base includeBase mode offset bytes i n (.ok status))
      (unallocated : status.allocated = false) (nonzero : status.pnum ≠ 0) : Ended (i + 1) (.ok status)
  | allocated {i n : Nat} {status : BlockStatus}
      (last : Last bs base includeBase mode offset bytes i n (.ok status))
      (allocated : status.allocated = true) (nonzero : status.pnum ≠ 0) (below : i ≠ 0) :
      Ended (i + 1) (.ok { status with eof := false })
  | short {i n : Nat} {status : BlockStatus}
      (last : Last bs base includeBase mode offset bytes i n (.ok status))
      (empty : status.pnum = 0) (below : i ≠ 0) : Ended (i + 1)
        (.ok { zero := true, allocated := true, pnum := n, map := status.map,
               file := some (bs.layerAt i) })

end

variable {bs : BlockNode} {base : Option Nat} {includeBase : Bool} {mode offset bytes : Nat}

theorem Asked.above_base (asked : Asked bs base includeBase mode offset bytes i n)
    (some : base = some b) : i ≤ b := by
  induction asked with
  | first => exact Nat.zero_le _
  | @next i n status _ _ _ _ notBase _ ih =>
    have other : b ≠ i := fun same => notBase (same ▸ some)
    omega

/-- The search does not leave the chain. -/
theorem Asked.exist (chain : ValidChain bs base includeBase) (exist : bs.isNull = false)
    (asked : Asked bs base includeBase mode offset bytes i n) : (bs.layerAt i).isNull = false := by
  cases asked with
  | first => exact exist
  | @next i n status asked answered unallocated nonzero notBase asks => ?_
  cases given : base with
  | some b =>
    have above := Asked.above_base (.next asked answered unallocated nonzero notBase asks) given
    exact layerAt_exist (chain.inChain b given) above
  | none =>
    have goesOn := asks.resolve_left fun included => chain.included included given
    exact Bool.eq_false_iff.mpr fun null => goesOn (Or.inr ⟨given, null⟩)

section

variable (asked : Asked bs base includeBase mode offset bytes i n)
include asked

theorem Asked.unique
    (asked' : Asked bs base includeBase mode offset bytes i n') : n = n' := by
  induction asked generalizing n' with
  | first =>
    cases asked'
    rfl
  | next _ answered _ _ _ _ ih => ?_
  cases asked' with
  | next earlier answered' _ _ _ _ =>
    obtain rfl := ih earlier
    rw [answered] at answered'
    cases answered'
    rfl

theorem Asked.first_asked :
    Asked bs base includeBase mode offset bytes 0 bytes := by
  induction asked with
  | first asks => exact .first asks
  | next _ _ _ _ _ _ ih => exact ih

end

/-- The search goes past every layer above one that is asked. -/
theorem Asked.passes (asked : Asked bs base includeBase mode offset bytes j m) (above : i < j) :
    ∃ n status, Asked bs base includeBase mode offset bytes i n ∧
      bdrvCoDoBlockStatus (bs.layerAt i) mode offset n = .ok (.ok status) ∧ ¬(status.pnum = 0 ∨
        status.allocated = true ∨ base = some i ∨ includeBase = false ∧ IsBase bs base (i + 1)) := by
  induction asked with
  | first => exact absurd above (Nat.not_lt_zero i)
  | @next j n status asked answered unallocated nonzero notBase asks ih => ?_
  rcases Nat.lt_succ_iff_lt_or_eq.mp above with earlier | rfl
  · exact ih earlier
  refine ⟨n, status, asked, answered, ?_⟩
  rintro (empty | allocated | here | ⟨excluded, ends⟩)
  · exact nonzero empty
  · exact absurd (allocated.symm.trans unallocated) (by simp)
  · exact notBase here
  · exact asks.elim (fun included => absurd (included.symm.trans excluded) (by simp)) fun goesOn =>
      goesOn ends

theorem Last.le (last : Last bs base includeBase mode offset bytes i n reply)
    (asked : Asked bs base includeBase mode offset bytes j m) : j ≤ i := by
  by_contra! above
  obtain ⟨n', status, asked', answered, goesOn⟩ := asked.passes above
  obtain rfl := last.asked.unique asked'
  exact goesOn (last.stops status (Except.ok.inj (last.answered.symm.trans answered)))

theorem Last.unique (last : Last bs base includeBase mode offset bytes i n reply)
    (last' : Last bs base includeBase mode offset bytes j m reply') : i = j ∧ n = m ∧ reply = reply' := by
  obtain rfl : i = j := le_antisymm (last'.le last.asked) (last.le last'.asked)
  obtain rfl := last.asked.unique last'.asked
  exact ⟨rfl, rfl, Except.ok.inj (last.answered.symm.trans last'.answered)⟩

theorem Asked.first_status {first status : BlockStatus}
    (asked : Asked bs base includeBase mode offset bytes 0 n)
    (answered : bdrvCoDoBlockStatus (bs.layerAt 0) mode offset n = .ok (.ok status))
    (first_answered : bdrvCoDoBlockStatus bs mode offset bytes = .ok (.ok first)) : status = first := by
  obtain rfl := asked.unique asked.first_asked
  rw [show bs.layerAt 0 = bs from rfl, first_answered] at answered
  cases answered
  rfl

/-- Where the search has got to, nothing above is allocated and the bytes are those of the layer. -/
structure Descended (bs : BlockNode) (offset bytes i n : Nat) : Prop where
  pos : n ≠ 0
  limited : n ≤ bytes
  unowned : ∀ j < i, ∀ x, offset ≤ x → x < offset + n → (bs.layerAt j).owns x = false
  same : ∀ x, offset ≤ x → x < offset + n → bs.read x = (bs.layerAt i).read x

section

variable (chain : ValidChain bs base includeBase) (exist : bs.isNull = false) (wanted : bytes ≠ 0)
include chain exist wanted

variable {i n : Nat} (asked : Asked bs base includeBase mode offset bytes i n)
include asked

theorem Asked.descended : Descended bs offset bytes i n := by
  induction asked with
  | first => exact ⟨wanted, le_rfl, fun j no => absurd no (Nat.not_lt_zero j), fun _ _ _ => rfl⟩
  | @next i n status asked answered unallocated nonzero notBase asks ih => ?_
  have here := asked.exist chain exist
  have more := (Asked.next asked answered unallocated nonzero notBase asks).exist chain exist
  obtain ⟨reply, ran, right⟩ :=
    bdrvCoDoBlockStatus_informs (chain.sound.layerAt i) here mode offset n ih.pos
  rw [answered] at ran
  cases ran
  have right := right status rfl
  have limited := right.limited
  refine ⟨nonzero, limited.trans ih.limited, fun j above x later before => ?_, fun x later before => ?_⟩
  · rcases Nat.lt_succ_iff_lt_or_eq.mp above with earlier | rfl
    · exact ih.unowned j earlier x later (by omega)
    · exact (right.owns x later before).trans unallocated
  · rw [ih.same x later (by omega)]
    exact read_next (chain.sound.layerAt i) ((right.owns x later before).trans unallocated)
      (right.inside x later before) more

variable {status : BlockStatus}

theorem Asked.answers
    (answered : bdrvCoDoBlockStatus (bs.layerAt i) mode offset n = .ok (.ok status)) :
    Answers (bs.layerAt i) offset n status := by
  obtain ⟨reply, ran, right⟩ := bdrvCoDoBlockStatus_informs (chain.sound.layerAt i)
    (asked.exist chain exist) mode offset n (asked.descended chain exist wanted).pos
  rw [answered] at ran
  cases ran
  exact right status rfl

theorem searchBelow_ends (place : bs.layerAt (i + 1) = p)
    (answered : bdrvCoDoBlockStatus (bs.layerAt i) mode offset n = .ok (.ok status))
    (unallocated : status.allocated = false) (nonzero : status.pnum ≠ 0) (notBase : base ≠ some i) :
    ∃ depth reply, searchBelow base includeBase mode offset p (i + 1) status.pnum status =
      .ok (depth, reply) ∧ Ended bs base includeBase mode offset bytes depth reply := by
  have stops (excluded : includeBase = false) (isBase : IsBase bs base (i + 1)) :
      Ended bs base includeBase mode offset bytes (i + 1) (.ok status) :=
    .unallocated ⟨asked, answered, fun _ _ => .inr (.inr (.inr ⟨excluded, isBase⟩))⟩ unallocated nonzero
  induction p generalizing i n status with
  | null =>
    rw [searchBelow]
    cases given : base with
    | none =>
      have excluded : includeBase = false :=
        Bool.eq_false_iff.mpr fun included => chain.included included given
      rw [if_pos ⟨by simp [excluded], rfl⟩]
      exact ⟨_, _, rfl, given ▸ stops excluded (Or.inr ⟨given, by rw [place]; rfl⟩)⟩
    | some b => ?_
    have above := asked.above_base given
    have other : b ≠ i := fun same => notBase (same ▸ given)
    have inside := layerAt_exist (chain.inChain b given) (show i + 1 ≤ b by omega)
    rw [place] at inside
    exact absurd inside (by simp [isNull])
  | mk layer next files nextEnds _ =>
    rw [searchBelow]
    split
    next isBase => exact ⟨_, _, rfl, stops (by simpa using isBase.1) (Or.inl isBase.2)⟩
    next asks =>
      have goesOn : includeBase = true ∨ ¬IsBase bs base (i + 1) := by
        cases included : includeBase with
        | true => exact Or.inl rfl
        | false => ?_
        refine Or.inr fun isBase => ?_
        rcases isBase with same | ⟨-, null⟩
        · exact asks ⟨by simp [included], same⟩
        · rw [place] at null
          exact absurd null (by simp [isNull])
      have below : Asked bs base includeBase mode offset bytes (i + 1) status.pnum :=
        .next asked answered unallocated nonzero notBase goesOn
      obtain ⟨reply, ran, -⟩ := bdrvCoDoBlockStatus_informs (chain.sound.layerAt (i + 1))
        (below.exist chain exist) mode offset status.pnum nonzero
      have ran' := ran
      rw [place] at ran
      rw [ran]
      cases reply with
      | error error => exact ⟨_, _, rfl, .failed ⟨below, ran', fun _ no => absurd no (by simp)⟩⟩
      | ok later => ?_
      have right := below.answers chain exist wanted ran'
      dsimp only
      by_cases empty : later.pnum = 0
      · rw [if_pos empty, if_neg (by simp [(right.empty empty).1])]
        refine ⟨_, _, rfl, ?_⟩
        rw [← place]
        exact .short ⟨below, ran', fun _ same => .inl (Except.ok.inj same ▸ empty)⟩ empty
          (Nat.succ_ne_zero i)
      rw [if_neg empty]
      by_cases allocated : later.allocated = true
      · rw [if_pos allocated]
        refine ⟨_, _, rfl, .allocated ⟨below, ran', fun _ same => ?_⟩ allocated empty (Nat.succ_ne_zero i)⟩
        exact .inr (.inl (Except.ok.inj same ▸ allocated))
      rw [if_neg allocated]
      have unallocated' := Bool.eq_false_iff.mpr allocated
      by_cases last : base = some (i + 1)
      · rw [if_pos last]
        exact ⟨_, _, rfl, .unallocated ⟨below, ran', fun _ _ => .inr (.inr (.inl last))⟩
          unallocated' empty⟩
      · rw [if_neg last, if_neg (not_lt.mpr right.limited)]
        refine nextEnds below (by rw [layerAt, place, bdrvFilterOrCowBs]) ran' unallocated' empty last ?_
        exact fun excluded isBase =>
          .unallocated ⟨below, ran', fun _ _ => .inr (.inr (.inr ⟨excluded, isBase⟩))⟩ unallocated' empty

variable {first : BlockStatus}

/-- No layer below the first is asked about more than the first answered for. -/
theorem Asked.le_first (answered : bdrvCoDoBlockStatus bs mode offset bytes = .ok (.ok first)) :
    i = 0 ∨ n ≤ first.pnum := by
  induction asked with
  | first => exact Or.inl rfl
  | @next i n status asked answered' _ _ _ _ ih => ?_
  right
  have limited := (asked.answers chain exist wanted answered').limited
  rcases ih with rfl | short
  · rw [asked.first_status answered' answered]
  · exact limited.trans short

/-- What is known of a result before the first layer's `EOF` is restored. -/
structure Describes (bs : BlockNode) (offset bytes depth : Nat) (status : BlockStatus) : Prop where
  limited : status.pnum ≤ bytes
  allocated : status.allocated = true → ∃ i, depth = i + 1 ∧
    (∀ j < i, ∀ x, offset ≤ x → x < offset + status.pnum → (bs.layerAt j).owns x = false) ∧
    ((∀ x, offset ≤ x → x < offset + status.pnum → (bs.layerAt i).owns x = true) ∨
      RunsOut (bs.layerAt i) offset ∧ ∀ x, offset ≤ x → x < offset + status.pnum → bs.read x = 0)
  zero : status.zero = true → ∀ x, offset ≤ x → x < offset + status.pnum → bs.read x = 0

omit chain exist wanted asked in
theorem Describes.congr (describes : Describes bs offset bytes depth status)
    (pnum : status'.pnum = status.pnum) (allocated : status'.allocated = status.allocated)
    (zero : status'.zero = status.zero) : Describes bs offset bytes depth status' := by
  obtain ⟨limited, owned, zeroes⟩ := describes
  constructor
  · rwa [pnum]
  · rwa [pnum, allocated]
  · rwa [pnum, zero]

/-- An answer of a layer that is asked describes the bytes of the chain. -/
theorem Asked.describes (answered : bdrvCoDoBlockStatus (bs.layerAt i) mode offset n = .ok (.ok status)) :
    Describes bs offset bytes (i + 1) status := by
  have right := asked.answers chain exist wanted answered
  have place := asked.descended chain exist wanted
  have limited := right.limited
  refine ⟨limited.trans place.limited, fun allocated => ⟨i, rfl, ?_, Or.inl ?_⟩, ?_⟩
  · exact fun j above x later before => place.unowned j above x later (by omega)
  · exact fun x later before => (right.owns x later before).trans allocated
  · intro zero x later before
    rw [place.same x later (by omega)]
    exact right.zero zero x later before

omit asked

section

variable (ended : Ended bs base includeBase mode offset bytes depth (.ok result))
include ended

theorem Ended.describes :
    result.pnum ≠ 0 ∧ Describes bs offset bytes depth result := by
  cases ended with
  | unallocated last _ nonzero => exact ⟨nonzero, last.asked.describes chain exist wanted last.answered⟩
  | allocated last _ nonzero =>
    exact ⟨nonzero, (last.asked.describes chain exist wanted last.answered).congr rfl rfl rfl⟩
  | @short i n status last empty => ?_
  have right := last.asked.answers chain exist wanted last.answered
  have place := last.asked.descended chain exist wanted
  have out := right.ended (right.empty empty).1
  rw [empty] at out
  have zero : ∀ x, offset ≤ x → x < offset + n → bs.read x = 0 := fun x later before =>
    (place.same x later before).trans (out.read_zero x later)
  exact ⟨place.pos, place.limited, fun _ => ⟨i, rfl, place.unowned, Or.inr ⟨out, zero⟩⟩, fun _ => zero⟩

theorem Ended.le_first
    (answered : bdrvCoDoBlockStatus bs mode offset bytes = .ok (.ok first)) :
    result.pnum ≤ first.pnum := by
  cases ended with
  | unallocated last =>
    rcases last.asked.le_first chain exist wanted answered with rfl | short
    · rw [last.asked.first_status last.answered answered]
    · exact (last.asked.answers chain exist wanted last.answered).limited.trans short
  | allocated last _ _ below =>
    have short := (last.asked.le_first chain exist wanted answered).resolve_left below
    exact (last.asked.answers chain exist wanted last.answered).limited.trans short
  | short last _ below => exact (last.asked.le_first chain exist wanted answered).resolve_left below

end

end

end Qemu.Block.Status
