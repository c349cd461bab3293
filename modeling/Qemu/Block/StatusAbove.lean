import Qemu.Block.StatusSearch

/-! The block status over a chain of layers: it is right except that the end of another layer can
show through. -/

namespace Qemu.Block.Status

open Bool

variable {bs : BlockNode} {base : Option Nat} {includeBase : Bool} {mode offset bytes : Nat}

/-- The ways the function returns. -/
inductive Returns (bs : BlockNode) (base : Option Nat) (includeBase : Bool)
    (mode offset bytes : Nat) : Nat → Except Int BlockStatus → Prop
  | nothing (excluded : includeBase = false ∧ base = some 0) :
      Returns bs base includeBase mode offset bytes 0 (.ok { pnum := bytes })
  | failed {i n depth : Nat} {error : Int}
      (last : Last bs base includeBase mode offset bytes i n (.error error)) :
      Returns bs base includeBase mode offset bytes depth (.error error)
  | top {first : BlockStatus} (last : Last bs base includeBase mode offset bytes 0 bytes (.ok first)) :
      Returns bs base includeBase mode offset bytes 1 (.ok first)
  | below {depth : Nat} {first last : BlockStatus}
      (answered : bdrvCoDoBlockStatus bs mode offset bytes = .ok (.ok first))
      (ended : Ended bs base includeBase mode offset bytes depth (.ok last)) :
      Returns bs base includeBase mode offset bytes depth (.ok (restoreEof offset first last))

theorem bdrvCoCommonBlockStatusAbove_returns (chain : ValidChain bs base includeBase)
    (exist : bs.isNull = false) (wanted : bytes ≠ 0) : ∃ depth reply,
    bdrvCoCommonBlockStatusAbove bs base includeBase mode offset bytes = .ok (depth, reply) ∧
      Returns bs base includeBase mode offset bytes depth reply := by
  rw [bdrvCoCommonBlockStatusAbove, if_neg fun wrong => chain.included wrong.1 wrong.2]
  by_cases excluded : includeBase = false ∧ base = some 0
  · rw [if_pos (by simpa using excluded)]
    exact ⟨_, _, rfl, .nothing excluded⟩
  rw [if_neg (by simpa using excluded)]
  have asked : Asked bs base includeBase mode offset bytes 0 bytes := .first excluded
  obtain ⟨reply, answered, right⟩ := bdrvCoDoBlockStatus_informs chain.sound exist mode offset bytes wanted
  rw [answered]
  cases reply with
  | error error => exact ⟨_, _, rfl, .failed ⟨asked, answered, fun _ no => absurd no (by simp)⟩⟩
  | ok first => ?_
  dsimp only
  split
  next stops =>
    refine ⟨_, _, rfl, .top ⟨asked, answered, fun status same => ?_⟩⟩
    cases same
    exact stops.imp_right (Or.imp_right Or.inl)
  next goesOn =>
    obtain ⟨nonzero, unallocated, notBase⟩ := not_or.mp goesOn |>.imp id not_or.mp
    obtain ⟨depth, reply, ran, ended⟩ := searchBelow_ends chain exist wanted asked
      (show bs.layerAt 1 = bs.bdrvFilterOrCowBs from rfl) answered (eq_false_iff.mpr unallocated)
      nonzero notBase
    rw [if_neg (not_lt.mpr (right first rfl).limited), ran]
    cases reply with
    | error error =>
      cases ended with
      | failed last => exact ⟨_, _, rfl, .failed last⟩
    | ok last => exact ⟨_, _, rfl, .below answered ended⟩

theorem restoreEof_eof : (restoreEof offset first last).eof = true ↔
    (offset + last.pnum = if first.eof then offset + first.pnum else 0) ∨ last.eof = true :=
  markEof_eof_iff

@[simp]
theorem restoreEof_pnum (first last : BlockStatus) : (restoreEof offset first last).pnum = last.pnum :=
  markEof_pnum ..

@[simp]
theorem restoreEof_allocated (first last : BlockStatus) :
    (restoreEof offset first last).allocated = last.allocated :=
  markEof_allocated ..

@[simp]
theorem restoreEof_zero (first last : BlockStatus) : (restoreEof offset first last).zero = last.zero :=
  markEof_zero ..

/-- A result that tells the truth about the chain. -/
structure Holds (bs : BlockNode) (offset bytes depth : Nat) (status : BlockStatus) : Prop
    extends Describes bs offset bytes depth status where
  pos : 0 < status.pnum
  eof : status.eof = true ↔ bs.getlength = (offset + status.pnum : Nat)

/-- No assertion fails, and a result tells the truth. -/
def Right (bs : BlockNode) (base : Option Nat) (includeBase : Bool) (mode offset bytes : Nat) : Prop :=
  ∃ depth reply, bdrvCoCommonBlockStatusAbove bs base includeBase mode offset bytes =
    .ok (depth, reply) ∧ ∀ status, reply = .ok status → Holds bs offset bytes depth status

/-- The bytes that the last layer settles: those of its answer, or all that it is asked for if it is
a layer below that is too short to have any. -/
def settled (i n : Nat) (status : BlockStatus) : Nat := if status.pnum = 0 ∧ i ≠ 0 then n else status.pnum

/-- `EOF` is in the answer of the first layer and that answer reaches as far as the last one, or it
is in the answer of the last layer and nothing is allocated there; but `bs` is longer or shorter. -/
def OtherEnd (bs : BlockNode) (base : Option Nat) (includeBase : Bool) (mode offset bytes : Nat) : Prop :=
  ∃ i n status, Last bs base includeBase mode offset bytes i n (.ok status) ∧
    ((∃ first, bdrvCoDoBlockStatus bs mode offset bytes = .ok (.ok first) ∧ first.eof = true ∧
      first.pnum = settled i n status) ∨
      status.eof = true ∧ status.allocated = false ∧ status.pnum ≠ 0) ∧
    bs.getlength ≠ (offset + settled i n status : Nat)

section

variable {depth : Nat} {result : BlockStatus}

section

variable (chain : ValidChain bs base includeBase) (exist : bs.isNull = false) (wanted : bytes ≠ 0)
  (returns : Returns bs base includeBase mode offset bytes depth (.ok result))
include chain exist wanted returns

theorem Returns.describes : Describes bs offset bytes depth result := by
  cases returns with
  | nothing => exact ⟨le_rfl, fun no => absurd no false_ne_true, fun no => absurd no false_ne_true⟩
  | top last => exact last.asked.describes chain exist wanted last.answered
  | @below _ first last answered ended =>
    exact (ended.describes chain exist wanted).2.congr (restoreEof_pnum ..)
      (restoreEof_allocated ..) (restoreEof_zero ..)

/-- A result without bytes comes from a file that ended, and does not say that there are zeroes. -/
theorem Returns.of_empty (empty : result.pnum = 0) : result.eof = true ∧ result.zero = false := by
  cases returns with
  | nothing => exact absurd empty wanted
  | top last =>
    obtain ⟨ends, -, unknown⟩ := (last.asked.answers chain exist wanted last.answered).empty empty
    exact ⟨ends, unknown⟩
  | @below _ first last answered ended =>
    rw [restoreEof_pnum] at empty
    exact absurd empty (ended.describes chain exist wanted).1

end

variable (chain : ValidChain bs base includeBase) (inside : offset < bs.getlength) (wanted : bytes ≠ 0)
include chain inside wanted

omit chain wanted in
theorem exist_of_inside : bs.isNull = false := by
  cases bs with
  | null => exact absurd inside (by simp [BlockNode.getlength])
  | mk layer next files => rfl

omit chain wanted in
/-- An answer about the first layer does not go past its end. -/
theorem Answers.before_end (right : Answers bs offset bytes first) :
    (offset + first.pnum : Nat) ≤ bs.getlength := by
  by_cases empty : first.pnum = 0
  · omega
  · have stays := right.inside (offset + first.pnum - 1) (by omega) (by omega)
    simp only [BlockNode.past, and_eq_false_iff, decide_eq_false_iff_not] at stays
    omega

section

variable (returns : Returns bs base includeBase mode offset bytes depth (.ok result))
  (asks : ¬(includeBase = false ∧ base = some 0))
include returns asks

/-- The result ends where the last answer ends, and has the `EOF` of that answer or of the first
one. -/
theorem Returns.last : ∃ i n status, Last bs base includeBase mode offset bytes i n (.ok status) ∧
    result.pnum = settled i n status ∧ (result.eof = true ↔
      (∃ first, bdrvCoDoBlockStatus bs mode offset bytes = .ok (.ok first) ∧ first.eof = true ∧
        first.pnum = settled i n status) ∨
      status.eof = true ∧ status.allocated = false ∧ status.pnum ≠ 0) := by
  have exist := exist_of_inside inside
  cases returns with
  | nothing excluded => exact absurd excluded asks
  | top last =>
    have whole : settled 0 bytes result = result.pnum := if_neg fun no => no.2 rfl
    refine ⟨0, bytes, result, last, whole.symm,
      fun eof => .inl ⟨result, last.answered, eof, whole.symm⟩, ?_⟩
    rintro (⟨first, answered, eof, -⟩ | ⟨eof, -⟩)
    · rwa [last.asked.first_status last.answered answered]
    · exact eof
  | @below _ first status answered ended =>
    have pos := (ended.describes chain exist wanted).1
    have restored {m : Nat} (same : status.pnum = m) :
        (offset + status.pnum = if first.eof then offset + first.pnum else 0) ↔
          ∃ first, bdrvCoDoBlockStatus bs mode offset bytes = .ok (.ok first) ∧ first.eof = true ∧
            first.pnum = m := by
      simp only [answered, Except.ok.injEq, exists_eq_left', ← same]
      cases first.eof with
      | true => simp [eq_comm]
      | false => simp [pos]
    rw [restoreEof_pnum, restoreEof_eof]
    cases ended with
    | @unallocated i n _ last unallocated nonzero =>
      have whole : settled i n status = status.pnum := if_neg fun no => nonzero no.1
      exact ⟨i, n, status, last, whole.symm, by rw [whole, restored rfl]; simp [unallocated, nonzero]⟩
    | @allocated i n answer last allocated nonzero =>
      have whole : settled i n answer = answer.pnum := if_neg fun no => nonzero no.1
      refine ⟨i, n, answer, last, whole.symm, ?_⟩
      rw [whole, restored rfl]
      simp [allocated]
    | @short i n answer last empty below =>
      have whole : settled i n answer = n := if_pos ⟨empty, below⟩
      refine ⟨i, n, answer, last, whole.symm, ?_⟩
      rw [whole, restored rfl]
      simp [empty]

/-- Where the first layer ends, the result has `EOF`. -/
theorem Returns.eof_of_end (ends : bs.getlength = (offset + result.pnum : Nat)) : result.eof = true := by
  have exist := exist_of_inside inside
  cases returns with
  | nothing excluded => exact absurd excluded asks
  | top last => exact (last.asked.answers chain exist wanted last.answered).atEnd ends
  | @below _ first last answered ended => ?_
  have right : Answers bs offset bytes first :=
    (Asked.first asks).answers chain exist wanted answered
  have before := right.before_end inside
  have limited := ended.le_first chain exist wanted answered
  rw [restoreEof_pnum] at ends
  have whole : last.pnum = first.pnum := by omega
  rw [whole] at ends
  refine restoreEof_eof.mpr (Or.inl ?_)
  rw [if_pos (right.atEnd ends), whole]

end

end

/-- Zeroes that `bdrv_co_is_zero_fast` is sure of are read, and it comes to an end. -/
theorem bdrvCoIsZeroFast_reliable (sound : Sound bs) (exist : bs.isNull = false) (fuel offset bytes : Nat)
    (enough : bytes ≤ fuel) : ∃ reply, bdrvCoIsZeroFast bs fuel offset bytes = .ok reply ∧
      (reply = .ok true → ∀ x, offset ≤ x → x < offset + bytes → bs.read x = 0) := by
  have chain : ValidChain bs none false :=
    ⟨sound, fun b no => absurd no (by simp), fun no => absurd no false_ne_true⟩
  induction fuel generalizing offset bytes with
  | zero =>
    obtain rfl : bytes = 0 := by omega
    exact ⟨_, rfl, fun _ x above before => absurd before (not_lt.mpr above)⟩
  | succ fuel ih => ?_
  rw [bdrvCoIsZeroFast]
  split
  · exact ⟨_, rfl, fun _ x above before => absurd before (by omega)⟩
  next wanted =>
    obtain ⟨depth, reply, ran, returns⟩ :=
      @bdrvCoCommonBlockStatusAbove_returns bs none false bdrvWantZero offset bytes chain
      exist wanted
    rw [ran]
    cases reply with
    | error error => exact ⟨_, rfl, fun no => absurd no (by simp)⟩
    | ok status => ?_
    dsimp only
    cases zero : status.zero with
    | false => exact ⟨_, rfl, fun no => absurd no (by simp)⟩
    | true => ?_
    have describes := returns.describes chain exist wanted
    have pos : status.pnum ≠ 0 := fun empty => by
      rw [(returns.of_empty chain exist wanted empty).2] at zero
      exact false_ne_true zero
    obtain ⟨reply, ran', reads⟩ := ih (offset + status.pnum) (bytes - status.pnum) (by omega)
    refine ⟨reply, ran', fun sure x above before => ?_⟩
    by_cases early : x < offset + status.pnum
    · exact describes.zero zero x above early
    · exact reads sure x (not_lt.mp early) (by omega)

/-- An image without any data. -/
def sparseLayer (length : Nat) (kind : DriverKind) : Layer where
  getlength := length
  requestAlignment := 1
  kind := kind
  protocol := false
  noChildren := false
  cache := none
  blockStatus := if kind = .filter then none
    else some fun _ _ bytes => .ok ⟨false, false, false, false, false, bytes, 0, .none⟩
  owned _ := false
  content _ := 0

def backingFile : BlockNode := .mk (sparseLayer 1024 .backing) .null fun _ => .null

/-- An image on top of an image that is half as long. -/
def overlay (kind : DriverKind) : BlockNode := .mk (sparseLayer 2048 kind) backingFile fun _ => .null

/-- The backing file has nothing, up to its end. -/
theorem backingFile_status : bdrvCoDoBlockStatus backingFile bdrvWantPrecise 0 512 =
    .ok (.ok { zero := true, pnum := 512 }) ∧
    bdrvCoDoBlockStatus backingFile bdrvWantPrecise 0 2048 =
    .ok (.ok { zero := true, eof := true, pnum := 1024 }) := by
  rw [backingFile, bdrvCoDoBlockStatus, bdrvCoDoBlockStatus]
  exact ⟨rfl, rfl⟩

theorem overlay_status : bdrvCoDoBlockStatus (overlay .backing) bdrvWantPrecise 0 512 =
    .ok (.ok { pnum := 512 }) ∧
    bdrvCoDoBlockStatus (overlay .backing) bdrvWantPrecise 0 2048 =
    .ok (.ok { eof := true, pnum := 2048 }) := by
  rw [overlay, bdrvCoDoBlockStatus, bdrvCoDoBlockStatus]
  exact ⟨rfl, rfl⟩

theorem sparseLayer_sound
    (based : kind ≠ .plain) (child : kind = .filter → next.isNull = false) :
    SoundLayer (sparseLayer length kind) next files := by
  refine ⟨Nat.one_pos, fun plain => absurd plain based, fun default unfiltered => ?_,
    fun _ _ no => absurd no (by simp [sparseLayer]),
    fun blockStatus mode offset bytes status driver _ _ nonzero _ answered => ?_⟩
  · have filter : kind = .filter := by
      by_contra other
      exact absurd default (by simp [sparseLayer, other])
    exact absurd unfiltered (by simp [Layer.filters, sparseLayer, filter, child filter])
  have other : kind ≠ .filter := by
    rintro rfl
    exact absurd driver (by simp [sparseLayer])
  simp only [sparseLayer, if_neg other, Option.some.injEq] at driver
  subst driver
  cases answered
  refine ⟨nonzero, one_dvd _, by simp, by simp [Layer.cacheable], by simp, by simp, by simp,
    fun _ x _ _ _ => ?_, by simp, by simp⟩
  simp [BlockNode.owns, Layer.filters, sparseLayer, other]

theorem overlay_chain (based : kind ≠ .plain) (first : base = none ∨ base = some 0) :
    ValidChain (overlay kind) base false where
  sound := ⟨sparseLayer_sound based fun _ => rfl,
    ⟨sparseLayer_sound (by decide) (by decide), trivial, fun _ => trivial⟩, fun _ => trivial⟩
  inChain b given := by
    rcases first with rfl | rfl
    · exact absurd given (by simp)
    · cases given
      rfl
  included no := absurd no false_ne_true

/-- Two rounds: the backing file up to its end, and the rest. -/
theorem isZeroFast_overlay : bdrvCoIsZeroFast (overlay .backing) 2048 0 2048 = .ok (.ok true) ∧
    ∀ x < 2048, (overlay .backing).read x = 0 := by
  have sound := (@overlay_chain none .backing (by decide) (.inl rfl)).sound
  have ran : bdrvCoIsZeroFast (overlay .backing) 2048 0 2048 = .ok (.ok true) := by decide +kernel
  obtain ⟨reply, ran', reads⟩ := bdrvCoIsZeroFast_reliable sound rfl 2048 0 2048 le_rfl
  cases ran.symm.trans ran'
  exact ⟨ran, fun x before => reads rfl x (Nat.zero_le x) (by omega)⟩

end Qemu.Block.Status
