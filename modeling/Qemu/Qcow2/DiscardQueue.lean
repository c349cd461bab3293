import Qemu.Lib.Checked
import Qemu.Qcow2.Cache

/-! The queue of discard requests that qcow2 collects while it frees clusters. -/

namespace Qemu.Qcow2

inductive DiscardType where
  | never
  | always
  | request
  | snapshot
  | other
  deriving DecidableEq, Repr

structure DiscardRegion where
  offset : Nat
  bytes : Nat
  deriving DecidableEq, Repr

/-- The first loop of `queue_discard`: extend the first region that the new one touches, or
append.  The result is split at the region that holds the request. -/
def placeDiscard (offset length : Nat) : List DiscardRegion →
    Except Stop (List DiscardRegion × DiscardRegion × List DiscardRegion)
  | [] => .ok ([], ⟨offset, length⟩, [])
  | d :: rest =>
    let newStart := min offset d.offset
    let newEnd := max (offset + length) (d.offset + d.bytes)
    if newEnd - newStart ≤ length + d.bytes then
      if d.bytes + length = newEnd - newStart then
        .ok ([], ⟨newStart, newEnd - newStart⟩, rest)
      else .error .abort
    else do
      let (before, new, after) ← placeDiscard offset length rest
      return (d :: before, new, after)

/-- The second loop: merge into `d` the other regions that have become adjacent. -/
def absorbDiscards (d : DiscardRegion) : List DiscardRegion →
    Except Stop (DiscardRegion × List DiscardRegion)
  | [] => .ok (d, [])
  | p :: rest =>
    if p.offset > d.offset + d.bytes ∨ d.offset > p.offset + p.bytes then do
      let (d, rest) ← absorbDiscards d rest
      return (d, p :: rest)
    else if p.offset = d.offset + d.bytes ∨ d.offset = p.offset + p.bytes then
      absorbDiscards ⟨min d.offset p.offset, d.bytes + p.bytes⟩ rest
    else .error .abort

def queueDiscard (queue : List DiscardRegion) (offset length : Nat) :
    Except Stop (List DiscardRegion) := do
  let (before, d, after) ← placeDiscard offset length queue
  let (d, before) ← absorbDiscards d before
  let (d, after) ← absorbDiscards d after
  return before ++ d :: after

def DiscardRegion.Covers (d : DiscardRegion) (byte : Nat) : Prop := d.offset ≤ byte ∧
    byte < d.offset + d.bytes

def Covered (queue : List DiscardRegion) (byte : Nat) : Prop := ∃ d ∈ queue, d.Covers byte

@[simp] theorem covered_nil (byte : Nat) : ¬ Covered [] byte := by
  simp [Covered]

@[simp] theorem covered_cons (byte : Nat) : Covered (d :: queue) byte ↔ d.Covers byte ∨
    Covered queue byte := by
  simp [Covered]

@[simp] theorem covered_append (byte : Nat) :
    Covered (queue ++ rest) byte ↔ Covered queue byte ∨ Covered rest byte := by
  simp [Covered, or_and_right, exists_or]

theorem placeDiscard_covered (placed : placeDiscard offset length queue = .ok (before, new, after))
    (byte : Nat) : Covered before byte ∨ new.Covers byte ∨ Covered after byte ↔
      Covered queue byte ∨ (⟨offset, length⟩ : DiscardRegion).Covers byte := by
  induction queue generalizing before with
  | nil =>
    cases Except.ok.inj placed
    simp
  | cons d queue ih => ?_
  rw [placeDiscard] at placed
  split at placed
  · split at placed
    · cases Except.ok.inj placed
      simp only [covered_nil, covered_cons]
      have joined : (⟨min offset d.offset,
          max (offset + length) (d.offset + d.bytes) - min offset d.offset⟩ :
          DiscardRegion).Covers byte ↔
          d.Covers byte ∨ (⟨offset, length⟩ : DiscardRegion).Covers byte := by
        simp only [DiscardRegion.Covers]
        omega
      tauto
    · cases placed
  · obtain ⟨⟨before', new', after'⟩, found, ⟨⟩⟩ := Checked.bind_ok.mp placed
    simp only [covered_cons]
    rw [or_assoc, ih found, or_assoc]

theorem covers_join {d p : DiscardRegion}
    (adjacent : p.offset = d.offset + d.bytes ∨ d.offset = p.offset + p.bytes) :
    (⟨min d.offset p.offset, d.bytes + p.bytes⟩ : DiscardRegion).Covers byte ↔ d.Covers byte ∨
    p.Covers byte := by
  simp only [DiscardRegion.Covers]
  omega

theorem absorbDiscards_covered
    (absorbed : absorbDiscards d queue = .ok (d', queue')) (byte : Nat) :
    d'.Covers byte ∨ Covered queue' byte ↔ d.Covers byte ∨ Covered queue byte := by
  induction queue generalizing d queue' with
  | nil =>
    cases Except.ok.inj absorbed
    rfl
  | cons p queue ih => ?_
  rw [absorbDiscards] at absorbed
  split at absorbed
  · obtain ⟨⟨d'', queue''⟩, more, ⟨⟩⟩ := Checked.bind_ok.mp absorbed
    have rest := ih more
    simp only [covered_cons]
    tauto
  · split at absorbed
    next adjacent => rw [ih absorbed, covers_join adjacent, covered_cons, or_assoc]
    · cases absorbed

/-- A queued request adds its bytes and no others. -/
theorem queueDiscard_covered (queued : queueDiscard queue offset length = .ok queue') (byte : Nat) :
    Covered queue' byte ↔ Covered queue byte ∨ (⟨offset, length⟩ : DiscardRegion).Covers byte := by
  obtain ⟨⟨before, d, after⟩, placed, absorbing⟩ := Checked.bind_ok.mp queued
  obtain ⟨⟨d₁, before₁⟩, first, absorbing⟩ := Checked.bind_ok.mp absorbing
  obtain ⟨⟨d₂, after₂⟩, second, ⟨⟩⟩ := Checked.bind_ok.mp absorbing
  rw [covered_append, covered_cons, absorbDiscards_covered second byte, or_left_comm, ← or_assoc,
    absorbDiscards_covered first byte, or_assoc, or_left_comm, placeDiscard_covered placed byte]

/-- The loop of `qcow2_process_discards`: the requests passed on and the queue left. -/
def processQueue (ret : Int) : List DiscardRegion → List DiscardRegion × List DiscardRegion
  | [] => ([], [])
  | d :: next =>
    let (issued, queue) := processQueue ret next
    (if ret ≥ 0 then d :: issued else issued, queue)

@[simp] theorem processQueue_eq (ret : Int) (queue : List DiscardRegion) :
    processQueue ret queue = (if ret ≥ 0 then queue else [], []) := by
  induction queue with
  | nil => simp [processQueue]
  | cons d next ih =>
    rw [processQueue, ih]
    dsimp only
    split <;> rfl

/-- Disjoint and not adjacent. -/
def DiscardRegion.Apart (d p : DiscardRegion) : Prop := d.offset + d.bytes < p.offset ∨
    p.offset + p.bytes < d.offset

open DiscardRegion (Apart Covers)

/-- A region is apart from whatever is made up of regions that it is apart from. -/
theorem apart_of_covered (nonempty : 0 < new.bytes)
    (made : ∀ byte, new.Covers byte → d.Covers byte ∨ Covered queue byte)
    (fresh : Apart p d) (others : ∀ q ∈ queue, Apart p q) : Apart p new := by
  by_contra touches
  simp only [Apart] at *
  -- A byte of `new` that is in `p` or next to it.
  have found : Covers new (max new.offset (p.offset - 1)) := by
    simp only [Covers]
    omega
  obtain inside | ⟨q, member, inside⟩ := made _ found
  · simp only [Covers] at inside
    omega
  · have := others q member
    simp only [Covers] at inside
    omega

/-- What either loop meets: regions apart from each other, none of which overlaps `d`. -/
structure Spaced (d : DiscardRegion) (queue : List DiscardRegion) : Prop where
  held : 0 < d.bytes
  apart : queue.Pairwise Apart
  nonempty : ∀ p ∈ queue, 0 < p.bytes
  disjoint : ∀ byte, d.Covers byte → ¬ Covered queue byte

theorem Spaced.head (spaced : Spaced d (p :: queue)) :
    0 < p.bytes ∧ (d.offset + d.bytes ≤ p.offset ∨ p.offset + p.bytes ≤ d.offset) := by
  have held := spaced.held
  have nonempty := spaced.nonempty p (.head _)
  have common := spaced.disjoint (max d.offset p.offset)
  simp only [covered_cons, Covers] at common
  omega

theorem Spaced.tail (spaced : Spaced d (p :: queue)) : Spaced d queue where
  held := spaced.held
  apart := spaced.apart.of_cons
  nonempty q member := spaced.nonempty q (.tail _ member)
  disjoint byte inside other := spaced.disjoint byte inside (covered_cons byte |>.mpr (.inr other))

theorem Spaced.join (spaced : Spaced d (p :: queue))
    (adjacent : p.offset = d.offset + d.bytes ∨ d.offset = p.offset + p.bytes) :
    Spaced ⟨min d.offset p.offset, d.bytes + p.bytes⟩ queue where
  __ := spaced.tail
  held := Nat.add_pos_left spaced.held _
  disjoint byte inside other := by
    obtain inside | own := (covers_join adjacent).mp inside
    · exact spaced.tail.disjoint byte inside other
    · obtain ⟨q, member, theirs⟩ := other
      have apart := List.rel_of_pairwise_cons spaced.apart member
      simp only [Apart, Covers] at *
      omega

theorem Spaced.absorb (spaced : Spaced d queue) :
    ∃ d' queue', absorbDiscards d queue = .ok (d', queue') ∧ 0 < d'.bytes ∧
      (d' :: queue').Pairwise Apart ∧ queue'.Sublist queue := by
  induction queue generalizing d with
  | nil => exact ⟨d, [], rfl, spaced.held, List.pairwise_singleton _ _, .refl _⟩
  | cons p queue ih => ?_
  rw [absorbDiscards]
  split
  next apart =>
    obtain ⟨d', queue', done, held, separate, part⟩ := ih spaced.tail
    obtain ⟨others, _⟩ := List.pairwise_cons.mp spaced.apart
    obtain ⟨own, rest⟩ := List.pairwise_cons.mp separate
    have fresh := apart_of_covered held
      (fun byte inside => (absorbDiscards_covered done byte).mp (.inl inside)) apart.symm others
    refine ⟨d', p :: queue', by rw [done]; rfl, held, ?_, part.cons_cons p⟩
    exact .cons (List.forall_mem_cons.mpr ⟨fresh.symm, own⟩)
      (.cons (fun q member => others q (part.subset member)) rest)
  next touching =>
    have adjacent : p.offset = d.offset + d.bytes ∨ d.offset = p.offset + p.bytes := by
      have := spaced.head
      omega
    rw [if_pos adjacent]
    obtain ⟨d', queue', done, held, separate, part⟩ := ih (spaced.join adjacent)
    exact ⟨d', queue', done, held, separate, part.cons p⟩

theorem Spaced.place (spaced : Spaced ⟨offset, length⟩ queue) :
    ∃ before d after, placeDiscard offset length queue = .ok (before, d, after) ∧
      Spaced d (before ++ after) ∧ (before ++ after).Sublist queue := by
  induction queue with
  | nil => exact ⟨[], ⟨offset, length⟩, [], rfl, spaced, .refl _⟩
  | cons p queue ih => ?_
  obtain ⟨nonempty, clear⟩ := spaced.head
  have held := spaced.held
  simp only at clear held
  rw [placeDiscard]
  split
  next touching =>
    have joined : p.bytes + length = max (offset + length) (p.offset + p.bytes) -
      min offset p.offset := by omega
    rw [if_pos joined, ← joined, Nat.add_comm]
    exact ⟨[], _, queue, rfl, spaced.join (by simp only; omega), .cons p (.refl _)⟩
  next apart =>
    obtain ⟨before, d, after, done, rest, part⟩ := ih spaced.tail
    obtain ⟨others, _⟩ := List.pairwise_cons.mp spaced.apart
    have fresh : Apart p d := apart_of_covered rest.held
      (fun byte inside => ((placeDiscard_covered done byte).mp (.inr (.inl inside))).symm)
      (by simp only [Apart]; omega) others
    refine ⟨p :: before, d, after, by rw [done]; rfl, ⟨rest.held, ?_, ?_, ?_⟩, part.cons_cons p⟩
    · exact .cons (fun q member => others q (part.subset member)) rest.apart
    · exact List.forall_mem_cons.mpr ⟨nonempty, rest.nonempty⟩
    intro byte inside other
    obtain own | other := (covered_cons byte).mp other
    · simp only [Apart, Covers] at *
      omega
    · exact rest.disjoint byte inside other

/-- The two passes of the second loop are one over both parts. -/
theorem absorbDiscards_append (absorbed : absorbDiscards d (before ++ after) = .ok (d', queue')) :
    ∃ d₁ before' after', absorbDiscards d before = .ok (d₁, before') ∧
      absorbDiscards d₁ after = .ok (d', after') ∧ queue' = before' ++ after' := by
  induction before generalizing d queue' with
  | nil => exact ⟨d, [], queue', rfl, absorbed, rfl⟩
  | cons p before ih => ?_
  rw [List.cons_append, absorbDiscards] at absorbed
  rw [absorbDiscards]
  split_ifs at absorbed ⊢
  · obtain ⟨⟨_, _⟩, more, ⟨⟩⟩ := Checked.bind_ok.mp absorbed
    obtain ⟨d₁, before', after', first, second, rfl⟩ := ih more
    exact ⟨d₁, p :: before', after', by rw [first]; rfl, second, rfl⟩
  · exact ih absorbed

theorem Spaced.queueDiscard (spaced : Spaced ⟨offset, length⟩ queue) :
    ∃ queue', queueDiscard queue offset length = .ok queue' ∧ queue'.Pairwise Apart ∧
    ∀ p ∈ queue', 0 < p.bytes := by
  obtain ⟨before, d, after, placed, clear, part⟩ := spaced.place
  obtain ⟨d', queue', absorbed, held, separate, kept⟩ := clear.absorb
  obtain ⟨d₁, before', after', first, second, rfl⟩ := absorbDiscards_append absorbed
  refine ⟨before' ++ d' :: after', ?_, ?_, ?_⟩
  · simp only [Qcow2.queueDiscard, placed, first, second, Checked.ok_bind]
    rfl
  · exact (List.perm_middle.pairwise_iff Or.symm).mpr separate
  · intro p member
    obtain rfl | member := List.mem_cons.mp (List.perm_middle.mem_iff.mp member)
    · exact held
    · exact clear.nonempty p (kept.subset member)

/-- Runs of the queue, with the regions queued since it was last processed.  No region wraps, so
the sums of `queue_discard` do not. -/
inductive DiscardRun : List DiscardRegion → Except Stop (List DiscardRegion) → Prop where
  | start : DiscardRun [] (.ok [])
  | queue (d : DiscardRegion) (run : DiscardRun queued (.ok queue)) (nonempty : 0 < d.bytes)
      (noWrap : d.offset + d.bytes < 2 ^ 64) (disjoint : ∀ byte, d.Covers byte → ¬ Covered queued byte) :
      DiscardRun (d :: queued) (queueDiscard queue d.offset d.bytes)
  | process (ret : Int) (run : DiscardRun queued (.ok queue)) :
    DiscardRun [] (.ok (processQueue ret queue).2)

/-- A run never fails an assertion.  Its queue holds exactly the bytes queued since it was last
processed, in nonempty regions that are neither overlapping nor adjacent. -/
theorem discard_run_exact (run : DiscardRun queued result) :
    ∃ queue, result = .ok queue ∧ queue.Pairwise Apart ∧ (∀ d ∈ queue, 0 < d.bytes) ∧
      ∀ byte, Covered queue byte ↔ Covered queued byte := by
  induction run with
  | start => exact ⟨[], rfl, .nil, nofun, fun _ => .rfl⟩
  | process ret run ih => exact ⟨[], by simp, .nil, nofun, fun _ => .rfl⟩
  | queue d run nonempty noWrap disjoint ih => ?_
  obtain ⟨_, ⟨⟩, apart, held, covered⟩ := ih
  have spaced : Spaced d _ := ⟨nonempty, apart, held, fun byte inside other =>
    disjoint byte inside ((covered byte).mp other)⟩
  obtain ⟨new, done, apart, held⟩ := spaced.queueDiscard
  refine ⟨new, done, apart, held, fun byte => ?_⟩
  rw [queueDiscard_covered done, covered, covered_cons, or_comm]

theorem discard_run_exact_bridge : ∃ queue, queueDiscard [⟨0, 2⟩, ⟨4, 2⟩] 2 2 = .ok queue ∧
    queue.Pairwise Apart ∧
    (∀ d ∈ queue, 0 < d.bytes) ∧ ∀ byte, Covered queue byte ↔ Covered [⟨2, 2⟩, ⟨4, 2⟩, ⟨0, 2⟩] byte := by
  have first : DiscardRun [⟨0, 2⟩] (.ok [⟨0, 2⟩]) :=
    .queue ⟨0, 2⟩ .start (by decide) (by decide) (by simp)
  have second : DiscardRun [⟨4, 2⟩, ⟨0, 2⟩] (.ok [⟨0, 2⟩, ⟨4, 2⟩]) :=
    .queue ⟨4, 2⟩ first (by decide) (by decide) (by simp [Covers]; omega)
  exact discard_run_exact (.queue ⟨2, 2⟩ second (by decide) (by decide) (by simp [Covers]; omega))

end Qemu.Qcow2
