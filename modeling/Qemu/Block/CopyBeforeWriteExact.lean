import Qemu.Block.CopyBeforeWrite

/-! When reads of the snapshot return what the source held as the filter was activated. -/

namespace Qemu.Block.CopyBeforeWrite

open Function List Option Nat Bool

variable {o : Options} {orig : Nat → UInt8} {s s' : State} {c i x offset bytes : Nat} {value : UInt8}

/-- A byte of the piece that is being read. -/
def Read.Reads (r : Read) (done : Bool) (x : Nat) : Prop :=
  ∃ curBytes, r.phase = .reading done curBytes ∧ r.offset ≤ x ∧ x < r.offset + curBytes

def Guest.Covers (g : Guest) (x : Nat) : Prop := g.unchanged = false ∧ g.offset ≤ x ∧
    x < g.offset + g.bytes

/-- What is left of a read, and what it has. -/
structure Read.Progress (r : Read) : Prop where
  start : r.start ≤ r.offset
  stop : r.offset + r.bytes = r.start + r.total
  has : ∀ x, r.start ≤ x → x < r.offset → (r.data x).isSome
  piece : ∀ done curBytes, r.phase = .reading done curBytes → curBytes ≤ r.bytes
  all : r.phase = .returned true → r.bytes = 0

/-- A byte of a copied cluster. -/
def Held (o : Options) (orig : Nat → UInt8) (s : Filter) (x : Nat) : Prop :=
  s.accessBitmap (o.cluster x) = true ∧ s.Settled (o.cluster x) ∧ s.target x = orig x

/-- A byte as long as no copy has failed. -/
structure Kept (o : Options) (orig : Nat → UInt8) (s : Filter) (x : Nat) : Prop where
  done : s.doneBitmap (o.cluster x) = true → s.Settled (o.cluster x)
  target : s.Settled (o.cluster x) → s.target x = orig x
  source : s.doneBitmap (o.cluster x) = false → s.source x = orig x
  buffer : s.inFlight (o.cluster x) = true → ∀ value, s.buffer x = some value → value = orig x
  written : s.inFlight (o.cluster x) = true → s.written x = true → s.target x = orig x

structure Inv (o : Options) (orig : Nat → UInt8) (s : State) : Prop where
  progress : ∀ r ∈ s.reads, r.Progress
  data : ∀ r ∈ s.reads, ∀ x value, r.data x = some value → value = orig x
  fromSource : ∀ r ∈ s.reads, ∀ x, r.Reads false x →
    s.source x = orig x ∧ ∀ g ∈ s.guests, g.phase = .writing → ¬ g.Covers x
  fromTarget : ∀ r ∈ s.reads, ∀ x, r.Reads true x → Held o orig s.toFilter x
  released : s.snapshotError = false → ∀ g ∈ s.guests, g.phase = .waiting ∨ g.phase = .writing →
    ∀ x, g.Covers x → s.doneBitmap (o.cluster x) = true
  kept : s.snapshotError = false → ∀ x, s.accessBitmap (o.cluster x) = true → Kept o orig s.toFilter x

theorem activated_inv (orig target : Nat → UInt8) (bitmap : Nat → Bool) :
    Inv o orig (activated orig target bitmap) where
  progress := nofun
  data := nofun
  fromSource := nofun
  fromTarget := nofun
  released _ := nofun
  kept _ _ access := {
    done := nofun
    target := fun settled => nomatch access.symm.trans settled.1
    source := fun _ => rfl
    buffer := nofun
    written := nofun }

theorem cluster_mul_le (x : Nat) : o.cluster x * o.clusterSize ≤ x := div_mul_le_self ..

theorem lt_cluster_mul (x : Nat) : x < o.cluster x * o.clusterSize + o.clusterSize :=
  lt_div_mul_add o.clusterSize_pos

variable {g : Guest}

theorem alignedOffset_le (covers : g.Covers x) : o.alignedOffset g ≤ o.cluster x * o.clusterSize :=
  Nat.mul_le_mul_right _ (Nat.div_le_div_right covers.2.1)

theorem lt_alignedEnd (covers : g.Covers x) : x < o.alignedEnd g :=
  lt_of_lt_of_le covers.2.2 (le_roundUp _ o.clusterSize_pos)

/-- A read begins or goes on. -/
theorem Inv.of_read (inv : Inv o orig s) (reads_eq : ∀ r ∈ reads, r ∈ s.reads ∨ r = r')
    (progress : r'.Progress) (data : ∀ x value, r'.data x = some value → value = orig x)
    (fromSource : ∀ x, r'.Reads false x → s.source x = orig x ∧ ∀ g ∈ s.guests, g.phase = .writing →
    ¬ g.Covers x)
    (fromTarget : ∀ x, r'.Reads true x → Held o orig s.toFilter x) : Inv o orig { s with reads } := by
  have each {p : Read → Prop} (old : ∀ r ∈ s.reads, p r) (new : p r') : ∀ r ∈ reads, p r := fun r member =>
    (reads_eq r member).elim (old r) fun same => same ▸ new
  exact ⟨each inv.progress progress, each inv.data data, each inv.fromSource fromSource,
    each inv.fromTarget fromTarget, inv.released, inv.kept⟩

theorem Inv.of_guest (inv : Inv o orig s)
    (guests_eq : ∀ g ∈ guests, g ∈ s.guests ∨ g = g')
    (apart : g'.phase = .writing → ∀ r ∈ s.reads, ∀ x, r.Reads false x → ¬ g'.Covers x)
    (released : s.snapshotError = false → g'.phase = .waiting ∨ g'.phase = .writing → ∀ x, g'.Covers x →
      s.doneBitmap (o.cluster x) = true) : Inv o orig { s with guests } := by
  refine ⟨inv.progress, inv.data,
    fun r member x reads => ⟨(inv.fromSource r member x reads).1, fun g among => ?_⟩,
    inv.fromTarget, fun fine g among => ?_, inv.kept⟩
  · rcases guests_eq g among with old | rfl
    · exact (inv.fromSource r member x reads).2 g old
    · exact fun writing => apart writing r member x reads
  · rcases guests_eq g among with old | rfl
    · exact inv.released fine g old
    · exact released fine

theorem Inv.of_copying (inv : Inv o orig s) (source : f.source = s.source)
    (done : f.doneBitmap = s.doneBitmap) (error : f.snapshotError = s.snapshotError)
    (held : ∀ r ∈ s.reads, ∀ x, r.Reads true x → Held o orig s.toFilter x → Held o orig f x)
    (access : ∀ c, f.accessBitmap c = true → s.accessBitmap c = true)
    (kept : ∀ x, f.accessBitmap (o.cluster x) = true → Kept o orig s.toFilter x → Kept o orig f x) :
    Inv o orig { s with toFilter := f } := by
  refine ⟨inv.progress, inv.data, fun r member x reads => ?_,
    fun r member x reads => held r member x reads (inv.fromTarget r member x reads),
    fun fine => ?_, fun fine x accessible =>
      kept x accessible (inv.kept (error.symm.trans fine) x (access _ accessible))⟩
  · rw [source]
    exact inv.fromSource r member x reads
  · rw [done]
    exact inv.released (error.symm.trans fine)

section Elsewhere

variable {f f' : Filter} (copyBitmap : f'.copyBitmap (o.cluster x) = f.copyBitmap (o.cluster x))
  (inFlight : f'.inFlight (o.cluster x) = f.inFlight (o.cluster x))
  (target : f'.target x = f.target x)
include copyBitmap inFlight target

theorem Held.elsewhere (held : Held o orig f x) (access : f'.accessBitmap (o.cluster x) = true) :
    Held o orig f' x := by
  refine ⟨access, ?_, target.trans held.2.2⟩
  rw [Filter.Settled, copyBitmap, inFlight]
  exact held.2.1

theorem Kept.elsewhere (kept : Kept o orig f x) (source : f'.source = f.source)
    (done : f'.doneBitmap = f.doneBitmap)
    (buffer : f'.buffer x = f.buffer x) (written : f'.written x = f.written x) : Kept o orig f' x := by
  have settled : f'.Settled (o.cluster x) ↔ f.Settled (o.cluster x) := by
    rw [Filter.Settled, copyBitmap, inFlight]
  refine ⟨?_, ?_, ?_, ?_, ?_⟩
  · rw [done, settled]
    exact kept.done
  · rw [settled, target]
    exact kept.target
  · rw [done, source]
    exact kept.source
  · rw [inFlight, buffer]
    exact kept.buffer
  · rw [inFlight, written, target]
    exact kept.written

end Elsewhere

section

variable (inv : Inv o orig s)
include inv

theorem Inv.task (done : step o s (.task c) = some s') : Inv o orig s' := by
  simp only [step] at done
  split_ifs at done with dirty
  cases done
  have unsettled : ¬ s.Settled c := fun settled => nomatch dirty.symm.trans settled.1
  refine inv.of_copying rfl rfl rfl (fun r member x reads held => ?_) (fun _ => id) fun x access kept => ?_
  · have other : o.cluster x ≠ c := fun same => unsettled (same ▸ held.2.1)
    exact held.elsewhere (update_of_ne other ..) (update_of_ne other ..) rfl held.1
  by_cases same : o.cluster x = c
  · subst same
    exact {
      done := fun isDone => absurd (kept.done isDone) unsettled
      target := fun settled => nomatch settled.2.symm.trans (update_self ..)
      source := kept.source
      buffer := by simp
      written := by simp }
  · exact kept.elsewhere (update_of_ne same ..) (update_of_ne same ..) rfl rfl rfl (if_neg same)
      (if_neg same)

theorem Inv.taskRead (done : step o s (.taskRead x) = some s') : Inv o orig s' := by
  simp only [step] at done
  split_ifs at done with inFlight
  cases done
  refine inv.of_copying rfl rfl rfl (fun r member y reads held => held) (fun _ => id)
    fun y access kept => ⟨kept.done, kept.target, kept.source, fun flies value known => ?_, kept.written⟩
  by_cases same : y = x
  · subst same
    have notDone : s.doneBitmap (o.cluster y) = false :=
      eq_false_iff.mpr fun isDone => nomatch inFlight.symm.trans (kept.done isDone).2
    have read := known.symm.trans (update_self ..)
    exact (some.inj read).trans (kept.source notDone)
  · exact kept.buffer flies value ((update_of_ne same ..).symm.trans known)

theorem Inv.taskWrite (done : step o s (.taskWrite x) = some s') : Inv o orig s' := by
  obtain ⟨value, fetched, done⟩ := bind_eq_some_iff.mp done
  split_ifs at done with inFlight
  cases done
  have other {y : Nat} (settled : s.Settled (o.cluster y)) : y ≠ x := by
    rintro rfl
    exact nomatch inFlight.symm.trans settled.2
  refine inv.of_copying rfl rfl rfl (fun r member y reads held => ⟨held.1, held.2.1, ?_⟩) (fun _ => id)
    fun y access kept => ⟨kept.done, fun settled => ?_, kept.source, kept.buffer, fun flies wrote => ?_⟩
  · exact (update_of_ne (other held.2.1) ..).trans held.2.2
  · exact (update_of_ne (other settled) ..).trans (kept.target settled)
  · by_cases same : y = x
    · subst same
      exact (update_self ..).trans (kept.buffer flies value fetched)
    · exact (update_of_ne same ..).trans (kept.written flies ((update_of_ne same ..).symm.trans wrote))

theorem Inv.taskEnd (done : step o s (.taskEnd c success) = some s') : Inv o orig s' := by
  simp only [step] at done
  split_ifs at done with ends
  obtain ⟨inFlight, wrote⟩ := ends
  cases done
  refine inv.of_copying rfl rfl rfl (fun r member x reads held => ?_) (fun _ => id) fun x access kept => ?_
  · have other : o.cluster x ≠ c := by
      rintro rfl
      exact nomatch inFlight.symm.trans held.2.1.2
    exact held.elsewhere (update_of_ne other ..) (update_of_ne other ..) rfl held.1
  by_cases same : o.cluster x = c
  · subst same
    refine ⟨fun isDone => (nomatch inFlight.symm.trans (kept.done isDone).2), fun settled => ?_,
      kept.source, ?_, ?_⟩
    · have ok : success = true := by
        have clean := settled.1
        simp only [update_self, or_eq_false_iff, not_eq_false'] at clean
        exact clean.2
      have below := @cluster_mul_le o x
      have within := @lt_cluster_mul o x
      have here := wrote ok (x - o.cluster x * o.clusterSize) (by omega)
      rw [Nat.add_sub_cancel' below] at here
      exact kept.written inFlight here
    · simp
    · simp
  · exact kept.elsewhere (update_of_ne same ..) (update_of_ne same ..) rfl rfl rfl rfl rfl

end

theorem discard_covers (start : roundUp offset o.clusterSize ≤ o.cluster x * o.clusterSize)
    (stop : o.cluster x * o.clusterSize < alignDown (offset + bytes) o.clusterSize) :
    offset ≤ x ∧ x < offset + bytes := by
  have first := le_roundUp offset o.clusterSize_pos
  have below := @cluster_mul_le o x
  have last := alignDown_le (offset + bytes) o.clusterSize
  have next : (o.cluster x + 1) * o.clusterSize ≤ alignDown (offset + bytes) o.clusterSize :=
    Nat.mul_le_mul_right _ (Nat.lt_of_mul_lt_mul_right stop)
  have within := @lt_cluster_mul o x
  rw [add_mul] at next
  omega

theorem Inv.discard (inv : Inv o orig s) (done : step o s (.discard offset bytes) = some s')
    (spared : ∀ r ∈ s.reads, ∀ x, r.Reads true x → ¬ (offset ≤ x ∧ x < offset + bytes)) :
    Inv o orig s' := by
  cases done
  refine inv.of_copying rfl rfl rfl (fun r member x reads held => ?_) (fun c access => ?_)
    fun x access kept => ?_
  · have other : ¬ (roundUp offset o.clusterSize ≤ o.cluster x * o.clusterSize ∧
        o.cluster x * o.clusterSize < alignDown (offset + bytes) o.clusterSize) := fun within =>
      spared r member x reads (discard_covers within.1 within.2)
    exact held.elsewhere (if_neg other) rfl rfl ((if_neg other).trans held.1)
  · simp only [Options.setBits] at access
    split_ifs at access
    exact access
  · simp only [Options.setBits] at access
    split_ifs at access with other
    exact kept.elsewhere (if_neg other) rfl rfl rfl rfl rfl rfl

theorem Inv.lose (inv : Inv o orig s) (done : step o s (.lose x value) = some s') : Inv o orig s' := by
  simp only [step] at done
  split_ifs at done with lost
  cases done
  have other {y : Nat} (access : s.accessBitmap (o.cluster y) = true) : y ≠ x := by
    rintro rfl
    exact lost access
  exact inv.of_copying rfl rfl rfl
    (fun r member y reads held => held.elsewhere (by rfl) (by rfl) (update_of_ne (other held.1) ..) held.1)
    (fun _ => id)
    fun y access kept => kept.elsewhere (by rfl) (by rfl) (update_of_ne (other access) ..) rfl rfl rfl rfl

variable {α : Type} {l : List α}

theorem mem_snoc (member : a ∈ l ++ [b]) : a ∈ l ∨ a = b := by
  simpa using member

section

variable (inv : Inv o orig s)
include inv

theorem Inv.guest (done : step o s (.guest offset bytes unchanged) = some s')
    (safe : unchanged = false → s.snapshotError = true → ∀ r ∈ s.reads, ∀ x, r.Reads false x →
    ¬ (offset ≤ x ∧ x < offset + bytes))
    : Inv o orig s' := by
  cases done
  refine inv.of_guest (fun g => mem_snoc) (fun writing r member x reads covers => ?_)
    fun fine phase x covers => ?_
  · obtain ⟨changes, inside⟩ := covers
    dsimp only at changes inside writing
    cases error : s.snapshotError with
    | true => exact safe changes error r member x reads inside
    | false => simp [changes, error] at writing
  · have changes : unchanged = false := covers.1
    simp [changes, fine] at phase

theorem Inv.copied (done : step o s (.copied i success) = some s') : Inv o orig s' := by
  obtain ⟨g, found, done⟩ := bind_eq_some_iff.mp done
  split_ifs at done with copying isSuccess settled breaks
  · cases done
    have marked : Inv o orig {
      s with doneBitmap := o.setBits true (o.alignedOffset g) (o.alignedEnd g) s.doneBitmap } := by
      refine ⟨inv.progress, inv.data, inv.fromSource, inv.fromTarget,
        fun fine g' among phase x covers => ?_, fun fine x access => ?_⟩
      · have before := inv.released fine g' among phase x covers
        simp only [Options.setBits]
        split_ifs
        · rfl
        · exact before
      · have kept := inv.kept fine x access
        refine ⟨fun isDone => ?_, kept.target, fun notDone => kept.source ?_, kept.buffer, kept.written⟩
        · simp only [Options.setBits] at isDone
          split_ifs at isDone with within
          · exact settled _ (by have := o.clusterSize_pos; nlinarith [within.2]) within
          · exact kept.done isDone
        · simp only [Options.setBits] at notDone
          split_ifs at notDone
          exact notDone
    exact marked.of_guest (fun _ => mem_or_eq_of_mem_set) nofun fun _ _ x covers =>
      if_pos ⟨alignedOffset_le covers, lt_of_le_of_lt (cluster_mul_le x) (lt_alignedEnd covers)⟩
  · cases done
    have broken : Inv o orig { s with snapshotError := true } :=
      ⟨inv.progress, inv.data, inv.fromSource, inv.fromTarget, nofun, nofun⟩
    exact broken.of_guest (fun _ => mem_or_eq_of_mem_set) nofun nofun
  · cases done
    exact inv.of_guest (fun _ => mem_or_eq_of_mem_set) nofun fun _ phase => by simp [Guest.to] at phase

theorem Inv.proceed (done : step o s (.proceed i) = some s') : Inv o orig s' := by
  obtain ⟨g, found, done⟩ := bind_eq_some_iff.mp done
  split_ifs at done with ready
  obtain ⟨waiting, unfrozen⟩ := ready
  cases done
  have among := mem_of_getElem? found
  refine inv.of_guest (fun _ => mem_or_eq_of_mem_set) (fun _ r member x reads covers => ?_)
    fun fine _ x => inv.released fine g among (.inl waiting) x
  obtain ⟨curBytes, phase, above, below⟩ := reads
  have piece := (inv.progress r member).piece false curBytes phase
  have free := unfrozen r member
  simp only [Read.frozen, phase, and_eq_false_iff, decide_eq_false_iff_not] at free
  have covers : g.Covers x := covers
  have first := (alignedOffset_le (o := o) covers).trans (cluster_mul_le x)
  have last := lt_alignedEnd (o := o) covers
  omega

theorem Inv.store (done : step o s (.store i x value) = some s') : Inv o orig s' := by
  obtain ⟨g, found, done⟩ := bind_eq_some_iff.mp done
  split_ifs at done with writes unchanged
  · cases done
    exact inv
  cases done
  have among := mem_of_getElem? found
  have covers : g.Covers x := ⟨eq_false_iff.mpr unchanged, writes.2⟩
  refine ⟨inv.progress, inv.data, fun r member y reads => ?_, inv.fromTarget, inv.released,
    fun fine y access => ?_⟩
  · obtain ⟨source, apart⟩ := inv.fromSource r member y reads
    have other : y ≠ x := by
      rintro rfl
      exact apart g among writes.1 covers
    exact ⟨(update_of_ne other ..).trans source, apart⟩
  · obtain ⟨isDone, target, source, buffer, written⟩ := inv.kept fine y access
    refine ⟨isDone, target, fun notDone => ?_, buffer, written⟩
    have other : y ≠ x := by
      rintro rfl
      exact nomatch notDone.symm.trans (inv.released fine g among (.inr writes.1) y covers)
    exact (update_of_ne other ..).trans (source notDone)

theorem Inv.read (done : step o s (.read offset bytes) = some s') : Inv o orig s' := by
  cases done
  refine inv.of_read (fun r => mem_snoc) ⟨le_rfl, rfl, fun x above below => absurd below above.not_gt,
    fun done curBytes phase => ?_, fun phase => ?_⟩ nofun (fun x reads => ?_) fun x reads => ?_
  · split_ifs at phase
  · split_ifs at phase with empty
    exact empty
  all_goals
    obtain ⟨curBytes, phase, -⟩ := reads
    split_ifs at phase

end

theorem pnum_le (bitmap : Nat → Bool) (offset bytes : Nat) : pnum o bitmap offset bytes ≤ bytes := by
  have shorter : pnum o bitmap offset bytes ≤ (range bytes).length := ( takeWhile_prefix _).length_le
  rwa [length_range] at shorter

theorem snapshotReadLock_reading
    (locked : snapshotReadLock o s.toFilter offset bytes = .reading done curBytes) :
    s.snapshotError = false ∧ curBytes ≤ bytes ∧ ∀ x, offset ≤ x → x < offset + curBytes →
      s.accessBitmap (o.cluster x) = true ∧ s.doneBitmap (o.cluster x) = done := by
  rw [snapshotReadLock] at locked
  split_ifs at locked with error denied
  cases locked
  refine ⟨eq_false_iff.mpr error, pnum_le .., fun x above below => ?_⟩
  obtain ⟨k, rfl⟩ := Nat.exists_eq_add_of_le above
  have within : k < pnum o s.doneBitmap offset bytes := Nat.lt_of_add_lt_add_left below
  have same := all_eq_true.mp all_takeWhile _ (getElem_mem within)
  rw [( takeWhile_prefix _).getElem within, getElem_range] at same
  refine ⟨?_, eq_of_beq same⟩
  by_contra closed
  exact denied ⟨k, Nat.lt_of_lt_of_le within (pnum_le ..), by simpa using closed⟩

theorem Inv.lock (inv : Inv o orig s) (done : step o s (.lock i) = some s') : Inv o orig s' := by
  obtain ⟨r, found, done⟩ := bind_eq_some_iff.mp done
  split_ifs at done with idle
  cases done
  have member := mem_of_getElem? found
  obtain ⟨start, stop, has, -, -⟩ := inv.progress r member
  refine inv.of_read (fun _ => mem_or_eq_of_mem_set)
    ⟨start, stop, has, fun done curBytes locked => (snapshotReadLock_reading locked).2.1,
      fun returned => ?_⟩ (inv.data r member) (fun x reads => ?_) fun x reads => ?_
  · simp only [snapshotReadLock] at returned
    split_ifs at returned <;> cases returned
  · obtain ⟨curBytes, locked, above, below⟩ := reads
    obtain ⟨fine, -, piece⟩ := snapshotReadLock_reading locked
    obtain ⟨access, notDone⟩ := piece x above below
    refine ⟨(inv.kept fine x access).source notDone, fun g among writing covers => ?_⟩
    exact nomatch notDone.symm.trans (inv.released fine g among (.inr writing) x covers)
  · obtain ⟨curBytes, locked, above, below⟩ := reads
    obtain ⟨fine, -, piece⟩ := snapshotReadLock_reading locked
    obtain ⟨access, isDone⟩ := piece x above below
    have kept := inv.kept fine x access
    exact ⟨access, kept.done isDone, kept.target (kept.done isDone)⟩

theorem Inv.transfer (inv : Inv o orig s) (done : step o s (.transfer i x) = some s') : Inv o orig s' := by
  obtain ⟨r, found, ran⟩ := bind_eq_some_iff.mp done
  have member := mem_of_getElem? found
  obtain ⟨start, stop, has, piece, all⟩ := inv.progress r member
  split at ran
  next copied curBytes phase =>
    split at ran
    next inside =>
      cases ran
      have value : (if copied then s.target x else s.source x) = orig x := by
        cases copied with
        | true => exact (inv.fromTarget r member x ⟨curBytes, phase, inside⟩).2.2
        | false => exact (inv.fromSource r member x ⟨curBytes, phase, inside⟩).1
      rw [value]
      refine inv.of_read (fun _ => mem_or_eq_of_mem_set) ⟨start, stop, fun y above below => ?_,
        piece, all⟩ (fun y read known => ?_) (inv.fromSource r member) (inv.fromTarget r member)
      · dsimp only
        rw [update_apply]
        split_ifs
        · rfl
        · exact has y above below
      · dsimp only at known
        rw [update_apply] at known
        split_ifs at known with same
        · rw [same, some.inj known]
        · exact inv.data r member y read known
    · cases ran
  · cases ran

theorem Inv.unlock (inv : Inv o orig s) (done : step o s (.unlock i success) = some s') :
    Inv o orig s' := by
  obtain ⟨r, found, ran⟩ := bind_eq_some_iff.mp done
  have member := mem_of_getElem? found
  obtain ⟨start, stop, has, piece, all⟩ := inv.progress r member
  split at ran
  next copied curBytes phase =>
    split_ifs at ran with succeeds complete
    · cases ran
      have short := piece copied curBytes phase
      have between : ∀ done cur, (r.next curBytes).phase ≠ .reading done cur := by
        intro done cur reading
        simp only [Read.next] at reading
        split_ifs at reading
      refine inv.of_read (fun _ => mem_or_eq_of_mem_set) ⟨le_add_right_of_le start, ?_,
        fun x above below => ?_,
        fun done cur reading => absurd reading (between done cur), fun returned => ?_⟩ (inv.data r member)
        (fun x reads => absurd reads.choose_spec.1 (between _ _)) fun x reads =>
          absurd reads.choose_spec.1 (between _ _)
      · simp only [Read.next]
        omega
      · rcases Nat.lt_or_ge x r.offset with early | late
        · exact has x above early
        · obtain ⟨k, rfl⟩ := Nat.exists_eq_add_of_le late
          exact complete k (Nat.lt_of_add_lt_add_left below)
      · simp only [Read.next] at returned ⊢
        split_ifs at returned with last
        exact last
    · cases ran
      exact inv.of_read (fun _ => mem_or_eq_of_mem_set) ⟨start, stop, has, nofun, nofun⟩
        (inv.data r member) nofun nofun
  · cases ran

/-- No snapshot discard covers what is being read, and no guest request that comes after an error
covers what is being read from the source. -/
def Safe (s : State) : Event → Prop
  | .guest offset bytes unchanged => unchanged = false → s.snapshotError = true →
    ∀ r ∈ s.reads, ∀ x, r.Reads false x → ¬ (offset ≤ x ∧ x < offset + bytes)
  | .discard offset bytes => ∀ r ∈ s.reads, ∀ x, r.Reads true x → ¬ (offset ≤ x ∧ x < offset + bytes)
  | _ => True

def SafeRun (o : Options) : State → List Event → Prop
  | _, [] => True
  | s, event :: rest => Safe s event ∧ ∀ next, step o s event = some next → SafeRun o next rest

theorem Inv.step (inv : Inv o orig s) (safe : Safe s event) (done : step o s event = some s') :
    Inv o orig s' := by
  cases event with
  | guest offset bytes unchanged => exact inv.guest done safe
  | copied i success => exact inv.copied done
  | proceed i => exact inv.proceed done
  | store i x value => exact inv.store done
  | task c => exact inv.task done
  | taskRead x => exact inv.taskRead done
  | taskWrite x => exact inv.taskWrite done
  | taskEnd c success => exact inv.taskEnd done
  | read offset bytes => exact inv.read done
  | lock i => exact inv.lock done
  | transfer i x => exact inv.transfer done
  | unlock i success => exact inv.unlock done
  | discard offset bytes => exact inv.discard done safe
  | lose x value => exact inv.lose done

theorem Inv.run {events : List Event} (inv : Inv o orig s) (safe : SafeRun o s events)
    (ran : run o s events = some s') : Inv o orig s' := by
  induction events generalizing s with
  | nil => exact some.inj ran ▸ inv
  | cons event rest ih =>
    obtain ⟨next, done, ran⟩ := bind_eq_some_iff.mp ran
    exact ih (inv.step safe.1 done) (safe.2 next done) ran

/-- Snapshot reads that succeed return the source as it was when the filter was activated. -/
theorem snapshotRead_pointInTime (orig target : Nat → UInt8) (bitmap : Nat → Bool) {events : List Event}
    (safe : SafeRun o (activated orig target bitmap) events)
    (ran : run o (activated orig target bitmap) events = some s) :
    ∀ r ∈ s.reads, r.phase = .returned true → ∀ x, r.start ≤ x → x < r.start + r.total →
    r.data x = some (orig x) := by
  intro r member returned x above below
  have inv := (activated_inv orig target bitmap).run safe ran
  obtain ⟨start, stop, has, piece, all⟩ := inv.progress r member
  rw [all returned, add_zero] at stop
  obtain ⟨value, known⟩ := isSome_iff_exists.mp (has x above (stop ▸ below))
  rw [known, inv.data r member x value known]

/-- `BLOCK_COPY_CLUSTER_SIZE_DEFAULT`, and errors that break the snapshot. -/
def defaultClusters : Options := ⟨0x10000, by decide, true⟩

/-- A byte is overwritten after its copy has failed and after the read of it that was under way. -/
def overwritten : List Event :=
  [.read 0 1, .lock 0, .guest 0 1 false, .task 0, .taskRead 0, .taskEnd 0 false, .copied 0 false,
    .transfer 0 0, .unlock 0 true, .proceed 0, .store 0 0 7]

theorem snapshotRead_pointInTime_overwritten :
    ∃ s, run defaultClusters (activated (fun _ => 0) (fun _ => 1) fun _ => true) overwritten =
      some s ∧ s.source 0 = 7 ∧
      ∀ r ∈ s.reads, r.phase = .returned true → ∀ x, r.start ≤ x → x < r.start + r.total →
      r.data x = some 0 :=
  have safe : SafeRun defaultClusters (activated (fun _ => 0) (fun _ => 1) fun _ => true) overwritten := by
    -- no copy has failed when the guest's request comes in
    refine ⟨trivial, fun _ opened =>
      ⟨trivial, fun _ locked => ⟨fun _ error => ?_, by simp [SafeRun, Safe]⟩⟩⟩
    cases opened
    cases locked
    cases error
  ⟨_, rfl, rfl, snapshotRead_pointInTime (fun _ => 0) (fun _ => 1) (fun _ => true) safe rfl⟩

/-- While byte 0 is read, the copy of another cluster fails; a request for byte 0 then waits for
nobody. -/
theorem snapshotRead_overtaken : ∃ s,
    run defaultClusters (activated (fun _ => 0) (fun _ => 1) fun _ => true)
      [.read 0 1, .lock 0, .guest 0x10000 1 false, .copied 0 false, .guest 0 1 false, .store 1 0 7,
        .transfer 0 0, .unlock 0 true] = some s ∧
    ∃ r ∈ s.reads, r.phase = .returned true ∧ r.start = 0 ∧ r.total = 1 ∧ r.data 0 = some 7 :=
  ⟨_, rfl, _, mem_cons_self, rfl, rfl, rfl, rfl⟩

end Qemu.Block.CopyBeforeWrite
