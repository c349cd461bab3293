import Qemu.Migration.MappedRam

namespace Qemu.MappedRam

open BitScan List Nat

/-- A maximal run of bits of one value among the first `n`. -/
structure IsRun (bitmap : Nat → Bool) (n : Nat) (value : Bool) (first last : Nat) : Prop where
  nonempty : first < last
  inside : last ≤ n
  same : ∀ i, first ≤ i → i < last → bitmap i = value
  starts : ∀ i, i + 1 = first → bitmap i ≠ value
  ends : last < n → bitmap last ≠ value

theorem IsRun.unique (run : IsRun bitmap n value first last) (run' : IsRun bitmap n value' first' last')
    (above : first ≤ first') (below : first' < last) : value = value' ∧ first = first' ∧
    last = last' := by
  have nonempty := run'.nonempty
  obtain rfl : value = value' :=
    (run.same first' above below).symm.trans (run'.same first' le_rfl nonempty)
  refine ⟨rfl, above.antisymm (not_lt.mp fun later => ?_), ?_⟩
  · exact run'.starts (first' - 1) (by omega) (run.same _ (by omega) (by omega))
  · rcases lt_trichotomy last last' with shorter | same | longer
    · exact absurd (run'.same last below.le shorter) (run.ends (shorter.trans_le run'.inside))
    · exact same
    · exact absurd (run.same last' (by omega) longer) (run'.ends (longer.trans_le run.inside))

/-- Pages that the load zeroes, or a chunk of a run of pages that it reads from the file. -/
inductive Access where
  | zero (first last : Nat)
  | read (first last chunk : Nat)
  deriving DecidableEq, Repr

namespace Access

def first : Access → Nat
  | .zero first _ => first
  | .read first _ _ => first

def chunk : Access → Nat
  | .zero _ _ => 0
  | .read _ _ chunk => chunk

/-- The order in which the load comes to its accesses. -/
def Before (a b : Access) : Prop := a.first < b.first ∨ a.first = b.first ∧ a.chunk < b.chunk

end Access

/-- The load as it sees the block. -/
structure Load where
  dst : Destination
  file : List UInt8
  block : RAMBlock
  pagesOffset : Nat

namespace Load

variable (l : Load)

/-- The bytes of a run of pages. -/
def runSize (first last : Nat) : Nat := l.dst.pageSize * (last - first) % 2 ^ 64

def offset : Access → Nat
  | .zero first _ => first * l.dst.pageSize % 2 ^ 64
  | .read first _ chunk => (first * l.dst.pageSize + chunk * mappedRamLoadBufSize) % 2 ^ 64

def size : Access → Nat
  | .zero first last => l.runSize first last
  | .read first last chunk => min (l.runSize first last - chunk * mappedRamLoadBufSize)
    mappedRamLoadBufSize

/-- The bits of the bitmap ask for the access. -/
def Asks (numPages : Nat) (bitmap : Nat → Bool) : Access → Prop
  | .zero first last => l.dst.restoreVm = true ∧ IsRun bitmap numPages false first last
  | .read first last chunk =>
    IsRun bitmap numPages true first last ∧ chunk * mappedRamLoadBufSize < l.runSize first last

/-- The access starts inside of the block. -/
def Starts (a : Access) : Prop := l.block.mapped = true ∧ l.offset a < l.block.usedLength

/-- The number of bytes that an access stores. -/
def stored (a : Access) : Nat :=
  match a with
  | .zero _ _ => if l.dst.bufferIsZero (l.offset a) (l.size a) then 0 else l.size a
  | .read _ _ _ => pread l.file ((l.pagesOffset + l.offset a) % 2 ^ 64) (l.size a)

/-- The file does not have the chunk. -/
def Unreadable (a : Access) : Prop :=
  match a with
  | .zero _ _ => False
  | .read _ _ _ => chunkRead l.dst l.file l.pagesOffset (l.offset a) (l.size a) = 0

/-- The access stops the load. -/
def Refused (a : Access) : Prop := ¬ l.Starts a ∨ l.Unreadable a

/-- The access stores nothing past the end of the block. -/
def InBounds (a : Access) : Prop := l.Starts a → l.offset a + l.stored a ≤ l.block.usedLength

/-- All bytes of a store are bytes of the block. -/
def Inside (s : Store) : Prop := ∀ k < s.size, s.offset + k < l.block.usedLength

/-- What it means to carry out accesses in their order up to the first that is refused. -/
structure Does (asked : Access → Prop) (stores : List Store)
    (result : List Store × Option LoadError) : Prop where
  passes : result.2 = none ↔ ∀ a, asked a → ¬ l.Refused a
  inside : (∀ s ∈ result.1, l.Inside s) ↔ (∀ s ∈ stores, l.Inside s) ∧
    ∀ a, asked a → (∀ b, asked b → b.Before a → ¬ l.Refused b) → l.InBounds a

def andThen (result : List Store × Option LoadError)
    (next : List Store → List Store × Option LoadError) : List Store × Option LoadError :=
  match result with
  | (stores, some error) => (stores, some error)
  | (stores, none) => next stores

variable {l}

theorem inside_iff (starts : l.Starts a) : l.Inside ⟨l.offset a, l.stored a⟩ ↔ l.InBounds a := by
  have start := starts.2
  constructor
  · intro inside _
    by_contra beyond
    have := inside (l.block.usedLength - l.offset a) (by dsimp only; omega)
    dsimp only at this
    omega
  · intro bounded k small
    have := bounded starts
    dsimp only at small ⊢
    omega

theorem Does.nothing (none : ∀ a, ¬ asked a) (stores : List Store) : l.Does asked stores (stores,
    .none) :=
  ⟨iff_of_true rfl fun a asks => absurd asks (none a),
    (and_iff_left fun a asks => absurd asks (none a)).symm⟩

theorem Does.congr (does : l.Does asked stores result) (same : ∀ a, asked' a ↔ asked a) :
    l.Does asked' stores result :=
  (funext fun a => propext (same a)) ▸ does

theorem starts_iff : l.block.hostFromRamBlockOffset (l.offset a) = true ↔ l.Starts a := by
  simp [RAMBlock.hostFromRamBlockOffset, Starts]

theorem Does.single (new : List Store) (passes : error = none ↔ ¬ l.Refused a)
    (inside : (∀ s ∈ new, l.Inside s) ↔ l.InBounds a) (all : later = stores ++ new) :
    l.Does (· = a) stores (later, error) := by
  refine ⟨passes.trans (by simp), ?_⟩
  rw [all, forall_mem_append, inside]
  simp [Access.Before]

/-- An access to a page that the block does not have. -/
theorem Does.refused (away : (!l.block.hostFromRamBlockOffset (l.offset a)) = true)
    (error : LoadError) (stores : List Store) : l.Does (· = a) stores (stores, some error) := by
  have outside : ¬ l.Starts a := fun starts => by simp [starts_iff.mpr starts] at away
  exact .single [] (iff_of_false (by simp) (not_not.mpr (.inl outside)))
    (iff_of_true (by simp) fun starts => absurd starts outside) (append_nil _).symm

theorem Does.hosted (hosted : ¬ (!l.block.hostFromRamBlockOffset (l.offset a)) = true)
    (new : List Store) (passes : error = none ↔ ¬ l.Unreadable a)
    (inside : (∀ s ∈ new, l.Inside s) ↔ l.Inside ⟨l.offset a, l.stored a⟩)
    (all : later = stores ++ new) : l.Does (· = a) stores (later, error) := by
  have starts : l.Starts a := starts_iff.mp (by simpa using hosted)
  exact .single new (passes.trans (by simp [Refused, starts])) (inside.trans (inside_iff starts)) all

theorem Does.andThen (first : l.Does asked stores result) (order : ∀ a b, asked a → asked' b → a.Before b)
    {more : List Store → List Store × Option LoadError}
    (second : ∀ stores, l.Does asked' stores (more stores)) :
    l.Does (fun a => asked a ∨ asked' a) stores (Load.andThen result more) := by
  obtain ⟨passes, inside⟩ := first
  have least {a b : Access} (early : asked a) (late : asked' b) : ¬ b.Before a := by
    have := order a b early late
    rw [Access.Before] at this ⊢
    omega
  have split : (∀ a, asked a ∨ asked' a → (∀ b, asked b ∨ asked' b → b.Before a → ¬ l.Refused b) →
      l.InBounds a) ↔
      (∀ a, asked a → (∀ b, asked b → b.Before a → ¬ l.Refused b) → l.InBounds a) ∧ (result.2 = none →
        ∀ a, asked' a → (∀ b, asked' b → b.Before a → ¬ l.Refused b) → l.InBounds a) := by
    rw [passes]
    constructor
    · intro all
      refine ⟨fun a asks earlier => all a (.inl asks) ?_,
        fun accepted a asks earlier => all a (.inr asks) ?_⟩
      · rintro b (other | late) before
        · exact earlier b other before
        · exact absurd before (least asks late)
      · rintro b (other | late) before
        · exact accepted b other
        · exact earlier b late before
    · rintro ⟨early, late⟩ a (asks | asks) earlier
      · exact early a asks fun b other => earlier b (.inl other)
      · exact late (fun b other => earlier b (.inl other) (order b a other asks)) a asks fun b other =>
          earlier b (.inr other)
  obtain ⟨stored, error⟩ := result
  refine ⟨?_, ?_⟩
  · simp only [or_imp, forall_and, ← passes]
    cases error with
    | some error => simp [Load.andThen]
    | none => simpa [Load.andThen] using (second stored).passes
  · rw [split]
    cases error with
    | some error => simpa [Load.andThen] using inside
    | none => simpa [Load.andThen, ← and_assoc, ← inside] using (second stored).inside

theorem handleZeroMappedRam_does (first last : Nat) (stores : List Store) :
    l.Does (fun a => (l.dst.restoreVm = true ∧ first < last) ∧ a = .zero first last) stores
      (handleZeroMappedRam l.dst l.block first last stores) := by
  rw [handleZeroMappedRam]
  split
  next idle => exact .nothing (fun a asked => by simp [asked.1.1] at idle) stores
  split
  next empty => exact .nothing (fun a asked => absurd asked.1.2 (not_lt.mpr empty)) stores
  next restore some =>
    refine Does.congr ?_ fun a => and_iff_right ⟨by simpa using restore, not_le.mp some⟩
    dsimp only
    split
    next away => exact .refused away _ stores
    next hosted =>
      split
      next zeroed =>
        have nothing : l.stored (.zero first last) = 0 := if_pos zeroed
        exact .hosted hosted [] (by simp [Unreadable]) (by simp [Inside, nothing]) (append_nil _).symm
      next dirty =>
        have all : l.stored (.zero first last) = l.size (.zero first last) := if_neg dirty
        exact .hosted hosted [_] (by simp [Unreadable]) (by rw [all]; exact forall_mem_singleton) rfl

/-- A chunk is read. -/
def readChunk (l : Load) (offset size : Nat) (stores : List Store) : List Store × Option LoadError :=
  let pos := (l.pagesOffset + offset) % 2 ^ 64
  if !l.block.hostFromRamBlockOffset offset then (stores, some .page)
  else (stores ++ [⟨offset, pread l.file pos size⟩],
    if chunkRead l.dst l.file l.pagesOffset offset size = 0 then some (.read offset pos) else none)

theorem readChunks_succ (n offset : Nat) (more : unread ≠ 0) (stores : List Store) :
    readChunks l.dst l.file l.block l.pagesOffset (n + 1) offset unread stores =
      Load.andThen (l.readChunk offset (min unread mappedRamLoadBufSize) stores)
        (readChunks l.dst l.file l.block l.pagesOffset n
        ((offset + min unread mappedRamLoadBufSize) % 2 ^ 64)
          (unread - min unread mappedRamLoadBufSize)) := by
  have positive : min unread mappedRamLoadBufSize ≠ 0 := by
    have : 0 < mappedRamLoadBufSize := by decide
    omega
  have returned : chunkRead l.dst l.file l.pagesOffset offset (min unread mappedRamLoadBufSize) =
      0 ∨ chunkRead l.dst l.file l.pagesOffset offset (min unread mappedRamLoadBufSize) =
        min unread mappedRamLoadBufSize := by
    rw [chunkRead]
    split_ifs <;> simp
  rw [readChunks, if_neg more, readChunk]
  split
  · rfl
  · rcases returned with failed | passed
    · simp [failed, Load.andThen]
    · simp [passed, positive, Load.andThen]

/-- The chunks of a run from one of them on. -/
def Chunks (l : Load) (first last chunk : Nat) (a : Access) : Prop :=
  ∃ j, chunk ≤ j ∧ j * mappedRamLoadBufSize < l.runSize first last ∧ a = .read first last j

theorem readChunks_done (done : l.runSize first last ≤ chunk * mappedRamLoadBufSize)
    (n offset : Nat) (stores : List Store) : l.Does (l.Chunks first last chunk) stores
    (readChunks l.dst l.file l.block l.pagesOffset n offset
      (l.runSize first last - chunk * mappedRamLoadBufSize) stores) := by
  rw [Nat.sub_eq_zero_of_le done, show readChunks _ _ _ _ n _ 0 stores = (stores, none) by
    cases n <;> simp [readChunks]]
  refine .nothing (fun a ⟨j, above, more, _⟩ => ?_) stores
  have := Nat.mul_le_mul_right mappedRamLoadBufSize above
  omega

theorem readChunks_does (enough : l.runSize first last ≤ (chunk + n) * mappedRamLoadBufSize)
    (stores : List Store) :
    l.Does (l.Chunks first last chunk) stores (readChunks l.dst l.file l.block l.pagesOffset n
      ((first * l.dst.pageSize + chunk * mappedRamLoadBufSize) % 2 ^ 64)
      (l.runSize first last - chunk * mappedRamLoadBufSize) stores) := by
  induction n generalizing chunk stores with
  | zero => exact readChunks_done enough 0 _ stores
  | succ n ih => ?_
  by_cases done : l.runSize first last ≤ chunk * mappedRamLoadBufSize
  · exact readChunks_done done _ _ stores
  have after : (chunk + 1) * mappedRamLoadBufSize =
    chunk * mappedRamLoadBufSize + mappedRamLoadBufSize := by
    rw [add_mul, one_mul]
  have one : l.Does (· = .read first last chunk) stores
      (l.readChunk (l.offset (.read first last chunk)) (l.size (.read first last chunk)) stores) := by
    rw [readChunk]
    split
    next away => exact .refused away _ stores
    next hosted => exact .hosted hosted [_] (by simp [Unreadable]) (by simp [stored]) rfl
  rw [readChunks_succ _ _ (by omega)]
  refine (@Does.andThen l _ stores _ (l.Chunks first last (chunk + 1)) one (fun a b here later => ?_) _
    fun stores => ?_).congr fun a => ?_
  · obtain ⟨j, above, -, rfl⟩ := later
    exact here ▸ .inr ⟨rfl, above⟩
  · have left : l.runSize first last - chunk * mappedRamLoadBufSize -
        min (l.runSize first last - chunk * mappedRamLoadBufSize) mappedRamLoadBufSize =
        l.runSize first last - (chunk + 1) * mappedRamLoadBufSize := by omega
    rw [left]
    by_cases last : l.runSize first last ≤ (chunk + 1) * mappedRamLoadBufSize
    · exact readChunks_done last n _ stores
    · rw [min_eq_right (by omega), mod_add_mod, Nat.add_assoc, ← after]
      exact ih (by rwa [Nat.add_right_comm]) stores
  · constructor
    · rintro ⟨j, above, more, rfl⟩
      by_cases here : j = chunk
      · exact .inl (by rw [here])
      · exact .inr ⟨j, by omega, more, rfl⟩
    · rintro (rfl | ⟨j, above, more⟩)
      · exact ⟨chunk, le_rfl, by omega, rfl⟩
      · exact ⟨j, by omega, more⟩

/-- Where the loop over the runs stands: at clear bits from `clearBit` up to `setBit`. -/
structure At (numPages : Nat) (bitmap : Nat → Bool) (setBit clearBit : Nat) : Prop where
  le : clearBit ≤ setBit
  inside : setBit ≤ numPages
  clear : ∀ i, clearBit ≤ i → i < setBit → bitmap i = false
  set : setBit < numPages → bitmap setBit = true
  starts : ∀ i, i + 1 = clearBit → bitmap i = true
  some : clearBit = setBit → clearBit = 0 ∨ setBit = numPages

theorem At.start (numPages : Nat) (bitmap : Nat → Bool) :
    At numPages bitmap (findNext bitmap numPages 0) 0 :=
  ⟨zero_le _, findNext_le, fun _ above below => clear_before_findNext above below, holds_findNext, nofun,
    fun _ => .inl rfl⟩

theorem At.clearRun (here : At numPages bitmap setBit clearBit) (some : clearBit < setBit) :
    IsRun bitmap numPages false clearBit setBit :=
  ⟨some, here.inside, here.clear, fun i same => by simp [here.starts i same], fun more => by
    simp [here.set more]⟩

section

variable (here : At numPages bitmap setBit clearBit) (more : setBit < numPages)
include here more

theorem At.setRun : IsRun bitmap numPages true setBit
    (findNext (fun i => !bitmap i) numPages (setBit + 1)) := by
  have le := here.le
  have some := here.some
  refine ⟨le_findNext more, findNext_le, fun i first last => ?_, fun i same => ?_, fun found => ?_⟩
  · rcases eq_or_lt_of_le first with rfl | later
    · exact here.set more
    · simpa using clear_before_findNext later last
  · simp [here.clear i (by omega) (by omega)]
  · simpa using holds_findNext found

theorem At.next (next_eq : findNext (fun i => !bitmap i) numPages (setBit + 1) = last) :
    At numPages bitmap (findNext bitmap numPages (last + 1)) last := by
  have run := next_eq ▸ here.setRun more
  have inside := run.inside
  have nonempty := run.nonempty
  have found : findNext bitmap numPages (last + 1) ≤ numPages := findNext_le
  have above : last = numPages ∨ last + 1 ≤ findNext bitmap numPages (last + 1) :=
    (eq_or_lt_of_le inside).imp_right le_findNext
  have stop : last = numPages → findNext bitmap numPages (last + 1) = numPages :=
    fun whole => if_pos (by omega)
  refine ⟨by omega, found, fun i first below => ?_, holds_findNext, fun i same => ?_, by omega⟩
  · rcases eq_or_lt_of_le first with rfl | later
    · simpa using run.ends (by omega)
    · exact clear_before_findNext later below
  · exact run.same i (by omega) (by omega)

end

/-- The run of an access that the bits ask for. -/
theorem Asks.run (asks : l.Asks numPages bitmap a) :
    ∃ value last, IsRun bitmap numPages value a.first last := by
  cases a with
  | zero first last => exact ⟨false, last, asks.2⟩
  | read first last chunk => exact ⟨true, last, asks.1⟩

/-- Up to the next set bit there are only clear bits. -/
theorem asks_clear_iff (here : At numPages bitmap setBit clearBit) :
    (l.Asks numPages bitmap a ∧ clearBit ≤ a.first ∧ a.first < setBit) ↔
      (l.dst.restoreVm = true ∧ clearBit < setBit) ∧ a = .zero clearBit setBit := by
  constructor
  · rintro ⟨asks, above, below⟩
    have run := here.clearRun (above.trans_lt below)
    cases a with
    | zero first last =>
      obtain ⟨-, rfl, rfl⟩ := run.unique asks.2 above below
      exact ⟨⟨asks.1, run.nonempty⟩, rfl⟩
    | read first last chunk => cases (run.unique asks.1 above below).1
  · rintro ⟨⟨restore, some⟩, rfl⟩
    exact ⟨⟨restore, here.clearRun some⟩, le_rfl, some⟩

/-- A run of set bits is read in chunks. -/
theorem asks_set_iff (run : IsRun bitmap numPages true first last) :
    (l.Asks numPages bitmap a ∧ first ≤ a.first ∧ a.first < last) ↔ l.Chunks first last 0 a := by
  constructor
  · rintro ⟨asks, above, below⟩
    cases a with
    | zero first' last' => cases (run.unique asks.2 above below).1
    | read first' last' chunk =>
      obtain ⟨-, rfl, rfl⟩ := run.unique asks.1 above below
      exact ⟨chunk, zero_le _, asks.2, rfl⟩
  · rintro ⟨j, -, more, rfl⟩
    exact ⟨⟨run, more⟩, le_rfl, run.nonempty⟩

theorem handleZeroMappedRam_last (here : At numPages bitmap numPages clearBit)
    (stores : List Store) : l.Does (fun a => l.Asks numPages bitmap a ∧ clearBit ≤ a.first) stores
      (handleZeroMappedRam l.dst l.block clearBit numPages stores) := by
  refine (handleZeroMappedRam_does clearBit numPages stores).congr fun a =>
    (and_congr_right fun asks => ?_).trans (asks_clear_iff here)
  obtain ⟨value, last, run⟩ := asks.run
  exact (and_iff_left (run.nonempty.trans_le run.inside)).symm

/-- The loop makes the accesses that the bits from `clearBit` on ask for, in their order. -/
theorem readRuns_does (here : At numPages bitmap setBit clearBit) (enough : numPages ≤ clearBit + n)
    (stores : List Store) : l.Does (fun a => l.Asks numPages bitmap a ∧ clearBit ≤ a.first) stores
      (readRuns l.dst l.file l.block l.pagesOffset numPages bitmap n setBit clearBit stores) := by
  induction n generalizing setBit clearBit stores with
  | zero =>
    have le := here.le
    obtain rfl : setBit = numPages := here.inside.antisymm (by omega)
    exact handleZeroMappedRam_last here stores
  | succ n ih => ?_
  rw [readRuns]
  split
  next ends =>
    obtain rfl : setBit = numPages := here.inside.antisymm ends
    exact handleZeroMappedRam_last here stores
  next more =>
    have le := here.le
    have run := here.setRun (not_le.mp more)
    have there := here.next (not_le.mp more) rfl
    dsimp only
    generalize findNext (fun i => !bitmap i) numPages (setBit + 1) = next at run there
    have nonempty := run.nonempty
    have chunks := fun stores => @readChunks_does l setBit next 0
      (l.runSize setBit next / mappedRamLoadBufSize + 1)
      (by rw [Nat.zero_add, Nat.mul_comm]; exact (lt_mul_div_succ _ (by decide)).le) stores
    simp only [Nat.zero_mul, Nat.add_zero, Nat.sub_zero] at chunks
    have all := (handleZeroMappedRam_does clearBit setBit stores).andThen (fun a b zero later => ?_)
      fun stores =>
      (chunks stores).andThen (fun a b chunk later => ?_) fun stores => ih there (by omega) stores
    · exact all.congr fun a => by
        rw [← asks_clear_iff here, ← asks_set_iff run]
        by_cases asks : l.Asks numPages bitmap a
        · simp only [asks, true_and]
          omega
        · simp [asks]
    · have below := ((asks_clear_iff here).mpr zero).2.2
      rcases later with chunk | ⟨-, above⟩
      · exact .inl (below.trans_le ((asks_set_iff run).mpr chunk).2.1)
      · exact .inl (by omega)
    · exact .inl (((asks_set_iff run).mpr chunk).2.2.trans_le later.2)

theorem readRamblockMappedRam_does (l : Load) (numPages : Nat) (bitmap : Nat → Bool) :
    l.Does (l.Asks numPages bitmap) []
      (readRamblockMappedRam l.dst l.file l.block l.pagesOffset numPages bitmap) :=
  (readRuns_does (.start numPages bitmap) (by omega) []).congr fun a => (and_iff_left (zero_le _)).symm

theorem stored_le_size (a : Access) : l.stored a ≤ l.size a := by
  cases a with
  | zero first last =>
    rw [stored]
    split
    · exact zero_le _
    · exact le_rfl
  | read first last chunk =>
    rw [stored, pread]
    split
    · exact min_le_left _ _
    · exact zero_le _

/-- Pages that fit in the block take no access out of it. -/
theorem inBounds_of_fits (small : numPages * l.dst.pageSize < 2 ^ 64)
    (fits : numPages * l.dst.pageSize ≤ l.block.usedLength) (asks : l.Asks numPages bitmap a) :
    l.InBounds a := by
  intro _
  have run_le : ∀ {value first last}, IsRun bitmap numPages value first last →
      first * l.dst.pageSize + l.runSize first last ≤ numPages * l.dst.pageSize := by
    intro value first last run
    have total : first * l.dst.pageSize + l.dst.pageSize * (last - first) = last * l.dst.pageSize := by
      rw [Nat.mul_comm l.dst.pageSize, ← Nat.add_mul, Nat.add_sub_cancel' run.nonempty.le]
    have inside := Nat.mul_le_mul_right l.dst.pageSize run.inside
    have := mod_le (l.dst.pageSize * (last - first)) (2 ^ 64)
    rw [runSize]
    omega
  have stored := l.stored_le_size a
  cases a with
  | zero first last =>
    have le := run_le asks.2
    simp only [offset, size] at stored ⊢
    rw [mod_eq_of_lt (by omega)]
    omega
  | read first last chunk =>
    have le := run_le asks.1
    have more := asks.2
    simp only [offset, size] at stored ⊢
    rw [mod_eq_of_lt (by omega)]
    omega

end Load

def Matches (dst : Destination) (block : RAMBlock) (length : Nat) (header : MappedRamHeader) : Prop :=
  header.pageSize = dst.pageSize ∧ length = block.usedLength

/-- No division by zero, no header accepted that does not match, no byte stored outside of the
block. -/
structure Safe (dst : Destination) (file : List UInt8) (pos : Nat) (block : RAMBlock)
    (length : Nat) : Prop where
  divides : (parseRamblockMappedRam dst file pos block length).2 ≠ .divisionByZero
  rejects : ∀ header, mappedRamReadHeader file pos = .ok header → ¬ Matches dst block length header →
    ∃ error, (parseRamblockMappedRam dst file pos block length).2 = .failed error
  inside : ∀ s ∈ (parseRamblockMappedRam dst file pos block length).1, ∀ k < s.size,
    s.offset + k < block.usedLength

/-- The load that a header leads to. -/
def MappedRamHeader.load (header : MappedRamHeader) (dst : Destination) (file : List UInt8)
    (block : RAMBlock) : Load :=
  ⟨dst, file, block, header.pagesOffset⟩

/-- The bits of the bitmap in the file ask for the access. -/
def MappedRamHeader.Asks (header : MappedRamHeader) (dst : Destination) (file : List UInt8)
    (block : RAMBlock) (length : Nat) (a : Access) : Prop :=
  (header.load dst file block).Asks (header.numPages length) (bitmapBit file header.bitmapOffset) a

/-- No access with only accepted ones before it reaches over the end of the block. -/
def MappedRamHeader.StaysInside (header : MappedRamHeader) (dst : Destination) (file : List UInt8)
    (block : RAMBlock) (length : Nat) : Prop :=
  ∀ a, header.Asks dst file block length a →
    (∀ b, header.Asks dst file block length b → b.Before a → ¬ (header.load dst file block).Refused b) →
      (header.load dst file block).InBounds a

/-- A header that does not match does no harm: the bitmap cannot be read, or its bits ask for an
access that is refused, and none up to it reaches over the end of the block. -/
structure Harmless (dst : Destination) (file : List UInt8) (block : RAMBlock) (length : Nat)
    (header : MappedRamHeader) : Prop where
  memory : header.bitmapSize length ≤ dst.memory
  stops : pread file header.bitmapOffset (header.bitmapSize length) ≠ header.bitmapSize length ∨
    (header.bitmapSize length = 0 → header.numPages length = 0) ∧
    (∃ a, header.Asks dst file block length a ∧ (header.load dst file block).Refused a) ∧
    header.StaysInside dst file block length

theorem safe_of_failed {dst : Destination} {file : List UInt8} {pos length : Nat} {block : RAMBlock}
    {error : LoadError}
    (failed : parseRamblockMappedRam dst file pos block length = ([], .failed error)) :
    Safe dst file pos block length := by
  refine ⟨?_, fun _ _ _ => ⟨error, ?_⟩, ?_⟩
  all_goals simp [failed]

/-- A bitmap of the length of the block asks for nothing outside of it. -/
theorem inBounds_of_matches {length : Nat} (matching : Matches dst block length header)
    (asks : header.Asks dst file block length a) : (header.load dst file block).InBounds a := by
  have fits : header.numPages length * dst.pageSize ≤ block.usedLength := by
    rw [MappedRamHeader.numPages, matching.1, matching.2]
    exact div_mul_le_self _ _
  exact Load.inBounds_of_fits (fits.trans_lt block.usedLength_lt) fits asks

section Header

variable {dst : Destination} {file : List UInt8} {pos length : Nat} {header : MappedRamHeader}
  (read : mappedRamReadHeader file pos = .ok header)
  (aligned : header.pagesOffset % dst.pageSize = 0) (nonzero : header.pageSize ≠ 0)
include read aligned nonzero

omit aligned nonzero in
theorem safe_iff_of_stopped (stopped : parseRamblockMappedRam dst file pos block length = ([], outcome))
    (divides : outcome ≠ .divisionByZero) (notFailed : ∀ error, outcome ≠ .failed error) :
    Safe dst file pos block length ↔ Matches dst block length header := by
  constructor
  · intro safe
    by_contra mismatch
    obtain ⟨error, failed⟩ := safe.rejects header read mismatch
    rw [stopped] at failed
    exact notFailed error failed
  · intro matching
    refine ⟨by rw [stopped]; exact divides, fun other same mismatch => ?_, by simp [stopped]⟩
    cases same.symm.trans read
    exact absurd matching mismatch

theorem parse_of_header : parseRamblockMappedRam dst file pos block length =
    if header.bitmapSize length > dst.memory then ([], .outOfMemory)
    else if pread file header.bitmapOffset (header.bitmapSize length) ≠
    header.bitmapSize length then ([], .failed .bitmap)
    else if header.bitmapSize length = 0 ∧ header.numPages length ≠ 0 then ([], .nullBitmap)
    else match readRamblockMappedRam dst file block header.pagesOffset (header.numPages length)
        (bitmapBit file header.bitmapOffset) with
      | (stores, some error) => (stores, .failed error)
      | (stores, none) => (stores, .loaded) := by
  rw [parseRamblockMappedRam, read]
  refine (if_neg (not_not.mpr aligned)).trans ((if_neg nonzero).trans ?_)
  rfl

theorem safe_iff_of_header : Safe dst file pos block length ↔
    Matches dst block length header ∨ Harmless dst file block length header := by
  have body : parseRamblockMappedRam dst file pos block length = _ := parse_of_header read aligned nonzero
  by_cases memory : header.bitmapSize length > dst.memory
  · rw [if_pos memory] at body
    rw [safe_iff_of_stopped read body (by simp) (by simp)]
    exact (or_iff_left fun harmless => absurd harmless.memory (not_le.mpr memory)).symm
  rw [if_neg memory] at body
  by_cases short : pread file header.bitmapOffset (header.bitmapSize length) ≠ header.bitmapSize length
  · rw [if_pos short] at body
    exact iff_of_true (safe_of_failed body) (.inr ⟨Nat.le_of_not_lt memory, .inl short⟩)
  rw [if_neg short] at body
  by_cases null : header.bitmapSize length = 0 ∧ header.numPages length ≠ 0
  · rw [if_pos null] at body
    rw [safe_iff_of_stopped read body (by simp) (by simp)]
    refine (or_iff_left fun harmless => ?_).symm
    rcases harmless.stops with unread | ⟨usable, -⟩
    · exact short unread
    · exact null.2 (usable null.1)
  rw [if_neg null] at body
  have loads := (header.load dst file block).readRamblockMappedRam_does (header.numPages length)
    (bitmapBit file header.bitmapOffset)
  simp only [MappedRamHeader.load] at loads
  generalize readRamblockMappedRam _ _ _ _ _ _ = result at body loads
  obtain ⟨stores, error⟩ := result
  have passes := loads.passes
  have inside : _ ↔ header.StaysInside dst file block length := loads.inside.trans (and_iff_right nofun)
  cases error with
  | none =>
    constructor
    · intro safe
      left
      by_contra mismatch
      obtain ⟨error, failed⟩ := safe.rejects header read mismatch
      rw [body] at failed
      cases failed
    · rintro (matching | harmless)
      · refine ⟨by simp [body], fun other same mismatch => ?_, ?_⟩
        · cases same.symm.trans read
          exact absurd matching mismatch
        · rw [body]
          exact inside.mpr fun a asks _ => inBounds_of_matches matching asks
      · rcases harmless.stops with unread | ⟨-, ⟨a, asks, refused⟩, -⟩
        · exact absurd unread short
        · exact absurd refused (passes.mp rfl a asks)
  | some error =>
    have refused : ∃ a, header.Asks dst file block length a ∧ (header.load dst file block).Refused a := by
      by_contra all
      push Not at all
      cases passes.mpr all
    constructor
    · intro safe
      right
      refine ⟨Nat.le_of_not_lt memory, .inr ⟨fun empty => ?_, refused, inside.mp ?_⟩⟩
      · by_contra pages
        exact null ⟨empty, pages⟩
      · have within := safe.inside
        rwa [body] at within
    · intro sound
      have bounded : header.StaysInside dst file block length := by
        rcases sound with matching | harmless
        · exact fun a asks _ => inBounds_of_matches matching asks
        · rcases harmless.stops with unread | ⟨-, -, bounded⟩
          · exact absurd unread short
          · exact bounded
      refine ⟨by simp [body], fun _ _ _ => ⟨error, by rw [body]⟩, ?_⟩
      rw [body]
      exact inside.mpr bounded

end Header

/-- A file with a header (version 1), a bitmap at 32 and pages at 1024. -/
def mappedRamFile (pageSize : List UInt8) (bitmap : UInt8) (pages : Nat) : List UInt8 :=
  [0, 0, 0, 1] ++ [0, 0, 0, 0, 0, 0] ++ pageSize ++ [0, 0, 0, 0, 0, 0, 0, 32] ++
    [0, 0, 0, 0, 0, 0, 4, 0] ++
    [0, 0, 0, 0, bitmap, 0, 0, 0, 0, 0, 0, 0] ++ replicate (984 + pages) 1

def smallPages : Destination := ⟨10, false, false, fun _ => true, fun _ _ => false, 2 ^ 30⟩

end Qemu.MappedRam
