import Qemu.Migration.XbzrlePortable
import Qemu.Migration.XbzrleAvx512

/-! The AVX512 encoder against the portable one: the same output whenever the
portable one succeeds, and exactly when the vector one stores past its
destination. -/

namespace Qemu.Xbzrle

open List Dst

section Agree

theorem checked_room {next : Encoded} (ok : (checked true dlen dst next).ret ≠ -1) :
    dst.d + 2 ≤ dlen := by
  by_contra crowded
  rw [checked, if_pos ⟨rfl, by omega⟩] at ok
  exact ok rfl

theorem flushed_pass (next : Dst → Encoded)
    (fits : dst.d + (uleb bytes.length).length + bytes.length ≤ dlen) :
    flushed dlen bytes dst next = next (dst.put (uleb bytes.length ++ bytes)) := by
  simp only [flushed, put_d, put_put]
  rw [if_neg (by omega)]

/-- With room for two bytes before every byte, the portable checks imply any others. -/
theorem emit_agrees
    (room : dst.d + 2 ≤ dlen) (ok : (emit portableChecks dlen i pending dst pairs).ret ≠ -1) :
    emit checks dlen i pending dst pairs = emit portableChecks dlen i pending dst pairs := by
  induction pairs generalizing i pending dst with
  | nil => cases pending <;> rfl
  | cons pair rest ih => ?_
  obtain ⟨old, new⟩ := pair
  cases pending with
  | zero run =>
    rw [emit, checked_pass _ (fun _ => room)]
    rw [emit] at ok ⊢
    by_cases same : old = new
    · simp only [same] at ok ⊢
      exact ih room ok
    simp only [same] at ok ⊢
    have later := checked_room ok
    rw [checked_pass _ (fun _ => later)]
    rw [checked_pass _ (fun _ => later)] at ok ⊢
    exact ih later ok
  | nonzero bytes =>
    rw [emit]
    rw [emit, checked_pass _ (fun _ => room)] at ok ⊢
    by_cases same : old = new
    · simp only [same, if_true] at ok ⊢
      obtain ⟨_, fits⟩ := flushed_ok ok
      rw [flushed_pass _ fits]
      rw [flushed_pass _ fits] at ok ⊢
      have later := checked_room ok
      rw [checked_pass _ (fun _ => later)]
      rw [checked_pass _ (fun _ => later)] at ok ⊢
      exact ih later ok
    · simp only [same] at ok ⊢
      exact ih room ok

end Agree

/-- A zero run, the nonzero run after it, and where they stand in the page. -/
structure Run where
  start : Nat
  zeros : Nat
  count : Nat
  deriving DecidableEq, Repr

def ulebSize (n : Nat) : Nat := if n < 0x80 then 1 else 2

namespace Run

def diff (run : Run) : Nat := run.start + run.zeros

def stop (run : Run) : Nat := run.start + run.zeros + run.count

/-- The number of bytes the run is encoded in. -/
def size (run : Run) : Nat := ulebSize run.zeros + ulebSize run.count + run.count

/-- The zero run starts at a block boundary and ends inside that block. -/
def Early (run : Run) : Prop := run.start % 64 = 0 ∧ 0 < run.start ∧ run.zeros < 64

/-- The nonzero run ends before the next block is entered. -/
def Contained (slen : Nat) (run : Run) : Prop :=
  ¬ (64 * (run.diff / 64 + 1) ≤ run.stop ∧ 64 * (run.diff / 64 + 1) < slen)

/-- The lengths of the run do not fit where the output stands. -/
def Overruns (dlen slen d : Nat) (run : Run) : Prop :=
  run.Early ∧ d = dlen ∨ run.Contained slen ∧ (0x80 ≤ run.zeros ∧ d + 2 = dlen ∨ run.Early ∧ d + 1 = dlen)

end Run

/-- The runs of a page: `start` and `zeros` of the current run, and how many of its
changed bytes were seen. -/
def pageRuns : Nat → Nat → Nat → List (UInt8 × UInt8) → List Run
  | _, _, 0, [] => []
  | start, zeros, count + 1, [] => [⟨start, zeros, count + 1⟩]
  | start, zeros, 0, (old, new) :: rest =>
    if old = new then pageRuns start (zeros + 1) 0 rest else pageRuns start zeros 1 rest
  | start, zeros, count + 1, (old, new) :: rest =>
    if old = new then
      ⟨start, zeros, count + 1⟩ :: pageRuns (start + zeros + (count + 1)) 1 0 rest
    else pageRuns start zeros (count + 2) rest

/-- Some run starts where its lengths do not fit. -/
def Overrun (dlen slen : Nat) : Nat → List Run → Prop
  | _, [] => False
  | d, run :: rest => run.Overruns dlen slen d ∨ Overrun dlen slen (d + run.size) rest

theorem pageRuns_nonzero (start zeros count : Nat) (pairs : List (UInt8 × UInt8)) :
    ∃ more rest, pageRuns start zeros (count + 1) pairs = ⟨start, zeros, more⟩ :: rest ∧
    count < more := by
  induction pairs generalizing count with
  | nil => exact ⟨_, _, rfl, Nat.lt_succ_self count⟩
  | cons pair rest ih => ?_
  rw [pageRuns]
  split
  · exact ⟨_, _, rfl, Nat.lt_succ_self count⟩
  · obtain ⟨more, later, found, above⟩ := ih (count + 1)
    exact ⟨more, later, found, by omega⟩

theorem pageRuns_zero (start zeros : Nat) (pairs : List (UInt8 × UInt8)) :
    pageRuns start zeros 0 pairs = [] ∨ ∃ more count rest,
      pageRuns start zeros 0 pairs = ⟨start, more, count⟩ :: rest ∧ zeros ≤ more ∧ 0 < count := by
  induction pairs generalizing zeros with
  | nil => exact .inl rfl
  | cons pair rest ih => ?_
  rw [pageRuns]
  split
  · refine (ih (zeros + 1)).imp id ?_
    rintro ⟨more, count, later, found, above, some⟩
    exact ⟨more, count, later, found, by omega, some⟩
  · obtain ⟨count, later, found, some⟩ := pageRuns_nonzero start zeros 0 rest
    exact .inr ⟨zeros, count, later, found, Nat.le_refl _, some⟩

theorem ulebSize_cases (n : Nat) : ulebSize n = 1 ∧ n < 0x80 ∨ ulebSize n = 2 ∧ 0x80 ≤ n := by
  rw [ulebSize]; split <;> omega

theorem ulebSize_pos (n : Nat) : 0 < ulebSize n := by
  have := ulebSize_cases n
  omega

theorem uleb_length_eq (small : n ≤ 0x3fff) : (uleb n).length = ulebSize n := uleb_length small

section Overrun

variable {dlen slen : Nat}

variable {d : Nat}

/-- Once the output is past the destination nothing more is written. -/
theorem not_overrun_of_gt (past : dlen < d) (runs : List Run) : ¬ Overrun dlen slen d runs := by
  induction runs generalizing d with
  | nil => exact id
  | cons run rest ih =>
    rintro (here | later)
    · simp only [Run.Overruns] at here
      omega
    · exact ih (by omega) later

variable {rest : List Run}

/-- A run that fails its capacity check is the last one. -/
theorem not_overrun_cons (fits : ¬ run.Overruns dlen slen d) (past : dlen < d + run.size) :
    ¬ Overrun dlen slen d (run :: rest) := by
  rintro (here | later)
  · exact fits here
  · exact not_overrun_of_gt past rest later

/-- A check that fails in a zero run which is not early stops all overruns. -/
theorem not_overrun_zero {d start zeros : Nat} (pairs : List (UInt8 × UInt8))
    (full : dlen < d + 2) (late : ¬ (start % 64 = 0 ∧ 0 < start ∧ zeros < 64)) :
    ¬ Overrun dlen slen d (pageRuns start zeros 0 pairs) := by
  rcases pageRuns_zero start zeros pairs with none | ⟨more, count, rest, found, above, some⟩
  · rw [none]
    exact id
  rw [found]
  have first := ulebSize_pos more
  apply not_overrun_cons
  · simp only [Run.Overruns, Run.Early]
    omega
  · simp only [Run.size]
    omega

variable {i : Nat} {dst : Dst}

theorem inside_of_safe
    (safe : ∀ store ∈ (emit checks dlen i pending dst pairs).stores, store.1 < dlen) :
    dst.Inside dlen := by
  have before {dst : Dst} {bytes : List UInt8} (inside : (dst.put bytes).Inside dlen) : dst.Inside dlen :=
    fun store known => inside store (mem_put_stores.mpr (.inl known))
  induction pairs generalizing i pending dst with
  | nil =>
    cases pending with
    | zero run => exact safe
    | nonzero bytes =>
      simp only [emit, flushed] at safe
      split at safe
      · exact before safe
      · exact before (before safe)
  | cons pair rest ih =>
    obtain ⟨old, new⟩ := pair
    cases pending with
    | zero run =>
      simp only [emit, checked] at safe
      split_ifs at safe
      · exact safe
      · exact ih safe
      · exact before safe
      · exact before (ih safe)
    | nonzero bytes =>
      simp only [emit, checked, flushed] at safe
      split_ifs at safe
      · exact safe
      · exact before safe
      · exact before (before safe)
      · exact before (before (ih safe))
      · exact ih safe

/-- What is known in a zero run: a check passed, none is due yet, or the run may
still turn out to be early. -/
structure ZeroState (dlen start zeros i : Nat) (dst : Dst) : Prop where
  place : i = start + zeros
  inside : dst.Inside dlen
  fits : dst.d ≤ dlen
  known : dst.d + 2 ≤ dlen ∨ i = 0 ∨ start % 64 = 0 ∧ 0 < start ∧ 0 < zeros ∧ zeros ≤ 64

/-- What is known in a nonzero run: a block was entered since it began, or only what
held before its zero run was written at `d`. -/
structure NonzeroState (dlen start zeros count i d : Nat) (dst : Dst) : Prop where
  place : i = start + zeros + count
  positive : 0 < count
  inside : dst.Inside dlen
  moved : dst.d = d + ulebSize zeros
  known : 64 * ((start + zeros) / 64 + 1) < i ∧ dst.d + 2 ≤ dlen ∨
    i ≤ 64 * ((start + zeros) / 64 + 1) ∧
    (d + 2 ≤ dlen ∨ (start % 64 = 0 ∧ 0 < start ∧ zeros < 64) ∧ d + 1 ≤ dlen)

/-- The length of a finished nonzero run stays inside unless the run overruns. -/
theorem NonzeroState.length_inside {count : Nat}
    (state : NonzeroState dlen start zeros count i d dst) (short : slen ≤ 0x3fff) (page : i ≤ slen)
    (entered : i < slen → i % 64 = 0 → dst.d + 2 ≤ dlen) :
    (dst.put (uleb count)).Inside dlen ↔ ¬ (⟨start, zeros, count⟩ : Run).Overruns dlen slen d := by
  have place := state.place
  have moved := state.moved
  have small : count ≤ 0x3fff := by omega
  rw [inside_put_iff (uleb_ne_nil small), uleb_length_eq small, moved]
  simp only [Run.Overruns, Run.Early, Run.Contained, Run.diff, Run.stop, state.inside, true_and]
  have zeroSize := ulebSize_cases zeros
  have countSize := ulebSize_cases count
  rcases state.known with ⟨later, room⟩ | ⟨within, known⟩
  · omega
  · by_cases boundary : i < slen ∧ i % 64 = 0
    · omega
    · omega

/-- Every store of the encoder so far and to come is inside. -/
def Safe (dlen : Nat) (encoded : Encoded) : Prop := ∀ store ∈ encoded.stores, store.1 < dlen

/-- The step from a zero run to a nonzero run. -/
theorem ZeroState.write (state : ZeroState dlen start zeros i dst)
    (small : zeros ≤ 0x3fff) (fits : ¬ ((start % 64 = 0 ∧ 0 < start ∧ zeros < 64) ∧ dst.d = dlen))
    (known : dst.d + 2 ≤ dlen ∨ start % 64 = 0 ∧ 0 < start ∧ zeros < 64) :
    NonzeroState dlen start zeros 1 (i + 1) dst.d (dst.put (uleb zeros)) := by
  have place := state.place
  have room := state.fits
  have size := ulebSize_cases zeros
  refine ⟨by omega, by decide, (inside_put_iff (uleb_ne_nil small)).mpr ⟨state.inside, ?_⟩, ?_,
    .inr ⟨by omega, by omega⟩⟩
  · rw [uleb_length_eq small]
    omega
  · rw [put_d, uleb_length_eq small]

/-- After a finished nonzero run the output is safe unless the rest is not. -/
theorem NonzeroState.flush {count : Nat}
    (state : NonzeroState dlen start zeros count i d dst) (short : slen ≤ 0x3fff) (page : i ≤ slen)
    (entered : i < slen → i % 64 = 0 → dst.d + 2 ≤ dlen) (counted : bytes.length = count)
    {next : Dst → Encoded} (mono : ∀ dst, Safe dlen (next dst) → dst.Inside dlen)
    (later : ∀ dst : Dst, dst.Inside dlen → dst.d = d + (⟨start, zeros, count⟩ : Run).size →
      dst.d ≤ dlen → (Safe dlen (next dst) ↔ ¬ Overrun dlen slen dst.d rest)) :
    Safe dlen (flushed dlen bytes dst next) ↔ ¬ Overrun dlen slen d (⟨start, zeros, count⟩ :: rest) := by
  have place := state.place
  have small : count ≤ 0x3fff := by omega
  have lengths := state.length_inside short page entered
  have total : dst.d + (uleb count).length + count = d + (⟨start, zeros, count⟩ : Run).size := by
    rw [uleb_length_eq small, state.moved]
    simp only [Run.size]
    omega
  by_cases large : dst.d + (uleb count).length + count > dlen
  · simp only [flushed, counted, put_d, large]
    constructor
    · intro safe
      exact not_overrun_cons (lengths.mp safe) (by omega)
    · intro none
      exact lengths.mpr fun here => none (.inl here)
  simp only [flushed, counted, put_d, large]
  have value := later ((dst.put (uleb count)).put bytes)
  simp only [put_d, counted] at value
  constructor
  · intro safe
    have inside := mono _ safe
    have first : (dst.put (uleb count)).Inside dlen := fun store known =>
      inside store (mem_put_stores.mpr (.inl known))
    rintro (here | rest)
    · exact lengths.mp first here
    · rw [← total] at rest
      exact (value inside total (by omega)).mp safe rest
  · intro none
    have first := lengths.mpr fun here => none (.inl here)
    have inside : ((dst.put (uleb count)).put bytes).Inside dlen := by
      refine (inside_put_iff ?_).mpr ⟨first, by simp only [put_d]; omega⟩
      rintro rfl
      have := state.positive
      simp at counted
      omega
    exact (value inside total (by omega)).mpr fun rest => none (.inr (by rwa [total] at rest))

/-- The vector encoder stays inside its destination exactly when no run overruns. -/
theorem safe_iff (short : slen ≤ 0x3fff) (page : i + pairs.length = slen) :
    (∀ {start zeros dst}, ZeroState dlen start zeros i dst →
      (Safe dlen (emit avx512Checks dlen i (.zero zeros) dst pairs) ↔
        ¬ Overrun dlen slen dst.d (pageRuns start zeros 0 pairs))) ∧
    ∀ {start zeros count d dst bytes}, NonzeroState dlen start zeros count i d dst →
      bytes.length = count → (Safe dlen (emit avx512Checks dlen i (.nonzero bytes) dst pairs) ↔
        ¬ Overrun dlen slen d (pageRuns start zeros count pairs)) := by
  induction pairs generalizing i with
  | nil =>
    rw [length_nil] at page
    constructor
    · intro start zeros dst state
      exact ⟨fun _ => id, fun _ => state.inside⟩
    · intro start zeros count d dst bytes state counted
      obtain ⟨less, rfl⟩ := Nat.exists_eq_succ_of_ne_zero (Nat.pos_iff_ne_zero.mp state.positive)
      exact state.flush short (by omega) (fun below => by omega) counted (fun _ => id)
        (fun _ inside _ _ => ⟨fun _ => id, fun _ => inside⟩)
  | cons pair rest ih => ?_
  obtain ⟨old, new⟩ := pair
  rw [length_cons] at page
  obtain ⟨zeroRest, nonzeroRest⟩ := ih (i := i + 1) (by omega)
  constructor
  · intro start zeros dst state
    have place := state.place
    have known := state.known
    rw [emit, pageRuns]
    by_cases crowded : i % 64 = 0 ∧ dst.d + 2 > dlen
    · rw [checked, if_pos (by simpa [avx512Checks] using crowded)]
      exact ⟨fun _ => by
        have none := @not_overrun_zero _ slen _ start zeros ((old, new) :: rest) crowded.2 (by omega)
        rwa [pageRuns] at none, fun _ => state.inside⟩
    rw [checked_pass _ (by simp [avx512Checks]; omega)]
    have passed : dst.d + 2 ≤ dlen ∨ start % 64 = 0 ∧ 0 < start ∧ zeros < 64 := by omega
    by_cases same : old = new
    · rw [if_pos same, if_pos same]
      exact zeroRest ⟨by omega, state.inside, state.fits, by omega⟩
    rw [if_neg same, if_neg same]
    have small : zeros ≤ 0x3fff := by omega
    by_cases early : (start % 64 = 0 ∧ 0 < start ∧ zeros < 64) ∧ dst.d = dlen
    · -- The length of an early zero run has no room left.
      have outside : ¬ (dst.put (uleb zeros)).Inside dlen := by
        rw [inside_put_iff (uleb_ne_nil small), uleb_length_eq small]
        have := ulebSize_pos zeros
        omega
      refine ⟨fun safe => absurd (inside_of_safe safe) outside, fun none => absurd ?_ none⟩
      obtain ⟨more, later, found, _⟩ := pageRuns_nonzero start zeros 0 rest
      rw [found]
      exact .inl (.inl early)
    · exact nonzeroRest (state.write small early passed) rfl
  · intro start zeros count d dst bytes state counted
    have place := state.place
    have known := state.known
    have moved := state.moved
    obtain ⟨less, rfl⟩ := Nat.exists_eq_succ_of_ne_zero (Nat.pos_iff_ne_zero.mp state.positive)
    by_cases crowded : i % 64 = 0 ∧ dst.d + 2 > dlen
    · -- The check at the block boundary stops the encoder before the length.
      rw [emit, checked, if_pos (by simpa [avx512Checks] using crowded)]
      refine ⟨fun _ => ?_, fun _ => state.inside⟩
      obtain ⟨count, later, found, more⟩ := pageRuns_nonzero start zeros less ((old, new) :: rest)
      rw [found]
      have size := ulebSize_pos count
      apply not_overrun_cons
      · simp only [Run.Overruns, Run.Contained, Run.diff, Run.stop]
        omega
      · simp only [Run.size]
        omega
    · rw [emit, checked_pass _ (by simp [avx512Checks]; omega), pageRuns]
      have entered : i < slen → i % 64 = 0 → dst.d + 2 ≤ dlen := by omega
      by_cases same : old = new
      · rw [if_pos same, if_pos same]
        refine state.flush short (by omega) entered counted (fun dst safe => ?_)
          (fun dst inside size fits => ?_)
        · simp only [checked] at safe
          split at safe
          · exact safe
          · exact inside_of_safe safe
        · by_cases full : i % 64 ≠ 0 ∧ dst.d + 2 > dlen
          · rw [checked, if_pos (by simpa [avx512Checks] using full)]
            refine ⟨fun _ => not_overrun_zero rest full.2 (by omega), fun _ => inside⟩
          · rw [checked_pass _ (by simp [avx512Checks]; omega)]
            rw [show start + zeros + (less + 1) = i by omega]
            exact zeroRest ⟨rfl, inside, fits, by omega⟩
      · rw [if_neg same, if_neg same]
        refine nonzeroRest ⟨by omega, Nat.succ_pos _, state.inside, moved, by omega⟩ ?_
        simpa using counted

end Overrun

/-- Whenever the portable encoder succeeds the vector encoder agrees. -/
theorem avx512_agrees
    (ok : 0 ≤ (portableFrom oldBuf newBuf dlen ⟨0, empty⟩).ret) :
    emit avx512Checks dlen 0 (.zero 0) empty (oldBuf.zip newBuf) = portableFrom oldBuf newBuf dlen
    ⟨0, empty⟩ := by
  rw [portableFrom] at ok ⊢
  split at ok
  next some =>
    rw [if_pos some]
    have room := checked_room fun failed => by rw [failed] at ok; exact absurd ok (by decide)
    rw [checked_pass _ (fun _ => room), drop_zero] at ok ⊢
    exact emit_agrees room fun failed => by rw [failed] at ok; exact absurd ok (by decide)
  next none => rw [if_neg none, length_eq_zero_iff.mp (Nat.eq_zero_of_not_pos none), zip_nil_left, emit]

/-- The vector encoder returns what the portable one returns when that succeeds, and
stays inside its destination exactly when no run overruns it. -/
theorem encodeBufferAvx512_refines_iff (oldBuf newBuf : List UInt8) (dlen : Nat)
    (length : oldBuf.length = newBuf.length) (aligned : oldBuf.length % 8 = 0)
    (short : oldBuf.length ≤ 0x3fff) :
    ∃ portable vector, encodeBufferInt oldBuf newBuf dlen = some portable ∧
      encodeBufferAvx512 oldBuf newBuf dlen = some vector ∧
      (0 ≤ portable.ret → vector.ret = portable.ret ∧ vector.bytes = portable.bytes) ∧
      ((∀ store ∈ vector.stores, store.1 < dlen) ↔
        ¬ Overrun dlen oldBuf.length 0 (pageRuns 0 0 0 (oldBuf.zip newBuf))) := by
  refine ⟨_, _, encodeBufferInt_eq length aligned short, encodeBufferAvx512_eq length short,
    fun success => ?_, ?_⟩
  · rw [avx512_agrees success]
    exact ⟨rfl, rfl⟩
  · exact (safe_iff short (by rw [length_zip]; omega)).1
      ⟨rfl, inside_empty dlen, Nat.zero_le dlen, .inr (.inl rfl)⟩

/-- A full first block of changes fills the destination; the length of the short zero
run after it is stored one past the end. -/
theorem encodeBufferAvx512_stores_past_end :
    ((encodeBufferAvx512 (replicate 80 0)
        (replicate 64 1 ++ replicate 8 0 ++ replicate 8 1) 66).map fun encoded =>
      encoded.stores.any fun store => decide (66 ≤ store.1)) = some true := by
  decide +kernel

theorem encodeBufferAvx512_refines_at_one_run :
    ∃ portable vector, encodeBufferInt [0, 0, 0, 0, 0, 0, 0, 0] [0, 0, 1, 1, 1, 0, 0, 0] 8 =
    some portable ∧
      encodeBufferAvx512 [0, 0, 0, 0, 0, 0, 0, 0] [0, 0, 1, 1, 1, 0, 0, 0] 8 = some vector ∧
      (0 ≤ portable.ret → vector.ret = portable.ret ∧ vector.bytes = portable.bytes) ∧
      ((∀ store ∈ vector.stores, store.1 < 8) ↔ ¬ Overrun 8 8 0 [⟨0, 2, 3⟩]) :=
  encodeBufferAvx512_refines_iff [0, 0, 0, 0, 0, 0, 0, 0] [0, 0, 1, 1, 1, 0, 0, 0] 8 rfl rfl (by decide)

/-- What the vector encoder returns is decoded as the new page. -/
theorem avx512_round_trip {old new : List UInt8} (length : old.length = new.length)
    (short : old.length ≤ 0x3fff) :
    ∃ encoded, encodeBufferAvx512 old new dlen = some encoded ∧ (0 ≤ encoded.ret → encoded.ret ≤ dlen ∧
      ∃ page, decodeBuffer encoded.bytes old = some page ∧ 0 ≤ page.ret ∧ page.dst = new) := by
  refine ⟨_, encodeBufferAvx512_eq length short, fun ok => ⟨emit_ret_le (by simp [empty]), ?_⟩⟩
  rw [emit_ok (by omega), bytes_finish]
  exact decodeBuffer_remainder length short

/-- Three runs of changes in two vectors, the second over the end of the first vector. -/
def threeRuns : List UInt8 :=
  replicate 3 0 ++ replicate 5 7 ++ replicate 52 0 ++ replicate 12 8 ++ replicate 30 0 ++ replicate 26 9

theorem avx512_round_trip_threeRuns : ∃ encoded,
    encodeBufferAvx512 (replicate 128 0) threeRuns 128 = some encoded ∧ encoded.ret = 49 ∧
    ∃ page, decodeBuffer encoded.bytes (replicate 128 0) = some page ∧ page.dst = threeRuns := by
  obtain ⟨encoded, ran, decodes⟩ :=
    @avx512_round_trip 128 (replicate 128 0) threeRuns (by decide +kernel) (by decide +kernel)
  have ret : (encodeBufferAvx512 (replicate 128 0) threeRuns 128).map (·.ret) = some 49 := by
    decide +kernel
  rw [ran, Option.map_some, Option.some.injEq] at ret
  obtain ⟨-, page, decoded, -, same⟩ := decodes (by omega)
  exact ⟨encoded, ran, ret, page, decoded, same⟩

end Qemu.Xbzrle
