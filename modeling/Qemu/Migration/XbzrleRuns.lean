import Qemu.Migration.Xbzrle

/-! What an XBZRLE encoder does byte by byte: the runs it writes and the places
where it checks its output capacity. Both encoders are instances. -/

namespace Qemu.Xbzrle

open List Dst

/-- The run scanned so far; the length of the zero run before a nonzero run is
already written. -/
inductive Pending where
  | zero (run : Nat)
  | nonzero (bytes : List UInt8)
  deriving DecidableEq, Repr

/-- Where an encoder checks that two more bytes fit: before a byte, after the
length of a zero run, after a nonzero run. -/
structure Checks where
  entry : Nat → Bool
  afterZrun : Bool
  afterNzrun : Nat → Bool

def uleb (n : Nat) : List UInt8 := (uleb128EncodeSmall n).getD []

def checked (on : Bool) (dlen : Nat) (dst : Dst) (next : Encoded) : Encoded :=
  if on ∧ dst.d + 2 > dlen then dst.overflow else next

def flushed (dlen : Nat) (bytes : List UInt8) (dst : Dst) (next : Dst → Encoded) : Encoded :=
  let dst := dst.put (uleb bytes.length)
  if dst.d + bytes.length > dlen then dst.overflow else next (dst.put bytes)

/-- The encoder as a machine over pairs of an old and a new byte. -/
def emit (checks : Checks) (dlen : Nat) : Nat → Pending → Dst → List (UInt8 × UInt8) → Encoded
  | _, .zero _, dst, [] => dst.finish
  | _, .nonzero bytes, dst, [] => flushed dlen bytes dst finish
  | i, .zero run, dst, (old, new) :: rest =>
    checked (checks.entry i) dlen dst <|
      if old = new then emit checks dlen (i + 1) (.zero (run + 1)) dst rest
      else
        checked checks.afterZrun dlen (dst.put (uleb run))
          (emit checks dlen (i + 1) (.nonzero [new]) (dst.put (uleb run)) rest)
  | i, .nonzero bytes, dst, (old, new) :: rest =>
    checked (checks.entry i) dlen dst <|
      if old = new then
        flushed dlen bytes dst fun dst =>
          checked (checks.afterNzrun i) dlen dst (emit checks dlen (i + 1) (.zero 1) dst rest)
      else emit checks dlen (i + 1) (.nonzero (bytes ++ [new])) dst rest

/-- The bytes still to be written, without any limit on the output. -/
def remainder : Pending → List (UInt8 × UInt8) → List UInt8
  | .zero _, [] => []
  | .nonzero bytes, [] => uleb bytes.length ++ bytes
  | .zero run, (old, new) :: rest =>
    if old = new then remainder (.zero (run + 1)) rest
    else uleb run ++ remainder (.nonzero [new]) rest
  | .nonzero bytes, (old, new) :: rest =>
    if old = new then uleb bytes.length ++ bytes ++ remainder (.zero 1) rest
    else remainder (.nonzero (bytes ++ [new])) rest

namespace Dst

@[simp] theorem put_nil (dst : Dst) : dst.put [] = dst := by simp [put]

@[simp] theorem put_put (dst : Dst) (first second : List UInt8) :
    (dst.put first).put second = dst.put (first ++ second) := by
  simp [put, zipIdx_append, Nat.add_assoc]

@[simp] theorem put_d (dst : Dst) (bytes : List UInt8) : (dst.put bytes).d = dst.d + bytes.length := rfl

variable {dst : Dst}

theorem mem_put_stores :
    store ∈ (dst.put bytes).stores ↔ store ∈ dst.stores ∨ ∃ k, bytes[k]? = some store.2 ∧
    store.1 = dst.d + k := by
  simp only [put, mem_append, mem_map, Prod.exists]
  constructor
  · rintro (known | ⟨byte, index, found, rfl⟩)
    · exact .inl known
    · rw [mk_mem_zipIdx_iff_le_and_getElem?_sub] at found
      exact .inr ⟨index - dst.d, found.2, by simp only [Prod.fst_swap]; omega⟩
  · rintro (known | ⟨k, found, place⟩)
    · exact .inl known
    · refine .inr ⟨store.2, store.1, ?_, rfl⟩
      rw [mk_mem_zipIdx_iff_le_and_getElem?_sub]
      exact ⟨by omega, by rw [place, Nat.add_sub_cancel_left]; exact found⟩

/-- Every store so far is inside the destination. -/
def Inside (dlen : Nat) (dst : Dst) : Prop := ∀ store ∈ dst.stores, store.1 < dlen

theorem inside_put_iff (nonempty : bytes ≠ []) :
    (dst.put bytes).Inside dlen ↔ dst.Inside dlen ∧ dst.d + bytes.length ≤ dlen := by
  constructor
  · intro inside
    refine ⟨fun store known => inside store (mem_put_stores.mpr (.inl known)), ?_⟩
    have positive : 0 < bytes.length := length_pos_iff.mpr nonempty
    have last := inside (dst.d + (bytes.length - 1), bytes[bytes.length - 1])
      (mem_put_stores.mpr (.inr ⟨bytes.length - 1, getElem?_eq_getElem (by omega), rfl⟩))
    omega
  · rintro ⟨inside, room⟩ store member
    rcases mem_put_stores.mp member with known | ⟨k, found, place⟩
    · exact inside store known
    · have := (List.getElem?_eq_some_iff.mp found).1
      omega

theorem inside_empty (dlen : Nat) : empty.Inside dlen := fun _ member => by simp [empty] at member

end Dst

theorem putUleb_eq (dst : Dst) (small : n ≤ 0x3fff) : dst.putUleb n = some (dst.put (uleb n)) := by
  simp only [putUleb, uleb, uleb128EncodeSmall, small, if_true]
  split <;> rfl

theorem uleb_length (small : n ≤ 0x3fff) : (uleb n).length = if n < 0x80 then 1 else 2 := by
  simp only [uleb, uleb128EncodeSmall, small, if_true]
  split <;> rfl

theorem uleb_length_le (n : Nat) : (uleb n).length ≤ 2 := by
  simp only [uleb, uleb128EncodeSmall]
  split
  · split <;> simp
  · simp

theorem uleb_ne_nil (small : n ≤ 0x3fff) : uleb n ≠ [] := by
  intro empty
  have length := uleb_length small
  rw [empty] at length
  split at length <;> simp at length

variable {bytes : List UInt8}

theorem load_put (inside : k < bytes.length) : load (empty.put bytes).stores k = bytes[k] := by
  have member : (k, bytes[k]) ∈ (empty.put bytes).stores.reverse :=
    mem_reverse.mpr (mem_put_stores.mpr
      (.inr ⟨k, getElem?_eq_getElem inside, (Nat.zero_add k).symm⟩))
  have found : (empty.put bytes).stores.reverse.find? (·.1 == k) = some (k, bytes[k]) := by
    cases search : (empty.put bytes).stores.reverse.find? (·.1 == k) with
    | none => simpa using find?_eq_none.mp search _ member
    | some store => ?_
    have index : store.1 = k := by simpa using find?_some search
    have stored := mem_reverse.mp (mem_of_find?_eq_some search)
    rcases mem_put_stores.mp stored with known | ⟨place, value, position⟩
    · simp [empty] at known
    · rw [position, empty, Nat.zero_add] at index
      rw [index, getElem?_eq_getElem inside, Option.some.injEq] at value
      rw [Option.some.injEq]
      exact Prod.ext (by rw [position, index]; exact Nat.zero_add k) value.symm
  rw [load, found]
  rfl

/-- Reading back what was written from the start of the destination. -/
theorem bytes_finish (bytes : List UInt8) : (empty.put bytes).finish.bytes = bytes := by
  apply ext_getElem
  · simp [Encoded.bytes, finish, empty]
  · intro k _ inside
    simp [Encoded.bytes, finish, load_put inside]

section Emit

theorem checked_ok {next : Encoded}
    (ok : (checked on dlen dst next).ret ≠ -1) : checked on dlen dst next = next := by
  rw [checked] at ok ⊢
  split at ok
  · exact absurd rfl ok
  · rw [if_neg ‹_›]

theorem flushed_ok {next : Dst → Encoded} (ok : (flushed dlen bytes dst next).ret ≠ -1) :
    flushed dlen bytes dst next = next (dst.put (uleb bytes.length ++ bytes)) ∧
      dst.d + (uleb bytes.length).length + bytes.length ≤ dlen := by
  simp only [flushed] at ok ⊢
  split at ok
  · exact absurd rfl ok
  next fits =>
    rw [if_neg fits, put_put]
    exact ⟨rfl, by simpa using fits⟩

/-- An encoder that does not overflow writes exactly the encoding. -/
theorem emit_ok (ok : (emit checks dlen i pending dst pairs).ret ≠ -1) :
    emit checks dlen i pending dst pairs = (dst.put (remainder pending pairs)).finish := by
  induction pairs generalizing i pending dst with
  | nil =>
    cases pending with
    | zero run => simp [emit, remainder]
    | nonzero bytes =>
      rw [emit] at ok ⊢
      rw [(flushed_ok ok).1, remainder]
  | cons pair rest ih => ?_
  obtain ⟨old, new⟩ := pair
  cases pending with
  | zero run =>
    rw [emit] at ok ⊢
    have entered := checked_ok ok
    rw [entered] at ok ⊢
    rw [remainder]
    by_cases same : old = new
    · simp only [same] at ok ⊢
      exact ih ok
    · simp only [same, if_false] at ok ⊢
      have wrote := checked_ok ok
      rw [wrote] at ok ⊢
      rw [ih ok, put_put]
  | nonzero bytes =>
    rw [emit] at ok ⊢
    have entered := checked_ok ok
    rw [entered] at ok ⊢
    rw [remainder]
    by_cases same : old = new
    · simp only [same, if_true] at ok ⊢
      have wrote := (flushed_ok ok).1
      rw [wrote] at ok ⊢
      have continued := checked_ok ok
      rw [continued] at ok ⊢
      rw [ih ok, put_put]
    · simp only [same] at ok ⊢
      exact ih ok

/-- The returned length is within the capacity: the last write is a checked run. -/
theorem emit_ret_le (room : ∀ run, pending = .zero run → dst.d ≤ dlen) :
    (emit checks dlen i pending dst pairs).ret ≤ dlen := by
  have failed (dst : Dst) : dst.overflow.ret ≤ dlen := by simp only [overflow]; omega
  induction pairs generalizing i pending dst with
  | nil =>
    cases pending with
    | zero run =>
      rw [emit]
      have := room run rfl
      simp only [finish]; omega
    | nonzero bytes =>
      simp only [emit, flushed]
      split
      · exact failed _
      · simp only [finish, put_d] at *; omega
  | cons pair rest ih =>
    obtain ⟨old, new⟩ := pair
    cases pending with
    | zero run =>
      simp only [emit, checked]
      split_ifs
      · exact failed _
      · exact ih fun _ _ => room run rfl
      · exact failed _
      · exact ih fun _ impossible => nomatch impossible
    | nonzero bytes =>
      simp only [emit, checked, flushed]
      split_ifs with _ _ large
      · exact failed _
      · exact failed _
      · exact failed _
      · exact ih fun _ _ => by simp only [put_d] at large ⊢; omega
      · exact ih fun _ impossible => nomatch impossible

end Emit

section Skip

variable {old new : List UInt8} {checks : Checks} {dlen : Nat}

variable {i : Nat}

theorem drop_pairs (length : old.length = new.length) (inside : i < old.length) :
    (old.zip new).drop i = (old.getD i 0, new.getD i 0) :: (old.zip new).drop (i + 1) := by
  have bound : i < (old.zip new).length := by rw [length_zip]; omega
  rw [drop_eq_getElem_cons bound, getElem_zip, getD_eq_getElem?_getD,
    getD_eq_getElem?_getD, getElem?_eq_getElem inside,
    getElem?_eq_getElem (show i < new.length by omega)]
  rfl

theorem take_window (before : i < j) (inside : i < new.length) :
    (new.drop i).take (j - i) = new.getD i 0 :: (new.drop (i + 1)).take (j - (i + 1)) := by
  rw [drop_eq_getElem_cons inside, show j - i = j - (i + 1) + 1 by omega, getD_eq_getElem?_getD,
    getElem?_eq_getElem inside]
  rfl

/-- The checks a scan passes through find room. -/
def Passable (checks : Checks) (dlen i j : Nat) (dst : Dst) : Prop :=
  ∀ k, i ≤ k → k < j → checks.entry k = true → dst.d + 2 ≤ dlen

theorem checked_pass (next : Encoded) (room : on = true → dst.d + 2 ≤ dlen) :
    checked on dlen dst next = next := by
  rw [checked, if_neg]
  rintro ⟨checking, full⟩
  have := room checking
  omega

section

variable (length : old.length = new.length)
include length

/-- Equal bytes only lengthen the zero run. -/
theorem emit_skip_same {i j : Nat} (run : Nat) (dst : Dst) (scanned : i ≤ j) (inside : j ≤ old.length)
    (same : ∀ k, i ≤ k → k < j → sameAt old new k = true) (room : Passable checks dlen i j dst) :
    emit checks dlen i (.zero run) dst ((old.zip new).drop i) =
      emit checks dlen j (.zero (run + (j - i))) dst ((old.zip new).drop j) := by
  obtain ⟨distance, rfl⟩ := Nat.exists_eq_add_of_le scanned
  induction distance generalizing i run with
  | zero => simp
  | succ distance ih => ?_
  have equal : old.getD i 0 = new.getD i 0 := by
    simpa [sameAt] using same i (Nat.le_refl i) (by omega)
  rw [drop_pairs length (by omega), emit, checked_pass _ (room i (Nat.le_refl i) (by omega)),
    if_pos equal, ih (run + 1) (by omega) (by omega) (fun k above below => same k (by omega) (by omega))
      (fun k above below => room k (by omega) (by omega)),
    show i + 1 + distance = i + (distance + 1) by omega,
    show run + 1 + (i + (distance + 1) - (i + 1)) = run + (i + (distance + 1) - i) by omega]

/-- Changed bytes only lengthen the nonzero run. -/
theorem emit_skip_diff {j : Nat} (bytes : List UInt8) (dst : Dst) (scanned : i ≤ j)
    (inside : j ≤ old.length)
    (differ : ∀ k, i ≤ k → k < j → sameAt old new k = false) (room : Passable checks dlen i j dst) :
    emit checks dlen i (.nonzero bytes) dst ((old.zip new).drop i) =
      emit checks dlen j (.nonzero (bytes ++ (new.drop i).take (j - i))) dst ((old.zip new).drop j) := by
  obtain ⟨distance, rfl⟩ := Nat.exists_eq_add_of_le scanned
  induction distance generalizing i bytes with
  | zero => simp
  | succ distance ih => ?_
  have changed : ¬ old.getD i 0 = new.getD i 0 := by
    simpa [sameAt] using differ i (Nat.le_refl i) (by omega)
  rw [take_window (by omega) (by omega), drop_pairs length (by omega), emit,
    checked_pass _ (room i (Nat.le_refl i) (by omega)), if_neg changed, ih (bytes ++ [new.getD i 0])
      (by omega) (by omega) (fun k above below => differ k (by omega) (by omega))
      (fun k above below => room k (by omega) (by omega)), append_assoc, singleton_append,
    show i + 1 + distance = i + (distance + 1) by omega]

/-- A zero run ends at a changed byte and a whole nonzero run follows. -/
theorem emit_zero_run {i j : Nat} (run : Nat) (dst : Dst) (before : i < j) (inside : j ≤ old.length)
    (differ : ∀ k, i ≤ k → k < j → sameAt old new k = false)
    (room : Passable checks dlen (i + 1) j (dst.put (uleb run))) :
    emit checks dlen i (.zero run) dst ((old.zip new).drop i) =
      checked (checks.entry i) dlen dst (checked checks.afterZrun dlen (dst.put (uleb run))
        (emit checks dlen j (.nonzero ((new.drop i).take (j - i))) (dst.put (uleb run))
        ((old.zip new).drop j))) := by
  have changed : ¬ old.getD i 0 = new.getD i 0 := by
    simpa [sameAt] using differ i (Nat.le_refl i) before
  rw [drop_pairs length (by omega), emit, if_neg changed,
    emit_skip_diff length [new.getD i 0] _ before inside (fun k above below => differ k (by omega) below)
      room, singleton_append, take_window before (by omega)]

theorem emit_nonzero_same (bytes : List UInt8) (dst : Dst)
    (inside : i < old.length) (same : sameAt old new i = true) :
    emit checks dlen i (.nonzero bytes) dst ((old.zip new).drop i) =
      checked (checks.entry i) dlen dst
      (flushed dlen bytes dst fun dst => checked (checks.afterNzrun i) dlen dst
          (emit checks dlen (i + 1) (.zero 1) dst ((old.zip new).drop (i + 1)))) := by
  have equal : old.getD i 0 = new.getD i 0 := by simpa [sameAt] using same
  rw [drop_pairs length inside, emit, if_pos equal]

theorem drop_pairs_end : (old.zip new).drop old.length = [] :=
  drop_eq_nil_of_le (by rw [length_zip]; omega)

end

end Skip

theorem remainder_nonzero_ne_nil (nonempty : bytes ≠ []) : remainder (.nonzero bytes) pairs ≠ [] := by
  induction pairs generalizing bytes with
  | nil => simp [remainder, nonempty]
  | cons pair rest ih =>
    rw [remainder]
    split
    · simp [nonempty]
    · exact ih (by simp)

theorem remainder_zero_eq_nil_iff : remainder (.zero run) pairs = [] ↔
    ∀ pair ∈ pairs, pair.1 = pair.2 := by
  induction pairs generalizing run with
  | nil => simp [remainder]
  | cons pair rest ih =>
    rw [remainder]
    by_cases same : pair.1 = pair.2
    · simp [same, ih]
    · simp [same, remainder_nonzero_ne_nil]

/-- A nonzero run goes on to the next equal byte or to the end. -/
theorem remainder_nonzero_split (bytes : List UInt8) (pairs : List (UInt8 × UInt8)) :
    ∃ diffs rest, pairs = diffs ++ rest ∧ (∀ pair ∈ rest.head?, pair.1 = pair.2) ∧
      remainder (.nonzero bytes) pairs = uleb (bytes.length + diffs.length) ++
        (bytes ++ diffs.map Prod.snd) ++ remainder (.zero 0) rest := by
  induction pairs generalizing bytes with
  | nil => exact ⟨[], [], rfl, by simp, by simp [remainder]⟩
  | cons pair rest ih => ?_
  by_cases same : pair.1 = pair.2
  · refine ⟨[], pair :: rest, rfl, by simpa using same, ?_⟩
    simp [remainder, same]
  obtain ⟨diffs, later, rfl, stops, value⟩ := ih (bytes ++ [pair.2])
  refine ⟨pair :: diffs, later, rfl, stops, ?_⟩
  simp only [remainder, same, if_false, value, length_append, length_cons, length_nil, append_assoc]
  congr 2
  omega

/-- Anything that differs starts with a zero run and a nonempty nonzero run. -/
theorem remainder_zero_split (run : Nat) (differs : remainder (.zero run) pairs ≠ []) :
    ∃ sames diffs rest, pairs = sames ++ (diffs ++ rest) ∧ (∀ pair ∈ sames, pair.1 = pair.2) ∧
      diffs ≠ [] ∧ (∀ pair ∈ diffs.head?, pair.1 ≠ pair.2) ∧ (∀ pair ∈ rest.head?, pair.1 = pair.2) ∧
      remainder (.zero run) pairs = uleb (run + sames.length) ++ (uleb diffs.length ++
        diffs.map Prod.snd) ++ remainder (.zero 0) rest := by
  induction pairs generalizing run with
  | nil => simp [remainder] at differs
  | cons pair rest ih => ?_
  by_cases same : pair.1 = pair.2
  · have skipped : remainder (.zero run) (pair :: rest) = remainder (.zero (run + 1)) rest := by
      simp [remainder, same]
    rw [skipped] at differs ⊢
    obtain ⟨sames, diffs, later, rfl, equal, some, starts, stops, value⟩ := ih (run + 1) differs
    refine ⟨pair :: sames, diffs, later, rfl, ?_, some, starts, stops, ?_⟩
    · rintro other (_ | ⟨_, member⟩)
      · exact same
      · exact equal other member
    · rw [value, length_cons, show run + 1 + sames.length = run + (sames.length + 1) by omega]
  · obtain ⟨diffs, later, rfl, stops, value⟩ := remainder_nonzero_split [pair.2] rest
    refine ⟨[], pair :: diffs, later, rfl, by simp, by simp, by simpa using same, stops, ?_⟩
    simp only [remainder, same, if_false, value, length_cons, length_nil,
      map_cons, append_assoc, nil_append, cons_append, Nat.add_zero]
    rw [Nat.add_comm 1]

end Qemu.Xbzrle
