import Mathlib.Tactic

/-! I/O vectors.  The bytes of a vector are the list `locs` of places they are stored at;
each function on vectors is described by what it does to that list. -/

namespace Qemu.Block

open List Option

variable {ρ : Type}

/-- An element: `len` bytes from `base` in one allocation. -/
structure Iovec (ρ : Type) where
  region : ρ
  base : Nat
  len : Nat
  deriving DecidableEq, Repr

abbrev Loc (ρ : Type) := ρ × Nat

def Iovec.locs (v : Iovec ρ) : List (Loc ρ) := (range v.len).map fun k => (v.region, v.base + k)

def locs (iov : List (Iovec ρ)) : List (Loc ρ) := iov.flatMap Iovec.locs

def iovSize (iov : List (Iovec ρ)) : Nat := (iov.map Iovec.len).sum

/-- The loop of `qemu_iovec_concat_iov`, which the copying loops share: the parts of the
elements that make up `sbytes` bytes from `soffset` on. -/
def pieces : List (Iovec ρ) → Nat → Nat → List (Iovec ρ)
  | [], _, _ => []
  | v :: rest, soffset, sbytes =>
    if sbytes = 0 then []
    else if soffset < v.len then
      let len := min (v.len - soffset) sbytes
      ⟨v.region, v.base + soffset, len⟩ :: pieces rest 0 (sbytes - len)
    else pieces rest (soffset - v.len) sbytes

/-- `none` is a read past the last element. -/
def iovSkipOffset : List (Iovec ρ) → Nat → Option (List (Iovec ρ) × Nat)
  | iov, 0 => some (iov, 0)
  | [], _ + 1 => none
  | v :: rest, offset + 1 =>
    if offset + 1 ≥ v.len then iovSkipOffset rest (offset + 1 - v.len)
    else some (v :: rest, offset + 1)

/-- The elements that hold the requested range and the bytes to skip in the first one; `none`
is a failed assertion. -/
def qemuIovecSlice (qiov : List (Iovec ρ)) (offset len : Nat) : Option (List (Iovec ρ) × Nat) :=
  if offset + len ≤ iovSize qiov then do
    let (iov, head) ← iovSkipOffset qiov offset
    let (endIov, tail) ← iovSkipOffset iov (head + len)
    match tail, endIov with
    | 0, endIov => some (iov.take (iov.length - endIov.length), head)
    | _ + 1, [] => none
    | tail + 1, last :: endIov =>
      if tail + 1 < last.len then some (iov.take (iov.length - endIov.length), head) else none
  else none

def qemuIovecInitSlice (source : List (Iovec ρ)) (offset len : Nat) : Option (List (Iovec ρ)) := do
  let (iov, head) ← qemuIovecSlice source offset len
  match iov with
  | [v] => some [⟨v.region, v.base + head, len⟩]
  | iov => some (pieces iov head len)

@[simp] theorem Iovec.locs_length (v : Iovec ρ) : v.locs.length = v.len := by simp [Iovec.locs]

@[simp] theorem locs_nil : locs ([] : List (Iovec ρ)) = [] := rfl

@[simp] theorem locs_cons (v : Iovec ρ) (iov : List (Iovec ρ)) :
    locs (v :: iov) = v.locs ++ locs iov := rfl

@[simp] theorem locs_append (a b : List (Iovec ρ)) : locs (a ++ b) = locs a ++ locs b := by
  simp [locs]

@[simp] theorem iovSize_nil : iovSize ([] : List (Iovec ρ)) = 0 := rfl

@[simp] theorem iovSize_cons (v : Iovec ρ) (iov : List (Iovec ρ)) :
    iovSize (v :: iov) = v.len + iovSize iov := rfl

@[simp] theorem iovSize_append (a b : List (Iovec ρ)) : iovSize (a ++ b) = iovSize a + iovSize b := by
  simp [iovSize]

theorem locs_length (iov : List (Iovec ρ)) : (locs iov).length = iovSize iov := by
  induction iov with
  | nil => rfl
  | cons v rest ih => simp [ih]

/-- A part of an element holds a part of its bytes. -/
theorem Iovec.locs_part (v : Iovec ρ) (skip n : Nat) :
    Iovec.locs ⟨v.region, v.base + skip, min (v.len - skip) n⟩ = (v.locs.drop skip).take n := by
  refine ext_getElem (by simp [Nat.min_comm]) fun k first second => ?_
  simp [Iovec.locs, Nat.add_assoc]

theorem locs_pieces (iov : List (Iovec ρ)) (soffset sbytes : Nat) :
    locs (pieces iov soffset sbytes) = ((locs iov).drop soffset).take sbytes := by
  induction iov generalizing soffset sbytes with
  | nil => simp [pieces]
  | cons v rest ih => ?_
  rw [pieces]
  split
  next none => simp [none]
  split
  · rw [locs_cons, locs_cons, ih, Iovec.locs_part, drop_append_of_le_length (by simp; omega), take_append]
    congr 1
    simp only [length_drop, Iovec.locs_length]
    congr 1
    omega
  · have gone : v.locs.drop soffset = [] := drop_of_length_le (by simp; omega)
    rw [locs_cons, ih, drop_append, gone, Iovec.locs_length, nil_append]

theorem pieces_nonempty : ∀ v ∈ pieces iov soffset sbytes, 0 < v.len := by
  induction iov generalizing soffset sbytes with
  | nil => simp [pieces]
  | cons v rest ih => ?_
  rw [pieces]
  split
  · simp
  split
  · intro w member
    rcases mem_cons.mp member with rfl | member
    · dsimp only; omega
    · exact ih w member
  · exact ih

section

variable {iov rest : List (Iovec ρ)} {offset head len : Nat}

/-- Skipping ends in an element, with the skipped elements before it. -/
theorem iovSkipOffset_spec (nonempty : ∀ v ∈ iov, 0 < v.len) (inside : offset ≤ iovSize iov) :
    ∃ before rest left, iovSkipOffset iov offset = some (rest, left) ∧ iov = before ++ rest ∧
      offset = iovSize before + left ∧ (left = 0 ∨ ∃ v tail, rest = v :: tail ∧ left < v.len) := by
  induction iov generalizing offset with
  | nil =>
    obtain rfl : offset = 0 := by simpa using inside
    exact ⟨[], [], 0, rfl, rfl, rfl, .inl rfl⟩
  | cons v rest ih => ?_
  cases offset with
  | zero => exact ⟨[], v :: rest, 0, rfl, rfl, rfl, .inl rfl⟩
  | succ offset => ?_
  rw [iovSkipOffset]
  split
  · rw [iovSize_cons] at inside
    obtain ⟨before, last, left, skipped, split, sum, landed⟩ :=
      ih (fun w member => nonempty w (mem_cons_of_mem v member))
        (by omega : offset + 1 - v.len ≤ iovSize rest)
    have total : offset + 1 = v.len + iovSize before + left := by
      clear landed
      omega
    exact ⟨v :: before, last, left, skipped, by rw [split]; rfl, by rw [iovSize_cons, total], landed⟩
  · exact ⟨[], v :: rest, offset + 1, rfl, rfl, by simp, .inr ⟨v, rest, rfl, by omega⟩⟩

/-- The elements a slice returns: the requested range starts in the first of them and
reaches into the last one. -/
structure SliceOf (qiov : List (Iovec ρ)) (offset len : Nat) (iov : List (Iovec ρ)) (head : Nat) :
    Prop where
  count : iov.length ≤ qiov.length
  nonempty : ∀ v ∈ iov, 0 < v.len
  member : ∀ v ∈ iov, v ∈ qiov
  window : ((locs iov).drop head).take len = ((locs qiov).drop offset).take len
  enough : head + len ≤ iovSize iov
  starts : ∀ v rest, iov = v :: rest → head < v.len
  ends : iov ≠ [] → iovSize iov.dropLast < head + len

/-- A range that lies in a prefix of the elements. -/
theorem window_of_prefix (enough : head + len ≤ iovSize iov) :
    ((locs (iov ++ more)).drop head).take len = ((locs iov).drop head).take len := by
  have size := locs_length iov
  rw [locs_append, drop_append_of_le_length (by omega),
    take_append_of_le_length (by rw [length_drop]; omega)]

variable {qiov : List (Iovec ρ)}

theorem qemuIovecSlice_spec (nonempty : ∀ v ∈ qiov, 0 < v.len) (inside : offset + len ≤ iovSize qiov) :
    ∃ iov head, qemuIovecSlice qiov offset len = some (iov, head) ∧ SliceOf qiov offset len iov head := by
  obtain ⟨before, rest, head, skipped, split, sum, landed⟩ :=
    iovSkipOffset_spec nonempty (by omega : offset ≤ iovSize qiov)
  have restNonempty : ∀ v ∈ rest, 0 < v.len := fun v member =>
    nonempty v (by rw [split]; exact mem_append_right before member)
  have room : head + len ≤ iovSize rest := by
    rw [split, iovSize_append] at inside
    omega
  obtain ⟨whole, rest', tail, skipped', split', sum', landed'⟩ := iovSkipOffset_spec restNonempty room
  -- the elements returned are a prefix of `rest` that the range fills up to its last element
  have of_prefix : ∀ iov more, rest = iov ++ more → head + len ≤ iovSize iov →
      (iov ≠ [] → iovSize iov.dropLast < head + len) → SliceOf qiov offset len iov head := by
    intro iov more isPrefix enough ends
    have fromRest : ∀ v ∈ iov, v ∈ rest := fun v member => by
      rw [isPrefix]; exact mem_append_left more member
    refine ⟨?_, fun v member => restNonempty v (fromRest v member),
      fun v member => by rw [split]; exact mem_append_right before (fromRest v member),
      ?_, enough, fun v more' first => ?_, ends⟩
    · rw [split, isPrefix]
      simp
      omega
    · have skip : (locs qiov).drop offset = (locs rest).drop head := by
        rw [split, locs_append, sum, ← locs_length, ← drop_drop, drop_left]
      rw [skip, isPrefix, window_of_prefix enough]
    rcases landed with zero | ⟨w, tail, same, less⟩
    · rw [zero]
      exact restNonempty v (fromRest v (by rw [first]; exact mem_cons_self))
    · rw [isPrefix, first] at same
      obtain ⟨rfl, -⟩ := cons.inj same
      exact less
  simp only [qemuIovecSlice, if_pos inside, skipped, skipped', bind_eq_bind, bind_some]
  cases tail with
  | zero =>
    refine ⟨whole, head, ?_, of_prefix whole rest' split' (by omega) fun some => ?_⟩
    · dsimp only
      rw [split', length_append, Nat.add_sub_cancel, take_left]
    have last : 0 < (whole.getLast some).len :=
      restNonempty _ (by rw [split']; exact mem_append_left _ (getLast_mem some))
    have sizes := congrArg iovSize (dropLast_append_getLast some)
    rw [iovSize_append, iovSize_cons] at sizes
    omega
  | succ tail =>
    rcases landed' with zero | ⟨v, more, same, less⟩
    · cases zero
    subst same
    refine ⟨whole ++ [v], head, ?_, of_prefix (whole ++ [v]) more (by simpa using split') ?_ ?_⟩
    · dsimp only
      rw [if_pos less, split', length_append, length_cons,
        show whole.length + (more.length + 1) - more.length = (whole ++ [v]).length by simp; omega,
        append_cons whole v more, take_left]
    · rw [iovSize_append, iovSize_cons]
      omega
    · intro _
      rw [dropLast_concat]
      omega

/-- Every element of a slice contributes to the vector built from it. -/
theorem pieces_length (starts : ∀ v rest, iov = v :: rest → head < v.len)
    (nonempty : ∀ v ∈ iov, 0 < v.len) (ends : iov ≠ [] → iovSize iov.dropLast < head + len)
    (pos : 0 < len) : (pieces iov head len).length = iov.length := by
  induction iov generalizing head len with
  | nil => rfl
  | cons v rest ih => ?_
  have first := starts v rest rfl
  rw [pieces, if_neg (by omega), if_pos first]
  rw [length_cons, length_cons]
  cases rest with
  | nil => simp [pieces]
  | cons w rest =>
    have reach := ends (by simp)
    rw [dropLast_cons_cons, iovSize_cons] at reach
    rw [ih (fun u more same => nonempty u (by rw [same]; simp))
      (fun u member => nonempty u (by simp [member])) (fun _ => by omega) (by omega)]

theorem qemuIovecInitSlice_spec (nonempty : ∀ v ∈ qiov, 0 < v.len) (inside : offset + len ≤ iovSize qiov) :
    ∃ iov, qemuIovecInitSlice qiov offset len = some iov ∧
    locs iov = ((locs qiov).drop offset).take len := by
  obtain ⟨iov, head, sliced, isSlice⟩ := qemuIovecSlice_spec nonempty inside
  simp only [qemuIovecInitSlice, sliced, bind_eq_bind, bind_some]
  rw [← isSlice.window]
  split
  next v =>
    refine ⟨_, rfl, ?_⟩
    have enough := isSlice.enough
    rw [iovSize_cons, iovSize_nil] at enough
    have part := v.locs_part head len
    rw [Nat.min_eq_right (by omega)] at part
    simp [part]
  · exact ⟨_, rfl, locs_pieces _ _ _⟩

end

end Qemu.Block
