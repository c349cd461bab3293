import Mathlib.Tactic

/-! Moving data between a list of places and a list of values, and between a range of
addresses and a list of values. -/

namespace Qemu.Transfer

open List Function

variable {κ α : Type}

section Scatter

variable [DecidableEq κ]

/-- Store the values at the places, one after the other. -/
def scatter (m : κ → α) : List κ → List α → κ → α
  | k :: ks, v :: vs => scatter (update m k v) ks vs
  | _, _ => m

variable {m : κ → α} {ks js : List κ} {vs : List α}

@[simp] theorem scatter_nil : scatter m [] vs = m := by
  cases vs <;> rfl

theorem scatter_of_not_mem (absent : k ∉ ks) : scatter m ks vs k = m k := by
  induction ks generalizing m vs with
  | nil => simp
  | cons j ks ih =>
    obtain ⟨ne, rest⟩ : k ≠ j ∧ k ∉ ks := by simpa using absent
    cases vs with
    | nil => rfl
    | cons v vs => rw [scatter, ih rest, update_of_ne ne]

theorem scatter_append (same : ks.length = vs.length) :
    scatter m (ks ++ js) (vs ++ ws) = scatter (scatter m ks vs) js ws := by
  induction ks generalizing m vs with
  | nil =>
    obtain rfl : vs = [] := length_eq_zero_iff.mp same.symm
    simp
  | cons k ks ih =>
    cases vs with
    | nil => cases same
    | cons v vs => exact ih (by simpa using same)

theorem map_scatter (nodup : ks.Nodup) (same : ks.length = vs.length) : ks.map (scatter m ks vs) = vs := by
  induction ks generalizing m vs with
  | nil => exact (length_eq_zero_iff.mp same.symm).symm
  | cons k ks ih => ?_
  obtain ⟨absent, rest⟩ := nodup_cons.mp nodup
  cases vs with
  | nil => cases same
  | cons v vs =>
    have tail := ih (m := update m k v) rest (by simpa using same)
    simp only [map_cons, scatter, scatter_of_not_mem absent, update_self, tail]

theorem map_scatter_of_disjoint (disjoint : ∀ j ∈ js, j ∉ ks) : js.map (scatter m ks vs) = js.map m :=
  map_congr_left fun j member => scatter_of_not_mem (disjoint j member)

end Scatter

/-- The values in a range of addresses. -/
def slice (m : Nat → α) (start n : Nat) : List α := (range n).map fun k => m (start + k)

@[simp] theorem slice_length (m : Nat → α) (start n : Nat) : (slice m start n).length = n := by
  simp [slice]

@[simp] theorem slice_zero (m : Nat → α) (start : Nat) : slice m start 0 = [] := rfl

theorem slice_add (m : Nat → α) (start a b : Nat) :
    slice m start (a + b) = slice m start a ++ slice m (start + a) b := by
  simp [slice, range_add, Nat.add_assoc]

variable {m : Nat → α} {start n : Nat}

theorem slice_congr
    (same : ∀ x, start ≤ x → x < start + n → m x = m' x) : slice m start n = slice m' start n := by
  refine map_congr_left fun k member => ?_
  have := mem_range.mp member
  exact same _ (by omega) (by omega)

theorem slice_getElem? (m : Nat → α) (inside : k < n) : (slice m start n)[k]? = some (m (start + k)) := by
  simp [slice, inside]

/-- A part of a constant range. -/
theorem slice_replicate
    (whole : slice m start n = replicate n v) (above : start ≤ first)
    (below : first + k ≤ start + n) : slice m first k = replicate k v := by
  refine eq_replicate_iff.mpr ⟨slice_length .., fun b member => ?_⟩
  obtain ⟨i, inside, rfl⟩ := mem_map.mp member
  have small := mem_range.mp inside
  have here : m (start + (first - start + i)) ∈ slice m start n :=
    mem_map.mpr ⟨first - start + i, mem_range.mpr (by omega), rfl⟩
  rw [whole, show start + (first - start + i) = first + i by omega] at here
  exact eq_of_mem_replicate here

/-- Store the values in the range of addresses from `start` on. -/
def overwrite (m : Nat → α) (start : Nat) (vs : List α) (x : Nat) : α :=
  if start ≤ x then vs.getD (x - start) (m x) else m x

theorem overwrite_of_lt (before : x < start) : overwrite m start vs x = m x := if_neg (by omega)

theorem overwrite_of_ge (after : start + vs.length ≤ x) : overwrite m start vs x = m x := by
  rw [overwrite, if_pos (by omega), getD_eq_getElem?_getD, getElem?_eq_none (by omega)]
  rfl

theorem overwrite_getElem (inside : k < vs.length) : overwrite m start vs (start + k) = vs[k] := by
  rw [overwrite, if_pos (by omega), Nat.add_sub_cancel_left, getD_eq_getElem?_getD,
    getElem?_eq_getElem inside]
  rfl

section

variable (m : Nat → α)

@[simp] theorem overwrite_nil (start : Nat) : overwrite m start [] = m := by
  funext x
  simp [overwrite]

theorem overwrite_append (start : Nat) (vs ws : List α) :
    overwrite m start (vs ++ ws) = overwrite (overwrite m start vs) (start + vs.length) ws := by
  funext x
  by_cases first : x < start + vs.length
  · rw [overwrite_of_lt first]
    by_cases before : x < start
    · rw [overwrite_of_lt before, overwrite_of_lt before]
    · obtain ⟨k, rfl⟩ := Nat.exists_eq_add_of_le (by omega : start ≤ x)
      have inside : k < vs.length := by omega
      rw [overwrite_getElem (by simp; omega), overwrite_getElem inside, getElem_append_left inside]
  · by_cases second : x < start + vs.length + ws.length
    · obtain ⟨k, rfl⟩ := Nat.exists_eq_add_of_le (by omega : start + vs.length ≤ x)
      have inside : k < ws.length := by omega
      rw [overwrite_getElem inside, Nat.add_assoc, overwrite_getElem (by simp; omega)]
      simp
    · rw [overwrite_of_ge (by simp; omega), overwrite_of_ge (by omega), overwrite_of_ge (by omega)]

/-- Writing back what is there changes nothing. -/
theorem overwrite_slice (start n : Nat) : overwrite m start (slice m start n) = m := by
  funext x
  by_cases before : x < start
  · exact overwrite_of_lt before
  by_cases inside : x < start + n
  · obtain ⟨k, rfl⟩ := Nat.exists_eq_add_of_le (by omega : start ≤ x)
    rw [overwrite_getElem (by simp; omega)]
    simp [slice]
  · exact overwrite_of_ge (by simp; omega)

theorem slice_overwrite (start : Nat) (vs : List α) :
    slice (overwrite m start vs) start vs.length = vs := by
  refine ext_getElem (by simp) fun k _ inside => ?_
  simp [slice, overwrite_getElem inside]

/-- Where only a first part is stored, an address holds the new value or the old one. -/
theorem overwrite_take (start k x : Nat) (vs : List α) :
    overwrite m start (vs.take k) x = overwrite m start vs x ∨ overwrite m start (vs.take k) x = m x := by
  by_cases before : x < start
  · exact .inr (overwrite_of_lt before)
  by_cases inside : x < start + (vs.take k).length
  · obtain ⟨i, rfl⟩ := Nat.exists_eq_add_of_le (by omega : start ≤ x)
    have short : i < (vs.take k).length := by omega
    have long : i < vs.length := short.trans_le (length_take_le' k vs)
    exact .inl (by rw [overwrite_getElem short, overwrite_getElem long, getElem_take])
  · exact .inr (overwrite_of_ge (by omega))

end

theorem slice_overwrite_slice (inside : i + k ≤ n) :
    slice (overwrite m start (slice f source n)) (start + i) k = slice f (source + i) k := by
  refine map_congr_left fun j member => ?_
  have := mem_range.mp member
  rw [Nat.add_assoc, overwrite_getElem (by rw [slice_length]; omega)]
  simp [slice, Nat.add_assoc]

theorem slice_overwrite_of_disjoint (disjoint : first + n ≤ start ∨ start + vs.length ≤ first) :
    slice (overwrite m start vs) first n = slice m first n := by
  refine slice_congr fun x above below => ?_
  rcases disjoint with before | after
  · exact overwrite_of_lt (by omega)
  · exact overwrite_of_ge (by omega)

theorem overwrite_framed (m : Nat → α) (start before after : Nat) (vs : List α) :
    overwrite m start (slice m start before ++ vs ++ slice m (start + before + vs.length) after) =
      overwrite m (start + before) vs := by
  have same : slice m (start + before + vs.length) after =
      slice (overwrite m (start + before) vs) (start + before + vs.length) after :=
    (slice_overwrite_of_disjoint (.inr le_rfl)).symm
  rw [overwrite_append, overwrite_append, overwrite_slice, length_append, slice_length,
    same, ← Nat.add_assoc, overwrite_slice]

end Qemu.Transfer
