import Mathlib.Tactic

namespace Qemu.BitScan

/-- The first of `n` indexes from `i` on with the property, else the index after them. -/
def scan (p : Nat → Bool) : Nat → Nat → Nat
  | 0, i => i
  | n + 1, i => if p i then i else scan p n (i + 1)

/-- The first index below `size` and not below `offset` with the property, else `size`. -/
def findNext (p : Nat → Bool) (size offset : Nat) : Nat :=
  if offset ≥ size then size else scan p (size - offset) offset

variable {p : Nat → Bool} {n i size offset : Nat}

theorem le_scan : i ≤ scan p n i := by
  induction n generalizing i with
  | zero => exact le_rfl
  | succ n ih =>
    rw [scan]
    split
    · exact le_rfl
    · exact (Nat.le_succ i).trans ih

theorem scan_le : scan p n i ≤ i + n := by
  induction n generalizing i with
  | zero => exact le_rfl
  | succ n ih => ?_
  rw [scan]
  split
  · omega
  · have := @ih (i + 1)
    omega

theorem holds_scan (inside : scan p n i < i + n) : p (scan p n i) = true := by
  induction n generalizing i with
  | zero => exact absurd inside (lt_irrefl _)
  | succ n ih => ?_
  rw [scan] at inside ⊢
  split
  · assumption
  next clear =>
    rw [if_neg clear] at inside
    exact ih (by omega)

theorem clear_before_scan (above : i ≤ k) (below : k < scan p n i) : p k = false := by
  induction n generalizing i with
  | zero => exact absurd (above.trans_lt below) (lt_irrefl _)
  | succ n ih => ?_
  rw [scan] at below
  by_cases set : p i = true
  · rw [if_pos set] at below
    omega
  rw [if_neg set] at below
  by_cases here : k = i
  · rw [here]
    simpa using set
  · exact ih (by omega) below

theorem findNext_le : findNext p size offset ≤ size := by
  rw [findNext]
  split
  · exact le_rfl
  · have := @scan_le p (size - offset) offset
    omega

theorem le_findNext (inside : offset ≤ size) : offset ≤ findNext p size offset := by
  rw [findNext]
  split
  · exact inside
  · exact le_scan

theorem holds_findNext (found : findNext p size offset < size) : p (findNext p size offset) = true := by
  rw [findNext] at found ⊢
  split
  next beyond =>
    rw [if_pos beyond] at found
    exact absurd found (lt_irrefl _)
  next inside =>
    rw [if_neg inside] at found
    exact holds_scan (by omega)

theorem clear_before_findNext (above : offset ≤ k) (below : k < findNext p size offset) : p k = false := by
  rw [findNext] at below
  split at below
  · omega
  · exact clear_before_scan above below

end Qemu.BitScan
