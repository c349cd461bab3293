import Mathlib.Data.List.GetD
import Mathlib.Tactic

/-! Two-level lookup trees whose second-level tables may be shared between trees: a root is a
list of words, each word names a table, and the tables hold entries.  Every word refers to
the unit its table is stored in, and every entry to a number of units. -/

namespace Qemu.TwoLevel

open Function List Nat Finset

structure Shape (W E : Type) where
  /-- where the table of a word is; 0 if it has none -/
  target : W → Nat
  empty : W
  target_empty : target empty = 0
  /-- the number of entries in a table -/
  size : Nat
  size_pos : 0 < size
  blank : E
  /-- how often an entry refers to a unit -/
  weight : E → Nat → Nat
  weight_blank : ∀ c, weight blank c = 0
  /-- the length of a unit -/
  unit : Nat

variable {W E : Type} (sh : Shape W E)

namespace Shape

def tableAt (root : List W) (i : Nat) : Nat := sh.target (root.getD i sh.empty)

def lookup (root : List W) (tables : Nat → Nat → E) (g : Nat) : E :=
  if sh.tableAt root (g / sh.size) = 0 then sh.blank
  else tables (sh.tableAt root (g / sh.size)) (g % sh.size)

def refersTo (c : Nat) (w : W) : Bool := sh.target w ≠ 0 ∧ sh.target w / sh.unit = c

/-- The words of a root that refer to a unit. -/
def tableRefs (root : List W) (c : Nat) : Nat := root.countP (sh.refersTo c)

/-- The references from the entries of a tree to a unit. -/
def dataRefs (root : List W) (tables : Nat → Nat → E) (c : Nat) : Nat :=
  ∑ g ∈ Finset.range (root.length * sh.size), sh.weight (sh.lookup root tables g) c

end Shape

variable {sh} {root : List W} {tables : Nat → Nat → E} {c g i t : Nat}

theorem tableAt_of_length_le (beyond : root.length ≤ i) : sh.tableAt root i = 0 := by
  rw [Shape.tableAt, getD_eq_default _ _ beyond, sh.target_empty]

theorem lt_length_of_tableAt (used : sh.tableAt root i ≠ 0) : i < root.length := by
  by_contra beyond
  exact used (tableAt_of_length_le (Nat.le_of_not_lt beyond))

theorem mem_of_tableAt (used : sh.tableAt root i ≠ 0) : ∃ w ∈ root, sh.target w = sh.tableAt root i := by
  have inside := lt_length_of_tableAt used
  exact ⟨root[i], getElem_mem inside, by rw [Shape.tableAt, getD_eq_getElem _ _ inside]⟩

theorem tableAt_append (n : Nat) : sh.tableAt (root ++ replicate n sh.empty) i = sh.tableAt root i := by
  by_cases inside : i < root.length
  · rw [Shape.tableAt, Shape.tableAt, getD_append _ _ _ _ inside]
  rw [Shape.tableAt, getD_append_right _ _ _ _ (Nat.le_of_not_lt inside),
    tableAt_of_length_le (Nat.le_of_not_lt inside)]
  have padding : (replicate n sh.empty).getD (i - root.length) sh.empty = sh.empty := by
    rw [getD_eq_getElem?_getD, getElem?_replicate]
    split <;> rfl
  rw [padding, sh.target_empty]

theorem lookup_append (n : Nat) :
    sh.lookup (root ++ replicate n sh.empty) tables = sh.lookup root tables := by
  funext g
  simp [Shape.lookup, tableAt_append]

theorem lookup_of_length_le (beyond : root.length * sh.size ≤ g) : sh.lookup root tables g = sh.blank := by
  have outside : root.length ≤ g / sh.size := (le_div_iff_mul_le sh.size_pos).mpr beyond
  rw [Shape.lookup, if_pos (tableAt_of_length_le outside)]

theorem tableRefs_append (n : Nat) :
    sh.tableRefs (root ++ replicate n sh.empty) c = sh.tableRefs root c := by
  have none : sh.refersTo c sh.empty = false := by simp [Shape.refersTo, sh.target_empty]
  rw [Shape.tableRefs, countP_append, countP_replicate, none]
  rfl

theorem dataRefs_append (n : Nat) :
    sh.dataRefs (root ++ replicate n sh.empty) tables c = sh.dataRefs root tables c := by
  rw [Shape.dataRefs, lookup_append]
  symm
  apply sum_subset
  · intro g inside
    simp only [Finset.mem_range, length_append] at inside ⊢
    exact lt_of_lt_of_le inside (mul_le_mul_right _ (le_add_right _ _))
  · intro g _ outside
    rw [lookup_of_length_le (by simpa using outside), sh.weight_blank]

/-- A change to a table that no word of the root names is not seen. -/
theorem lookup_update_unused (table : Nat → E) (unused : ∀ i, sh.tableAt root i ≠ t) :
    sh.lookup root (update tables t table) = sh.lookup root tables := by
  funext g
  simp only [Shape.lookup]
  rw [update_of_ne (unused _)]

/-- A change to an entry of a table that only one word names changes one entry of the tree. -/
theorem lookup_update_entry (e : E) (j : Nat) (small : j < sh.size) (here : sh.tableAt root i = t)
    (nonzero : t ≠ 0) (alone : ∀ i', sh.tableAt root i' = t → i' = i) :
    sh.lookup root (update tables t (update (tables t) j e)) =
      update (sh.lookup root tables) (i * sh.size + j) e := by
  funext g
  by_cases same : g = i * sh.size + j
  · have row : g / sh.size = i := by
      rw [same, mul_comm, mul_add_div sh.size_pos, div_eq_of_lt small, add_zero]
    have column : g % sh.size = j := by
      rw [same, mul_comm, mul_add_mod, mod_eq_of_lt small]
    rw [same, update_self, ← same, Shape.lookup, row, here, if_neg nonzero, column, update_self,
      update_self]
  · rw [update_of_ne same, Shape.lookup, Shape.lookup]
    by_cases table : sh.tableAt root (g / sh.size) = t
    · have column : g % sh.size ≠ j := by
        intro equal
        have position := div_add_mod g sh.size
        rw [alone _ table, equal, mul_comm] at position
        exact same position.symm
      rw [table, update_self, update_of_ne column]
    · rw [update_of_ne table]

theorem sum_update (f f' : Nat → Nat) (inside : g < n) (others : ∀ g', g' ≠ g → f' g' = f g') :
    ∑ k ∈ Finset.range n, f' k + f g = ∑ k ∈ Finset.range n, f k + f' g := by
  have member := Finset.mem_range.mpr inside
  have rest : ∑ k ∈ (Finset.range n).erase g, f' k = ∑ k ∈ (Finset.range n).erase g, f k := by
    refine sum_congr rfl fun k away => others k (ne_of_mem_erase away)
  rw [← add_sum_erase _ f' member, ← add_sum_erase _ f member]
  omega

variable {root' : List W} {tables' : Nat → Nat → E}

/-- One entry of the tree changed from `old` to `new`. -/
theorem dataRefs_update {e : E} (length : root'.length = root.length) (inside : g < root.length * sh.size)
    (changed : sh.lookup root' tables' = update (sh.lookup root tables) g e) :
    sh.dataRefs root' tables' c + sh.weight (sh.lookup root tables g) c =
      sh.dataRefs root tables c + sh.weight e c := by
  rw [Shape.dataRefs, length]
  have step := sum_update (fun k => sh.weight (sh.lookup root tables k) c)
    (fun k => sh.weight (sh.lookup root' tables' k) c) inside
    (fun k away => by simp [changed, update_of_ne away])
  simp only [changed, update_self] at step ⊢
  exact step

theorem dataRefs_congr
    (length : root'.length = root.length) (same : sh.lookup root' tables' = sh.lookup root tables) :
    sh.dataRefs root' tables' c = sh.dataRefs root tables c := by
  rw [Shape.dataRefs, Shape.dataRefs, length, same]

theorem weight_le_dataRefs (sh : Shape W E) (root : List W) (tables : Nat → Nat → E) (g c : Nat) :
    sh.weight (sh.lookup root tables g) c ≤ sh.dataRefs root tables c := by
  by_cases inside : g < root.length * sh.size
  · exact Finset.single_le_sum (f := fun k => sh.weight (sh.lookup root tables k) c)
      (fun _ _ => zero_le _) (Finset.mem_range.mpr inside)
  · rw [lookup_of_length_le (Nat.le_of_not_lt inside), sh.weight_blank]
    exact zero_le _

theorem tableAt_set (w : W) (inside : i < root.length) (i' : Nat) :
    sh.tableAt (root.set i w) i' = if i' = i then sh.target w else sh.tableAt root i' := by
  simp only [Shape.tableAt, getD_eq_getElem?_getD]
  by_cases same : i' = i
  · rw [if_pos same, same, getElem?_set_self inside]
    rfl
  · rw [if_neg same, getElem?_set_ne (Ne.symm same)]

/-- Moving a table to a place no other word names leaves the tree as it was. -/
theorem lookup_move (inside : i < root.length) (nonzero : sh.target w ≠ 0)
    (unused : ∀ i', sh.tableAt root i' ≠ sh.target w)
    (copied : ∀ j < sh.size, table j = sh.lookup root tables (i * sh.size + j)) :
    sh.lookup (root.set i w) (update tables (sh.target w) table) = sh.lookup root tables := by
  funext g
  rw [Shape.lookup, tableAt_set w inside]
  by_cases row : g / sh.size = i
  · rw [if_pos row, if_neg nonzero, update_self, copied _ (mod_lt _ sh.size_pos), ← row, mul_comm,
      div_add_mod]
  · rw [if_neg row, update_of_ne (unused _), Shape.lookup]

theorem tableRefs_set (w : W) (inside : i < root.length) :
    sh.tableRefs (root.set i w) c + (if sh.refersTo c (root.getD i sh.empty) then 1 else 0) =
      sh.tableRefs root c + (if sh.refersTo c w then 1 else 0) := by
  have positive : sh.refersTo c root[i] = true → 0 < countP (sh.refersTo c) root := fun refers =>
    countP_pos_iff.mpr ⟨_, getElem_mem inside, refers⟩
  rw [Shape.tableRefs, Shape.tableRefs, countP_set inside, getD_eq_getElem _ _ inside]
  by_cases refers : sh.refersTo c root[i] = true
  · have := positive refers
    simp only [refers, if_true]
    omega
  · simp only [refers]
    simp

theorem tableRefs_pos (used : sh.tableAt root i ≠ 0) :
    0 < sh.tableRefs root (sh.tableAt root i / sh.unit) := by
  obtain ⟨w, member, target⟩ := mem_of_tableAt used
  refine countP_pos_iff.mpr ⟨w, member, ?_⟩
  simp [Shape.refersTo, target, used]

/-- A unit with one reference from the words of a root belongs to one of them. -/
theorem eq_of_tableRefs_le_one (once : sh.tableRefs root c ≤ 1)
    (used : sh.tableAt root i ≠ 0) (unit : sh.tableAt root i / sh.unit = c)
    (used' : sh.tableAt root i' ≠ 0) (unit' : sh.tableAt root i' / sh.unit = c) : i' = i := by
  by_contra distinct
  have inside := lt_length_of_tableAt used
  -- without word `i` the other one is still counted
  have removed : sh.tableRefs (root.set i sh.empty) c + _ = sh.tableRefs root c + _ :=
    tableRefs_set sh.empty inside
  have here : sh.refersTo c (root.getD i sh.empty) = true := by
    simpa [Shape.refersTo] using ⟨used, unit⟩
  have gone : sh.refersTo c sh.empty = false := by simp [Shape.refersTo, sh.target_empty]
  have other : sh.tableAt (root.set i sh.empty) i' = sh.tableAt root i' := by
    rw [tableAt_set _ inside, if_neg distinct]
  have left : 0 < sh.tableRefs (root.set i sh.empty) (sh.tableAt (root.set i sh.empty) i' / sh.unit) :=
    tableRefs_pos (other ▸ used')
  rw [other, unit'] at left
  simp only [here, gone, if_true, Bool.false_eq_true, if_false] at removed
  omega

end Qemu.TwoLevel
