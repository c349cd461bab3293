import Mathlib.Data.Fintype.Order
import Mathlib.Order.RelClasses
import Mathlib.Logic.Relation

/-! Who waits for whom: a relation without cycles, and how to keep it so. -/

namespace Qemu.WaitGraph

open Relation

variable {α : Type*} {waits waits' : α → α → Prop}

def Acyclic (waits : α → α → Prop) : Prop := ∀ x, ¬TransGen waits x x

theorem Acyclic.of_none (none : ∀ x y, ¬waits x y) : Acyclic waits := fun x cycle => by
  obtain ⟨y, first, -⟩ := TransGen.head'_iff.mp cycle
  exact none x y first

theorem Acyclic.mono (acyclic : Acyclic waits) (fewer : ∀ x y, waits' x y → waits x y) :
    Acyclic waits' := fun x cycle =>
  acyclic x (TransGen.mono fewer x x cycle)

/-- A path with one more edge, to someone who does not wait, uses it at its end only. -/
theorem path_to_sink (added : ∀ x y, waits' x y → waits x y ∨ x = a ∧ y = b)
    (sink : ∀ y, ¬waits' b y) (path : TransGen waits' x y) : TransGen waits x y ∨ y = b := by
  induction path with
  | single edge => exact (added _ _ edge).imp .single And.right
  | tail _ edge ih =>
    rcases ih with before | rfl
    · exact (added _ _ edge).imp before.tail And.right
    · exact absurd edge (sink _)

/-- To wait for someone who does not wait does not close a cycle. -/
theorem Acyclic.add_sink {a b : α} (acyclic : Acyclic waits)
    (added : ∀ x y, waits' x y → waits x y ∨ x = a ∧ y = b)
    (sink : ∀ y, ¬waits' b y) : Acyclic waits' := by
  intro x cycle
  rcases path_to_sink added sink cycle with before | rfl
  · exact acyclic x before
  · obtain ⟨y, first, -⟩ := TransGen.head'_iff.mp cycle
    exact sink y first

/-- Of finitely many of whom each waits for one of them or can go on, one can go on, and everyone
waits for such a one in the end. -/
theorem Acyclic.progress (acyclic : Acyclic waits) {present : List α} {ready : α → Prop}
    (blocked : ∀ x ∈ present, ¬ready x → ∃ y ∈ present, waits x y) (member : x ∈ present) :
    ∃ y ∈ present, ready y ∧ ReflTransGen waits x y := by
  let below : {x // x ∈ present} → {x // x ∈ present} → Prop := fun y x => TransGen waits x.1 y.1
  have : Finite {x // x ∈ present} := List.finite_toSet present
  have : Std.Irrefl below := ⟨fun x => acyclic x.1⟩
  have wellFounded := Finite.wellFounded_of_trans_of_irrefl below
  have reaches : ∀ x : {x // x ∈ present}, ∃ y ∈ present, ready y ∧ ReflTransGen waits x.1 y := by
    intro x
    induction x using wellFounded.induction with
    | _ x ih =>
      by_cases free : ready x.1
      · exact ⟨x.1, x.2, free, .refl⟩
      · obtain ⟨y, here, edge⟩ := blocked x.1 x.2 free
        obtain ⟨z, there, free, path⟩ := ih ⟨y, here⟩ (.single edge)
        exact ⟨z, there, free, .head edge path⟩
  exact reaches ⟨x, member⟩

end Qemu.WaitGraph
