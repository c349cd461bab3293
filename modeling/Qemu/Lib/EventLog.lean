import Mathlib.Data.List.Basic

/-! Logs of events, oldest first: splitting a log that has just grown, and the
relation "an event of one kind, later followed by one of another kind". -/

namespace Qemu.EventLog

variable {α : Type}

/-- A split of a log that has grown by one event is either at the new event or a
split of the old log. -/
theorem concat_split (split : log ++ [new] = before ++ event :: after) :
    (log = before ∧ new = event ∧ after = []) ∨
      ∃ earlier, after = earlier ++ [new] ∧ log = before ++ event :: earlier := by
  rcases List.eq_nil_or_concat after with rfl | ⟨earlier, last, rfl⟩
  · obtain ⟨same, new_eq⟩ := List.append_inj' split rfl
    exact .inl ⟨same, by simpa using new_eq, rfl⟩
  · rw [List.concat_eq_append, ← List.cons_append, ← List.append_assoc] at split
    obtain ⟨same, new_eq⟩ := List.append_inj' split rfl
    obtain rfl : new = last := by simpa using new_eq
    exact .inr ⟨earlier, by simp, same⟩

/-- An event of the first kind with an event of the second kind after it. -/
def Then (first second : α → Prop) (log : List α) : Prop :=
  ∃ before event after, log = before ++ event :: after ∧ first event ∧ ∃ later ∈ after, second later

theorem Then.append (ordered : Then first second log) (more : List α) :
    Then first second (log ++ more) := by
  obtain ⟨before, event, after, rfl, isFirst, later, present, isSecond⟩ := ordered
  exact ⟨before, event, after ++ more, by simp, isFirst, later, by simp [present], isSecond⟩

theorem Then.concat (present : ∃ event ∈ log, first event) (isSecond : second new) :
    Then first second (log ++ [new]) := by
  obtain ⟨event, member, isFirst⟩ := present
  obtain ⟨before, after, rfl⟩ := List.append_of_mem member
  exact ⟨before, event, after ++ [new], by simp, isFirst, new, by simp, isSecond⟩

end Qemu.EventLog
