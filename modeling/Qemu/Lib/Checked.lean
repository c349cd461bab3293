import Mathlib.Tactic

/-! Computations that may stop with an error, taken apart where they succeed. -/

namespace Qemu.Checked

variable {ε α β : Type} {x : Except ε α}

theorem bind_ok : (x >>= f) = .ok b ↔ ∃ a, x = .ok a ∧ f a = .ok b := by
  cases x with
  | error e => exact ⟨nofun, nofun⟩
  | ok a => exact ⟨fun done => ⟨a, rfl, done⟩, fun ⟨_, same, done⟩ => Except.ok.inj same ▸ done⟩

theorem ok_bind (a : α) (f : α → Except ε β) : ((.ok a : Except ε α) >>= f) = f a := rfl

theorem map_ok : (f <$> x) = .ok b ↔ ∃ a, x = .ok a ∧ f a = b := by
  cases x with
  | error e => exact ⟨nofun, nofun⟩
  | ok a =>
    exact ⟨fun done => ⟨a, rfl, Except.ok.inj done⟩,
      fun ⟨_, same, done⟩ => congrArg Except.ok (Except.ok.inj same ▸ done)⟩

theorem foldlM_ok {motive : β → Prop} {f : β → α → Except ε β}
    (step : ∀ b a next, motive b → f b a = .ok next → motive next) {items : List α}
    (holds : motive b) (done : items.foldlM f b = .ok last) : motive last := by
  induction items generalizing b with
  | nil => exact Except.ok.inj done ▸ holds
  | cons a rest ih =>
    obtain ⟨next, stepped, more⟩ := bind_ok.mp done
    exact ih (step b a next holds stepped) more

end Qemu.Checked
