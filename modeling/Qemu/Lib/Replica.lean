import Mathlib.Tactic

/-! A copy of a keyed store that is kept up to date by a stream of messages, each of which says
what one key holds and may only be applied to certain contents of that key. -/

namespace Qemu.Replica

variable {μ κ ν : Type} [DecidableEq κ]

/-- What the messages of a stream mean. -/
structure Stream (μ κ ν : Type) where
  key : μ → κ
  /-- what the key holds after the message -/
  content : μ → ν
  /-- whether a message can be applied to what the key holds -/
  Accepts : μ → ν → Prop

variable (stream : Stream μ κ ν)

/-- The copy after a message. -/
def after (copy : κ → ν) (message : μ) : κ → ν :=
  Function.update copy (stream.key message) (stream.content message)

/-- The copy after all messages. -/
def replay (copy : κ → ν) (messages : List μ) : κ → ν := messages.foldl (after stream) copy

/-- Every message can be applied when its turn comes. -/
def Coherent : (κ → ν) → List μ → Prop
  | _, [] => True
  | copy, message :: rest =>
    stream.Accepts message (copy (stream.key message)) ∧ Coherent (after stream copy message) rest

variable {stream}

theorem replay_append : replay stream copy (messages ++ more) = replay stream
    (replay stream copy messages) more :=
  List.foldl_append ..

theorem coherent_append :
    Coherent stream copy (messages ++ more) ↔
      Coherent stream copy messages ∧ Coherent stream (replay stream copy messages) more := by
  induction messages generalizing copy with
  | nil => exact ⟨fun rest => ⟨trivial, rest⟩, And.right⟩
  | cons message messages ih =>
    rw [List.cons_append, Coherent, Coherent, ih, and_assoc]
    rfl

end Qemu.Replica
