import Mathlib.Tactic

/-! Loops with early exit, run on fuel, and the rules to reason about them: an
invariant that a step keeps and a measure that a step lowers. -/

namespace Qemu.Loop

variable {σ ρ : Type}

/-- What one pass through a loop body decides. -/
inductive Step (σ ρ : Type) where
  | next (state : σ)
  | done (result : ρ)
  deriving Repr, DecidableEq

/-- Repeat a body until it is done; `none` is an aborted body or spent fuel. -/
def run (body : σ → Option (Step σ ρ)) : Nat → σ → Option ρ
  | 0, _ => none
  | fuel + 1, state =>
    match body state with
    | none => none
    | some (.next later) => run body fuel later
    | some (.done result) => some result

/-- The body is not aborted; it goes on as `next` says or ends as `exit` says. -/
def Decides (next : σ → Prop) (exit : ρ → Prop) : Option (Step σ ρ) → Prop
  | none => False
  | some (.next later) => next later
  | some (.done result) => exit result

theorem Decides.imp {next next' : σ → Prop} {exit : ρ → Prop} {decision : Option (Step σ ρ)}
    (decides : Decides next exit decision) (weaker : ∀ later, next later → next' later) :
    Decides next' exit decision := by
  match decision, decides with
  | some (.next later), goesOn => exact weaker later goesOn
  | some (.done _), ends => exact ends

variable {fuel : Nat} {state : σ}

/-- Total correctness: with fuel above the measure the loop is done, and its
result satisfies what every exit establishes. -/
theorem run_spec {body : σ → Option (Step σ ρ)} {post : ρ → Prop} (inv : σ → Prop)
    (measure : σ → Nat) (step : ∀ state, inv state →
      Decides (fun later => inv later ∧ measure later < measure state) post (body state))
    (holds : inv state) (enough : measure state < fuel) :
    ∃ result, run body fuel state = some result ∧ post result := by
  induction fuel generalizing state with
  | zero => exact absurd enough (Nat.not_lt_zero _)
  | succ fuel ih =>
    rw [run]
    match body state, step state holds with
    | some (.next later), ⟨kept, smaller⟩ => exact ih kept (by omega)
    | some (.done result), good => exact ⟨result, rfl, good⟩

/-- A loop that only tests and updates. -/
def repeatWhile (test : σ → Bool) (body : σ → σ) : Nat → σ → σ
  | 0, state => state
  | fuel + 1, state => if test state then repeatWhile test body fuel (body state) else state

theorem repeatWhile_spec (test : σ → Bool) (body : σ → σ) (inv : σ → Prop) (measure : σ → Nat)
    (step : ∀ state, inv state → test state = true →
      inv (body state) ∧ measure (body state) < measure state) (holds : inv state)
      (enough : measure state ≤ fuel) :
    inv (repeatWhile test body fuel state) ∧ test (repeatWhile test body fuel state) = false := by
  induction fuel generalizing state with
  | zero =>
    refine ⟨holds, Bool.eq_false_iff.mpr fun more => ?_⟩
    have := (step state holds more).2
    omega
  | succ fuel ih => ?_
  rw [repeatWhile]
  split
  next more =>
    obtain ⟨kept, smaller⟩ := step state holds more
    exact ih kept (by omega)
  next stop => exact ⟨holds, Bool.eq_false_iff.mpr stop⟩

end Qemu.Loop
