import Mathlib.Data.Nat.Notation

/-!
# Loops

A loop as a step that continues, leaves with a result, or fails, run with a bound on
the number of steps. The rule below is total: an invariant and a decreasing measure
give a result whenever the bound is above the measure.
-/

namespace Bolt.Lib.Loop

variable {σ ρ : Type*}

/-- Runs a step until it leaves the loop. -/
def iterate (step : σ → Option (σ ⊕ ρ)) : ℕ → σ → Option ρ
  | 0, _ => none
  | fuel + 1, s =>
    match step s with
    | none => none
    | some (.inl s') => iterate step fuel s'
    | some (.inr r) => some r

/-- A step that keeps an invariant and decreases a measure, or leaves the loop with the
postcondition. -/
theorem iterate_total {step : σ → Option (σ ⊕ ρ)} (I : σ → Prop) (measure : σ → ℕ) (Q : ρ → Prop)
    (hst : ∀ s, I s → (∃ s', step s = some (.inl s') ∧ I s' ∧ measure s' < measure s) ∨
      ∃ r, step s = some (.inr r) ∧ Q r) {fuel : ℕ} {s : σ} (hs : I s) (hf : measure s < fuel) :
    ∃ r, iterate step fuel s = some r ∧ Q r := by
  induction fuel generalizing s with
  | zero => exact absurd hf (Nat.not_lt_zero _)
  | succ fuel ih =>
    rw [iterate]
    rcases hst s hs with ⟨s', hs', hI, hlt⟩ | ⟨r, hr, hQ⟩
    · rw [hs']
      exact ih hI (by omega)
    · rw [hr]
      exact ⟨r, rfl, hQ⟩

end Bolt.Lib.Loop
