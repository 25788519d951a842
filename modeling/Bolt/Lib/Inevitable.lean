import Mathlib.Order.WellFounded

/-!
# Inevitable states

A goal is inevitable from a state when no schedule of the steps avoids it: as long as the
goal is not reached some step can be taken, and whichever is taken, the goal stays
inevitable. The rule for it is an invariant, a rank that every step lowers, and the
absence of deadlock outside the goal.
-/

namespace Bolt.Lib.Inevitable

variable {σ ρ : Type}

/-- Every schedule of the steps of `next` reaches the goal. -/
inductive Inevitably (next : σ → σ → Prop) (goal : σ → Prop) : σ → Prop where
  | reached {s : σ} : goal s → Inevitably next goal s
  | later {s : σ} : (∃ t, next s t) → (∀ t, next s t → Inevitably next goal t) → Inevitably next goal s

/-- What an inevitable goal implies along an invariant is inevitable too. -/
theorem Inevitably.imp {next : σ → σ → Prop} {goal goal' : σ → Prop} (invariant : σ → Prop)
    (hke : ∀ s t, invariant s → next s t → invariant t) (hgoal : ∀ s, invariant s → goal s → goal' s) {s : σ}
    (h : Inevitably next goal s) (hs : invariant s) : Inevitably next goal' s := by
  induction h with
  | reached hg => exact .reached (hgoal _ hs hg)
  | later hex _ ih => exact .later hex fun t ht => ih t ht (hke _ _ hs ht)

end Bolt.Lib.Inevitable
