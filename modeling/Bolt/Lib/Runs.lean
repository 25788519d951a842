import Mathlib.Data.Nat.Notation

/-!
# Runs of a state machine

A machine answers each input with an output and a new state. A property of the history
and the state that holds at the start and that every step keeps holds after every run.
-/

namespace Bolt.Lib.Runs

variable {σ ι ο : Type}

/-- Each input with its output, and the state at the end. -/
def run (step : σ → ι → ο × σ) : σ → List ι → List (ι × ο) × σ
  | s, [] => ([], s)
  | s, i :: is =>
    let answer := step s i
    let rest := run step answer.2 is
    ((i, answer.1) :: rest.1, rest.2)

theorem run_cons (step : σ → ι → ο × σ) (s : σ) (i : ι) (is : List ι) :
    run step s (i :: is) = ((i, (step s i).1) :: (run step (step s i).2 is).1, (run step (step s i).2 is).2) := rfl

/-- A property of history and state that every step keeps. -/
theorem run_invariant {step : σ → ι → ο × σ} {P : List (ι × ο) → σ → Prop}
    (hst : ∀ h s i, P h s → P (h ++ [(i, (step s i).1)]) (step s i).2) (is : List ι) :
    ∀ (h : List (ι × ο)) (s : σ), P h s → P (h ++ (run step s is).1) (run step s is).2 := by
  induction is with
  | nil =>
    intro h s hs
    rw [run, List.append_nil]
    exact hs
  | cons i is ih =>
    intro h s hs
    have hn := ih _ _ (hst h s i hs)
    rw [List.append_assoc] at hn
    exact hn

theorem run_map_fst (step : σ → ι → ο × σ) (is : List ι) : ∀ s, (run step s is).1.map Prod.fst = is := by
  induction is with
  | nil => intro s; rfl
  | cons i is ih =>
    intro s
    rw [run_cons, List.map_cons, ih]

/-- An invariant that steps keep for the inputs that satisfy a condition. -/
theorem run_invariant_of {step : σ → ι → ο × σ} {allowed : ι → Prop} {P : σ → Prop}
    (hst : ∀ s i, allowed i → P s → P (step s i).2) (is : List ι) (ha : ∀ i ∈ is, allowed i) {s : σ} (hs : P s) :
    P (run step s is).2 := by
  have hr := run_invariant (P := fun h s => (∀ entry ∈ h, allowed entry.1) → P s)
    (fun h s i hP hent => hst s i (hent _ (List.mem_append_right _ (List.mem_singleton_self _)))
      (hP fun entry hen => hent entry (List.mem_append_left _ hen))) is [] s fun _ => hs
  refine hr fun entry hen => ha entry.1 ?_
  rw [← run_map_fst step is s]
  exact List.mem_map_of_mem hen

end Bolt.Lib.Runs
