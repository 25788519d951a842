import Mathlib.Data.Nat.Count

/-!
# Dense values spread over the present positions

A mask says which positions are present, and the values of the present ones are stored
densely: the value of a position is the one at its rank, the number of present
positions before it. Also, runs written out by an encoder that holds back values.
-/

namespace Bolt.Lib.Spread

variable {α : Type}
variable {i : ℕ} {present : ℕ → Bool}

/-- The number of present positions before `i`. -/
def rank (present : ℕ → Bool) (i : ℕ) : ℕ := Nat.count (fun j => present j = true) i

@[simp] theorem rank_zero (present : ℕ → Bool) : rank present 0 = 0 := Nat.count_zero _

variable (present)

theorem rank_succ (i : ℕ) : rank present (i + 1) = rank present i + if present i then 1 else 0 := Nat.count_succ _ _

theorem rank_add (a b : ℕ) :
    rank present (a + b) = rank present a + rank (fun k => present (a + k)) b := Nat.count_add _ _ _

theorem rank_le (i : ℕ) : rank present i ≤ i :=
  Nat.count_le _

theorem rank_lt {j : ℕ} (h : i < j) (hi : present i = true) : rank present i < rank present j :=
  Nat.count_strict_mono hi h

variable {present}

theorem rank_all (i : ℕ) : rank (fun _ => true) i = i := by
  induction i with
  | zero => rfl
  | succ i ih => rw [rank_succ, ih]; rfl

theorem rank_eq_self {n : ℕ} (h : n ≤ rank present n) (hi : i < n) : present i = true ∧ rank present i = i := by
  have ha := rank_add present (i + 1) (n - (i + 1))
  rw [Nat.add_sub_cancel' hi, rank_succ] at ha
  have hb := rank_le present i
  have hab := rank_le (fun k => present (i + 1 + k)) (n - (i + 1))
  split_ifs at ha with hp
  · exact ⟨hp, by omega⟩
  · omega

theorem rank_congr {present' : ℕ → Bool} (i : ℕ) (h : ∀ j < i, present j = present' j) :
    rank present i = rank present' i := by
  induction i with
  | zero => rfl
  | succ i ih => rw [rank_succ, rank_succ, ih fun j hj => h j (by omega), h i (by omega)]

/-- The present positions below `hi` hold their values, the others what they held. -/
def spread (present : ℕ → Bool) (value : ℕ → α) (hi : ℕ) (data : ℕ → α) : ℕ → α := fun i =>
  if i < hi ∧ present i then value (rank present i) else data i

@[simp] theorem spread_zero (present : ℕ → Bool) (value data : ℕ → α) : spread present value 0 data = data := by
  funext i
  simp [spread]

theorem spread_present (h : present i = true) (value data : ℕ → α) :
    Function.update (spread present value i data) i (value (rank present i)) = spread present value (i + 1) data := by
  funext j
  grind [spread, Function.update_apply]

theorem spread_absent (h : present i = false) (value data : ℕ → α) :
    spread present value (i + 1) data = spread present value i data := by
  funext j
  grind [spread]

/-! ## Runs behind a position -/

variable {ρ β : Type}

/-- An encoder went from one output and held-back values to another by taking in values:
the runs it wrote and what it still holds back are what it held back and took in. -/
def Emits (bytes : ρ → List β) (values : ρ → List α) (s s' : List β × List α) (added : List α) : Prop :=
  ∃ runs : List ρ, s'.1 = s.1 ++ runs.flatMap bytes ∧ runs.flatMap values ++ s'.2 = s.2 ++ added

section
variable {bytes : ρ → List β} {values : ρ → List α} {s s' s'' : List β × List α} {added added' : List α}

theorem Emits.refl (s : List β × List α) : Emits bytes values s s [] := ⟨[], by simp, by simp⟩

theorem Emits.hold (output : List β) (held added : List α) :
    Emits bytes values (output, held) (output, held ++ added) added := ⟨[], by simp, by simp⟩

theorem Emits.write (bytes : ρ → List β) (values : ρ → List α) (output : List β) (run : ρ) (held : List α) :
    Emits bytes values (output, values run ++ held) (output ++ bytes run, held) [] := ⟨[run], by simp, by simp⟩

theorem Emits.trans (h : Emits bytes values s s' added) (h' : Emits bytes values s' s'' added') :
    Emits bytes values s s'' (added ++ added') := by
  obtain ⟨runs, ho, hv⟩ := h
  obtain ⟨runs', ho', hv'⟩ := h'
  refine ⟨runs ++ runs', by rw [ho', ho, List.flatMap_append, List.append_assoc], ?_⟩
  rw [List.flatMap_append, List.append_assoc, hv', ← List.append_assoc, hv, List.append_assoc]

/-- Behind the output of a state, the final output holds what that state held back and
what came after it. -/
theorem Emits.behind (h : Emits bytes values s s' added) (hen : s'.2 = []) :
    ∃ runs : List ρ, s'.1.drop s.1.length = runs.flatMap bytes ∧ runs.flatMap values = s.2 ++ added := by
  obtain ⟨runs, ho, hv⟩ := h
  rw [hen, List.append_nil] at hv
  exact ⟨runs, by rw [ho, List.drop_left], hv⟩

end

end Bolt.Lib.Spread
