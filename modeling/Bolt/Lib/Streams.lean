import Bolt.Lib.Bytes

/-!
# Reading from a source

A source is a state with some unread text. `Reads` says that a reader finds a value behind
its encoding, whatever follows, and has one rule for each way encodings are composed.
-/

namespace Bolt.Lib.Streams

open Bytes

variable {σ γ ε α β : Type}
variable {view : σ → List γ} {x : StateT σ (Except ε) α}

/-- The reader finds the value behind the text and leaves what follows. -/
def Reads (view : σ → List γ) (x : StateT σ (Except ε) α) (text : List γ) (a : α) : Prop :=
  ∀ s rest, view s = text ++ rest → ∃ s', x.run s = .ok (a, s') ∧ view s' = rest

theorem Reads.pure (view : σ → List γ) (a : α) : Reads view (pure a : StateT σ (Except ε) α) [] a :=
  fun s _ h => ⟨s, rfl, h⟩

theorem Reads.bind {f : α → StateT σ (Except ε) β} {first snd : List γ} {a : α} {b : β} (hx : Reads view x first a)
    (hf : Reads view (f a) snd b) :
    Reads view (x >>= f) (first ++ snd) b := by
  intro s rest h
  obtain ⟨s', hr, hv⟩ := hx s (snd ++ rest) (by rw [h, List.append_assoc])
  obtain ⟨s'', hr', hv'⟩ := hf s' rest hv
  refine ⟨s'', ?_, hv'⟩
  rw [StateT.run_bind, hr]
  exact hr'

/-- Behind the first text the second reader runs, whatever it does. -/
theorem Reads.run_bind {first : List γ} {a : α} (hx : Reads view x first a) (f : α → StateT σ (Except ε) β) {s : σ}
    {rest : List γ} (h : view s = first ++ rest) :
    ∃ s', view s' = rest ∧ (x >>= f).run s = (f a).run s' := by
  obtain ⟨s', hr, hv⟩ := hx s rest h
  refine ⟨s', hv, ?_⟩
  rw [StateT.run_bind, hr]
  rfl

theorem Reads.map {text : List γ} {a : α} (f : α → β) (hx : Reads view x text a) : Reads view (f <$> x) text (f a) := by
  intro s rest h
  obtain ⟨s', hr, hv⟩ := hx s rest h
  refine ⟨s', ?_, hv⟩
  rw [StateT.run_map, hr]
  rfl

theorem Reads.lift (view : σ → List γ) {x : Except ε α} {a : α} (hx : x = .ok a) :
    Reads view (liftM x : StateT σ (Except ε) α) [] a := by
  intro s rest h
  subst hx
  exact ⟨s, rfl, h⟩

/-- The same reader a number of times. -/
def repeatM (x : StateT σ (Except ε) α) : ℕ → StateT σ (Except ε) (List α)
  | 0 => return []
  | count + 1 => do
    let first ← x
    let others ← repeatM x count
    return first :: others

theorem repeatM_add (x : StateT σ (Except ε) α) (m n : ℕ) : repeatM x (m + n) = do
      let first ← repeatM x m
      let others ← repeatM x n
      return first ++ others := by
  induction m with
  | zero => simp [repeatM]
  | succ m ih =>
    rw [Nat.succ_add]
    simp [repeatM, ih]

/-- The texts of some values, one behind the other. -/
inductive ReadsAll (view : σ → List γ) (x : StateT σ (Except ε) α) : List γ → List α → Prop
  | nil : ReadsAll view x [] []
  | cons {first others : List γ} {a : α} {as : List α} :
    Reads view x first a → ReadsAll view x others as → ReadsAll view x (first ++ others) (a :: as)

theorem ReadsAll.repeatM {text : List γ} {as : List α} (hx : ReadsAll view x text as) :
    Reads view (repeatM x as.length) text as := by
  induction hx with
  | nil => exact Reads.pure view []
  | @cons first others a as hf _ ih =>
    refine hf.bind ?_
    have hd := ih.map (a :: ·)
    exact hd

def int64Bytes (x : ℤ) : List UInt8 := leBytes 8 (x % 2 ^ 64).toNat

def int64Value (bytes : List UInt8) : ℤ :=
  if leValue bytes < 2 ^ 63 then leValue bytes else leValue bytes - 2 ^ 64

@[simp]
theorem length_int64Bytes (x : ℤ) : (int64Bytes x).length = 8 := length_leBytes 8 _

theorem int64Value_int64Bytes {x : ℤ} (hl : -2 ^ 63 ≤ x) (hh : x < 2 ^ 63) : int64Value (int64Bytes x) = x := by
  have hv : leValue (int64Bytes x) = (x % 2 ^ 64).toNat := by
    rw [int64Bytes, leValue_leBytes]
    refine Nat.mod_eq_of_lt ?_
    omega
  unfold int64Value
  rw [hv]
  by_cases hn : x < 0
  · have hm : x % 2 ^ 64 = x + 2 ^ 64 := by
      rw [← Int.add_emod_right, Int.emod_eq_of_lt (by omega) (by omega)]
    omega
  · have hm : x % 2 ^ 64 = x := Int.emod_eq_of_lt (by omega) (by omega)
    omega

end Bolt.Lib.Streams
