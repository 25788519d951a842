import Mathlib.Algebra.Order.Ring.Int

/-!
# Signed machine integers

A signed integer of a fixed width is an integer between the least and the greatest
value of the width. A sum or a difference that leaves these bounds has no defined
value, so the steps by one are partial.
-/

namespace Bolt.Lib.SignedInts

/-- A two's complement integer of `bits` bits. -/
@[ext]
structure SignedInt (bits : ℕ) where
  val : ℤ
  le_val : -2 ^ (bits - 1) ≤ val
  val_lt : val < 2 ^ (bits - 1)
deriving DecidableEq

namespace SignedInt

variable {bits : ℕ}

theorem val_injective : Function.Injective (val : SignedInt bits → ℤ) := fun _ _ h => SignedInt.ext h

instance : LinearOrder (SignedInt bits) := LinearOrder.lift' val val_injective

theorem exists_val_eq {low high : SignedInt bits} {x : ℤ} (hl : low.val ≤ x) (hh : x ≤ high.val) :
    ∃ v : SignedInt bits, v.val = x :=
  ⟨⟨x, low.le_val.trans hl, hh.trans_lt high.val_lt⟩, rfl⟩

variable {x y : SignedInt bits}

theorem le_iff : x ≤ y ↔ x.val ≤ y.val := .rfl

theorem lt_iff : x < y ↔ x.val < y.val := by
  rw [← not_le, le_iff, not_le]

/-- `std::numeric_limits::min()`. -/
protected def min (bits : ℕ) : SignedInt bits where
  val := -2 ^ (bits - 1)
  le_val := le_refl _
  val_lt := by
    have h : (0 : ℤ) < 2 ^ (bits - 1) := pow_pos (by decide) _
    omega

/-- `std::numeric_limits::max()`. -/
protected def max (bits : ℕ) : SignedInt bits where
  val := 2 ^ (bits - 1) - 1
  le_val := by
    have h : (0 : ℤ) < 2 ^ (bits - 1) := pow_pos (by decide) _
    omega
  val_lt := by omega

instance : BoundedOrder (SignedInt bits) where
  top := SignedInt.max bits
  le_top x := by
    have h := x.val_lt
    show x.val ≤ 2 ^ (bits - 1) - 1
    omega
  bot := SignedInt.min bits
  bot_le x := x.le_val

/-- `x + 1`, where it does not overflow. -/
def succ? (x : SignedInt bits) : Option (SignedInt bits) :=
  if h : x.val + 1 < 2 ^ (bits - 1) then some ⟨x.val + 1, by have := x.le_val; omega, h⟩ else none

/-- `x - 1`, where it does not overflow. -/
def pred? (x : SignedInt bits) : Option (SignedInt bits) :=
  if h : -2 ^ (bits - 1) ≤ x.val - 1 then some ⟨x.val - 1, h, by have := x.val_lt; omega⟩ else none

theorem succ?_eq_some : x.succ? = some y ↔ y.val = x.val + 1 := by
  unfold succ?
  constructor
  · intro h
    split at h
    · cases h
      rfl
    · cases h
  · intro h
    have hlt : x.val + 1 < 2 ^ (bits - 1) := h ▸ y.val_lt
    rw [dif_pos hlt]
    exact congrArg some (SignedInt.ext h.symm)

theorem pred?_eq_some : x.pred? = some y ↔ y.val = x.val - 1 := by
  unfold pred?
  constructor
  · intro h
    split at h
    · cases h
      rfl
    · cases h
  · intro h
    have hle : -2 ^ (bits - 1) ≤ x.val - 1 := h ▸ y.le_val
    rw [dif_pos hle]
    exact congrArg some (SignedInt.ext h.symm)

theorem exists_succ? (h : x < y) : ∃ z, x.succ? = some z ∧ z.val = x.val + 1 := by
  have hlt : x.val + 1 < 2 ^ (bits - 1) := by
    have hx := lt_iff.mp h
    have hy := y.val_lt
    omega
  have hle := x.le_val
  let z : SignedInt bits := ⟨x.val + 1, by omega, hlt⟩
  exact ⟨z, succ?_eq_some.mpr rfl, rfl⟩

theorem exists_pred? (h : y < x) : ∃ z, x.pred? = some z ∧ z.val = x.val - 1 := by
  have hle : -2 ^ (bits - 1) ≤ x.val - 1 := by
    have hx := lt_iff.mp h
    have hy := y.le_val
    omega
  have hlt := x.val_lt
  let z : SignedInt bits := ⟨x.val - 1, hle, by omega⟩
  exact ⟨z, pred?_eq_some.mpr rfl, rfl⟩

theorem succ?_top : (⊤ : SignedInt bits).succ? = none := by
  cases h : (⊤ : SignedInt bits).succ? with
  | none => rfl
  | some y =>
    have hv := succ?_eq_some.mp h
    have hle := le_iff.mp (le_top (a := y))
    omega

end SignedInt

end Bolt.Lib.SignedInts
