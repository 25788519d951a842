import Mathlib.Tactic.Ring
import Mathlib.Tactic.Positivity

/-!
# Binary floating-point formats

Bit patterns of a binary interchange format as naturals, the exact value of a
pattern, and the integer key under which patterns sort as their values do. Values
are counted in units of the least subnormal, so they are integers.
-/

namespace Bolt.Lib.Ieee

/-- The widths of a format's exponent and fraction fields. -/
structure Format where
  exponentBits : ℕ
  fractionBits : ℕ

namespace Format

variable (f : Format)
variable {bits a b : ℕ}

/-- The weight of the sign bit, which is also the number of magnitudes. -/
def sign : ℕ := 2 ^ (f.exponentBits + f.fractionBits)

def infinity : ℕ := (2 ^ f.exponentBits - 1) * 2 ^ f.fractionBits

def magnitude (bits : ℕ) : ℕ := bits % f.sign

/-- All exponent bits and some fraction bit. -/
def IsNaN (bits : ℕ) : Prop := f.infinity < f.magnitude bits

instance (bits : ℕ) : Decidable (f.IsNaN bits) := inferInstanceAs (Decidable (_ < _))

/-- The value of a magnitude: subnormal below the first exponent step, then an
implicit leading bit shifted by the exponent. -/
def scaled (m : ℕ) : ℕ :=
  if m / 2 ^ f.fractionBits = 0 then m % 2 ^ f.fractionBits
  else (2 ^ f.fractionBits + m % 2 ^ f.fractionBits) * 2 ^ (m / 2 ^ f.fractionBits - 1)

/-- The exact value of a pattern that is not a NaN. Both zeros have value zero. -/
def value (bits : ℕ) : ℤ :=
  if bits < f.sign then (f.scaled (f.magnitude bits) : ℤ) else -(f.scaled (f.magnitude bits) : ℤ)

/-- The order in which all NaNs are equal and above every other value, and the two
zeros are equal. -/
def compareValues (a b : ℕ) : Ordering :=
  if f.IsNaN a then (if f.IsNaN b then .eq else .gt)
  else if f.IsNaN b then .lt
  else compare (f.value a) (f.value b)

/-- The key of a pattern: non-negative patterns move above all negative ones, and
negative patterns are turned around. -/
def sortKey (bits : ℕ) : ℕ :=
  if bits < f.sign then bits + f.sign else 2 * f.sign - 1 - bits

/-- The key with every NaN at the top and the negative zero on the positive one. -/
def normalizeKey (key : ℕ) : ℕ :=
  if key < f.sign - 1 - f.infinity ∨ f.sign + f.infinity < key then 2 * f.sign - 1
  else if key = f.sign - 1 then f.sign
  else key

theorem sign_pos : 0 < f.sign := by
  unfold sign
  positivity

private theorem scaled_lt_succ (m : ℕ) : f.scaled m < f.scaled (m + 1) := by
  have hp : 0 < 2 ^ f.fractionBits := by positivity
  obtain ⟨e, q, hq, rfl⟩ : ∃ e q, q < 2 ^ f.fractionBits ∧ m = 2 ^ f.fractionBits * e + q :=
    ⟨m / 2 ^ f.fractionBits, m % 2 ^ f.fractionBits, Nat.mod_lt _ hp, (Nat.div_add_mod _ _).symm⟩
  unfold scaled
  generalize 2 ^ f.fractionBits = w at *
  have hd : (w * e + q) / w = e := by rw [Nat.mul_add_div hp, Nat.div_eq_of_lt hq, Nat.add_zero]
  have hm : (w * e + q) % w = q := by rw [Nat.mul_add_mod, Nat.mod_eq_of_lt hq]
  by_cases hl : q + 1 < w
  · -- the exponent stays and the fraction grows by one
    have hd' : (w * e + q + 1) / w = e := by
      rw [Nat.add_assoc, Nat.mul_add_div hp, Nat.div_eq_of_lt hl, Nat.add_zero]
    have hm' : (w * e + q + 1) % w = q + 1 := by
      rw [Nat.add_assoc, Nat.mul_add_mod, Nat.mod_eq_of_lt hl]
    rw [hd, hm, hd', hm']
    split
    · omega
    · exact Nat.mul_lt_mul_of_pos_right (by omega) (by positivity)
  · -- the fraction wraps and the exponent grows by one
    have hw : w * e + q + 1 = w * (e + 1) := by
      rw [Nat.mul_add, Nat.mul_one]
      omega
    have hd' : (w * e + q + 1) / w = e + 1 := by rw [hw, Nat.mul_div_cancel_left _ hp]
    have hm' : (w * e + q + 1) % w = 0 := by rw [hw, Nat.mul_mod_right]
    rw [hd, hm, hd', hm', if_neg (Nat.succ_ne_zero e)]
    cases e with
    | zero =>
      simpa using hq
    | succ e =>
      have hs : w + q < w * 2 := by omega
      calc (w + q) * 2 ^ e < w * 2 * 2 ^ e := Nat.mul_lt_mul_of_pos_right hs (by positivity)
        _ = (w + 0) * (2 ^ e * 2) := by ring

theorem scaled_strictMono : StrictMono f.scaled :=
  strictMono_nat_of_lt_succ f.scaled_lt_succ

@[simp] theorem scaled_zero : f.scaled 0 = 0 := by
  simp [scaled]

private theorem magnitude_eq_self (h : bits < f.sign) : f.magnitude bits = bits :=
  Nat.mod_eq_of_lt h

private theorem magnitude_eq_sub (hle : ¬bits < f.sign) (hlt : bits < 2 * f.sign) : f.magnitude bits = bits - f.sign := by
  unfold magnitude
  rw [Nat.mod_eq_sub_mod (by omega), Nat.mod_eq_of_lt (by omega)]

theorem normalizeKey_of_isNaN (hlt : bits < 2 * f.sign) (hn : f.IsNaN bits) :
    f.normalizeKey (f.sortKey bits) = 2 * f.sign - 1 := by
  unfold IsNaN at hn
  unfold normalizeKey sortKey
  by_cases hs : bits < f.sign
  · rw [f.magnitude_eq_self hs] at hn
    rw [if_pos hs, if_pos (.inr (by omega))]
  · rw [f.magnitude_eq_sub hs hlt] at hn
    rw [if_neg hs, if_pos (.inl (by omega))]

theorem normalizeKey_of_not_isNaN (hlt : bits < 2 * f.sign) (hn : ¬f.IsNaN bits) :
    f.normalizeKey (f.sortKey bits) = if bits = f.sign then f.sign else f.sortKey bits := by
  unfold IsNaN at hn
  unfold normalizeKey sortKey
  by_cases hs : bits < f.sign
  · rw [f.magnitude_eq_self hs] at hn
    rw [if_pos hs, if_neg (by omega), if_neg (by omega), if_neg (by omega)]
  · rw [f.magnitude_eq_sub hs hlt] at hn
    rw [if_neg hs, if_neg (by omega)]
    by_cases hz : bits = f.sign
    · rw [if_pos (by omega), if_pos hz]
    · rw [if_neg (by omega), if_neg hz]

theorem scaled_pos {m : ℕ} : 0 < f.scaled m ↔ 0 < m := by
  have hlt := f.scaled_strictMono.lt_iff_lt (a := 0) (b := m)
  rwa [f.scaled_zero] at hlt

private def signedMagnitude (bits : ℕ) : ℤ :=
  if bits < f.sign then (bits : ℤ) else -((bits - f.sign : ℕ) : ℤ)

variable (ha : a < 2 * f.sign) (hb : b < 2 * f.sign)
include ha hb

private theorem value_lt_iff : f.value a < f.value b ↔ f.signedMagnitude a < f.signedMagnitude b := by
  have hlt : ∀ m n, f.scaled m < f.scaled n ↔ m < n := fun m n => f.scaled_strictMono.lt_iff_lt
  unfold value signedMagnitude
  by_cases hs : a < f.sign
  · rw [if_pos hs, if_pos hs, f.magnitude_eq_self hs]
    by_cases hsb : b < f.sign
    · rw [if_pos hsb, if_pos hsb, f.magnitude_eq_self hsb]
      exact_mod_cast hlt a b
    · omega
  · rw [if_neg hs, if_neg hs, f.magnitude_eq_sub hs ha]
    split_ifs with hsb
    · rw [f.magnitude_eq_self hsb]
      have hp := f.scaled_pos (m := a - f.sign)
      have hpb := f.scaled_pos (m := b)
      omega
    · rw [f.magnitude_eq_sub hsb hb]
      have hf := hlt (b - f.sign) (a - f.sign)
      omega

private theorem normalizeKey_lt_iff (hn : ¬f.IsNaN a) (hnb : ¬f.IsNaN b) :
    f.normalizeKey (f.sortKey a) < f.normalizeKey (f.sortKey b) ↔ f.value a < f.value b := by
  rw [f.value_lt_iff ha hb, f.normalizeKey_of_not_isNaN ha hn, f.normalizeKey_of_not_isNaN hb hnb]
  unfold signedMagnitude sortKey
  split_ifs <;> omega

/-- A NaN's key is above the key of every other pattern. -/
private theorem normalizeKey_lt_top (hn : ¬f.IsNaN a) (hnb : f.IsNaN b) :
    f.normalizeKey (f.sortKey a) < 2 * f.sign - 1 := by
  have hinf : f.infinity < f.sign - 1 := by
    have hm : f.magnitude b < f.sign := Nat.mod_lt _ f.sign_pos
    unfold IsNaN at hnb
    omega
  rw [f.normalizeKey_of_not_isNaN ha hn]
  unfold IsNaN at hn
  unfold sortKey
  by_cases hs : a < f.sign
  · rw [f.magnitude_eq_self hs] at hn
    split_ifs <;> omega
  · split_ifs <;> omega

omit ha hb in
private theorem compare_eq_of_lt_iff {x y : ℤ} (hlt : a < b ↔ x < y) (hgt : b < a ↔ y < x) :
    compare a b = compare x y := by
  rcases lt_trichotomy x y with h | h | h
  · rw [Nat.compare_eq_lt.mpr (hlt.mpr h), Int.compare_eq_lt.mpr h]
  · rw [Int.compare_eq_eq.mpr h, Nat.compare_eq_eq]
    omega
  · rw [Nat.compare_eq_gt.mpr (hgt.mpr h), Int.compare_eq_gt.mpr h]

/-- The normalized keys sort patterns as their values, all NaNs last. -/
theorem compare_normalizeKey :
    compare (f.normalizeKey (f.sortKey a)) (f.normalizeKey (f.sortKey b)) = f.compareValues a b := by
  unfold compareValues
  by_cases hna : f.IsNaN a
  · rw [if_pos hna, f.normalizeKey_of_isNaN ha hna]
    by_cases hn : f.IsNaN b
    · rw [if_pos hn, f.normalizeKey_of_isNaN hb hn, Nat.compare_eq_eq]
    · rw [if_neg hn, Nat.compare_eq_gt]
      exact f.normalizeKey_lt_top hb ha hn hna
  · rw [if_neg hna]
    by_cases hn : f.IsNaN b
    · rw [if_pos hn, f.normalizeKey_of_isNaN hb hn, Nat.compare_eq_lt]
      exact f.normalizeKey_lt_top ha hb hna hn
    · rw [if_neg hn]
      exact compare_eq_of_lt_iff (f.normalizeKey_lt_iff ha hb hna hn) (f.normalizeKey_lt_iff hb ha hn hna)

/-- A pattern that is neither a NaN nor the negative zero. -/
def Ordinary (bits : ℕ) : Prop := ¬f.IsNaN bits ∧ bits ≠ f.sign

instance (bits : ℕ) : Decidable (f.Ordinary bits) := inferInstanceAs (Decidable (_ ∧ _))

omit ha hb in
theorem normalizeKey_of_ordinary (hlt : bits < 2 * f.sign) (h : f.Ordinary bits) :
    f.normalizeKey (f.sortKey bits) = f.sortKey bits := by
  rw [f.normalizeKey_of_not_isNaN hlt h.1, if_neg h.2]

theorem compare_sortKey (ho : f.Ordinary a) (hob : f.Ordinary b) :
    compare (f.sortKey a) (f.sortKey b) = f.compareValues a b := by
  rw [← f.compare_normalizeKey ha hb, f.normalizeKey_of_ordinary ha ho, f.normalizeKey_of_ordinary hb hob]

theorem sortKey_inj (h : f.sortKey a = f.sortKey b) : a = b := by
  unfold sortKey at h
  split_ifs at h <;> omega

end Format

end Bolt.Lib.Ieee
