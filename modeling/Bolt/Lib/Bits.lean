import Mathlib.Data.BitVec
import Mathlib.Data.Nat.Bitwise
import Mathlib.Tactic.Ring

/-!
# The top and the lowest set bit of a word

Flipping, setting and testing the most significant bit of a bit vector, as
arithmetic on its value, and clearing its lowest set bit.
-/

namespace Bolt.Lib.Bits

open BitVec

variable {k v w : ℕ}

private theorem or_two_pow (h : v < 2 ^ k) : 2 ^ k ||| v = 2 ^ k + v := by
  simpa using (Nat.two_pow_add_eq_or_of_lt h 1).symm

private theorem xor_two_pow_of_lt (h : v < 2 ^ k) : v ^^^ 2 ^ k = v + 2 ^ k := by
  rw [Nat.add_comm, ← or_two_pow h]
  apply Nat.eq_of_testBit_eq
  intro i
  by_cases hi : k = i
  · subst hi
    simp [Nat.testBit_lt_two_pow h]
  · simp [hi]

private theorem xor_two_pow_of_le (hle : 2 ^ k ≤ v) (hlt : v < 2 ^ (k + 1)) : v ^^^ 2 ^ k = v - 2 ^ k := by
  have hl : v - 2 ^ k < 2 ^ k := by
    omega
  have hv : v = (v - 2 ^ k) ^^^ 2 ^ k := by
    rw [xor_two_pow_of_lt hl]
    omega
  rw [hv]
  simp only [Nat.xor_assoc, Nat.xor_self, Nat.xor_zero]
  rw [← hv]

private theorem and_two_pow_eq_zero (h : v < 2 ^ (k + 1)) : v &&& 2 ^ k = 0 ↔ v < 2 ^ k := by
  rw [Nat.and_two_pow]
  by_cases hv : v < 2 ^ k
  · simp [Nat.testBit_lt_two_pow hv, hv]
  · have hl : v - 2 ^ k < 2 ^ k := by
      omega
    have hb : v.testBit k = true := by
      have hs : v = 2 ^ k + (v - 2 ^ k) := by omega
      rw [hs, Nat.testBit_two_pow_add_eq, Nat.testBit_lt_two_pow hl]
      rfl
    simp [hb, hv]

private theorem toNat_one_shiftLeft (h : k < w) : (1#w <<< k).toNat = 2 ^ k := by
  rw [toNat_shiftLeft, toNat_ofNat, Nat.mod_eq_of_lt (Nat.one_lt_two_pow (by omega)),
    Nat.shiftLeft_eq, Nat.one_mul, Nat.mod_eq_of_lt (Nat.pow_lt_pow_right (by omega) h)]

/-- Flipping the top bit of a signed value adds half the range to it. -/
theorem toNat_xor_top (hw : 0 < w) (value : BitVec w) :
    ((value ^^^ (1#w <<< (w - 1))).toNat : ℤ) = value.toInt + 2 ^ (w - 1) := by
  obtain ⟨k, rfl⟩ : ∃ k, w = k + 1 := ⟨w - 1, by omega⟩
  have hlt := value.isLt
  have hp : 2 ^ (k + 1) = 2 ^ k * 2 := pow_succ 2 k
  rw [toNat_xor, toNat_one_shiftLeft (by omega), Nat.add_sub_cancel, toInt_eq_toNat_cond]
  by_cases h : value.toNat < 2 ^ k
  · rw [xor_two_pow_of_lt h, if_pos (by rw [pow_succ]; omega)]
    rfl
  · rw [xor_two_pow_of_le (by omega) hlt, if_neg (by rw [pow_succ]; omega)]
    push_cast [Nat.cast_sub (show 2 ^ k ≤ value.toNat by omega)]
    ring

/-- Setting a clear top bit and complementing a pattern whose top bit is set. -/
theorem toNat_ite_top (bits : BitVec (k + 1)) :
    (if bits &&& (1#(k + 1) <<< k) = 0 then bits ||| (1#(k + 1) <<< k) else ~~~bits).toNat =
      if bits.toNat < 2 ^ k then bits.toNat + 2 ^ k else 2 * 2 ^ k - 1 - bits.toNat := by
  have ho : (1#(k + 1) <<< k).toNat = 2 ^ k := toNat_one_shiftLeft (by omega)
  have hco : bits &&& (1#(k + 1) <<< k) = 0 ↔ bits.toNat < 2 ^ k := by
    rw [← toNat_inj, toNat_and, ho]
    exact and_two_pow_eq_zero bits.isLt
  by_cases h : bits.toNat < 2 ^ k
  · rw [if_pos (hco.mpr h), if_pos h, toNat_or, ho, Nat.or_comm, or_two_pow h, Nat.add_comm]
  · rw [if_neg (fun hc => h (hco.mp hc)), if_neg h, toNat_not, pow_succ, Nat.mul_comm]

/-! ## The lowest set bit -/

/-- A word that is not zero is an odd number shifted by its trailing zeros. -/
theorem toNat_eq_odd_shift {x : BitVec w} (hx : x ≠ 0#w) : ∃ q, x.toNat = 2 ^ x.ctz.toNat * (2 * q + 1) := by
  have hl : x.toNat % 2 ^ x.ctz.toNat = 0 := by
    refine Nat.eq_of_testBit_eq fun i => ?_
    by_cases hi : i < x.ctz.toNat
    · have hc : x.toNat.testBit i = false := getLsbD_false_of_lt_ctz hi
      simp [hc]
    · simp [hi]
  have hs : x.toNat.testBit x.ctz.toNat = true := getLsbD_true_ctz_of_ne_zero hx
  have ho : x.toNat / 2 ^ x.ctz.toNat % 2 = 1 := by
    rw [Nat.testBit_eq_decide_div_mod_eq] at hs
    simpa using hs
  refine ⟨x.toNat / 2 ^ x.ctz.toNat / 2, ?_⟩
  have hd := Nat.div_add_mod x.toNat (2 ^ x.ctz.toNat)
  have hh := Nat.div_add_mod (x.toNat / 2 ^ x.ctz.toNat) 2
  rw [ho] at hh
  rw [hh]
  omega

/-- `x & (x - 1)` clears the lowest set bit and no other. -/
theorem getLsbD_and_sub_one {x : BitVec w} (hx : x ≠ 0#w) (i : ℕ) :
    (x &&& (x - 1#w)).getLsbD i = (x.getLsbD i && decide (i ≠ x.ctz.toNat)) := by
  obtain ⟨q, hq⟩ := toNat_eq_odd_shift hx
  generalize x.ctz.toNat = c at hq ⊢
  have hp : 0 < 2 ^ c := Nat.two_pow_pos c
  have hw : w ≠ 0 := by
    rintro rfl
    exact hx (eq_nil x ▸ rfl)
  have ho : (1#w).toNat = 1 := by
    exact Nat.mod_eq_of_lt (Nat.one_lt_two_pow hw)
  have hle : 1#w ≤ x := by
    rw [le_def, ho, hq]
    exact Nat.mul_pos hp (by omega)
  have hs : (x - 1#w).toNat = 2 ^ c * (2 * q) + (2 ^ c - 1) := by
    rw [toNat_sub_of_le hle, ho, hq, Nat.mul_add]
    omega
  rw [getLsbD_and, getLsbD, getLsbD, hs, hq, Nat.testBit_two_pow_mul_add _ (by omega), Nat.testBit_two_pow_mul]
  rcases Nat.lt_trichotomy i c with h | rfl | h
  · simp [h]
  · simp
  · obtain ⟨d, rfl⟩ : ∃ d, i = c + (d + 1) := ⟨i - c - 1, by omega⟩
    have hsh : c + (d + 1) - c = d + 1 := by omega
    rw [hsh, Nat.testBit_succ, Nat.testBit_succ, show (2 * q + 1) / 2 = q by omega,
      show 2 * q / 2 = q by omega, if_neg (by omega)]
    simp

end Bolt.Lib.Bits
