import Bolt.Lib.Spread
import Mathlib.Data.BitVec

/-!
# Memories of bytes as memories of bits

Bit `i` of a memory is bit `i % 8` of byte `i / 8`. Words of whole bytes are loaded and
stored with the low bits first, at any byte. Counting the bits of a word and depositing
bits at the set bits of a mask are stated with ranks.
-/

namespace Bolt.Lib.BitMemory

open Spread BitVec

abbrev Memory := ℕ → BitVec 8

def ofBits : (n : ℕ) → (ℕ → Bool) → BitVec n
  | 0, _ => 0#0
  | n + 1, bits => cons (bits n) (ofBits n bits)

theorem getLsbD_ofBits (n : ℕ) (bits : ℕ → Bool) (j : ℕ) : (ofBits n bits).getLsbD j = (decide (j < n) && bits j) := by
  induction n with
  | zero => simp [ofBits]
  | succ n ih => grind [ofBits]

def bit (m : Memory) (i : ℕ) : Bool := (m (i / 8)).getLsbD (i % 8)

theorem ext_bit {m m' : Memory} (h : ∀ i, bit m i = bit m' i) : m = m' := by
  funext a
  apply eq_of_getLsbD_eq
  intro j hj
  have := h (8 * a + j)
  rwa [bit, bit, show (8 * a + j) / 8 = a by omega, show (8 * a + j) % 8 = j by omega] at this

/-- The word of `k` bytes from byte `a` on, of a memory given by its bits. -/
def loadBits (k : ℕ) (bits : ℕ → Bool) (a : ℕ) : BitVec (8 * k) := ofBits _ fun j => bits (8 * a + j)

def load (k : ℕ) (m : Memory) (a : ℕ) : BitVec (8 * k) := loadBits k (bit m) a

def store (k : ℕ) (m : Memory) (a : ℕ) (word : BitVec (8 * k)) : Memory := fun b =>
  if a ≤ b ∧ b < a + k then word.extractLsb' (8 * (b - a)) 8 else m b

def setBit (m : Memory) (i : ℕ) (value : Bool) : Memory :=
  Function.update m (i / 8)
    (if value then m (i / 8) ||| (1#8 <<< (i % 8)) else m (i / 8) &&& ~~~(1#8 <<< (i % 8)))

theorem getLsbD_loadBits (k : ℕ) (bits : ℕ → Bool) (a j : ℕ) :
    (loadBits k bits a).getLsbD j = (decide (j < 8 * k) && bits (8 * a + j)) := getLsbD_ofBits _ _ _

theorem bit_store (k : ℕ) (m : Memory) (a : ℕ) (word : BitVec (8 * k)) (i : ℕ) :
    bit (store k m a word) i = if 8 * a ≤ i ∧ i < 8 * a + 8 * k then word.getLsbD (i - 8 * a) else bit m i := by
  rw [bit, store]
  split
  · rw [if_pos (by omega), getLsbD_extractLsb', decide_eq_true (by omega), Bool.true_and]
    congr 1
    omega
  · rw [if_neg (by omega), bit]

theorem bit_update (m : Memory) (a : ℕ) (byte : BitVec 8) (i : ℕ) :
    bit (Function.update m a byte) i = if i / 8 = a then byte.getLsbD (i % 8) else bit m i := by
  rw [bit, Function.update_apply]
  split <;> rfl

theorem bit_setBit (m : Memory) (i : ℕ) (value : Bool) (j : ℕ) :
    bit (setBit m i value) j = if j = i then value else bit m j := by
  rw [setBit, bit_update]
  split
  · next hd =>
    cases value <;> simp [← hd, show j % 8 < 8 by omega, bit] <;> grind
  · rw [if_neg (by rintro rfl; contradiction)]

def popcount {n : ℕ} (word : BitVec n) : ℕ := rank word.getLsbD n

/-- The low bits of a word, deposited at the set bits of a mask. -/
def pdep {n : ℕ} (word mask : BitVec n) : BitVec n :=
  ofBits _ fun j => mask.getLsbD j && word.getLsbD (rank mask.getLsbD j)

theorem getLsbD_pdep {n : ℕ} (word mask : BitVec n) {j : ℕ} (hj : j < n) :
    (pdep word mask).getLsbD j = (mask.getLsbD j && word.getLsbD (rank mask.getLsbD j)) := by
  rw [pdep, getLsbD_ofBits, decide_eq_true hj, Bool.true_and]

def lowMask (n : ℕ) : BitVec 64 := (1#64 <<< n) - 1#64

theorem getLsbD_lowMask {n : ℕ} (hn : n < 64) (j : ℕ) : (lowMask n).getLsbD j = decide (j < n) := by
  have hpo : 2 ^ n < 2 ^ 64 := Nat.pow_lt_pow_right (by omega) hn
  have hp : 0 < 2 ^ n := Nat.two_pow_pos n
  have hv : (lowMask n).toNat = 2 ^ n - 1 := by
    rw [lowMask, toNat_sub_of_le, toNat_shiftLeft]
    · simp only [toNat_ofNat, Nat.shiftLeft_eq]
      omega
    · rw [le_def, toNat_shiftLeft]
      simp only [toNat_ofNat, Nat.shiftLeft_eq]
      omega
  rw [getLsbD, hv, Nat.testBit_two_pow_sub_one]

end Bolt.Lib.BitMemory
