import Mathlib.Data.Rat.Cast.Order
import Mathlib.Tactic.FieldSimp

/-!
# Decimals of a variant as text

A variant holds a decimal as its scale and an unscaled value of 32, 64 or 128 bits. The
text of the wide ones is made by a loop of its own, after a shortcut through 64 bits.
-/

namespace Bolt.Functions

open List

/-- The decimals of a variant: `lo` and `hi` are the two words of the wide ones. -/
inductive VariantDecimal where
  | decimal4 (raw : BitVec 32)
  | decimal8 (raw : BitVec 64)
  | decimal16 (lo hi : BitVec 64)
deriving DecidableEq

namespace VariantDecimal

def unscaled : VariantDecimal → ℤ
  | decimal4 raw => raw.toInt
  | decimal8 raw => raw.toInt
  | decimal16 lo hi => (hi ++ lo).toInt

end VariantDecimal

/-- Zeros are inserted in front while there are no more digits than the scale. -/
def padDigits (scale : ℕ) (digits : List Char) : List Char := replicate (scale + 1 - digits.length) '0' ++ digits

def placePoint (neg : Bool) (digits : List Char) (scale : ℕ) : List Char :=
  let text :=
    if scale = 0 then
      digits
    else
      let digits := padDigits scale digits
      digits.take (digits.length - scale) ++ '.' :: digits.drop (digits.length - scale)
  if neg then '-' :: text else text

def formatDecimal {bits : ℕ} (raw : BitVec bits) (scale : ℕ) : List Char :=
  let neg := decide (raw.toInt < 0)
  let absVal := if neg then 0 - raw else raw
  placePoint neg (Nat.toDigits 10 absVal.toNat) scale

def digitLoop (val : ℕ) : List Char :=
  if h : 0 < val then Nat.digitChar (val % 10) :: digitLoop (val / 10) else []
termination_by val
decreasing_by exact Nat.div_lt_self h (by decide)

/-- The decimal cases of `decodeImpl`. The negation of the least 128-bit number
overflows. -/
def decodeDecimal (scale : ℕ) : VariantDecimal → Option (List Char)
  | .decimal4 raw => some (formatDecimal raw scale)
  | .decimal8 raw => some (formatDecimal raw scale)
  | .decimal16 lo hi =>
    if hi = 0 then
      some (formatDecimal lo scale)
    else if hi = -1 ∧ lo.toInt < 0 then
      some (formatDecimal lo scale)
    else
      let val := (hi ++ lo).toInt
      let neg := decide (val < 0)
      if neg ∧ val = -2 ^ 127 then
        none
      else
        let val := val.natAbs
        let digits := if val = 0 then ['0'] else (digitLoop val).reverse
        some (placePoint neg digits scale)

/-- The text is a sign, digits, and for a positive scale a point and so many digits, and it
stands for the unscaled value divided by a power of ten. -/
def Denotes (text : List Char) (unscaled : ℤ) (scale : ℕ) : Prop :=
  ∃ whole fraction : List Char,
    text = (if unscaled < 0 then ['-'] else []) ++ whole ++ (if scale = 0 then [] else '.' :: fraction) ∧
    whole ≠ [] ∧ fraction.length = scale ∧ (∀ c ∈ whole ++ fraction, c.isDigit) ∧
    (Nat.ofDigitChars 10 whole 0 + Nat.ofDigitChars 10 fraction 0 / 10 ^ scale : ℚ) = |unscaled| / 10 ^ scale

def VariantDecimal.Misprinted : VariantDecimal → Prop
  | .decimal4 _ => False
  | .decimal8 _ => False
  | .decimal16 lo hi =>
    2 ^ 63 ≤ (hi ++ lo).toInt ∧ (hi ++ lo).toInt < 2 ^ 64 ∨ (hi ++ lo).toInt = -2 ^ 127

theorem ofDigitChars_padDigits (scale : ℕ) (digits : List Char) :
    Nat.ofDigitChars 10 (padDigits scale digits) 0 = Nat.ofDigitChars 10 digits 0 := by
  rw [padDigits, Nat.ofDigitChars_append, Nat.ofDigitChars_replicate_zero, Nat.mul_zero]

theorem placePoint_denotes (unscaled : ℤ) (scale : ℕ) :
    Denotes (placePoint (decide (unscaled < 0)) (Nat.toDigits 10 unscaled.natAbs) scale) unscaled scale := by
  generalize hd : Nat.toDigits 10 unscaled.natAbs = digits
  have hv : Nat.ofDigitChars 10 digits 0 = unscaled.natAbs := hd ▸ Nat.ofDigitChars_ten_toDigits
  have hdi : ∀ c ∈ digits, c.isDigit := fun c hc =>
    Nat.isDigit_of_mem_toDigits (by decide) (by decide) (hd.symm ▸ hc)
  have hne : digits ≠ [] := hd ▸ Nat.toDigits_ne_nil
  have ha : (unscaled.natAbs : ℚ) = |unscaled| := by rw [Nat.cast_natAbs]
  by_cases hscale : scale = 0
  · subst hscale
    refine ⟨digits, [], ?_, hne, rfl, by simpa using hdi, ?_⟩
    · by_cases hn : unscaled < 0 <;> simp [placePoint, hn]
    · simp [hv, ha]
  · have hl : scale + 1 ≤ (padDigits scale digits).length := by
      rw [padDigits, length_append, length_replicate]
      omega
    generalize hpadded : padDigits scale digits = padded at hl
    have hs := @Nat.ofDigitChars_append 10 (padded.take (padded.length - scale))
      (padded.drop (padded.length - scale)) 0
    rw [take_append_drop, ← hpadded, ofDigitChars_padDigits, hv, hpadded,
      @Nat.ofDigitChars_eq_ofDigitChars_zero (padded.drop _), length_drop,
      show padded.length - (padded.length - scale) = scale by omega] at hs
    refine ⟨padded.take (padded.length - scale), padded.drop (padded.length - scale), ?_, ?_, ?_, ?_, ?_⟩
    · by_cases hn : unscaled < 0 <;> simp [placePoint, hn, hscale, hpadded]
    · rw [← length_pos_iff, length_take]
      omega
    · rw [length_drop]
      omega
    · rw [take_append_drop, ← hpadded, padDigits]
      intro c hc
      rcases mem_append.mp hc with hz | hc
      · rw [eq_of_mem_replicate hz]
        decide
      · exact hdi c hc
    · rw [← ha, hs]
      push_cast
      field_simp

theorem formatDecimal_denotes {bits : ℕ} (raw : BitVec bits) (scale : ℕ) :
    Denotes (formatDecimal raw scale) raw.toInt scale := by
  have ha : (if raw.toInt < 0 then 0 - raw else raw).toNat = raw.toInt.natAbs := by
    have hs : (0 - raw).toNat = (2 ^ bits - raw.toNat) % 2 ^ bits := by simp
    rw [BitVec.toInt_eq_toNat_cond]
    split_ifs
    · omega
    · omega
    · rw [hs, Nat.mod_eq_of_lt (by omega)]
      omega
    · omega
  have hd := placePoint_denotes raw.toInt scale
  rw [← ha] at hd
  simpa [formatDecimal] using hd

theorem digitLoop_eq (val : ℕ) (hp : 0 < val) : (digitLoop val).reverse = Nat.toDigits 10 val := by
  induction val using Nat.strongRecOn with
  | ind val ih =>
    rw [digitLoop, dif_pos hp, reverse_cons, Nat.toDigits_eq_if (by decide)]
    split
    · next hlt =>
      rw [Nat.div_eq_of_lt hlt, Nat.mod_eq_of_lt hlt, digitLoop]
      rfl
    · next hge => rw [ih (val / 10) (by omega) (by omega)]

theorem not_denotes_of_neg {bits : ℕ} {raw : BitVec bits} (hn : raw.toInt < 0) {unscaled : ℤ} (hp : 0 ≤ unscaled)
    (scale : ℕ) : ¬Denotes (formatDecimal raw scale) unscaled scale := by
  intro ⟨whole, fraction, ht, hne, _, hd, _⟩
  obtain ⟨first, rest, rfl⟩ := exists_cons_of_ne_nil hne
  simp only [formatDecimal, placePoint, hn, not_lt.mpr hp, decide_true, if_true, if_false, nil_append,
    cons_append, cons_eq_cons] at ht
  have hf := hd first (by simp)
  rw [← ht.1] at hf
  exact absurd hf (by decide)

/-- The text of a decimal denotes it exactly unless it is one of the misprinted ones. -/
theorem decodeDecimal_denotes_iff (decimal : VariantDecimal) (scale : ℕ) :
    (∃ text, decodeDecimal scale decimal = some text ∧ Denotes text decimal.unscaled scale) ↔ ¬decimal.Misprinted := by
  match decimal with
  | .decimal4 raw => exact iff_of_true ⟨_, rfl, formatDecimal_denotes raw scale⟩ id
  | .decimal8 raw => exact iff_of_true ⟨_, rfl, formatDecimal_denotes raw scale⟩ id
  | .decimal16 lo hi =>
    have hword := BitVec.toInt_eq_toNat_cond lo
    have hval : (hi ++ lo).toInt = 2 ^ 64 * hi.toInt + lo.toNat := BitVec.toInt_append
    rw [VariantDecimal.Misprinted, VariantDecimal.unscaled, decodeDecimal]
    by_cases hzero : hi = 0
    · have hhi : hi.toInt = 0 := by rw [hzero]; rfl
      rw [if_pos hzero]
      by_cases hneg : lo.toInt < 0
      · refine iff_of_false ?_ (by omega)
        intro ⟨text, htext, hdenotes⟩
        cases htext
        exact not_denotes_of_neg hneg (by omega) scale hdenotes
      · have heq : (hi ++ lo).toInt = lo.toInt := by omega
        exact iff_of_true ⟨_, rfl, heq ▸ formatDecimal_denotes lo scale⟩ (by omega)
    have hhi : hi.toInt ≠ 0 := fun h => hzero (BitVec.eq_of_toInt_eq h)
    rw [if_neg hzero]
    by_cases hminus : hi = -1 ∧ lo.toInt < 0
    · have hhi : hi.toInt = -1 := by rw [hminus.1]; rfl
      have heq : (hi ++ lo).toInt = lo.toInt := by omega
      rw [if_pos hminus]
      exact iff_of_true ⟨_, rfl, heq ▸ formatDecimal_denotes lo scale⟩ (by omega)
    have hdigits : (if (hi ++ lo).toInt.natAbs = 0 then ['0'] else (digitLoop (hi ++ lo).toInt.natAbs).reverse) =
        Nat.toDigits 10 (hi ++ lo).toInt.natAbs := by
      rw [if_neg (by omega), digitLoop_eq _ (by omega)]
    simp only [hdigits]
    split_ifs with hleast
    · exact iff_of_false (by simp) (by simp [hleast.2])
    · refine iff_of_true ⟨_, rfl, placePoint_denotes _ scale⟩ ?_
      simp only [decide_eq_true_eq] at hleast
      omega

def twoPow63 : VariantDecimal := .decimal16 (BitVec.ofNat 64 (2 ^ 63)) 0

/-- The text has the sign of the lower word. -/
theorem decodeDecimal_twoPow63 : ¬∃ text, decodeDecimal 0 twoPow63 = some text ∧ Denotes text twoPow63.unscaled 0 := by
  intro ⟨text, htext, hdenotes⟩
  cases htext
  exact not_denotes_of_neg (by decide) (by decide) 0 hdenotes

end Bolt.Functions
