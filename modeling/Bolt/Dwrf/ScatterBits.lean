import Bolt.Lib.BitMemory

/-!
# Scattering bits over a mask, in place

`scatterBits` moves the low bits of a buffer to the set bits of a mask, from the top down.
The decoder calls it with the same buffer as source and target. One implementation moves a
bit at a time, the other up to 64 with `pdep`; both leave each target bit with the source bit
at its rank.
-/

namespace Bolt.Dwrf

open Lib.Spread Lib.BitMemory BitVec

/-- The loop of `scatterBitsSimple`, with the numbers of target and source bits left. -/
def scatterDown (targetMask : ℕ → Bool) : (target source : ℕ) → Memory → Memory
  | 0, _, data => data
  | target + 1, source, data =>
    let maskIsSet := targetMask target
    scatterDown targetMask target (source - if maskIsSet then 1 else 0)
      (setBit data target (maskIsSet && bit data (source - 1)))

def scatterBitsSimple (numSource numTarget : ℕ) (targetMask : ℕ → Bool) (data : Memory) : Memory :=
  scatterDown targetMask numTarget numSource data

def getBitField (data : Memory) (numBits lastBit : ℕ) : BitVec 64 :=
  let highByte := lastBit / 8
  let lowByte := (lastBit - numBits) / 8
  let lowBit := (lastBit - numBits) % 8
  let bits : BitVec 64 := load 8 data lowByte >>> lowBit
  if numBits + lowBit > 64 then
    let fromNextByte := numBits + lowBit - 64
    let lastBits := (((data highByte).setWidth 64) &&& lowMask fromNextByte).setWidth 8
    bits ||| (lastBits.setWidth 64 <<< (64 - lowBit))
  else bits

/-- One round of `scatterBits`: the data and the number of source bits consumed. -/
def scatterWord (targetMask : ℕ → Bool) (numSource lowByte numBitsToWrite : ℕ) (data : Memory) : Memory × ℕ :=
  if numBitsToWrite = 64 then
    let mask : BitVec 64 := loadBits 8 targetMask lowByte
    let consume := popcount mask
    let bits := getBitField data consume numSource
    (store 8 data lowByte (pdep bits mask), consume)
  else
    let writeMask := lowMask numBitsToWrite
    let mask : BitVec 64 := loadBits 8 targetMask lowByte &&& writeMask
    let consume := popcount mask
    let bits := getBitField data consume numSource
    let newBits := pdep bits mask
    (store 8 data lowByte ((load 8 data lowByte &&& ~~~writeMask) ||| (newBits &&& writeMask)), consume)

def scatterWords (targetMask : ℕ → Bool) : (fuel highByte highBit lowByte numSource : ℕ) → Memory → Memory
  | 0, _, _, _, _, data => data
  | fuel + 1, highByte, highBit, lowByte, numSource, data =>
    let (data, consume) := scatterWord targetMask numSource lowByte ((highByte - lowByte) * 8 + highBit) data
    if lowByte = 0 then data else scatterWords targetMask fuel lowByte 0 (lowByte - 8) (numSource - consume) data

/-- `scatterBits` of fewer than `2 ^ 31` bits, the range of its `int32_t` counts. -/
def scatterBits (hasBmi2 : Bool) (numSource numTarget : ℕ) (targetMask : ℕ → Bool) (data : Memory) : Memory :=
  if hasBmi2 then
    let highByte := numTarget / 8
    scatterWords targetMask (highByte + 1) highByte (numTarget % 8) (highByte - 7) numSource data
  else scatterBitsSimple numSource numTarget targetMask data

/-- Bits from `low` up to `high` are scattered, the others are as they were. -/
def Scattered (present : ℕ → Bool) (low high : ℕ) (data data' : Memory) : Prop :=
  ∀ i, bit data' i = if low ≤ i ∧ i < high then present i && bit data (rank present i) else bit data i

variable {present : ℕ → Bool} {data data' : Memory}

theorem scatterDown_scattered (high target : ℕ) : ∀ {data' : Memory}, target ≤ high →
    Scattered present target high data data' →
    Scattered present 0 high data (scatterDown present target (rank present target) data') := by
  induction target with
  | zero => intro data' _ h; exact h
  | succ target ih =>
    intro data' hle h
    have hs : rank present (target + 1) - (if present target then 1 else 0) = rank present target := by
      rw [rank_succ]
      omega
    rw [scatterDown, hs]
    refine ih (by omega) fun i => ?_
    rw [bit_setBit]
    have hl := rank_le present target
    -- A source bit lies below the target bits that are already written.
    have hold : present target = true → bit data' (rank present (target + 1) - 1) = bit data (rank present target) := by
      intro hp
      rw [h, rank_succ, hp, if_neg (by simp; omega)]
      rfl
    have := h i
    grind

theorem getLsbD_getBitField {numBits lastBit : ℕ} (hle : numBits ≤ lastBit) (hb : numBits ≤ 64) {t : ℕ} (ht : t < numBits) :
    (getBitField data numBits lastBit).getLsbD t = bit data (lastBit - numBits + t) := by
  obtain ⟨first, rfl⟩ : ∃ first, lastBit = first + numBits := ⟨lastBit - numBits, by omega⟩
  have hw : (load 8 data (first / 8) >>> (first % 8) : BitVec 64).getLsbD t =
      (decide (first % 8 + t < 64) && bit data (first + t)) := by
    rw [getLsbD_ushiftRight, load, getLsbD_loadBits]
    congr 2
    omega
  rw [getBitField, Nat.add_sub_cancel]
  split
  · next hlo =>
    rw [getLsbD_or, hw, getLsbD_shiftLeft]
    simp only [getLsbD_setWidth, getLsbD_and]
    rw [getLsbD_lowMask (by omega)]
    by_cases hl : first % 8 + t < 64
    · simp [hl, show t < 64 - first % 8 by omega]
    · have : bit data (first + t) = (data ((first + numBits) / 8)).getLsbD (t - (64 - first % 8)) := by
        rw [bit, show (first + t) / 8 = (first + numBits) / 8 by omega, show (first + t) % 8 = t - (64 - first % 8) by omega]
      rw [this]
      simp [hl, show ¬ t < 64 - first % 8 by omega, show t < 64 by omega, show t - (64 - first % 8) < 8 by omega,
        show t - (64 - first % 8) < 64 by omega, show t - (64 - first % 8) < numBits + first % 8 - 64 by omega]
  · next hs => rw [hw, decide_eq_true (by omega), Bool.true_and]

/-- One round on data whose source bits are as they were. -/
theorem scatterWord_scattered {low numBits high : ℕ} (hb : numBits ≤ 64) (hh : 8 * low + numBits ≤ high)
    (h : Scattered present (8 * low + numBits) high data data') :
    Scattered present (8 * low) high data (scatterWord present (rank present (8 * low + numBits)) low numBits data').1 ∧
      rank present (8 * low + numBits) - (scatterWord present (rank present (8 * low + numBits)) low numBits data').2 =
        rank present (8 * low) := by
  obtain ⟨mask, hm⟩ : ∃ mask : BitVec 64, ∀ j, mask.getLsbD j = (decide (j < numBits) && present (8 * low + j)) ∧
      (if numBits = 64 then mask = loadBits 8 present low else mask = (loadBits 8 present low : BitVec 64) &&& lowMask numBits) := by
    by_cases hf : numBits = 64
    · exact ⟨loadBits 8 present low, fun j => ⟨by rw [getLsbD_loadBits, hf], by rw [if_pos hf]⟩⟩
    · refine ⟨(loadBits 8 present low : BitVec 64) &&& lowMask numBits, fun j => ⟨?_, by rw [if_neg hf]⟩⟩
      rw [getLsbD_and, getLsbD_loadBits, getLsbD_lowMask (by omega)]
      by_cases hj : j < numBits
      · simp [hj, show j < 8 * 8 by omega]
      · simp [hj]
  have hr : ∀ j ≤ numBits, rank mask.getLsbD j = rank (fun k => present (8 * low + k)) j := by
    intro j hj
    exact rank_congr j fun k hk => by rw [(hm k).1, decide_eq_true (by omega), Bool.true_and]
  have hpop : rank present (8 * low + numBits) = rank present (8 * low) + popcount mask := by
    have hab : ∀ k, rank mask.getLsbD (numBits + k) = rank mask.getLsbD numBits := by
      intro k
      induction k with
      | zero => rfl
      | succ k ih => rw [← Nat.add_assoc, rank_succ, ih, (hm _).1, decide_eq_false (by omega)]; rfl
    rw [rank_add, popcount, ← hr numBits le_rfl, ← hab (64 - numBits), Nat.add_sub_cancel' hb]
  have hpo : popcount mask ≤ 64 := rank_le _ _
  have hs := rank_le present (8 * low + numBits)
  obtain ⟨bits, hbitsdef⟩ : ∃ bits, bits = getBitField data' (popcount mask) (rank present (8 * low + numBits)) := ⟨_, rfl⟩
  have hd : ∀ j < numBits, (pdep bits mask).getLsbD j = (present (8 * low + j) && bit data (rank present (8 * low + j))) := by
    intro j hj
    rw [getLsbD_pdep _ _ (by omega), (hm j).1, decide_eq_true hj, Bool.true_and, hr j hj.le]
    cases hp : present (8 * low + j) with
    | false => rfl
    | true =>
      have hlt := rank_lt present (by omega : 8 * low + j < 8 * low + numBits) hp
      have ha := rank_add present (8 * low) j
      rw [hbitsdef, getLsbD_getBitField (by omega) hpo (by omega), h, if_neg (by omega)]
      congr 2
      omega
  obtain ⟨word, hw, hwordbits⟩ : ∃ word : BitVec 64,
      scatterWord present (rank present (8 * low + numBits)) low numBits data' = (store 8 data' low word, popcount mask) ∧
      ∀ j < 64, word.getLsbD j = if j < numBits then (pdep bits mask).getLsbD j else bit data' (8 * low + j) := by
    have hc := (hm 0).2
    rw [scatterWord, hbitsdef]
    split
    · next hf =>
      rw [if_pos hf] at hc
      rw [← hc]
      exact ⟨_, rfl, fun j hj => by rw [if_pos (by omega)]⟩
    · next hf =>
      rw [if_neg hf] at hc
      dsimp only
      rw [← hc]
      refine ⟨_, rfl, fun j hj => ?_⟩
      have hl := getLsbD_loadBits 8 (bit data') low j
      rw [getLsbD_or, getLsbD_and, getLsbD_and, getLsbD_not, load, hl, getLsbD_lowMask (by omega)]
      by_cases hlt : j < numBits <;> simp [hlt, hj]
  rw [hw]
  refine ⟨fun i => ?_, by rw [hpop, Nat.add_sub_cancel]⟩
  rw [bit_store]
  have hi := h i
  by_cases hin : 8 * low ≤ i ∧ i < 8 * low + 8 * 8
  · obtain ⟨j, rfl⟩ : ∃ j, i = 8 * low + j := ⟨i - 8 * low, by omega⟩
    grind
  · grind

theorem scatterWords_scattered {high : ℕ} (fuel : ℕ) : ∀ (hig highBit lowByte : ℕ) {data' : Memory}, lowByte < fuel →
    lowByte ≤ hig → 8 * hig + highBit ≤ high → (hig - lowByte) * 8 + highBit ≤ 64 →
    Scattered present (8 * hig + highBit) high data data' →
    Scattered present 0 high data
      (scatterWords present fuel hig highBit lowByte (rank present (8 * hig + highBit)) data') := by
  induction fuel with
  | zero => intro _ _ lowByte _ hf; exact absurd hf (Nat.not_lt_zero _)
  | succ fuel ih =>
    intro hig highBit lowByte data' hf hle hh hb h
    have ht : 8 * hig + highBit = 8 * lowByte + ((hig - lowByte) * 8 + highBit) := by omega
    rw [ht] at h hh ⊢
    obtain ⟨hs, hso⟩ := scatterWord_scattered hb hh h
    rw [scatterWords]
    dsimp only
    rw [hso]
    split
    · next hz =>
      subst hz
      exact hs
    · exact ih _ 0 _ (by omega) (by omega) (by omega) (by omega) hs

theorem scattered_self {num : ℕ} (h : num ≤ rank present num) : Scattered present 0 num data data := by
  intro i
  split
  · next hi => rw [(rank_eq_self h hi.2).1, (rank_eq_self h hi.2).2, Bool.true_and]
  · rfl

/-- Both implementations scatter the source bits over the set bits of the mask. -/
theorem scatterBits_scattered (hasBmi2 : Bool) (numTarget : ℕ) :
    Scattered present 0 numTarget data (scatterBits hasBmi2 (rank present numTarget) numTarget present data) := by
  have hs : Scattered present numTarget numTarget data data := fun i => by rw [if_neg (by omega)]
  cases hasBmi2 with
  | false => exact scatterDown_scattered numTarget numTarget le_rfl hs
  | true =>
    have ht : 8 * (numTarget / 8) + numTarget % 8 = numTarget := by omega
    have := scatterWords_scattered (numTarget / 8 + 1) _ _ (numTarget / 8 - 7) (by omega) (by omega) ht.le (by omega)
      (by rw [ht]; exact hs)
    rwa [ht] at this

end Bolt.Dwrf
