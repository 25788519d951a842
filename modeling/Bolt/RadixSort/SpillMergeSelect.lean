import Bolt.Lib.Merging
import Bolt.RadixSort.SpillMerge
import Mathlib.Tactic.Ring

/-!
# The stream that the merger selects

Each of the three ways to select a stream finds one whose current row is not after the
current row of any other, as long as some stream has a row.
-/

namespace Bolt.RadixSort

open Lib Lib.Sorting Lib.LoserTree

/-! ## The shape of the loser tree -/

theorem treeLevels_spec (numStreams size levelSize : ℕ) (hs : levelSize = size + 1) (hp : ∃ k, levelSize = 2 ^ k)
    (hsm : levelSize < 2 * numStreams) :
    (treeLevels numStreams size levelSize).2 = (treeLevels numStreams size levelSize).1 + 1 ∧
      (∃ k, (treeLevels numStreams size levelSize).2 = 2 ^ k) ∧
      numStreams ≤ (treeLevels numStreams size levelSize).2 ∧ (treeLevels numStreams size levelSize).2 < 2 * numStreams := by
  rw [treeLevels]
  split_ifs with hlev
  · obtain ⟨k, hk⟩ := hp
    exact treeLevels_spec numStreams _ _ (by omega) ⟨k + 1, by rw [hk, pow_succ]⟩ (by omega)
  · exact ⟨hs, hp, by dsimp only; omega, hsm⟩
termination_by numStreams - levelSize

theorem firstStreamOf_add_one {numStreams : ℕ} (h : 2 ≤ numStreams) : firstStreamOf numStreams + 1 = numStreams := by
  obtain ⟨hs, ⟨k, hp⟩, hle, hlt⟩ := treeLevels_spec numStreams 0 1 rfl ⟨0, rfl⟩ (by omega)
  unfold firstStreamOf
  generalize treeLevels numStreams 0 1 = levels at hs hp hle hlt
  obtain ⟨size, levelSize⟩ := levels
  dsimp only at hs hp hle hlt ⊢
  split_ifs with hexa
  · -- two powers of two, and the larger is less than twice the smaller
    obtain ⟨m, hm⟩ : ∃ m, numStreams = 2 ^ m := by
      unfold nextPowerOfTwo at hexa
      split_ifs at hexa with hz hlo
      · omega
      · exact ⟨_, hlo.symm⟩
      · exact ⟨numStreams.log2 + 1, by rw [pow_succ]; omega⟩
    have hmk : m ≤ k := (Nat.pow_le_pow_iff_right (by norm_num)).mp (by omega : (2 : ℕ) ^ m ≤ 2 ^ k)
    have hkm : k < m + 1 := (Nat.pow_lt_pow_iff_right (by norm_num)).mp (by rw [pow_succ]; omega : (2 : ℕ) ^ k < 2 ^ (m + 1))
    obtain rfl : k = m := by omega
    omega
  · cases k with
    | zero => omega
    | succ k =>
      omega

variable {R : Type} {less : R → R → Bool} {merger : Merger R}

namespace Merger

theorem keyAt_lt {index : ℕ} (h : (merger.keyAt index).isSome) : index < merger.streams.length := by
  by_contra hge
  rw [keyAt, List.getElem?_eq_none (not_lt.mp hge)] at h
  cases h

theorem keyAt_set {index i : ℕ} (stream : MergeStream R) (h : i ≠ index) :
    keyAt { merger with streams := merger.streams.set index stream } i = merger.keyAt i := by
  unfold keyAt
  rw [List.getElem?_set_ne h.symm]

/-- The stream is selected, and no current row comes before its row. -/
structure Selected (less : R → R → Bool) (merger : Merger R) (index : ℕ) (record : R) : Prop where
  key : merger.keyAt index = some record
  least : ∀ i b, merger.keyAt i = some b → less b record = false

/-- The way to select keeps the streams, and works again when the selected stream goes on. -/
def Selects (less : R → R → Bool) (next : Merger R → Except MergeError (ℕ × Merger R)) (Ready : Merger R → Prop) : Prop :=
  ∀ merger : Merger R, Ready merger → (∃ i, (merger.keyAt i).isSome) → ∃ index losers lastIndex record,
    next merger = .ok (index, { merger with losers := losers, lastIndex := lastIndex }) ∧ merger.Selected less index record ∧
      ∀ stream, Ready { merger with losers := losers, lastIndex := lastIndex, streams := merger.streams.set index stream }

variable (hl : StrictWeakOrder less)
include hl

theorem nextSingleStream_selects : Selects less nextSingleStream fun merger => merger.streams.length = 1 := by
  intro merger ho ⟨i, hi⟩
  have hlt := keyAt_lt hi
  obtain rfl : i = 0 := by omega
  obtain ⟨record, hr⟩ := Option.isSome_iff_exists.mp hi
  refine ⟨0, merger.losers, merger.lastIndex, record, ?_, ⟨hr, ?_⟩, ?_⟩
  · unfold nextSingleStream
    rw [hr]
  · intro j b hb
    have hj := keyAt_lt (Option.isSome_iff_exists.mpr ⟨b, hb⟩)
    obtain rfl : j = 0 := by omega
    rw [hr] at hb
    injection hb with hb
    rw [hb]
    exact hl.irrefl b
  · intro stream
    rw [List.length_set]
    exact ho

theorem nextTwoWayStream_selects : Selects less (nextTwoWayStream less) fun merger => merger.streams.length = 2 := by
  intro merger ht ⟨i, hi⟩
  have hlen index stream : (merger.streams.set index stream).length = 2 := by
    rw [List.length_set]
    exact ht
  have hind {j : ℕ} {b : R} (hb : merger.keyAt j = some b) : j = 0 ∨ j = 1 := by
    have hj := keyAt_lt (Option.isSome_iff_exists.mpr ⟨b, hb⟩)
    omega
  have hlea {record : R} (hlef : ∀ b ∈ merger.keyAt 0, less b record = false)
      (hr : ∀ b ∈ merger.keyAt 1, less b record = false) : ∀ j b, merger.keyAt j = some b → less b record = false := by
    intro j b hb
    rcases hind hb with rfl | rfl
    · exact hlef b hb
    · exact hr b hb
  unfold nextTwoWayStream
  cases hlef : merger.keyAt 0 with
  | none =>
    cases hr : merger.keyAt 1 with
    | none =>
      obtain ⟨b, hb⟩ := Option.isSome_iff_exists.mp hi
      rcases hind hb with rfl | rfl
      · rw [hlef] at hb; cases hb
      · rw [hr] at hb; cases hb
    | some right =>
      refine ⟨1, merger.losers, merger.lastIndex, right, rfl, ⟨hr, hlea ?_ ?_⟩, hlen 1⟩
      · simp [hlef]
      · simp [hr, hl.irrefl]
  | some left =>
    cases hr : merger.keyAt 1 with
    | none =>
      refine ⟨0, merger.losers, merger.lastIndex, left, rfl, ⟨hlef, hlea ?_ ?_⟩, hlen 0⟩
      · simp [hlef, hl.irrefl]
      · simp [hr]
    | some right =>
      dsimp only
      split_ifs with hlt
      · refine ⟨0, merger.losers, merger.lastIndex, left, rfl, ⟨hlef, hlea ?_ ?_⟩, hlen 0⟩
        · simp [hlef, hl.irrefl]
        · simp [hr, hl.asymm hlt]
      · refine ⟨1, merger.losers, merger.lastIndex, right, rfl, ⟨hr, hlea ?_ ?_⟩, hlen 1⟩
        · simpa [hlef] using hlt
        · simp [hr, hl.irrefl]

/-- The loser tree has not been played, or fits the rows that the streams had when it was,
where only the stream selected then may have gone on. -/
structure TreeReady (less : R → R → Bool) (merger : Merger R) : Prop where
  internal : merger.firstStream + 1 = merger.streams.length
  two_lt : 2 < merger.streams.length
  played : (merger.lastIndex = none ∧ merger.losers = fun _ => none) ∨
    ∃ last key winner, merger.lastIndex = some last ∧ Decided less key merger.firstStream merger.losers winner ∧
      winner 0 = some last ∧ ∀ i, i ≠ last → merger.keyAt i = key i

theorem TreeReady.decided (h : merger.TreeReady less) :
    ∃ winner, Decided less merger.keyAt merger.firstStream (merger.nextLoserTreeStream less).2.losers winner ∧
      winner 0 = (merger.nextLoserTreeStream less).1 := by
  unfold nextLoserTreeStream
  rcases h.played with ⟨hla, hlo⟩ | ⟨last, key, winner, hla, hd, hr, hke⟩
  · rw [hla, hlo]
    exact ⟨_, first_decided (decides_self hl), (first_winner less _ _ 0 _).symm⟩
  · rw [hla]
    have hinte := h.internal
    have ht := h.two_lt
    exact hd.propagate hl hr (by omega) hke

theorem nextOfLoserTree_selects : Selects less (nextOfLoserTree less) (TreeReady less) := by
  intro merger hre ⟨i, hi⟩
  obtain ⟨winner, hd, hr⟩ := hre.decided hl
  have hinte := hre.internal
  have hbe {j : ℕ} {b : R} (hb : merger.keyAt j = some b) : j ≤ merger.firstStream := by
    have hj := keyAt_lt (Option.isSome_iff_exists.mpr ⟨b, hb⟩)
    omega
  obtain ⟨b, hb⟩ := Option.isSome_iff_exists.mp hi
  obtain ⟨index, record, hind, hrec, -⟩ := hd.winner_least hl (hbe hb) hb (inSubtree_zero _)
  rw [hr] at hind
  have hn : merger.nextLoserTreeStream less = (some index, { merger with
      losers := (merger.nextLoserTreeStream less).2.losers, lastIndex := some index }) := by
    rw [← hind]
    rfl
  refine ⟨index, (merger.nextLoserTreeStream less).2.losers, some index, record, ?_, ⟨hrec, ?_⟩, ?_⟩
  · unfold nextOfLoserTree
    rw [hn]
  · intro j c hc
    obtain ⟨k, a, hk, ha, hle⟩ := hd.winner_least hl (hbe hc) hc (inSubtree_zero _)
    rw [hr, hind] at hk
    injection hk with hk
    subst hk
    rw [hrec] at ha
    injection ha with ha
    exact ha ▸ hle
  · intro stream
    refine ⟨?_, ?_, .inr ⟨index, merger.keyAt, winner, rfl, hd, hr.trans hind, ?_⟩⟩
    · rw [List.length_set]
      exact hinte
    · rw [List.length_set]
      exact hre.two_lt
    · intro j hj
      exact keyAt_set stream hj

end Merger

end Bolt.RadixSort
