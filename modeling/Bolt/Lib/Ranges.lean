import Mathlib.Data.List.Basic
import Mathlib.Data.List.Pairwise

/-!
# Ranges of a sequence

A half-open range of positions, and work done on it in place: the range is replaced,
everything else stays. Work on disjoint ranges can be done in any order.
-/

namespace Bolt.Lib.Ranges

open List

variable {α : Type*} {l out : List α} {i j p q : ℕ}

/-- The elements at the positions from `i` up to `j`. -/
def slice (l : List α) (i j : ℕ) : List α := (l.drop i).take (j - i)

def replaceRange (l : List α) (i j : ℕ) (out : List α) : List α := l.take i ++ out ++ l.drop j

def onRange (f : List α → Option (List α)) (l : List α) (i j : ℕ) : Option (List α) :=
  (f (slice l i j)).map (replaceRange l i j)

theorem length_slice (hj : j ≤ l.length) : (slice l i j).length = j - i := by
  rw [slice, length_take, length_drop]
  omega

theorem getElem?_slice (l : List α) (i j p : ℕ) : (slice l i j)[p]? = if p < j - i then l[i + p]? else none := by
  rw [slice, getElem?_take, getElem?_drop]

theorem mem_of_mem_slice {x : α} (h : x ∈ slice l i j) : x ∈ l :=
  mem_of_mem_drop (mem_of_mem_take h)

theorem replaceRange_slice (hij : i ≤ j) (l : List α) : replaceRange l i j (slice l i j) = l := by
  have hd : (l.drop i).drop (j - i) = l.drop j := by rw [drop_drop, Nat.add_sub_cancel' hij]
  rw [replaceRange, slice, append_assoc, ← hd, take_append_drop, take_append_drop]

theorem replaceRange_perm (hij : i ≤ j) (h : out.Perm (slice l i j)) : (replaceRange l i j out).Perm l := by
  conv_rhs => rw [← replaceRange_slice hij l]
  exact (h.append_left _).append_right _

section Replace

variable (hij : i ≤ j) (hj : j ≤ l.length) (hout : out.length = j - i)
include hij hj hout

theorem length_replaceRange : (replaceRange l i j out).length = l.length := by
  rw [replaceRange, length_append, length_append, length_take, length_drop, hout]
  omega

theorem getElem?_replaceRange (p : ℕ) : (replaceRange l i j out)[p]? = if i ≤ p ∧ p < j then out[p - i]? else l[p]? := by
  have ht : (l.take i).length = i := by rw [length_take]; omega
  unfold replaceRange
  by_cases hl : p < i
  · rw [if_neg (by omega), append_assoc, getElem?_append_left (by omega), getElem?_take_of_lt hl]
  · by_cases hh : p < j
    · rw [if_pos (by omega), getElem?_append_left (by rw [length_append]; omega), getElem?_append_right (by omega), ht]
    · rw [if_neg (by omega), getElem?_append_right (by rw [length_append]; omega),
        length_append, ht, hout, getElem?_drop]
      congr 1
      omega

theorem slice_replaceRange : slice (replaceRange l i j out) i j = out := by
  apply ext_getElem?
  intro p
  rw [getElem?_slice, getElem?_replaceRange hij hj hout]
  by_cases hp : p < j - i
  · rw [if_pos hp, if_pos (by omega), Nat.add_sub_cancel_left]
  · rw [if_neg hp, getElem?_eq_none (by omega)]

theorem slice_replaceRange_disjoint (h : j ≤ p ∨ q ≤ i) : slice (replaceRange l i j out) p q = slice l p q := by
  apply ext_getElem?
  intro k
  rw [getElem?_slice, getElem?_slice, getElem?_replaceRange hij hj hout]
  by_cases hk : k < q - p
  · rw [if_pos hk, if_pos hk, if_neg (by omega)]
  · rw [if_neg hk, if_neg hk]

end Replace

theorem slice_append {k : ℕ} (hij : i ≤ j) (hjk : j ≤ k) (l : List α) : slice l i j ++ slice l j k = slice l i k := by
  have hd : l.drop j = (l.drop i).drop (j - i) := by
    rw [drop_drop, Nat.add_sub_cancel' hij]
  rw [slice, slice, slice, hd, ← take_add]
  congr 1
  omega

theorem slice_zero_length (l : List α) : slice l 0 l.length = l := by
  simp [slice]

/-- Elements related to their neighbours are related throughout a range. -/
theorem pairwise_slice_of_adjacent {R : α → α → Prop} (htr : ∀ a b c, R a b → R b c → R a c)
    (h : ∀ p a b, i ≤ p → p + 1 < j → l[p]? = some a → l[p + 1]? = some b → R a b) :
    (slice l i j).Pairwise R := by
  have ht : IsTrans α R := ⟨htr⟩
  rw [← isChain_iff_pairwise, isChain_iff_getElem]
  intro p hp
  have hl : p + 1 < j - i := by
    have := length_take_le (j - i) (l.drop i)
    rw [slice] at hp
    omega
  have hg : ∀ q (hq : q < (slice l i j).length), q < j - i → l[i + q]? = some (slice l i j)[q] := by
    intro q hq hlt
    rw [← getElem?_eq_getElem hq, getElem?_slice, if_pos hlt]
  exact h (i + p) _ _ (Nat.le_add_right i p) (by omega) (hg p (by omega) (by omega)) (hg (p + 1) hp hl)

theorem onRange_spec {f : List α → Option (List α)} {Q : List α → Prop} (hij : i ≤ j) (hj : j ≤ l.length)
    (hf : ∃ out, f (slice l i j) = some out ∧ out.Perm (slice l i j) ∧ Q out) :
    ∃ l', onRange f l i j = some l' ∧ l'.Perm l ∧ Q (slice l' i j) ∧
      ∀ p q, j ≤ p ∨ q ≤ i → slice l' p q = slice l p q := by
  obtain ⟨out, hout, hp, hQ⟩ := hf
  have hl : out.length = j - i := hp.length_eq.trans (length_slice hj)
  refine ⟨replaceRange l i j out, by rw [onRange, hout]; rfl, replaceRange_perm hij hp, ?_, ?_⟩
  · rw [slice_replaceRange hij hj hl]
    exact hQ
  · intro p q hpq
    exact slice_replaceRange_disjoint hij hj hl hpq

theorem foldlM_onRange {f : List α → Option (List α)} {Q : List α → Prop} {ranges : List (ℕ × ℕ)}
    (hd : ranges.Pairwise fun r s => r.2 ≤ s.1 ∨ s.2 ≤ r.1)
    (hb : ∀ r ∈ ranges, r.1 ≤ r.2 ∧ r.2 ≤ l.length)
    (hf : ∀ r ∈ ranges, ∃ out, f (slice l r.1 r.2) = some out ∧ out.Perm (slice l r.1 r.2) ∧ Q out) :
    ∃ l', ranges.foldlM (fun l r => onRange f l r.1 r.2) l = some l' ∧ l'.Perm l ∧
      (∀ r ∈ ranges, (slice l' r.1 r.2).Perm (slice l r.1 r.2) ∧ Q (slice l' r.1 r.2)) ∧
      ∀ p q, (∀ r ∈ ranges, r.2 ≤ p ∨ q ≤ r.1) → slice l' p q = slice l p q := by
  induction ranges generalizing l with
  | nil => exact ⟨l, rfl, .refl l, by simp, fun _ _ _ => rfl⟩
  | cons r ranges ih =>
    obtain ⟨hh, hta⟩ := pairwise_cons.mp hd
    obtain ⟨hle, hl⟩ := hb r mem_cons_self
    obtain ⟨out, hout, hp, hQ⟩ := hf r mem_cons_self
    have ho : out.length = r.2 - r.1 := hp.length_eq.trans (length_slice hl)
    have hke : ∀ s ∈ ranges, slice (replaceRange l r.1 r.2 out) s.1 s.2 = slice l s.1 s.2 :=
      fun s hs => slice_replaceRange_disjoint hle hl ho (hh s hs)
    have hlen := length_replaceRange hle hl ho
    obtain ⟨l', hl', hpe', hr, hoth⟩ := ih hta
      (fun s hs => by rw [hlen]; exact hb s (mem_cons_of_mem r hs))
      (fun s hs => by rw [hke s hs]; exact hf s (mem_cons_of_mem r hs))
    refine ⟨l', ?_, hpe'.trans (replaceRange_perm hle hp), ?_, ?_⟩
    · rw [foldlM_cons, onRange, hout]
      exact hl'
    · intro s hs
      rcases mem_cons.mp hs with rfl | hs
      · have hfi := hoth s.1 s.2 fun t ht => (hh t ht).symm
        rw [slice_replaceRange hle hl ho] at hfi
        rw [hfi]
        exact ⟨hp, hQ⟩
      · rw [← hke s hs]
        exact hr s hs
    · intro p q hpq
      rw [hoth p q fun s hs => hpq s (mem_cons_of_mem r hs)]
      exact slice_replaceRange_disjoint hle hl ho (hpq r mem_cons_self)

end Bolt.Lib.Ranges
