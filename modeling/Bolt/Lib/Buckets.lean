import Mathlib.Order.Interval.Finset.Nat
import Mathlib.Algebra.Order.BigOperators.Group.List
import Mathlib.Algebra.Order.Group.Nat
import Mathlib.Algebra.GroupWithZero.Nat

/-!
# Distributing records into buckets in place

Each bucket has a fill mark below which its region is right; moving a record that is below
no mark to the mark of its own bucket keeps this, and once all buckets but one are full, so
is the last.
-/

namespace Bolt.Lib.Buckets

open Finset Function

variable {α : Type*}
variable {i : ℕ} {mark : ℕ → ℕ}

/-! ## Exchanging two positions -/

def swap (l : List α) (i j : ℕ) : List α := (l.toArray.swapIfInBounds i j).toList

theorem swap_perm (l : List α) (i j : ℕ) : (swap l i j).Perm l := by
  unfold swap Array.swapIfInBounds
  split
  · split
    · exact Array.perm_iff_toList_perm.mp (Array.swap_perm _ _)
    · exact List.Perm.refl _
  · exact List.Perm.refl _

theorem getElem?_swap {l : List α} {j : ℕ} (hi : i < l.length) (hj : j < l.length) (k : ℕ) :
    (swap l i j)[k]? = if k = i then l[j]? else if k = j then l[i]? else l[k]? := by
  unfold swap Array.swapIfInBounds
  rw [dif_pos (by simpa using hi), dif_pos (by simpa using hj)]
  rw [Array.getElem?_toList, Array.getElem?_swap]
  simp only [List.getElem_toArray, List.getElem?_toArray, ← List.getElem?_eq_getElem hi, ← List.getElem?_eq_getElem hj]
  by_cases hki : k = i
  · by_cases hkj : k = j
    · rw [if_pos hkj.symm, if_pos hki, ← hki, hkj]
    · rw [if_neg (Ne.symm hkj), if_pos hki.symm, if_pos hki]
  · by_cases hkj : k = j
    · rw [if_pos hkj.symm, if_neg hki, if_pos hkj]
    · rw [if_neg (Ne.symm hkj), if_neg (Ne.symm hki), if_neg hki, if_neg hkj]

theorem swap_self (l : List α) (i : ℕ) : swap l i i = l := by
  by_cases hi : i < l.length
  · refine List.ext_getElem? fun k => ?_
    rw [getElem?_swap hi hi]
    by_cases hk : k = i
    · rw [if_pos hk, hk]
    · rw [if_neg hk, if_neg hk]
  · simp [swap, Array.swapIfInBounds, hi]

variable (b : α → ℕ)

def start (l : List α) (k : ℕ) : ℕ := l.countP (fun x => decide (b x < k))

variable {b} {l l' : List α} {k m : ℕ}

theorem start_perm (h : l.Perm l') (k : ℕ) : start b l k = start b l' k := h.countP_eq _

@[simp] theorem start_zero (l : List α) : start b l 0 = 0 := by simp [start]

theorem start_succ (l : List α) (k : ℕ) : start b l (k + 1) = start b l k + l.countP (fun x => decide (b x = k)) := by
  unfold start
  induction l with
  | nil => rfl
  | cons x l ih =>
    simp only [List.countP_cons, ih]
    rcases Nat.lt_trichotomy (b x) k with h | h | h
    · simp [h, Nat.lt_succ_of_lt h, Nat.ne_of_lt h]
      omega
    · simp [h]
      omega
    · simp [Nat.not_lt_of_lt h, Nat.ne_of_gt h, Nat.not_lt.mpr h]

theorem start_mono (l : List α) (h : k ≤ m) : start b l k ≤ start b l m := by
  apply List.countP_mono_left
  intro x _ hx
  simp only [decide_eq_true_eq] at hx ⊢
  omega

theorem start_eq_length (h : ∀ x ∈ l, b x < k) : start b l k = l.length := by
  rw [start, List.countP_eq_length]
  simpa using h

theorem start_le_length (l : List α) (k : ℕ) : start b l k ≤ l.length := List.countP_le_length

theorem region_nonempty {x : α} (hx : x ∈ l) : start b l (b x) < start b l (b x + 1) := by
  have hp : 0 < l.countP (fun y => decide (b y = b x)) := List.countP_pos_iff.mpr ⟨x, hx, by simp⟩
  rw [start_succ]
  omega

theorem bucket_unique (hk : start b l k ≤ i ∧ i < start b l (k + 1)) (hm : start b l m ≤ i ∧ i < start b l (m + 1)) :
    k = m := by
  by_contra hne
  rcases Nat.lt_or_gt_of_ne hne with h | h
  · have := start_mono (b := b) l (show k + 1 ≤ m from h)
    omega
  · have := start_mono (b := b) l (show m + 1 ≤ k from h)
    omega

/-- Below its mark a region holds records of its bucket. -/
structure Placed (b : α → ℕ) (l : List α) (mark : ℕ → ℕ) : Prop where
  lower : ∀ k, start b l k < start b l (k + 1) → start b l k ≤ mark k
  upper : ∀ k, start b l k < start b l (k + 1) → mark k ≤ start b l (k + 1)
  right : ∀ k, start b l k < start b l (k + 1) → ∀ i, start b l k ≤ i → i < mark k →
    ∃ x, l[i]? = some x ∧ b x = k

/-- The region of a bucket is right. -/
def Distributed (b : α → ℕ) (l : List α) : Prop :=
  ∀ k i, start b l k ≤ i → i < start b l (k + 1) → ∃ x, l[i]? = some x ∧ b x = k

theorem placed_start (b : α → ℕ) (l : List α) : Placed b l (start b l) where
  lower _ _ := Nat.le_refl _
  upper k _ := start_mono l (Nat.le_succ k)
  right _ _ _ hl hh := absurd hh (Nat.not_lt.mpr hl)

theorem countP_eq_card (p : α → Bool) (l : List α) :
    l.countP p = ((range l.length).filter fun i => (l[i]?).any p).card := by
  induction l using List.reverseRecOn with
  | nil => rfl
  | append_singleton l x ih =>
    have hl : ∀ i ∈ range l.length, ((l ++ [x])[i]?).any p = true ↔ (l[i]?).any p = true := by
      intro i hi
      rw [List.getElem?_append_left (mem_range.mp hi)]
    rw [List.countP_append, List.length_append, List.length_singleton, range_add_one,
      filter_insert, filter_congr hl, ih]
    cases hp : p x <;> simp [hp]

/-- A record that its bucket does not hold yet leaves room at the bucket's mark. -/
theorem Placed.room (h : Placed b l mark) {x : α} (hx : l[i]? = some x) (ho : ¬(start b l (b x) ≤ i ∧ i < mark (b x))) :
    mark (b x) < start b l (b x + 1) := by
  have hco := start_succ (b := b) l (b x)
  have hlt := region_nonempty (b := b) (List.mem_of_getElem? hx)
  -- the marked positions and `i` are distinct positions of this bucket
  have hu := h.upper _ hlt
  have hl := start_le_length (b := b) l (b x + 1)
  have hi : i < l.length := (List.getElem?_eq_some_iff.mp hx).1
  have hs : insert i (Ico (start b l (b x)) (mark (b x))) ⊆
      (range l.length).filter fun j => (l[j]?).any fun y => decide (b y = b x) := by
    intro j hj
    rcases mem_insert.mp hj with rfl | hj
    · exact mem_filter.mpr ⟨mem_range.mpr hi, by simp [hx]⟩
    · obtain ⟨hj₁, hj₂⟩ := mem_Ico.mp hj
      obtain ⟨y, hy, hb⟩ := h.right _ hlt j hj₁ hj₂
      exact mem_filter.mpr ⟨mem_range.mpr (by omega), by simp [hy, hb]⟩
  have hc := card_le_card hs
  rw [card_insert_of_notMem (by simpa using ho), Nat.card_Ico, ← countP_eq_card] at hc
  omega

theorem Placed.congr {mark' : ℕ → ℕ} (h : Placed b l mark)
    (hm : ∀ k, start b l k < start b l (k + 1) → mark' k = mark k) : Placed b l mark' where
  lower k hk := by rw [hm k hk]; exact h.lower k hk
  upper k hk := by rw [hm k hk]; exact h.upper k hk
  right k hk := by rw [hm k hk]; exact h.right k hk

/-- Moving a record that is below no mark to the mark of its bucket. -/
theorem Placed.place (h : Placed b l mark) {x : α} (hx : l[i]? = some x)
    (ho : ∀ k, start b l k < start b l (k + 1) → ¬(start b l k ≤ i ∧ i < mark k)) :
    Placed b (swap l i (mark (b x))) (update mark (b x) (mark (b x) + 1)) := by
  have hi : i < l.length := (List.getElem?_eq_some_iff.mp hx).1
  have hs : ∀ k, start b (swap l i (mark (b x))) k = start b l k := start_perm (swap_perm l i _)
  have hne := region_nonempty (b := b) (List.mem_of_getElem? hx)
  have hr := h.room hx (ho _ hne)
  have hm : mark (b x) < l.length := lt_of_lt_of_le hr (start_le_length l _)
  have hl := h.lower _ hne
  constructor
  · intro k hk
    rw [hs, hs] at hk
    rw [hs]
    by_cases hkx : k = b x
    · subst hkx
      rw [update_self]
      omega
    · rw [update_of_ne hkx]
      exact h.lower k hk
  · intro k hk
    rw [hs, hs] at hk
    rw [hs]
    by_cases hkx : k = b x
    · subst hkx
      rw [update_self]
      omega
    · rw [update_of_ne hkx]
      exact h.upper k hk
  · intro k hk p hp₁ hp₂
    rw [hs, hs] at hk
    rw [hs] at hp₁
    rw [getElem?_swap hi hm]
    by_cases hpm : p = mark (b x)
    · -- the mark itself is in the region of `b x`, so `k` is that bucket
      have hkx : k = b x := by
        by_contra hkx
        rw [update_of_ne hkx] at hp₂
        have hu := h.upper k hk
        exact hkx (bucket_unique ⟨hp₁, by omega⟩ ⟨by omega, by omega⟩)
      subst hkx
      by_cases hp : p = i
      · exact ⟨x, by rw [if_pos hp, ← hpm, hp, hx], rfl⟩
      · exact ⟨x, by rw [if_neg hp, if_pos hpm, hx], rfl⟩
    · have hb : p < mark k := by
        by_cases hkx : k = b x
        · subst hkx
          rw [update_self] at hp₂
          omega
        · rwa [update_of_ne hkx] at hp₂
      have hp : p ≠ i := by
        rintro rfl
        exact ho k hk ⟨hp₁, hb⟩
      rw [if_neg hp, if_neg hpm]
      exact h.right k hk p hp₁ hb

/-- When all buckets but one are full, the records of the last one are in its region. -/
theorem Placed.distributed (h : Placed b l mark) (z : ℕ)
    (hf : ∀ k, k ≠ z → start b l k < start b l (k + 1) → mark k = start b l (k + 1)) : Distributed b l := by
  intro k i hl hh
  by_cases hkz : k = z
  · obtain ⟨x, hx⟩ : ∃ x, l[i]? = some x :=
      ⟨_, List.getElem?_eq_getElem (lt_of_lt_of_le hh (start_le_length l _))⟩
    refine ⟨x, hx, ?_⟩
    by_contra hne
    have hr := region_nonempty (b := b) (List.mem_of_getElem? hx)
    have ho : ¬(start b l (b x) ≤ i ∧ i < mark (b x)) := by
      rintro ⟨h₁, h₂⟩
      have hu := h.upper _ hr
      exact hne (bucket_unique ⟨h₁, by omega⟩ ⟨hl, hh⟩)
    have hro := h.room hx ho
    have hm := hf (b x) (fun hz => hne (hz.trans hkz.symm)) hr
    omega
  · have hr : start b l k < start b l (k + 1) := by omega
    exact h.right k hr i hl (by rw [hf k hkz hr]; exact hh)

def unplaced (b : α → ℕ) (l : List α) (mark : ℕ → ℕ) (buckets : List ℕ) : ℕ :=
  (buckets.map fun k => start b l (k + 1) - mark k).sum

theorem unplaced_congr {mark' : ℕ → ℕ} {buckets : List ℕ} (h : ∀ k ∈ buckets, mark' k = mark k) :
    unplaced b l mark' buckets = unplaced b l mark buckets := by
  rw [unplaced, unplaced, List.map_congr_left fun k hk => by rw [h k hk]]

theorem unplaced_update_lt {buckets : List ℕ} (hk : k ∈ buckets) (hr : mark k < start b l (k + 1)) :
    unplaced b l (update mark k (mark k + 1)) buckets < unplaced b l mark buckets := by
  apply List.sum_lt_sum
  · intro c _
    by_cases hc : c = k
    · subst hc
      rw [update_self]
      omega
    · rw [update_of_ne hc]
  · refine ⟨k, hk, ?_⟩
    rw [update_self]
    omega

end Bolt.Lib.Buckets
