import Bolt.Lib.Compare
import Mathlib.Data.List.Pairwise
import Mathlib.Data.List.Sort

/-!
# Comparison sorts

Strict weak orders as boolean tests, and a comparison sort as any function that
answers a strict weak order with a sorted permutation of its input. Elements that
the order does not tell apart may come out in any order.
-/

namespace Bolt.Lib.Sorting

open Std List

variable {α β : Type*}

/-- The laws a comparison sort asks of its test. -/
structure StrictWeakOrder (less : α → α → Bool) : Prop where
  irrefl : ∀ a, less a a = false
  trans : ∀ a b c, less a b = true → less b c = true → less a c = true
  incomparable_trans : ∀ a b c, less a b = false → less b a = false → less b c = false →
    less c b = false → less a c = false ∧ less c a = false

namespace StrictWeakOrder

variable {less : α → α → Bool}

theorem asymm (h : StrictWeakOrder less) {a b : α} (hab : less a b = true) : less b a = false := by
  by_contra hb
  have hs := h.trans a b a hab (by simpa using hb)
  rw [h.irrefl a] at hs
  cases hs

theorem negTrans (h : StrictWeakOrder less) {a b c : α} (hb : less b a = false)
    (hcb : less c b = false) : less c a = false := by
  by_contra hc
  have hc : less c a = true := by simpa using hc
  by_cases hab : less a b = true
  · have := h.trans c a b hc hab
    rw [hcb] at this
    cases this
  · by_cases hbc : less b c = true
    · have := h.trans b c a hbc hc
      rw [hb] at this
      cases this
    · have := (h.incomparable_trans a b c (by simpa using hab) hb (by simpa using hbc) hcb).2
      rw [hc] at this
      cases this

theorem comap (h : StrictWeakOrder less) (f : β → α) : StrictWeakOrder (fun a b => less (f a) (f b)) where
  irrefl a := h.irrefl (f a)
  trans a b c := h.trans (f a) (f b) (f c)
  incomparable_trans a b c := h.incomparable_trans (f a) (f b) (f c)

end StrictWeakOrder

theorem strictWeak_isLT (cmp : α → α → Ordering) [TransCmp cmp] : StrictWeakOrder (fun a b => (cmp a b).isLT) where
  irrefl a := by simp [ReflCmp.compare_self]
  trans a b c hab hb := by
    simp only [Ordering.isLT_iff_eq_lt] at hab hb ⊢
    exact TransCmp.lt_trans hab hb
  incomparable_trans a b c hab hba hb hcb := by
    have heq : ∀ x y, (cmp x y).isLT = false → (cmp y x).isLT = false → cmp x y = .eq := by
      intro x y hx hy
      have hs : cmp y x = (cmp x y).swap := OrientedCmp.eq_swap
      rw [hs] at hy
      revert hx hy
      cases cmp x y <;> simp
    have ha := TransCmp.eq_trans (heq a b hab hba) (heq b c hb hcb)
    have hc := OrientedCmp.eq_symm ha
    simp [ha, hc]

/-- No element comes after a greater one. -/
def Sorted (less : α → α → Bool) (l : List α) : Prop :=
  l.Pairwise (fun a b => less b a = false)

instance [DecidableEq α] (less : α → α → Bool) (l : List α) : Decidable (Sorted less l) :=
  inferInstanceAs (Decidable (l.Pairwise _))

/-- A comparison sort. Nothing is promised for a test that is not a strict weak
order. -/
structure ComparisonSort where
  sort : {α : Type} → (α → α → Bool) → List α → List α
  perm : ∀ {α : Type} (less : α → α → Bool) (l : List α), StrictWeakOrder less → (sort less l).Perm l
  sorted : ∀ {α : Type} (less : α → α → Bool) (l : List α), StrictWeakOrder less →
    Sorted less (sort less l)

/-- A strictly increasing input is the only sorted order of its elements. -/
theorem ComparisonSort.sort_eq_self (S : ComparisonSort) {α : Type} {less : α → α → Bool} {l : List α}
    (h : StrictWeakOrder less) (hl : l.Pairwise (fun a b => less a b = true)) : S.sort less l = l := by
  have hsy : Std.Symm (fun a b => less a b = true ∨ less b a = true) := ⟨fun _ _ => Or.symm⟩
  have hap : l.Pairwise (fun a b => less a b = true ∨ less b a = true) := hl.imp fun hab => .inl hab
  have hs : Sorted less l := hl.imp fun hab => h.asymm hab
  refine Perm.eq_of_pairwise ?_ (S.sorted less l h) hs (S.perm less l h)
  intro a b ha hb hba hab
  by_contra hne
  rcases hap.forall ((S.perm less l h).mem_iff.mp ha) hb hne with hlt | hgt
  · rw [hlt] at hab
    cases hab
  · rw [hgt] at hba
    cases hba

def ComparisonSort.insertion : ComparisonSort where
  sort less l := l.insertionSort (fun a b => less b a = false)
  perm less l _ := perm_insertionSort _ l
  sorted less l h := by
    have htrans : IsTrans _ (fun a b => less b a = false) := ⟨fun a b c hab hbc => h.negTrans hab hbc⟩
    have htotal : Std.Total (fun a b => less b a = false) := by
      constructor
      intro a b
      by_cases hba : less b a = true
      · exact Or.inr (h.asymm hba)
      · exact Or.inl (by simpa using hba)
    exact pairwise_insertionSort _ l

/-- Insertion sort of the reversed input leaves elements that the order does not tell
apart in reversed order. -/
def ComparisonSort.reversedInsertion : ComparisonSort where
  sort less l := ComparisonSort.insertion.sort less l.reverse
  perm less l h := (ComparisonSort.insertion.perm less l.reverse h).trans l.reverse_perm
  sorted less l h := ComparisonSort.insertion.sorted less l.reverse h

theorem mem_dropLast_of_pair_sublist {α : Type} {a b : α} {l : List α} (h : [a, b].Sublist l) : a ∈ l.dropLast := by
  obtain ⟨front, back, rfl, hf, hb⟩ := cons_sublist_iff.mp h
  have hne : back ≠ [] := ne_nil_of_mem (singleton_sublist.mp hb)
  rw [dropLast_append_of_ne_nil hne]
  exact mem_append_left _ hf

/-- An element that may come before one that stood in front of it is not the last. -/
theorem ComparisonSort.reversedInsertion_dropLast {α : Type} {less : α → α → Bool} {a b : α} {l : List α}
    (hl : less b a = false) (h : [b, a].Sublist l) : a ∈ (reversedInsertion.sort less l).dropLast := by
  refine mem_dropLast_of_pair_sublist (b := b) ?_
  exact pair_sublist_insertionSort hl (by simpa using h.reverse)

structure ComparisonMerge where
  merge : {α : Type} → (α → α → Bool) → List α → List α → List α
  perm : ∀ {α : Type} (less : α → α → Bool) (l r : List α), StrictWeakOrder less → Sorted less l →
    Sorted less r → (merge less l r).Perm (l ++ r)
  sorted : ∀ {α : Type} (less : α → α → Bool) (l r : List α), StrictWeakOrder less → Sorted less l →
    Sorted less r → Sorted less (merge less l r)

def ComparisonMerge.standard : ComparisonMerge where
  merge less l r := List.merge l r (fun a b => !less b a)
  perm less l r _ _ _ := merge_perm_append _
  sorted less l r h hl hr := by
    have hle : ∀ l : List _, Sorted less l ↔ l.Pairwise (fun a b => (!less b a) = true) := fun l => by
      simp [Sorted]
    rw [hle] at hl hr ⊢
    refine List.pairwise_merge ?_ ?_ l r hl hr
    · intro a b c hab hbc
      simp only [Bool.not_eq_true'] at hab hbc ⊢
      exact h.negTrans hab hbc
    · intro a b
      cases hba : less b a with
      | true => simp [h.asymm hba]
      | false => simp

theorem sorted_append_of_forall {less : α → α → Bool} {l r : List α} (hl : Sorted less l) (hr : Sorted less r)
    (h : ∀ a ∈ l, ∀ b ∈ r, less b a = false) : Sorted less (l ++ r) :=
  pairwise_append.mpr ⟨hl, hr, h⟩

/-- A fallible sort has a result on this list, and it is the list in order. -/
def Sorts (less : α → α → Bool) (f : List α → Option (List α)) (l : List α) : Prop :=
  ∃ out, f l = some out ∧ out.Perm l ∧ Sorted less out

theorem sorted_of_length_le_one {less : α → α → Bool} {l : List α} (h : l.length ≤ 1) : Sorted less l := by
  match l, h with
  | [], _ => exact Pairwise.nil
  | [a], _ => exact pairwise_singleton _ a

theorem ComparisonSort.sorts (S : ComparisonSort) {α : Type} {less : α → α → Bool} (h : StrictWeakOrder less)
    (l : List α) : Sorts less (fun l => some (S.sort less l)) l :=
  ⟨_, rfl, S.perm less l h, S.sorted less l h⟩

end Bolt.Lib.Sorting
