import Mathlib.Data.List.Forall2
import Mathlib.Order.Basic

/-!
# Three-way comparisons

Comparisons of sequences, optional values and pairs built from comparisons of
their parts. Each construction keeps the laws of a weak order, and the values it
calls equal are equal part by part.
-/

namespace Bolt.Lib.Compare

open Std

variable {α β : Type*}

/-- The comparison of two sequences: element by element, and `shorter` is the
verdict for a sequence that ends first. -/
def compareSeq (cmp : α → α → Ordering) (shorter : Ordering) : List α → List α → Ordering
  | [], [] => .eq
  | [], _ :: _ => shorter
  | _ :: _, [] => shorter.swap
  | a :: as, b :: bs => (cmp a b).then (compareSeq cmp shorter as bs)

/-- The comparison of optional values: `absent` is the verdict for an absent value
against a present one. -/
def compareOption (cmp : α → α → Ordering) (absent : Ordering) : Option α → Option α → Ordering
  | none, none => .eq
  | none, some _ => absent
  | some _, none => absent.swap
  | some a, some b => cmp a b

def comparePair (cmp₁ : α → α → Ordering) (cmp₂ : β → β → Ordering) (x y : α × β) : Ordering :=
  (cmp₁ x.1 y.1).then (cmp₂ x.2 y.2)

/-- A comparison, turned around when `ascending` is false. -/
def directed (ascending : Bool) (cmp : α → α → Ordering) (a b : α) : Ordering :=
  if ascending then cmp a b else (cmp a b).swap

@[simp] theorem compareSeq_cons (cmp : α → α → Ordering) (o : Ordering) (a b : α) (as bs : List α) :
    compareSeq cmp o (a :: as) (b :: bs) = (cmp a b).then (compareSeq cmp o as bs) := rfl

section Laws

variable (cmp : α → α → Ordering) (cmp' : β → β → Ordering)

theorem transCmp_swap [TransCmp cmp] : TransCmp (fun a b => (cmp a b).swap) := by
  have hf : (fun a b => (cmp a b).swap) = fun a b => cmp b a := by
    funext a b
    exact OrientedCmp.eq_swap.symm
  rw [hf]
  infer_instance

theorem transCmp_directed (ascending : Bool) [TransCmp cmp] : TransCmp (directed ascending cmp) := by
  cases ascending with
  | true => exact inferInstanceAs (TransCmp cmp)
  | false => exact transCmp_swap cmp

theorem transCmp_comparePair [TransCmp cmp] [TransCmp cmp'] : TransCmp (comparePair cmp cmp') := by
  have hf : TransCmp (fun x y : α × β => cmp x.1 y.1) :=
    { eq_swap := OrientedCmp.eq_swap, isLE_trans := TransCmp.isLE_trans }
  have hs : TransCmp (fun x y : α × β => cmp' x.2 y.2) :=
    { eq_swap := OrientedCmp.eq_swap, isLE_trans := TransCmp.isLE_trans }
  exact inferInstanceAs (TransCmp (compareLex (fun x y : α × β => cmp x.1 y.1) fun x y => cmp' x.2 y.2))

theorem transCmp_compareOption (absent : Ordering) (hne : absent ≠ .eq) [TransCmp cmp] :
    TransCmp (compareOption cmp absent) where
  eq_swap := by
    intro x y
    cases x <;> cases y <;> simp only [compareOption, Ordering.swap_swap, Ordering.swap_eq]
    exact OrientedCmp.eq_swap
  isLE_trans := by
    intro x y z hx hyz
    cases x <;> cases y <;> cases z <;> simp only [compareOption] at hx hyz ⊢ <;>
      first
        | exact TransCmp.isLE_trans hx hyz
        | (revert hx hyz hne; cases absent <;> simp)

theorem compareSeq_lt_eq : compareSeq cmp .lt = List.compareLex cmp := by
  funext l m
  induction l generalizing m with
  | nil => cases m <;> rfl
  | cons a l ih =>
    cases m with
    | nil => rfl
    | cons b m => rw [compareSeq_cons, ih, List.compareLex_cons_cons]

private theorem compareSeq_swap (o : Ordering) (l m : List α) :
    (compareSeq (fun a b => (cmp a b).swap) o.swap l m).swap = compareSeq cmp o l m := by
  induction l generalizing m with
  | nil => cases m <;> simp [compareSeq]
  | cons a l ih =>
    cases m with
    | nil => simp [compareSeq]
    | cons b m => rw [compareSeq_cons, compareSeq_cons, Ordering.swap_then, ih, Ordering.swap_swap]

theorem transCmp_compareSeq (shorter : Ordering) (hne : shorter ≠ .eq) [TransCmp cmp] :
    TransCmp (compareSeq cmp shorter) := by
  cases shorter with
  | eq => exact absurd rfl hne
  | lt =>
    rw [compareSeq_lt_eq]
    infer_instance
  | gt =>
    -- a descending sequence order is the ascending one of the turned elements, turned back
    have ht : TransCmp (compareSeq (fun a b => (cmp a b).swap) .lt) := by
      have := transCmp_swap cmp
      rw [compareSeq_lt_eq]
      infer_instance
    have heq : compareSeq cmp .gt =
        fun l m => (compareSeq (fun a b => (cmp a b).swap) .lt l m).swap := by
      funext l m
      exact (compareSeq_swap cmp .gt l m).symm
    rw [heq]
    exact transCmp_swap _

end Laws

section Equality

variable {cmp : α → α → Ordering}

theorem compareSeq_eq_eq {o : Ordering} (hne : o ≠ .eq) {l m : List α} :
    compareSeq cmp o l m = .eq ↔ List.Forall₂ (fun a b => cmp a b = .eq) l m := by
  induction l generalizing m with
  | nil =>
    cases m with
    | nil => simp [compareSeq]
    | cons b m => simpa [compareSeq] using hne
  | cons a l ih =>
    cases m with
    | nil => simpa [compareSeq] using hne
    | cons b m => simp [ih]

theorem directed_eq_eq {ascending : Bool} {a b : α} : directed ascending cmp a b = .eq ↔ cmp a b = .eq := by
  cases ascending <;> simp [directed]

end Equality

end Bolt.Lib.Compare
