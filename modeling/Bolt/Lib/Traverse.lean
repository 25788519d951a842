import Mathlib.Data.List.Forall2

/-!
# Fallible maps over lists

A map that can fail succeeds exactly when it succeeds on every element, and then its
results stand at the positions of the elements.
-/

namespace Bolt.Lib.Traverse

open List

variable {α β ε : Type}
variable {f : α → Except ε β} {xs : List α} {ys : List β} {P : α → β → Prop}

theorem mapM_eq_ok_iff : xs.mapM f = .ok ys ↔ Forall₂ (fun x y => f x = .ok y) xs ys := by
  induction xs generalizing ys with
  | nil =>
    rw [mapM_nil, forall₂_nil_left_iff]
    constructor
    · intro h
      cases h
      rfl
    · rintro rfl
      rfl
  | cons x xs ih =>
    rw [mapM_cons]
    cases hx : f x with
    | error e =>
      refine ⟨fun h => (by cases h), fun h => ?_⟩
      cases h with
      | cons h _ => rw [hx] at h; cases h
    | ok y =>
      cases hxs : xs.mapM f with
      | error e =>
        refine ⟨fun h => (by cases h), fun h => ?_⟩
        cases h with
        | cons _ h =>
          rw [ih.mpr h] at hxs
          cases hxs
      | ok rest =>
        constructor
        · intro h
          cases h
          exact .cons hx (ih.mp hxs)
        · intro h
          cases h with
          | cons h hr =>
            rw [hx] at h
            cases h
            rw [ih.mpr hr] at hxs
            cases hxs
            rfl

theorem exists_mapM_ok (xs : List α) (h : ∀ x ∈ xs, ∃ y, f x = .ok y ∧ P x y) :
    ∃ ys, xs.mapM f = .ok ys ∧ Forall₂ P xs ys := by
  induction xs with
  | nil => exact ⟨[], rfl, .nil⟩
  | cons x xs ih =>
    obtain ⟨y, hy, hPy⟩ := h x mem_cons_self
    obtain ⟨ys, hys, hPys⟩ := ih fun z hz => h z (mem_cons_of_mem _ hz)
    exact ⟨y :: ys, mapM_eq_ok_iff.mpr (.cons hy (mapM_eq_ok_iff.mp hys)), .cons hPy hPys⟩

theorem exists_of_mem_right (h : Forall₂ P xs ys) {y : β} (hy : y ∈ ys) : ∃ x ∈ xs, P x y := by
  induction h with
  | nil => exact absurd hy not_mem_nil
  | @cons x z xs ys hx _ ih =>
    rcases mem_cons.mp hy with rfl | hy
    · exact ⟨x, mem_cons_self, hx⟩
    · obtain ⟨w, hw, hP⟩ := ih hy
      exact ⟨w, mem_cons_of_mem _ hw, hP⟩

theorem exists_of_mem_left (h : Forall₂ P xs ys) {x : α} (hx : x ∈ xs) : ∃ y ∈ ys, P x y := by
  obtain ⟨y, hy, hP⟩ := exists_of_mem_right h.flip hx
  exact ⟨y, hy, hP⟩

end Bolt.Lib.Traverse
