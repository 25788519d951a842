import Mathlib.Algebra.Order.BigOperators.Group.List
import Mathlib.Algebra.Order.Ring.Nat
import Mathlib.Data.List.Nodup

/-!
# Lists of keyed rows

Rows in a list with at most one row for each key: a row is found, replaced and removed by
its key. A sum over the rows changes by what the replaced row contributed.
-/

namespace Bolt.Lib.Keyed

open List

variable {α κ : Type} [DecidableEq κ] (key : α → κ)

def lookup (rows : List α) (k : κ) : Option α :=
  rows.find? fun row => decide (key row = k)

def replace (rows : List α) (row : α) : List α :=
  rows.map fun other => if key other = key row then row else other

def remove (rows : List α) (k : κ) : List α :=
  rows.filter fun row => decide (key row ≠ k)

variable {key} {rows : List α} {row new : α} {k : κ}

theorem lookup_mem (h : lookup key rows k = some row) : row ∈ rows :=
  mem_of_find?_eq_some h

theorem lookup_key (h : lookup key rows k = some row) : key row = k := by
  have hf := find?_some h
  exact of_decide_eq_true hf

omit [DecidableEq κ] in
theorem eq_of_key_eq (hn : (rows.map key).Nodup) {a b : α} (ha : a ∈ rows) (hb : b ∈ rows) (hke : key a = key b) :
    a = b :=
  inj_on_of_nodup_map hn ha hb hke

theorem lookup_of_mem (hn : (rows.map key).Nodup) (hr : row ∈ rows) : lookup key rows (key row) = some row := by
  cases hf : lookup key rows (key row) with
  | none =>
    rw [lookup, find?_eq_none] at hf
    exact absurd (decide_eq_true rfl) (hf row hr)
  | some found =>
    rw [eq_of_key_eq hn (lookup_mem hf) hr (lookup_key hf)]

@[simp] theorem map_key_replace (rows : List α) (row : α) : (replace key rows row).map key = rows.map key := by
  rw [replace, map_map]
  apply map_congr_left
  intro other _
  rw [Function.comp_apply]
  split
  · next h => exact h.symm
  · rfl

theorem mem_replace_of_ne (hr : row ∈ rows) (hne : key row ≠ key new) : row ∈ replace key rows new :=
  mem_map.mpr ⟨row, hr, if_neg hne⟩

theorem mem_replace_self (hr : row ∈ rows) (hke : key row = key new) : new ∈ replace key rows new :=
  mem_map.mpr ⟨row, hr, if_pos hke⟩

theorem mem_replace (h : row ∈ replace key rows new) : row = new ∨ row ∈ rows ∧ key row ≠ key new := by
  obtain ⟨other, ho, rfl⟩ := mem_map.mp h
  split_ifs with hke
  · exact Or.inl rfl
  · exact Or.inr ⟨ho, hke⟩

theorem mem_remove : row ∈ remove key rows k ↔ row ∈ rows ∧ key row ≠ k := by
  rw [remove, mem_filter, decide_eq_true_iff]

theorem nodup_remove (hn : (rows.map key).Nodup) : ((remove key rows k).map key).Nodup :=
  hn.sublist (filter_sublist.map key)

theorem sum_remove (f : α → ℕ) (hn : (rows.map key).Nodup) (hro : row ∈ rows) :
    ((remove key rows (key row)).map f).sum + f row = (rows.map f).sum := by
  induction rows with
  | nil => cases hro
  | cons other rest ih =>
    rw [map_cons, nodup_cons] at hn
    rw [remove, map_cons, sum_cons]
    rcases mem_cons.mp hro with rfl | hr
    · have hs : rest.filter (fun r => decide (key r ≠ key row)) = rest := by
        apply filter_eq_self.mpr
        intro other ho
        apply decide_eq_true
        intro heq
        exact hn.1 (mem_map.mpr ⟨other, ho, heq⟩)
      rw [filter_cons_of_neg (by simp), hs]
      omega
    · have hne : key other ≠ key row := by
        intro heq
        exact hn.1 (mem_map.mpr ⟨row, hr, heq.symm⟩)
      have hsu := ih hn.2 hr
      rw [remove] at hsu
      rw [filter_cons, if_pos (decide_eq_true hne), map_cons, sum_cons]
      omega

theorem sum_replace (f : α → ℕ) (hn : (rows.map key).Nodup) (hr : row ∈ rows) (hke : key row = key new) :
    ((replace key rows new).map f).sum + f row = (rows.map f).sum + f new := by
  -- the rows that stay contribute the same to both sums
  have hkep : (remove key rows (key row)).map (fun other => f (if key other = key new then new else other)) =
      (remove key rows (key row)).map f := by
    apply map_congr_left
    intro other ho
    rw [if_neg (hke ▸ (mem_remove.mp ho).2)]
  have hb := sum_remove f hn hr
  have ha := sum_remove (fun other => f (if key other = key new then new else other)) hn hr
  rw [hkep, if_pos hke] at ha
  rw [replace, map_map]
  exact (congrArg (· + f row) ha.symm).trans (by omega)

theorem le_sum (f : α → ℕ) (hr : row ∈ rows) : f row ≤ (rows.map f).sum :=
  single_le_sum (fun _ _ => Nat.zero_le _) _ (mem_map_of_mem hr)

end Bolt.Lib.Keyed
