import Mathlib.Algebra.Order.Ring.Int
import Mathlib.Data.List.Basic

/-!
# Binary search for a lower bound

`std::lower_bound` halves the part of a list that is left to search. On a list in
ascending order it finds the first element that is not below the value, so its position
counts the elements below.
-/

namespace Bolt.Lib.LowerBound

open List hiding getElem?_eq_some_iff

variable {α : Type} [LinearOrder α] {values : List α} {value x : α}

/-- The search with `count` elements from `first` on left. -/
def searchFrom (values : List α) (value : α) (first count : ℕ) : ℕ :=
  if count = 0 then first
  else
    let half := count / 2
    if ∃ middle ∈ values[first + half]?, middle < value then
      searchFrom values value (first + half + 1) (count - half - 1)
    else
      searchFrom values value first half
termination_by count

/-- `std::lower_bound`, as a position. -/
def lowerBound (values : List α) (value : α) : ℕ := searchFrom values value 0 values.length

/-- The position `place` separates the elements below the value from the others. -/
def Separates (values : List α) (value : α) (place : ℕ) : Prop :=
  place ≤ values.length ∧ ∀ i x, values[i]? = some x → (x < value ↔ i < place)

/-- One half is left out at each step: its elements are known to be below the value, or not. -/
theorem separates_searchFrom (hs : values.Pairwise (· ≤ ·)) (first count : ℕ) (hlen : first + count ≤ values.length)
    (hbelow : ∀ i x, i < first → values[i]? = some x → x < value)
    (habove : ∀ i x, first + count ≤ i → values[i]? = some x → value ≤ x) :
    Separates values value (searchFrom values value first count) := by
  have hmono : ∀ (i j : ℕ) (x y : α), i ≤ j → values[i]? = some x → values[j]? = some y → x ≤ y := by
    intro i j x y hij hx hy
    obtain ⟨hi, rfl⟩ := getElem?_eq_some_iff.mp hx
    obtain ⟨hj, rfl⟩ := getElem?_eq_some_iff.mp hy
    rcases Nat.eq_or_lt_of_le hij with rfl | hlt
    · exact le_refl _
    · exact pairwise_iff_getElem.mp hs i j hi hj hlt
  fun_induction searchFrom values value first count with
  | case1 first =>
    refine ⟨by omega, fun i x hx => ⟨fun hlt => ?_, fun hi => hbelow i x hi hx⟩⟩
    by_contra hi
    exact absurd (habove i x (by omega) hx) (not_le.mpr hlt)
  | case2 first count hc half hmid ih =>
    obtain ⟨middle, hm, hlt⟩ := hmid
    refine ih (by omega) (fun i x hi hx => ?_) fun i x hi hx => habove i x (by omega) hx
    exact (hmono i _ x middle (by omega) hx hm).trans_lt hlt
  | case3 first count hc half hmid ih =>
    refine ih (by omega) hbelow fun i x hi hx => ?_
    obtain ⟨middle, hm⟩ : ∃ middle, values[first + half]? = some middle :=
      ⟨_, getElem?_eq_getElem (by omega)⟩
    have hle : value ≤ middle := not_lt.mp fun hlt => hmid ⟨middle, hm, hlt⟩
    exact hle.trans (hmono _ i middle x hi hm hx)

theorem separates_lowerBound (hs : values.Pairwise (· ≤ ·)) (value : α) :
    Separates values value (lowerBound values value) := by
  refine separates_searchFrom hs 0 values.length (by omega) nofun fun i x hi hx => ?_
  obtain ⟨hlt, -⟩ := getElem?_eq_some_iff.mp hx
  omega

/-- The position counts the elements below the value. -/
theorem lowerBound_eq_countP (hs : values.Pairwise (· ≤ ·)) (value : α) :
    lowerBound values value = values.countP (· < value) := by
  obtain ⟨hle, hsep⟩ := separates_lowerBound hs value
  generalize lowerBound values value = place at hle hsep
  have hbelow : (values.take place).countP (· < value) = place := by
    rw [countP_eq_length.mpr, length_take, Nat.min_eq_left hle]
    intro x hx
    obtain ⟨i, hi, rfl⟩ := mem_take_iff_getElem.mp hx
    simpa using (hsep i _ (getElem?_eq_getElem (by omega))).mpr (by omega)
  have habove : (values.drop place).countP (· < value) = 0 := by
    rw [countP_eq_zero]
    intro x hx
    obtain ⟨i, hi, rfl⟩ := mem_drop_iff_getElem.mp hx
    have hiff := hsep (place + i) _ (getElem?_eq_getElem (by omega))
    simpa using mt hiff.mp (by omega)
  calc place = (values.take place).countP (· < value) + (values.drop place).countP (· < value) := by omega
    _ = values.countP (· < value) := by rw [← countP_append, take_append_drop]

/-- Where some element is not below the value, the search finds the least of these. -/
theorem exists_getElem?_lowerBound (hs : values.Pairwise (· ≤ ·)) (hx : x ∈ values) (hle : value ≤ x) :
    ∃ found, values[lowerBound values value]? = some found ∧ value ≤ found ∧ ∀ y ∈ values, value ≤ y → found ≤ y := by
  obtain ⟨-, hsep⟩ := separates_lowerBound hs value
  generalize lowerBound values value = place at hsep
  have hafter : ∀ i y, values[i]? = some y → value ≤ y → place ≤ i := by
    intro i y hy hvy
    by_contra hlt
    exact absurd ((hsep i y hy).mpr (by omega)) (not_lt.mpr hvy)
  obtain ⟨j, hj⟩ := mem_iff_getElem?.mp hx
  have hplace : place < values.length := (hafter j x hj hle).trans_lt (getElem?_eq_some_iff.mp hj).1
  have hfound : values[place]? = some values[place] := getElem?_eq_getElem hplace
  refine ⟨_, hfound, not_lt.mp fun hlt => ?_, fun y hy hvy => ?_⟩
  · exact absurd ((hsep place _ hfound).mp hlt) (lt_irrefl _)
  · obtain ⟨i, hi⟩ := mem_iff_getElem?.mp hy
    obtain ⟨hlen, rfl⟩ := getElem?_eq_some_iff.mp hi
    rcases Nat.eq_or_lt_of_le (hafter i _ hi hvy) with rfl | hlt
    · exact le_refl _
    · exact pairwise_iff_getElem.mp hs place i hplace hlen hlt

/-- Where all elements are below the value, the search runs to the end. -/
theorem getElem?_lowerBound_eq_none (hs : values.Pairwise (· ≤ ·)) (hbelow : ∀ y ∈ values, y < value) :
    values[lowerBound values value]? = none := by
  rw [lowerBound_eq_countP hs, countP_eq_length.mpr (by simpa using hbelow)]
  exact getElem?_eq_none (Nat.le_refl _)

/-- Between two values there are as many elements as their positions are apart. -/
theorem lowerBound_sub (hs : values.Pairwise (· ≤ ·)) {low high : α} (hle : low ≤ high) :
    (lowerBound values high : ℤ) - lowerBound values low = values.countP fun v => low ≤ v ∧ v < high := by
  have hadd : values.countP (· < high) = values.countP (· < low) + values.countP (fun v => low ≤ v ∧ v < high) := by
    clear hs
    induction values with
    | nil => rfl
    | cons x values ih =>
      simp only [countP_cons, ih]
      grind
  rw [lowerBound_eq_countP hs, lowerBound_eq_countP hs, hadd]
  omega

end Bolt.Lib.LowerBound
