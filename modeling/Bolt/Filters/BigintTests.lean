import Bolt.Filters.Bigint
import Mathlib.Data.Int.Interval

/-!
# What the tests of integer filters find

The value tests and the range tests of the classes of integer filters, by their bounds and
values. The range test of a negated hash table compares positions: it counts the entries of
the list between the ends of the block.
-/

namespace Bolt.Filters

open Lib.SignedInts SignedInt Lib.Intervals ClosedRange Lib.LowerBound
open List hiding contains_iff getElem?_eq_some_iff

variable {values : List Int64} {min max v : Int64}

theorem accepts_ofValue_iff {filter : BigintFilter} : (Filter.ofValue filter).Accepts v ↔ filter.testInt64 v = true :=
  Filter.accepts_ofValue

theorem HashTable.testInt64_iff {table : HashTable} :
    table.testInt64 v = true ↔ (table.min ≤ v ∧ v ≤ table.max) ∧ v ∈ table.values := by
  unfold HashTable.testInt64
  split
  · grind
  · grind

theorem Bitmask.testInt64_iff {mask : Bitmask} : mask.testInt64 v = true ↔ v ∈ mask.values := by
  unfold Bitmask.testInt64
  split
  · rename_i hout
    refine iff_of_false Bool.false_ne_true fun hv => ?_
    have hwithin := mask.within v hv
    grind
  · exact decide_eq_true_iff

/-- The entries of the list from one value up to another. -/
def entriesBetween (values : List Int64) (min max : Int64) : ℕ := values.countP fun v => min ≤ v ∧ v < max

/-- A hash table finds every value of the block that passes. -/
theorem HashTable.testInt64Range_true {table : HashTable} (hmin : min ≤ v) (hmax : v ≤ max)
    (hv : table.testInt64 v = true) : table.testInt64Range min max = .ok true := by
  obtain ⟨hends, hmem⟩ := HashTable.testInt64_iff.mp hv
  unfold HashTable.testInt64Range
  by_cases hs : min = max
  · have heq : v = min := le_antisymm (hs ▸ hmax) hmin
    rw [if_pos hs, ← heq, hv]
  · have hins : ¬(table.max < min ∨ max < table.min) := by
      rw [not_or, not_lt, not_lt]
      exact ⟨hmin.trans hends.2, hends.1.trans hmax⟩
    obtain ⟨it, hit, -, hleast⟩ := exists_getElem?_lowerBound table.ascending hmem hmin
    rw [if_neg hs, if_neg hins]
    simp [hit, (hleast v hmem hmin).trans hmax]

theorem Bitmask.testInt64Range_true {mask : Bitmask} (hmin : min ≤ v) (hmax : v ≤ max) (hv : v ∈ mask.values) :
    mask.testInt64Range min max = true := by
  unfold Bitmask.testInt64Range
  by_cases hs : min = max
  · have heq : v = min := le_antisymm (hs ▸ hmax) hmin
    rw [if_pos hs, ← heq, Bitmask.testInt64_iff.mpr hv]
  · have hh : ¬mask.max < min := not_lt.mpr (hmin.trans (mask.within v hv).2)
    have hl : ¬max < mask.min := not_lt.mpr ((mask.within v hv).1.trans hmax)
    simp [hs, hh, hl]

theorem NegatedBitmask.testInt64Range_true {nonNegated : Bitmask} (hmin : min ≤ v) (hmax : v ≤ max)
    (hv : v ∉ nonNegated.values) : NegatedBitmask.testInt64Range nonNegated min max = true := by
  unfold NegatedBitmask.testInt64Range
  by_cases hs : min = max
  · have heq : v = min := le_antisymm (hs ▸ hmax) hmin
    rw [if_pos hs, ← heq, Bool.not_eq_true', Bool.eq_false_iff, ne_eq, Bitmask.testInt64_iff]
    exact hv
  · rw [if_neg hs]

section

variable {table : HashTable} (hlt : min < max) (hinside : ¬(table.max < max ∨ min < table.min))
include hlt hinside

/-- Within the ends of the list, the range test of a negated hash table looks at both ends
of the block, and counts the entries between them where both are listed. -/
theorem NegatedHashTable.testInt64Range_inside (hw : ∃ w ∈ table.values, max ≤ w) :
    NegatedHashTable.testInt64Range table min max =
      if min ∈ table.values ∧ max ∈ table.values then do
        let span ← checkedSub max min
        return decide ((entriesBetween table.values min max : ℤ) ≠ span)
      else .ok true := by
  obtain ⟨w, hw, hmax⟩ := hw
  obtain ⟨atLo, hlo, hgeLo, hleastLo⟩ := exists_getElem?_lowerBound table.ascending hw (hlt.le.trans hmax)
  obtain ⟨atHi, hhi, hgeHi, hleastHi⟩ := exists_getElem?_lowerBound table.ascending hw hmax
  have hminMem : min = atLo ↔ min ∈ table.values :=
    ⟨fun h => h ▸ mem_of_getElem? hlo, fun h => le_antisymm hgeLo (hleastLo min h (le_refl _))⟩
  have hmaxMem : max = atHi ↔ max ∈ table.values :=
    ⟨fun h => h ▸ mem_of_getElem? hhi, fun h => le_antisymm hgeHi (hleastHi max h (le_refl _))⟩
  unfold NegatedHashTable.testInt64Range entriesBetween
  rw [if_neg hlt.ne, if_neg hinside]
  simp only [hlo, hhi, ← lowerBound_sub table.ascending hlt.le, ← hminMem, ← hmaxMem]
  split_ifs with h h' h'
  · exact absurd h' (not_and_or.mpr h)
  · rfl
  · rfl
  · exact absurd (not_or.mp h) (by simpa using h')

/-- A block that ends behind the last value makes the test read past the end. -/
theorem NegatedHashTable.testInt64Range_pastTheEnd (hw : ¬∃ w ∈ table.values, max ≤ w) :
    NegatedHashTable.testInt64Range table min max = .error .pastTheEnd := by
  have hnone : table.values[lowerBound table.values max]? = none :=
    getElem?_lowerBound_eq_none table.ascending fun y hy => not_le.mp fun h => hw ⟨y, hy, h⟩
  unfold NegatedHashTable.testInt64Range
  rw [if_neg hlt.ne, if_neg hinside]
  simp only [hnone]
  split
  · simp_all
  · rfl

end

/-- The test is false where both ends are listed and there are as many entries as integers
between them. -/
theorem NegatedHashTable.testInt64Range_eq_false_iff {table : HashTable} (hlt : min < max) :
    NegatedHashTable.testInt64Range table min max = .ok false ↔
      (table.min ≤ min ∧ max ≤ table.max) ∧ (min ∈ table.values ∧ max ∈ table.values) ∧ SubFits max min ∧
        (entriesBetween table.values min max : ℤ) = max.val - min.val := by
  by_cases hinside : table.max < max ∨ min < table.min
  · rw [NegatedHashTable.testInt64Range, if_neg hlt.ne, if_pos hinside]
    refine iff_of_false nofun fun h => ?_
    grind
  have hends : table.min ≤ min ∧ max ≤ table.max := by grind
  rw [and_iff_right hends]
  by_cases hw : ∃ w ∈ table.values, max ≤ w
  · rw [testInt64Range_inside hlt hinside hw]
    split_ifs with hlisted
    · rw [and_iff_right hlisted]
      unfold checkedSub
      split_ifs with hfits
      · simp [bind, Except.bind, pure, Except.pure, hfits]
      · simp [bind, Except.bind, hfits]
    · exact iff_of_false nofun fun h => hlisted h.1
  · rw [testInt64Range_pastTheEnd hlt hinside hw]
    exact iff_of_false nofun fun h => hw ⟨max, h.1.2, le_refl _⟩

end Bolt.Filters
