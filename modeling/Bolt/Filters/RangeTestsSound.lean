import Bolt.Filters.RangeTests
import Bolt.Filters.BigintTests

/-!
# Range tests never prune a match

A range test may say yes for a block without a match, but it must not say no for a block
with one, and it must not read an end that is absent. This module states for every class
of filters the blocks for which that holds.
-/

namespace Bolt.Filters

open Lib.SignedInts Lib.Intervals Lib.Intervals.ClosedRange Lib.ByteStrings BytesRange Int128Filter

variable {a b v : List UInt8}

/-! ## What is asked of a range test -/

/-- The string lies between the ends that are present. -/
def WithinEnds (min max : Option (List UInt8)) (v : List UInt8) : Prop :=
  (∀ least, min = some least → least ≤ v) ∧ ∀ greatest, max = some greatest → v ≤ greatest

namespace BlockTest

end BlockTest

/-! ## The comparison of strings -/

def BytesRange.AboveLower (r : BytesRange) (v : List UInt8) : Prop :=
  r.lowerUnbounded = true ∨ r.lower < v ∨ r.lowerExclusive = false ∧ r.lower = v

def BytesRange.BelowUpper (r : BytesRange) (v : List UInt8) : Prop :=
  r.upperUnbounded = true ∨ v < r.upper ∨ r.upperExclusive = false ∧ v = r.upper

/-- The range from the empty string to the empty string without it, whose test accepts the
empty string all the same. -/
def BytesRange.Degenerate (r : BytesRange) : Prop :=
  r.lowerUnbounded = false ∧ r.lower = [] ∧ r.lowerExclusive = false ∧ r.upperUnbounded = false ∧ r.upper = [] ∧
    r.upperExclusive = true

variable {r : BytesRange}

theorem BytesRange.AboveLower.mono {w : List UInt8} (h : r.AboveLower v) (hle : v ≤ w) : r.AboveLower w := by
  rcases h with h | h | ⟨hinc, rfl⟩
  · exact .inl h
  · exact .inr (.inl (h.trans_le hle))
  · rcases hle.lt_or_eq with hlt | rfl
    · exact .inr (.inl hlt)
    · exact .inr (.inr ⟨hinc, rfl⟩)

theorem BytesRange.BelowUpper.mono {w : List UInt8} (h : r.BelowUpper w) (hle : v ≤ w) : r.BelowUpper v := by
  rcases h with h | h | ⟨hinc, rfl⟩
  · exact .inl h
  · exact .inr (.inl (hle.trans_lt h))
  · rcases hle.lt_or_eq with hlt | rfl
    · exact .inr (.inl hlt)
    · exact .inr (.inr ⟨hinc, rfl⟩)

/-- The test of a negated range reads an end that is absent: the least string of a range
without a lower end, or the greatest string of one without an upper end if the least one
is rejected. -/
def BytesRange.ReadsAbsent (r : BytesRange) (min max : Option (List UInt8)) : Prop :=
  r.lowerUnbounded = true ∧ min = none ∧ max ≠ none ∨
    r.upperUnbounded = true ∧ max = none ∧ ∃ least, min = some least ∧ r.testBytes least = true

/-- The ends of the block leave room for a value of the list, or are one of its values. -/
def BytesValueSet.Meets (set : BytesValueSet) (min max : Option (List UInt8)) : Prop :=
  (∃ v ∈ set.values, min = some v ∧ max = some v) ∨
    (min = max → min = none) ∧ (∀ least, min = some least → least ≤ set.upper) ∧
      ∀ greatest, max = some greatest → set.lower ≤ greatest

theorem WithinEnds.eq {value : List UInt8} {min max : Option (List UInt8)} (hw : WithinEnds min max v)
    (hmin : min = some value) (hmax : max = some value) : v = value :=
  le_antisymm (hw.2 _ hmax) (hw.1 _ hmin)

/-- Both ends of the block are present and in the range. -/
def BytesRange.ContainsEnds (r : BytesRange) (min max : Option (List UInt8)) : Prop :=
  ∃ least greatest, min = some least ∧ max = some greatest ∧ r.testBytes least = true ∧ r.testBytes greatest = true

namespace BytesFilter

variable (min max : Option (List UInt8)) (hasNull : Bool)
variable {filters : List BytesFilter}

mutual

/-- The bounds and values of the filter leave room for a match in the block. -/
def Meets : BytesFilter → Prop
  | range r nullAllowed => hasNull = true ∧ nullAllowed = true ∨
    (∀ greatest, max = some greatest → r.AboveLower greatest) ∧ ∀ least, min = some least → r.BelowUpper least
  | negatedRange r nullAllowed =>
    hasNull = true ∧ nullAllowed = true ∨ ¬r.ReadsAbsent min max ∧ ¬r.ContainsEnds min max
  | values set nullAllowed => hasNull = true ∧ nullAllowed = true ∨ set.Meets min max
  | negatedValues set nullAllowed =>
    hasNull = true ∧ nullAllowed = true ∨ ¬∃ v ∈ set.values, min = some v ∧ max = some v
  | multiRange filters nullAllowed => hasNull = true ∧ nullAllowed = true ∨ OneMeets filters

/-- The filter reads an absent end of the block: a negated range does. -/
def ReadsAbsent : BytesFilter → Prop
  | range _ _ => False
  | negatedRange r nullAllowed => ¬(hasNull = true ∧ nullAllowed = true) ∧ r.ReadsAbsent min max
  | values _ _ => False
  | negatedValues _ _ => False
  | multiRange filters nullAllowed => ¬(hasNull = true ∧ nullAllowed = true) ∧ OneReadsAbsent filters

/-- One of the filters meets the block, and none before it reads an absent end. -/
def OneMeets : List BytesFilter → Prop
  | [] => False
  | filter :: filters => Meets filter ∨ ¬ReadsAbsent filter ∧ OneMeets filters

/-- One of the filters reads an absent end, and none before it meets the block. -/
def OneReadsAbsent : List BytesFilter → Prop
  | [] => False
  | filter :: filters => ReadsAbsent filter ∨ ¬Meets filter ∧ OneReadsAbsent filters

end

mutual

/-- The blocks that a filter on strings tests as it should. -/
def Exact : BytesFilter → Prop
  | range r nullAllowed => hasNull = true ∧ nullAllowed = true ∨ ¬(r.Degenerate ∧ min = some [])
  | negatedRange r nullAllowed => hasNull = true ∧ nullAllowed = true ∨ ¬r.ReadsAbsent min max
  | values _ _ => True
  | negatedValues _ _ => True
  | multiRange filters nullAllowed => hasNull = true ∧ nullAllowed = true ∨
    OneMeets min max hasNull filters ∨ ¬OneReadsAbsent min max hasNull filters ∧ AllExact filters

def AllExact : List BytesFilter → Prop
  | [] => True
  | filter :: filters => Exact filter ∧ AllExact filters

end

variable {min max} {hasNull}

end BytesFilter

section
variable {α : Type} [LinearOrder α] {bounds : ClosedRange α} {min max v : α} (hmin : min ≤ v) (hmax : v ≤ max)
include hmin hmax

theorem closedRangeTest_true (hv : bounds.lower ≤ v ∧ v ≤ bounds.upper) : closedRangeTest bounds min max = true := by
  have hu : ¬bounds.upper < min := not_lt.mpr (hmin.trans hv.2)
  have hl : ¬max < bounds.lower := not_lt.mpr (hv.1.trans hmax)
  simp [closedRangeTest, hu, hl]

theorem negatedRangeTest_true (hv : ¬(bounds.lower ≤ v ∧ v ≤ bounds.upper)) : negatedRangeTest bounds min max = true := by
  have hno : ¬(bounds.lower ≤ min ∧ max ≤ bounds.upper) := fun h => hv ⟨h.1.trans hmin, hmax.trans h.2⟩
  rw [negatedRangeTest, Bool.not_eq_true', Bool.and_eq_false_iff, decide_eq_false_iff_not, decide_eq_false_iff_not]
  exact not_and_or.mp hno

end

/-- A block that the bounds of the range do not exclude. -/
def BigintRange.Meets (r : BigintRange) (min max : Int64) : Prop := min ≤ r.bounds.upper ∧ r.bounds.lower ≤ max

/-- Every class but the negated hash table and the multi-range finds a value that passes. -/
theorem testInt64Range_true {filter : BigintFilter} {min max v : Int64} (hmin : min ≤ v) (hmax : v ≤ max)
    (hv : filter.testInt64 v = true) (hclass : ∀ table nullAllowed, filter ≠ .negatedHashTable table nullAllowed)
    (hclass' : ∀ ranges nullAllowed, filter ≠ .multiRange ranges nullAllowed) (hasNull : Bool) :
    filter.testInt64Range min max hasNull = .ok true := by
  unfold BigintFilter.testInt64Range
  split
  · rfl
  cases filter with
  | range r =>
    dsimp only
    rw [BigintRange.testInt64Range, closedRangeTest_true hmin hmax (contains_iff.mp hv), ite_self]
  | negatedRange bounds nullAllowed =>
    have hno : ¬(bounds.lower ≤ v ∧ v ≤ bounds.upper) := by
      rw [← contains_iff, Bool.not_eq_true, ← Bool.not_eq_true']
      exact hv
    dsimp only
    rw [negatedRangeTest_true hmin hmax hno]
  | multiRange filter nullAllowed => exact absurd rfl (hclass' filter nullAllowed)
  | hashTable table nullAllowed => exact HashTable.testInt64Range_true hmin hmax hv
  | bitmask mask nullAllowed =>
    dsimp only
    rw [Bitmask.testInt64Range_true hmin hmax (Bitmask.testInt64_iff.mp hv)]
  | negatedHashTable table nullAllowed => exact absurd rfl (hclass table nullAllowed)
  | negatedBitmask nonNegated nullAllowed =>
    have hno : v ∉ nonNegated.values := by
      rw [← Bitmask.testInt64_iff, Bool.not_eq_true, ← Bool.not_eq_true']
      exact hv
    dsimp only
    rw [NegatedBitmask.testInt64Range_true hmin hmax hno]

namespace BlockTest

end BlockTest

end Bolt.Filters
