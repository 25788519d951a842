import Bolt.Filters.Ranges
import Bolt.Lib.LowerBound

/-!
# Filters on 64-bit integers

An integer filter is a range, the negation of a range, a union of at least two ranges,
or an IN list or its negation, held as a hash table or as a bitmask. What the constructors
check is kept by the structures.

Sizes and positions are natural numbers; differences of values are signed and checked.
-/

namespace Bolt.Filters

open Lib.SignedInts Lib.Intervals Lib.LowerBound

abbrev Int64 : Type := SignedInt 64

structure BigintRange where
  bounds : ClosedRange Int64
  nullAllowed : Bool
deriving DecidableEq

/-- `BigintMultiRange`: "should contain at least 2 ranges", "bigint ranges must not overlap".
A range may touch the next one, and it may be empty. -/
structure BigintMultiRange where
  ranges : List BigintRange
  two_le : 2 ≤ ranges.length
  not_overlap : ranges.IsChain fun range next => range.bounds.upper ≤ next.bounds.lower

/-- `BigintValuesUsingHashTable` with its sorted `values_`, which may repeat. Neither end
has to be a value, nor to bound the values. -/
structure HashTable where
  min : Int64
  max : Int64
  values : List Int64
  ascending : values.Pairwise (· ≤ ·)
  two_le : 2 ≤ values.length
  min_lt_max : min < max

/-- `BigintValuesUsingBitmask`, with the values whose bits are set. -/
structure Bitmask where
  min : Int64
  max : Int64
  values : List Int64
  min_lt_max : min < max
  within : ∀ v ∈ values, min ≤ v ∧ v ≤ max

inductive BigintFilter where
  | range (range : BigintRange)
  | negatedRange (bounds : ClosedRange Int64) (nullAllowed : Bool)
  | multiRange (filter : BigintMultiRange) (nullAllowed : Bool)
  | hashTable (table : HashTable) (nullAllowed : Bool)
  | bitmask (mask : Bitmask) (nullAllowed : Bool)
  | negatedHashTable (nonNegated : HashTable) (nullAllowed : Bool)
  | negatedBitmask (nonNegated : Bitmask) (nullAllowed : Bool)

/-- A position, or the position to insert at as a negative number less one. -/
def binarySearch (values : List Int64) (value : Int64) : ℤ :=
  let it := lowerBound values value
  if values[it]? = some value then it else -it - 1

namespace BigintMultiRange

variable (filter : BigintMultiRange)

def lowerBounds : List Int64 := filter.ranges.map fun range => range.bounds.lower

def testInt64 (value : Int64) : Bool :=
  let i := binarySearch filter.lowerBounds value
  if 0 ≤ i then true
  else
    let place := -i - 1
    -- Below first
    if place = 0 then false
    else
      match filter.ranges[(place - 1).toNat]? with
      | some range => range.bounds.contains value
      | none => false

end BigintMultiRange

def HashTable.testInt64 (table : HashTable) (value : Int64) : Bool :=
  if value < table.min ∨ table.max < value then false else decide (value ∈ table.values)

def Bitmask.testInt64 (mask : Bitmask) (value : Int64) : Bool :=
  if value < mask.min ∨ mask.max < value then false else decide (value ∈ mask.values)

namespace BigintFilter

def nullAllowed : BigintFilter → Bool
  | range r => r.nullAllowed
  | negatedRange _ nullAllowed => nullAllowed
  | multiRange _ nullAllowed => nullAllowed
  | hashTable _ nullAllowed => nullAllowed
  | bitmask _ nullAllowed => nullAllowed
  | negatedHashTable _ nullAllowed => nullAllowed
  | negatedBitmask _ nullAllowed => nullAllowed

def testInt64 : BigintFilter → Int64 → Bool
  | range r, value => r.bounds.contains value
  | negatedRange bounds _, value => !bounds.contains value
  | multiRange filter _, value => filter.testInt64 value
  | hashTable table _, value => table.testInt64 value
  | bitmask mask _, value => mask.testInt64 value
  | negatedHashTable nonNegated _, value => !nonNegated.testInt64 value
  | negatedBitmask nonNegated _, value => !nonNegated.testInt64 value

end BigintFilter

instance : ValueFilter BigintFilter Int64 where
  nullAllowed := BigintFilter.nullAllowed
  test := BigintFilter.testInt64
  testedByConstants := true

/-! ## Range tests -/

/-- The difference of two values is a value. -/
def SubFits (max min : Int64) : Prop := -2 ^ 63 ≤ max.val - min.val ∧ max.val - min.val < 2 ^ 63

instance (max min : Int64) : Decidable (SubFits max min) :=
  inferInstanceAs (Decidable (_ ∧ _))

/-- `max - min`, where it does not overflow. -/
def checkedSub (max min : Int64) : Except FilterError ℤ :=
  if SubFits max min then .ok (max.val - min.val) else .error .signedOverflow

/-- The range test of a range: the block is not beside it. -/
def closedRangeTest {α : Type} [LinearOrder α] (bounds : ClosedRange α) (min max : α) : Bool :=
  !(decide (bounds.upper < min) || decide (max < bounds.lower))

/-- The range test of a negated range: the block is not within it. -/
def negatedRangeTest {α : Type} [LinearOrder α] (bounds : ClosedRange α) (min max : α) : Bool :=
  !(decide (bounds.lower ≤ min) && decide (max ≤ bounds.upper))

def BigintRange.testInt64Range (r : BigintRange) (min max : Int64) (hasNull : Bool) : Bool :=
  if hasNull && r.nullAllowed then true else closedRangeTest r.bounds min max

def HashTable.testInt64Range (table : HashTable) (min max : Int64) : Except FilterError Bool :=
  if min = max then
    .ok (table.testInt64 min)
  else if table.max < min ∨ max < table.min then
    .ok false
  else
    match table.values[lowerBound table.values min]? with
    | some it => .ok (if min = it then true else decide (it ≤ max))
    | none => .error .pastTheEnd

def Bitmask.testInt64Range (mask : Bitmask) (min max : Int64) : Bool :=
  if min = max then mask.testInt64 min else !(decide (mask.max < min) || decide (max < mask.min))

def NegatedBitmask.testInt64Range (nonNegated : Bitmask) (min max : Int64) : Bool :=
  if min = max then !nonNegated.testInt64 min else true

def NegatedHashTable.testInt64Range (nonNegated : HashTable) (min max : Int64) : Except FilterError Bool :=
  if min = max then
    .ok (!nonNegated.testInt64 min)
  else if nonNegated.max < max ∨ min < nonNegated.min then
    .ok true
  else
    let lo := lowerBound nonNegated.values min
    let hi := lowerBound nonNegated.values max
    match nonNegated.values[lo]?, nonNegated.values[hi]? with
    | some atLo, some atHi =>
      if min ≠ atLo ∨ max ≠ atHi then
        -- at least one of the endpoints of the range succeeds
        .ok true
      else do
        let span ← checkedSub max min
        return decide ((hi : ℤ) - lo ≠ span)
    | _, _ => .error .pastTheEnd

def BigintFilter.testInt64Range (filter : BigintFilter) (min max : Int64) (hasNull : Bool) : Except FilterError Bool :=
  if hasNull && filter.nullAllowed then
    .ok true
  else
    match filter with
    | .range r => .ok (r.testInt64Range min max hasNull)
    | .negatedRange bounds _ => .ok (negatedRangeTest bounds min max)
    | .multiRange filter _ => .ok (filter.ranges.any fun range => range.testInt64Range min max hasNull)
    | .hashTable table _ => table.testInt64Range min max
    | .bitmask mask _ => .ok (mask.testInt64Range min max)
    | .negatedHashTable nonNegated _ => NegatedHashTable.testInt64Range nonNegated min max
    | .negatedBitmask nonNegated _ => .ok (NegatedBitmask.testInt64Range nonNegated min max)

end Bolt.Filters
