import Bolt.Filters.Bigint
import Bolt.Lib.ByteStrings

/-!
# Range tests of filters

A range test decides from the least and the greatest value of a block of rows, and whether
it has nulls, whether the block can be skipped. Strings are shorter than 2 GiB, as their
lengths are `int32_t` in the tests.
-/

namespace Bolt.Filters

open Lib.SignedInts Lib.Intervals Lib.ByteStrings

inductive Int128Filter where
  | ofRange (filter : RangeFilter Int128)
  | hashTable (values : List Int128) (nullAllowed : Bool)
  | multiRange (filters : List Int128Filter) (nullAllowed : Bool)

namespace Int128Filter

def nullAllowed : Int128Filter → Bool
  | ofRange filter => filter.nullAllowed
  | hashTable _ nullAllowed => nullAllowed
  | multiRange _ nullAllowed => nullAllowed

mutual

def testInt128 : Int128Filter → Int128 → Bool
  | ofRange filter, value => filter.testValue value
  | hashTable values _, value => decide (value ∈ values)
  | multiRange filters _, value => anyTestInt128 filters value

/-- The loop of `MultiRange::testInt128`. -/
def anyTestInt128 : List Int128Filter → Int128 → Bool
  | [], _ => false
  | filter :: filters, value => testInt128 filter value || anyTestInt128 filters value

end

end Int128Filter

/-- The fields of `BytesRange`. "A range filter must have a lower or upper bound." -/
structure BytesRange where
  lower : List UInt8
  lowerUnbounded : Bool
  lowerExclusive : Bool
  upper : List UInt8
  upperUnbounded : Bool
  upperExclusive : Bool
  bounded : lowerUnbounded = false ∨ upperUnbounded = false
deriving DecidableEq

structure BytesValueSet where
  lower : List UInt8
  upper : List UInt8
  values : List (List UInt8)
  lower_mem : lower ∈ values
  upper_mem : upper ∈ values
  lower_le : ∀ v ∈ values, lower ≤ v
  le_upper : ∀ v ∈ values, v ≤ upper

inductive BytesFilter where
  | range (range : BytesRange) (nullAllowed : Bool)
  | negatedRange (range : BytesRange) (nullAllowed : Bool)
  | values (set : BytesValueSet) (nullAllowed : Bool)
  | negatedValues (set : BytesValueSet) (nullAllowed : Bool)
  | multiRange (filters : List BytesFilter) (nullAllowed : Bool)

/-- `compareRanges`. The overload on views returns the sign of the same number. -/
def compareRanges (lhs rhs : List UInt8) : ℤ :=
  match memcmp lhs rhs with
  | .lt => -1
  | .gt => 1
  | .eq => lhs.length - rhs.length

namespace BytesRange

def singleValue (r : BytesRange) : Bool :=
  !r.lowerExclusive && !r.upperExclusive && !r.lowerUnbounded && !r.upperUnbounded && decide (r.lower = r.upper)

def testBytes (r : BytesRange) (value : List UInt8) : Bool :=
  if value.length = 0 then
    -- Empty string. This is the smallest possible string.
    if r.lowerUnbounded then !r.upper.isEmpty || !r.upperExclusive else r.lower.isEmpty && !r.lowerExclusive
  else if r.singleValue then
    if value.length ≠ r.lower.length then false else decide (memcmp value r.lower = .eq)
  else
    if !r.lowerUnbounded &&
        (decide (compareRanges value r.lower < 0) || r.lowerExclusive && decide (compareRanges value r.lower = 0)) then
      false
    else if !r.upperUnbounded then
      decide (compareRanges value r.upper < 0) || !r.upperExclusive && decide (compareRanges value r.upper = 0)
    else
      true

def testBytesRange (r : BytesRange) (min max : Option (List UInt8)) : Bool :=
  (r.lowerUnbounded || match max with
    | none => true
    | some max => decide (compareRanges max r.lower ≥ if r.lowerExclusive then 1 else 0)) &&
  (r.upperUnbounded || match min with
    | none => true
    | some min => decide (compareRanges min r.upper ≤ if r.upperExclusive then -1 else 0))

end BytesRange

/-- `BytesValues::testBytes`. The lengths are those of the values. -/
def BytesValueSet.testBytes (set : BytesValueSet) (value : List UInt8) : Bool :=
  decide (value.length ∈ set.values.map List.length) && decide (value ∈ set.values)

def BytesValueSet.testBytesRange (set : BytesValueSet) (min max : Option (List UInt8)) : Bool :=
  match min, max with
  | some min, some max =>
    if min = max then set.testBytes min
    else if compareRanges min set.upper > 0 then false
    else if compareRanges max set.lower < 0 then false
    else true
  | some min, none => !decide (compareRanges min set.upper > 0)
  | none, some max => !decide (compareRanges max set.lower < 0)
  | none, none => true

/-- An optional that is read without a test. -/
def readBound (bound : Option (List UInt8)) : Except FilterError (List UInt8) :=
  match bound with
  | some value => .ok value
  | none => .error .absentBound

def NegatedBytesRange.testBytesRange (r : BytesRange) (min max : Option (List UInt8)) : Except FilterError Bool :=
  if (min.isNone && !r.lowerUnbounded) || (max.isNone && !r.upperUnbounded) then
    .ok true
  else if min.isSome && max.isSome && decide (min = max) then do
    let value ← readBound min
    return !r.testBytes value
  else do
    -- if both min and max are within the negated range then reject
    let least ← readBound min
    if r.testBytes least then
      let greatest ← readBound max
      return !r.testBytes greatest
    else
      return true

def NegatedBytesValues.testBytesRange (set : BytesValueSet) (min max : Option (List UInt8)) : Bool :=
  match min, max with
  | some min, some max => if min = max then !set.testBytes min else true
  -- a range of strings will always contain at least one string not in a set
  | _, _ => true

namespace BytesFilter

def nullAllowed : BytesFilter → Bool
  | range _ nullAllowed => nullAllowed
  | negatedRange _ nullAllowed => nullAllowed
  | values _ nullAllowed => nullAllowed
  | negatedValues _ nullAllowed => nullAllowed
  | multiRange _ nullAllowed => nullAllowed

mutual

def testBytes : BytesFilter → List UInt8 → Bool
  | range r _, value => r.testBytes value
  | negatedRange r _, value => !r.testBytes value
  | values set _, value => set.testBytes value
  | negatedValues set _, value => !set.testBytes value
  | multiRange filters _, value => anyTestBytes filters value

/-- The loop of `MultiRange::testBytes`. -/
def anyTestBytes : List BytesFilter → List UInt8 → Bool
  | [], _ => false
  | filter :: filters, value => testBytes filter value || anyTestBytes filters value

end

mutual

def testBytesRange (min max : Option (List UInt8)) (hasNull : Bool) : BytesFilter → Except FilterError Bool
  | range r nullAllowed => .ok (if hasNull && nullAllowed then true else r.testBytesRange min max)
  | negatedRange r nullAllowed =>
    if hasNull && nullAllowed then .ok true else NegatedBytesRange.testBytesRange r min max
  | values set nullAllowed => .ok (if hasNull && nullAllowed then true else set.testBytesRange min max)
  | negatedValues set nullAllowed =>
    .ok (if hasNull && nullAllowed then true else NegatedBytesValues.testBytesRange set min max)
  | multiRange filters nullAllowed =>
    if hasNull && nullAllowed then .ok true else anyTestBytesRange min max hasNull filters

def anyTestBytesRange (min max : Option (List UInt8)) (hasNull : Bool) : List BytesFilter → Except FilterError Bool
  | [] => .ok false
  | filter :: filters => do
    if ← testBytesRange min max hasNull filter then return true else anyTestBytesRange min max hasNull filters

end

end BytesFilter

/-! ## The test of a block -/

namespace BlockTest

end BlockTest

end Bolt.Filters
