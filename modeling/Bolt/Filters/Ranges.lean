import Bolt.Filters.Base
import Bolt.Lib.Intervals

/-!
# Merging timestamp and hugeint range filters

`TimestampRange` and `HugeintRange` accept the values between two closed ends, and
their negations reject them. What is left of one range after another is taken out of it
is sorted and merged, and returned as one range from the first part to the last.
-/

namespace Bolt.Filters

open Lib.SignedInts Lib.Intervals Lib.Sorting

/-- `Timestamp`: seconds within the limits of Presto's milliseconds, and nanoseconds
within a second. -/
@[ext]
structure Timestamp where
  seconds : ℤ
  nanos : ℕ
  minSeconds_le : -9223372036854776 ≤ seconds
  seconds_le : seconds ≤ 9223372036854775
  nanos_le : nanos ≤ 999999999
deriving DecidableEq

namespace Timestamp

/-- `operator<=`. -/
instance : LE Timestamp where
  le s t := s.seconds < t.seconds ∨ s.seconds = t.seconds ∧ s.nanos ≤ t.nanos

/-- `operator<`. -/
instance : LT Timestamp where
  lt s t := s.seconds < t.seconds ∨ s.seconds = t.seconds ∧ s.nanos < t.nanos

theorem le_iff {s t : Timestamp} : s ≤ t ↔ s.seconds < t.seconds ∨ s.seconds = t.seconds ∧ s.nanos ≤ t.nanos := .rfl

theorem lt_iff {s t : Timestamp} : s < t ↔ s.seconds < t.seconds ∨ s.seconds = t.seconds ∧ s.nanos < t.nanos := .rfl

instance : LinearOrder Timestamp where
  le_refl s := by
    rw [le_iff]
    omega
  le_trans s t u := by
    simp only [le_iff]
    omega
  lt_iff_le_not_ge s t := by
    simp only [le_iff, lt_iff]
    omega
  le_antisymm s t := by
    simp only [le_iff]
    intro hst hts
    exact Timestamp.ext (by omega) (by omega)
  le_total s t := by
    simp only [le_iff]
    omega
  toDecidableLE s t := inferInstanceAs (Decidable (_ ∨ _))

protected def min : Timestamp := ⟨-9223372036854776, 0, by decide, by decide, by decide⟩

protected def max : Timestamp := ⟨9223372036854775, 999999999, by decide, by decide, by decide⟩

instance : BoundedOrder Timestamp where
  top := Timestamp.max
  le_top t := by
    refine le_iff.mpr ?_
    have hs := t.seconds_le
    have hn := t.nanos_le
    show t.seconds < 9223372036854775 ∨ t.seconds = 9223372036854775 ∧ t.nanos ≤ 999999999
    omega
  bot := Timestamp.min
  bot_le t := by
    refine le_iff.mpr ?_
    have hs := t.minSeconds_le
    show -9223372036854776 < t.seconds ∨ -9223372036854776 = t.seconds ∧ 0 ≤ t.nanos
    omega

end Timestamp

abbrev Int128 : Type := SignedInt 128

inductive RangeFilter (α : Type) where
  | range (bounds : ClosedRange α) (nullAllowed : Bool)
  | negatedRange (bounds : ClosedRange α) (nullAllowed : Bool)
deriving DecidableEq

namespace RangeFilter

variable {α : Type} [LinearOrder α]

def nullAllowed : RangeFilter α → Bool
  | range _ nullAllowed => nullAllowed
  | negatedRange _ nullAllowed => nullAllowed

def testValue : RangeFilter α → α → Bool
  | range bounds _, v => bounds.contains v
  | negatedRange bounds _, v => !bounds.contains v

end RangeFilter

/-- `AlwaysTrue` and `AlwaysFalse` have no `testTimestamp`. -/
instance : ValueFilter (RangeFilter Timestamp) Timestamp where
  nullAllowed := RangeFilter.nullAllowed
  test := RangeFilter.testValue
  testedByConstants := false

instance : ValueFilter (RangeFilter Int128) Int128 where
  nullAllowed := RangeFilter.nullAllowed
  test := RangeFilter.testValue
  testedByConstants := true

abbrev TimestampFilter : Type := Filter (RangeFilter Timestamp)

abbrev HugeintFilter : Type := Filter (RangeFilter Int128)

/-- The common body of `combineTimestampRanges` and `combineHugeintRanges`: a range
touches the running one if it starts at or before `limit` of its upper end. -/
def combineRanges {α : Type} [LinearOrder α] (S : ComparisonSort) (limit : α → Except FilterError α)
    (ranges : List (ClosedRange α)) (nullAllowed : Bool) : Except FilterError (Filter (RangeFilter α)) := do
  match ← ClosedRange.mergedHull limit (S.sort ClosedRange.startsBefore ranges) with
  | none => return nullOrFalse nullAllowed
  | some hull => return .ofValue (.range hull nullAllowed)

def combineTimestampRanges (S : ComparisonSort) (ranges : List (ClosedRange Timestamp)) (nullAllowed : Bool) :
    Except FilterError TimestampFilter :=
  combineRanges S .ok ranges nullAllowed

/-- `upper + 1`, at or before which a hugeint range touches one that ends at `upper`. -/
def nextHugeint (upper : Int128) : Except FilterError Int128 := checked upper.succ?

def combineHugeintRanges (S : ComparisonSort) (ranges : List (ClosedRange Int128)) (nullAllowed : Bool) :
    Except FilterError HugeintFilter :=
  combineRanges S nextHugeint ranges nullAllowed

def TimestampRange.mergeWith (bounds : ClosedRange Timestamp) (nullAllowed : Bool) :
    RangeFilter Timestamp → Except FilterError TimestampFilter
  | .range other otherNull =>
    let bothNullAllowed := nullAllowed && otherNull
    let lower := max bounds.lower other.lower
    let upper := min bounds.upper other.upper
    if lower ≤ upper then
      .ok (.ofValue (.range ⟨lower, upper⟩ bothNullAllowed))
    else
      .ok (nullOrFalse bothNullAllowed)
  | .negatedRange _ _ => .error .unreachable

/-- `outRanges` where the ranges overlap: what is before and after the negated range. -/
def NegatedTimestampRange.partsAround (bounds other : ClosedRange Timestamp) : List (ClosedRange Timestamp) :=
  (if other.lower < bounds.lower then [⟨other.lower, bounds.lower⟩] else []) ++
    if bounds.upper < other.upper then [⟨bounds.upper, other.upper⟩] else []

/-- `outRanges` of two negated ranges with a gap between them. -/
def NegatedTimestampRange.partsOfGap (bounds other : ClosedRange Timestamp) : List (ClosedRange Timestamp) :=
  (if Timestamp.min < bounds.lower then [⟨Timestamp.min, bounds.lower⟩] else []) ++
    [⟨bounds.upper, other.lower⟩] ++
    if other.upper < Timestamp.max then [⟨other.upper, Timestamp.max⟩] else []

def NegatedTimestampRange.mergeRange (S : ComparisonSort) (bounds other : ClosedRange Timestamp)
    (bothNullAllowed : Bool) : Except FilterError TimestampFilter :=
  if other.upper < bounds.lower ∨ bounds.upper < other.lower then
    .ok (.ofValue (.range ⟨min bounds.lower other.lower, max bounds.upper other.upper⟩ bothNullAllowed))
  else if bounds.lower ≤ other.lower ∧ other.upper ≤ bounds.upper then
    .ok (.ofValue (.negatedRange bounds bothNullAllowed))
  else
    combineTimestampRanges S (partsAround bounds other) bothNullAllowed

/-- The case `kNegatedTimestampRange`, where this range does not start later. -/
def NegatedTimestampRange.mergeNegated (S : ComparisonSort) (bounds other : ClosedRange Timestamp)
    (bothNullAllowed : Bool) : Except FilterError TimestampFilter :=
  if bounds.upper < other.lower then
    combineTimestampRanges S (partsOfGap bounds other) bothNullAllowed
  else
    .ok (.ofValue (.negatedRange ⟨bounds.lower, max bounds.upper other.upper⟩ bothNullAllowed))

def NegatedTimestampRange.mergeWith (S : ComparisonSort) (bounds : ClosedRange Timestamp) (nullAllowed : Bool) :
    RangeFilter Timestamp → Except FilterError TimestampFilter
  | .range other otherNull => mergeRange S bounds other (nullAllowed && otherNull)
  | .negatedRange other otherNull =>
    -- If this range starts later, the other one is the receiver.
    if other.lower < bounds.lower then
      mergeNegated S other bounds (otherNull && nullAllowed)
    else
      mergeNegated S bounds other (nullAllowed && otherNull)

def TimestampFilter.mergeWith (S : ComparisonSort) :
    RangeFilter Timestamp → RangeFilter Timestamp → Except FilterError TimestampFilter
  | .range bounds nullAllowed, other => TimestampRange.mergeWith bounds nullAllowed other
  | .negatedRange bounds nullAllowed, other => NegatedTimestampRange.mergeWith S bounds nullAllowed other

/-- What the loop of `combineNegatedRangeOnHugeintRanges` keeps of a range outside
`lower` and `upper`. -/
def partsOutside {bits : ℕ} (lower upper : SignedInt bits) (range : ClosedRange (SignedInt bits)) :
    Except FilterError (List (ClosedRange (SignedInt bits))) :=
  if range.upper < lower ∨ upper < range.lower then
    .ok [range]
  else do
    let below ← if range.lower < lower then do
        let last ← checked lower.pred?
        pure [⟨range.lower, last⟩]
      else pure []
    let above ← if upper < range.upper then do
        let first ← checked upper.succ?
        pure [⟨first, range.upper⟩]
      else pure []
    return below ++ above

def combineNegatedRangeOnHugeintRanges (S : ComparisonSort) (lower upper : Int128)
    (ranges : List (ClosedRange Int128)) (nullAllowed : Bool) : Except FilterError HugeintFilter := do
  let outRanges ← ranges.mapM (partsOutside lower upper)
  combineHugeintRanges S outRanges.flatten nullAllowed

def rangeBelow {bits : ℕ} (lower : SignedInt bits) : Except FilterError (List (ClosedRange (SignedInt bits))) :=
  if SignedInt.min bits < lower then do
    let last ← checked lower.pred?
    return [⟨SignedInt.min bits, last⟩]
  else
    .ok []

/-- The range between a negated range that ends at `upper` and one that starts at
`lower`. -/
def rangeBetween {bits : ℕ} (upper lower : SignedInt bits) : Except FilterError (List (ClosedRange (SignedInt bits))) :=
  if upper < SignedInt.max bits ∧ SignedInt.min bits < lower then do
    let first ← checked upper.succ?
    let last ← checked lower.pred?
    return [⟨first, last⟩]
  else
    .ok []

def rangeAbove {bits : ℕ} (upper : SignedInt bits) : Except FilterError (List (ClosedRange (SignedInt bits))) :=
  if upper < SignedInt.max bits then do
    let first ← checked upper.succ?
    return [⟨first, SignedInt.max bits⟩]
  else
    .ok []

/-- The case `kNegatedHugeintRange` of `NegatedHugeintRange::mergeWith`, where this range
does not start later. -/
def NegatedHugeintRange.mergeNegated (S : ComparisonSort) (bounds other : ClosedRange Int128)
    (bothNullAllowed : Bool) : Except FilterError HugeintFilter :=
  if bounds.upper < other.lower then do
    let below ← rangeBelow bounds.lower
    let between ← rangeBetween bounds.upper other.lower
    let above ← rangeAbove other.upper
    combineHugeintRanges S (below ++ between ++ above) bothNullAllowed
  else
    .ok (.ofValue (.negatedRange ⟨bounds.lower, max bounds.upper other.upper⟩ bothNullAllowed))

def NegatedHugeintRange.mergeWith (S : ComparisonSort) (bounds : ClosedRange Int128) (nullAllowed : Bool) :
    RangeFilter Int128 → Except FilterError HugeintFilter
  | .range other otherNull =>
    combineNegatedRangeOnHugeintRanges S bounds.lower bounds.upper [other] (nullAllowed && otherNull)
  | .negatedRange other otherNull =>
    -- If this range starts later, the other one is the receiver.
    if other.lower < bounds.lower then
      mergeNegated S other bounds (otherNull && nullAllowed)
    else
      mergeNegated S bounds other (nullAllowed && otherNull)

/-- `mergeWith` of two hugeint filters. `HugeintRange` does not override the default,
which is not supported. -/
def HugeintFilter.mergeWith (S : ComparisonSort) :
    RangeFilter Int128 → RangeFilter Int128 → Except FilterError HugeintFilter
  | .range _ _, _ => .error .unsupported
  | .negatedRange bounds nullAllowed, other => NegatedHugeintRange.mergeWith S bounds nullAllowed other

end Bolt.Filters
