import Bolt.Lib.SignedInts

/-!
# Filters on column values

A filter accepts or rejects a value, and says whether it accepts null. Four filters do
not look at the value; the others belong to one type of values. `mergeWith` combines
two filters with AND logic.
-/

namespace Bolt.Filters

open Lib.SignedInts

/-- How a test or a merge can fail. -/
inductive FilterError where
  /-- `BOLT_UNSUPPORTED`: "mergeWith() is not supported.", "testTimestamp() is not supported." -/
  | unsupported
  /-- `BOLT_UNREACHABLE`. -/
  | unreachable
  /-- A sum or difference of signed integers that overflows has no defined value. -/
  | signedOverflow
  /-- `BOLT_CHECK`. -/
  | checkFailed
  /-- The iterator behind the last element is read. -/
  | pastTheEnd
  /-- An optional bound that is absent is read. -/
  | absentBound
deriving DecidableEq

/-- The filters that are independent of the value, and those of one type of values. -/
inductive Filter (κ : Type) where
  | alwaysTrue
  | alwaysFalse
  | isNull
  | isNotNull
  | ofValue (filter : κ)
deriving DecidableEq

/-- What the filters of one type of values provide. -/
class ValueFilter (κ : Type) (α : outParam Type) where
  /-- `nullAllowed_`. -/
  nullAllowed : κ → Bool
  test : κ → α → Bool
  /-- Whether `AlwaysTrue` and `AlwaysFalse` implement the test. -/
  testedByConstants : Bool

def nullOrFalse {κ : Type} (nullAllowed : Bool) : Filter κ := if nullAllowed then .isNull else .alwaysFalse

def notNullOrTrue {κ : Type} (nullAllowed : Bool) : Filter κ := if nullAllowed then .alwaysTrue else .isNotNull

namespace Filter

variable {κ α : Type} [ValueFilter κ α]

def testNull : Filter κ → Bool
  | alwaysTrue => true
  | alwaysFalse => false
  | isNull => true
  | isNotNull => false
  | ofValue filter => ValueFilter.nullAllowed filter

/-- The test of a value that is not null: `testInt128`, `testTimestamp`. -/
def test : Filter κ → α → Except FilterError Bool
  | alwaysTrue, _ => if ValueFilter.testedByConstants κ then .ok true else .error .unsupported
  | alwaysFalse, _ => if ValueFilter.testedByConstants κ then .ok false else .error .unsupported
  | isNull, _ => .ok false
  | isNotNull, _ => .ok true
  | ofValue filter, v => .ok (ValueFilter.test filter v)

def Accepts (filter : Filter κ) (v : α) : Prop := filter.test v = .ok true

instance (filter : Filter κ) (v : α) : Decidable (filter.Accepts v) :=
  inferInstanceAs (Decidable (filter.test v = .ok true))

/-- The filter accepts a value, and null, where both filters do. -/
def IsIntersection (f g merged : Filter κ) : Prop :=
  (∀ v, merged.Accepts v ↔ f.Accepts v ∧ g.Accepts v) ∧ merged.testNull = (f.testNull && g.testNull)

@[simp]
theorem accepts_ofValue {filter : κ} {v : α} : (ofValue filter).Accepts v ↔ ValueFilter.test filter v = true := by
  simp [Accepts, test]

@[simp]
theorem testNull_ofValue (filter : κ) : (ofValue filter).testNull = ValueFilter.nullAllowed filter :=
  rfl

@[simp]
theorem testNull_nullOrFalse (nullAllowed : Bool) : (nullOrFalse nullAllowed : Filter κ).testNull = nullAllowed := by
  cases nullAllowed <;> rfl

@[simp]
theorem accepts_nullOrFalse (nullAllowed : Bool) (v : α) : ¬(nullOrFalse nullAllowed : Filter κ).Accepts v := by
  cases nullAllowed with
  | true => simp [nullOrFalse, Accepts, test]
  | false =>
    simp only [nullOrFalse, Accepts, test, Bool.false_eq_true, ↓reduceIte]
    split <;> simp

end Filter

/-- A step by one, or the overflow. -/
def checked {bits : ℕ} (result : Option (SignedInt bits)) : Except FilterError (SignedInt bits) :=
  match result with
  | some x => .ok x
  | none => .error .signedOverflow

end Bolt.Filters
