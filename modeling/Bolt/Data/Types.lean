import Bolt.Lib.Ieee
import Mathlib.Data.BitVec

/-!
# Column types and values

The type tree of `type/Type.h` as far as the modelled components read it. A value is indexed
by its type, so a value of the wrong shape cannot be written down; integers and
floating-point values are their bit patterns.
-/

namespace Bolt.Data

open Lib.Ieee

inductive ScalarKind where
  | boolean
  | tinyint
  | smallint
  | integer
  | bigint
  | hugeint
  | real
  | double
  | timestamp
  deriving DecidableEq, Repr

inductive StringKind where
  | varchar
  | varbinary
  deriving DecidableEq, Repr

/-- The type tree. `function` stands for the kinds that no key or container codec
supports. -/
inductive SqlType where
  | scalar (kind : ScalarKind)
  | string (kind : StringKind)
  | unknown
  | array (element : SqlType)
  | map (key value : SqlType)
  | row (children : List SqlType)
  | function

/-- `Timestamp`: signed seconds and unsigned nanoseconds. -/
structure Timestamp where
  seconds : BitVec 64
  nanos : BitVec 64
  deriving DecidableEq, Repr

@[reducible] def ScalarKind.Native : ScalarKind → Type
  | .boolean => Bool
  | .tinyint => BitVec 8
  | .smallint => BitVec 16
  | .integer => BitVec 32
  | .bigint => BitVec 64
  | .hugeint => BitVec 128
  | .real => BitVec 32
  | .double => BitVec 64
  | .timestamp => Timestamp

mutual
/-- The non-null values of a type. Every value of type `unknown` is null. -/
@[reducible] def Datum : SqlType → Type
  | .scalar kind => kind.Native
  | .string _ => List UInt8
  | .unknown => Empty
  | .array element => List (Option (Datum element))
  | .map key value => List (Option (Datum key) × Option (Datum value))
  | .row children => Fields children
  | .function => Empty
/-- One value, possibly null, for each child of a row. -/
@[reducible] def Fields : List SqlType → Type
  | [] => Unit
  | type :: types => Option (Datum type) × Fields types
end

abbrev Value (type : SqlType) : Type := Option (Datum type)

/-- The entries of a map value in the order its vector stores them. -/
abbrev Entries (key value : SqlType) : Type := List (Value key × Value value)

/-- The format of `real`. -/
def binary32 : Format := ⟨8, 23⟩

def binary64 : Format := ⟨11, 52⟩

inductive NullHandlingMode where
  | nullAsValue
  | nullAsIndeterminate
  | nullAsSpecialValue
  deriving DecidableEq, Repr

structure CompareFlags where
  nullsFirst : Bool := true
  ascending : Bool := true
  equalsOnly : Bool := false
  nullHandlingMode : NullHandlingMode := .nullAsValue
  compareSizeFirst : Bool := false
  deriving DecidableEq, Repr

namespace CompareFlags

def nullOrder (flags : CompareFlags) : Ordering := if flags.nullsFirst then .lt else .gt

def shorterOrder (flags : CompareFlags) : Ordering := if flags.ascending then .lt else .gt

theorem nullOrder_ne_eq (flags : CompareFlags) : flags.nullOrder ≠ .eq := by
  unfold nullOrder
  split <;> decide

theorem shorterOrder_ne_eq (flags : CompareFlags) : flags.shorterOrder ≠ .eq := by
  unfold shorterOrder
  split <;> decide

end CompareFlags

end Bolt.Data
