import Bolt.Lib.Sorting
import Bolt.Data.Types

/-!
# The order of values

`compareDatum` and `compareValue` follow the `compare` methods of the vectors for
null-as-value handling, the only one the modelled callers use. `sqlOrder` is what they are
for. Map keys are sorted by a comparison sort `S`.
-/

namespace Bolt.Data

open Std Lib.Compare Lib.Sorting ScalarKind

/-- `std::isnan` for the floating-point kinds; other kinds have no NaN. -/
def ScalarKind.isNaN : (kind : ScalarKind) → kind.Native → Bool
  | .real, value => decide (binary32.IsNaN value.toNat)
  | .double, value => decide (binary64.IsNaN value.toNat)
  | _, _ => false

def ScalarKind.less : (kind : ScalarKind) → kind.Native → kind.Native → Bool
  | .boolean, left, right => !left && right
  | .tinyint, left, right => left.toInt < right.toInt
  | .smallint, left, right => left.toInt < right.toInt
  | .integer, left, right => left.toInt < right.toInt
  | .bigint, left, right => left.toInt < right.toInt
  | .hugeint, left, right => left.toInt < right.toInt
  | .real, left, right => binary32.value left.toNat < binary32.value right.toNat
  | .double, left, right => binary64.value left.toNat < binary64.value right.toNat
  | .timestamp, left, right =>
    left.seconds.toInt < right.seconds.toInt ||
      (left.seconds.toInt == right.seconds.toInt && left.nanos.toNat < right.nanos.toNat)

def ScalarKind.equal : (kind : ScalarKind) → kind.Native → kind.Native → Bool
  | .boolean, left, right => left == right
  | .tinyint, left, right => left == right
  | .smallint, left, right => left == right
  | .integer, left, right => left == right
  | .bigint, left, right => left == right
  | .hugeint, left, right => left == right
  | .real, left, right => binary32.value left.toNat == binary32.value right.toNat
  | .double, left, right => binary64.value left.toNat == binary64.value right.toNat
  | .timestamp, left, right => left.seconds == right.seconds && left.nanos == right.nanos

def comparePrimitiveAsc (kind : ScalarKind) (left right : kind.Native) : Int :=
  if kind.isNaN left then (if kind.isNaN right then 0 else 1)
  else if kind.isNaN right then -1
  else if kind.less left right then -1
  else if kind.equal left right then 0
  else 1

/-- `SimpleVector::comparePrimitiveAsc` on a `StringView`. -/
def compareStringAsc (left right : List UInt8) : Int :=
  if (compare left right).isLT then -1 else if left == right then 0 else 1

/-- `BaseVector::compareNulls` for null-as-value handling, around a comparison of
two values that are not null. -/
def compareNullable {α : Type} (flags : CompareFlags) (cmp : α → α → Int) : Option α → Option α → Int
  | none, none => 0
  | none, some _ => if flags.nullsFirst then -1 else 1
  | some _, none => if flags.nullsFirst then 1 else -1
  | some left, some right => cmp left right

/-- The element loop of `compareArrays`: the first non-zero result, or zero when
the shorter range ends. -/
def compareLoop {α : Type} (cmp : α → α → Int) : List α → List α → Int
  | left :: lefts, right :: rights =>
    let result := cmp left right
    if result ≠ 0 then result else compareLoop cmp lefts rights
  | _, _ => 0

def compareArrays {α : Type} (flags : CompareFlags) (cmp : α → α → Int) (left right : List α) : Int :=
  if flags.equalsOnly && left.length != right.length then 1
  else
    let result := compareLoop cmp left right
    if result ≠ 0 then result
    else
      let sizes : Int := (left.length : Int) - right.length
      if flags.ascending then sizes else sizes * -1

def keyAt {key value : SqlType} (entries : Entries key value) (index : ℕ) : Value key :=
  (entries.getD index (none, none)).1

def valueAt {key value : SqlType} (entries : Entries key value) (index : ℕ) : Value value :=
  (entries.getD index (none, none)).2

def sortedKeyIndices (S : ComparisonSort) (less : ℕ → ℕ → Bool) (count : ℕ) : List ℕ :=
  S.sort less (List.range count)

mutual
def compareDatum (S : ComparisonSort) : (type : SqlType) → CompareFlags → Datum type → Datum type → Int
  | .scalar kind, flags, left, right =>
    let result := comparePrimitiveAsc kind left right
    if flags.ascending then result else result * -1
  | .string _, flags, left, right =>
    let result := compareStringAsc left right
    if flags.ascending then result else result * -1
  | .unknown, _, left, _ => nomatch left
  | .array element, flags, left, right =>
    compareArrays flags (compareNullable flags (compareDatum S element flags)) left right
  | .map key value, flags, (left : Entries key value), (right : Entries key value) =>
    if flags.equalsOnly && left.length != right.length then 1
    else
      -- the keys are sorted with the default flags, whatever the flags of the comparison
      let less := fun (entries : Entries key value) (i j : ℕ) =>
        decide (compareNullable {} (compareDatum S key {}) (keyAt entries i) (keyAt entries j) < 0)
      let leftIndices := sortedKeyIndices S (less left) left.length
      let rightIndices := sortedKeyIndices S (less right) right.length
      let result := compareArrays flags (compareNullable flags (compareDatum S key flags))
        (leftIndices.map (keyAt left)) (rightIndices.map (keyAt right))
      if result ≠ 0 then result
      else compareArrays flags (compareNullable flags (compareDatum S value flags))
        (leftIndices.map (valueAt left)) (rightIndices.map (valueAt right))
  | .row children, flags, left, right => compareFields S children flags left right
  | .function, _, left, _ => nomatch left
/-- The child loop of `RowVector::compare`; both rows have the same children. -/
def compareFields (S : ComparisonSort) : (types : List SqlType) → CompareFlags → Fields types → Fields types → Int
  | [], _, _, _ => 0
  | type :: types, flags, (left, lefts), (right, rights) =>
    let result := compareNullable flags (compareDatum S type flags) left right
    if result ≠ 0 then result else compareFields S types flags lefts rights
end

/-- `BaseVector::compare`. -/
def compareValue (S : ComparisonSort) (type : SqlType) (flags : CompareFlags) (left right : Value type) : Int :=
  compareNullable flags (compareDatum S type flags) left right

/-- The order of a scalar kind: numeric, with all NaNs equal and last and the two
zeros equal; timestamps by seconds and then nanoseconds. -/
def ScalarKind.order : (kind : ScalarKind) → kind.Native → kind.Native → Ordering
  | .boolean, left, right => compare left right
  | .tinyint, left, right => compare left.toInt right.toInt
  | .smallint, left, right => compare left.toInt right.toInt
  | .integer, left, right => compare left.toInt right.toInt
  | .bigint, left, right => compare left.toInt right.toInt
  | .hugeint, left, right => compare left.toInt right.toInt
  | .real, left, right => binary32.compareValues left.toNat right.toNat
  | .double, left, right => binary64.compareValues left.toNat right.toNat
  | .timestamp, left, right =>
    (compare left.seconds.toInt right.seconds.toInt).then (compare left.nanos.toNat right.nanos.toNat)

/-- The indices of a map's entries, sorted by key under the order `cmp` of keys. -/
def keyOrder {key value : SqlType} (S : ComparisonSort) (cmp : Value key → Value key → Ordering)
    (entries : Entries key value) : List ℕ :=
  S.sort (fun i j => (cmp (keyAt entries i) (keyAt entries j)).isLT) (List.range entries.length)

mutual
/-- The SQL order of two values that are not null: direction applies to values and
lengths, null placement does not follow the direction, arrays go by the first
differing element and then by length, maps by their sorted keys and then by the
values in that order. -/
def sqlOrder (S : ComparisonSort) : (type : SqlType) → CompareFlags → Datum type → Datum type → Ordering
  | .scalar kind, flags, left, right => directed flags.ascending kind.order left right
  | .string _, flags, left, right => directed flags.ascending (compare (α := List UInt8)) left right
  | .unknown, _, left, _ => nomatch left
  | .array element, flags, left, right =>
    compareSeq (compareOption (sqlOrder S element flags) flags.nullOrder) flags.shorterOrder left right
  | .map key value, flags, (left : Entries key value), (right : Entries key value) =>
    let leftIndices := keyOrder S (compareOption (sqlOrder S key {}) .lt) left
    let rightIndices := keyOrder S (compareOption (sqlOrder S key {}) .lt) right
    (compareSeq (compareOption (sqlOrder S key flags) flags.nullOrder) flags.shorterOrder
      (leftIndices.map (keyAt left)) (rightIndices.map (keyAt right))).then
    (compareSeq (compareOption (sqlOrder S value flags) flags.nullOrder) flags.shorterOrder
      (leftIndices.map (valueAt left)) (rightIndices.map (valueAt right)))
  | .row children, flags, left, right => sqlOrderFields S children flags left right
  | .function, _, left, _ => nomatch left
def sqlOrderFields (S : ComparisonSort) : (types : List SqlType) → CompareFlags → Fields types → Fields types → Ordering
  | [], _, _, _ => .eq
  | type :: types, flags, (left, lefts), (right, rights) =>
    (compareOption (sqlOrder S type flags) flags.nullOrder left right).then
      (sqlOrderFields S types flags lefts rights)
end

def sqlOrderValue (S : ComparisonSort) (type : SqlType) (flags : CompareFlags) : Value type → Value type → Ordering :=
  compareOption (sqlOrder S type flags) flags.nullOrder

/-! ## The comparison methods compute the SQL order -/

def signOf (result : Int) : Ordering := compare result 0

@[simp] theorem signOf_zero : signOf 0 = .eq := rfl
@[simp] theorem signOf_one : signOf 1 = .gt := rfl
@[simp] theorem signOf_neg_one : signOf (-1) = .lt := rfl

theorem signOf_neg (result : Int) : signOf (result * -1) = (signOf result).swap := by
  unfold signOf
  rcases Int.lt_trichotomy result 0 with h | h | h
  · rw [Int.compare_eq_lt.mpr h, Int.compare_eq_gt.mpr (by omega)]
    rfl
  · rw [h]
    rfl
  · rw [Int.compare_eq_gt.mpr h, Int.compare_eq_lt.mpr (by omega)]
    rfl

theorem signOf_eq_eq {result : Int} : signOf result = .eq ↔ result = 0 :=
  Int.compare_eq_eq

theorem signOf_isLT (result : Int) : (signOf result).isLT = decide (result < 0) := by
  rw [Bool.eq_iff_iff, Ordering.isLT_iff_eq_lt, decide_eq_true_eq]
  exact Int.compare_eq_lt

theorem signOf_ite_ne_zero (first snd : Int) :
    signOf (if first ≠ 0 then first else snd) = (signOf first).then (signOf snd) := by
  by_cases h : first = 0
  · simp [h]
  · have hne : signOf first ≠ .eq := fun heq => h (signOf_eq_eq.mp heq)
    rw [if_pos h]
    revert hne
    cases signOf first <;> simp

variable (flags : CompareFlags)

theorem signOf_directed (result : Int) : signOf (if flags.ascending then result else result * -1) =
      if flags.ascending then signOf result else (signOf result).swap := by
  split
  · rfl
  · exact signOf_neg result

private theorem signOf_threeWay {a b : Int} : signOf (if a < b then -1 else if a = b then 0 else 1) = compare a b := by
  rcases Int.lt_trichotomy a b with h | h | h
  · rw [if_pos h, Int.compare_eq_lt.mpr h]
    rfl
  · rw [if_neg (by omega), if_pos h, Int.compare_eq_eq.mpr h]
    rfl
  · rw [if_neg (by omega), if_neg (by omega), Int.compare_eq_gt.mpr h]
    rfl

private theorem signOf_signed {w : ℕ} (left right : BitVec w) :
    signOf (if left.toInt < right.toInt then -1 else if left = right then 0 else 1) = compare left.toInt right.toInt := by
  simp only [← BitVec.toInt_inj]
  exact signOf_threeWay

private theorem signOf_floating (f : Lib.Ieee.Format) (left right : ℕ) :
    signOf (if f.IsNaN left then (if f.IsNaN right then 0 else 1) else if f.IsNaN right then -1
      else if f.value left < f.value right then -1
      else if f.value left = f.value right then 0 else 1) = f.compareValues left right := by
  unfold Lib.Ieee.Format.compareValues
  split
  · split <;> rfl
  · split
    · rfl
    · exact signOf_threeWay

private theorem signOf_timestamp (left right : Timestamp) :
    signOf (comparePrimitiveAsc .timestamp left right) = timestamp.order left right := by
  obtain ⟨s, n⟩ := left
  obtain ⟨s', n'⟩ := right
  have hs : s = s' ↔ s.toInt = s'.toInt := BitVec.toInt_inj.symm
  have hn : n = n' ↔ n.toNat = n'.toNat := BitVec.toNat_inj.symm
  simp only [comparePrimitiveAsc, isNaN, less, equal, order,
    Bool.or_eq_true, Bool.and_eq_true, decide_eq_true_eq, beq_iff_eq, hs, hn, Bool.false_eq_true, if_false]
  rcases Int.lt_trichotomy s.toInt s'.toInt with h | h | h
  · rw [if_pos (.inl h), Int.compare_eq_lt.mpr h]
    rfl
  · rw [Int.compare_eq_eq.mpr h, Ordering.eq_then]
    rcases Nat.lt_trichotomy n.toNat n'.toNat with h' | h' | h'
    · rw [if_pos (.inr ⟨h, h'⟩), Nat.compare_eq_lt.mpr h']
      rfl
    · rw [if_neg (by omega), if_pos ⟨h, h'⟩, Nat.compare_eq_eq.mpr h']
      rfl
    · rw [if_neg (by omega), if_neg (by omega), Nat.compare_eq_gt.mpr h']
      rfl
  · rw [if_neg (by omega), if_neg (by omega), Int.compare_eq_gt.mpr h]
    rfl

section

attribute [local simp] isNaN less equal order

theorem signOf_comparePrimitiveAsc (kind : ScalarKind) (left right : kind.Native) :
    signOf (comparePrimitiveAsc kind left right) = kind.order left right := by
  cases kind with
  | boolean =>
    revert left right
    decide
  | tinyint | smallint | integer | bigint | hugeint => simpa [comparePrimitiveAsc] using signOf_signed left right
  | real => simpa [comparePrimitiveAsc] using signOf_floating binary32 left.toNat right.toNat
  | double => simpa [comparePrimitiveAsc] using signOf_floating binary64 left.toNat right.toNat
  | timestamp => exact signOf_timestamp left right

end

theorem signOf_compareStringAsc (left right : List UInt8) :
    signOf (compareStringAsc left right) = compare left right := by
  unfold compareStringAsc
  cases h : compare left right with
  | lt => rfl
  | eq => simp [LawfulEqOrd.eq_of_compare h]
  | gt =>
    have hne : left ≠ right := by
      rintro rfl
      rw [ReflOrd.compare_self] at h
      cases h
    simp [hne]

section

variable {α : Type} {cmp : α → α → Int} {order : α → α → Ordering} (h : ∀ a b, signOf (cmp a b) = order a b)
include h

theorem signOf_compareNullable (left right : Option α) :
    signOf (compareNullable flags cmp left right) = compareOption order flags.nullOrder left right := by
  cases left with
  | none =>
    cases right with
    | none => rfl
    | some b => cases hf : flags.nullsFirst <;> simp [compareNullable, compareOption, CompareFlags.nullOrder, hf]
  | some a =>
    cases right with
    | none => cases hf : flags.nullsFirst <;> simp [compareNullable, compareOption, CompareFlags.nullOrder, hf]
    | some b => exact h a b

theorem signOf_compareArrays (hne : flags.equalsOnly = false) (left right : List α) :
    signOf (compareArrays flags cmp left right) = compareSeq order flags.shorterOrder left right := by
  have hl : ∀ (l m : List α) sizes, sizes = (l.length : Int) - m.length →
      signOf (if compareLoop cmp l m ≠ 0 then compareLoop cmp l m
        else if flags.ascending then sizes else sizes * -1) = compareSeq order flags.shorterOrder l m := by
    intro l
    induction l with
    | nil =>
      intro m sizes hs
      cases m with
      | nil => simp [compareLoop, compareSeq, hs]
      | cons b m =>
        have hn : signOf sizes = .lt := Int.compare_eq_lt.mpr (by rw [hs]; simp; omega)
        rw [signOf_ite_ne_zero, signOf_directed, hn]
        cases ha : flags.ascending <;> simp [compareLoop, compareSeq, CompareFlags.shorterOrder, ha]
    | cons a l ih =>
      intro m sizes hs
      cases m with
      | nil =>
        have hp : signOf sizes = .gt := Int.compare_eq_gt.mpr (by rw [hs]; simp)
        rw [signOf_ite_ne_zero, signOf_directed, hp]
        cases ha : flags.ascending <;> simp [compareLoop, compareSeq, CompareFlags.shorterOrder, ha]
      | cons b m =>
        have ht := ih m sizes (by rw [hs]; simp)
        rw [signOf_ite_ne_zero] at ht ⊢
        rw [compareLoop, signOf_ite_ne_zero, h, Ordering.then_assoc, ht, compareSeq_cons]
  unfold compareArrays
  rw [hne]
  exact hl left right _ rfl

end

end Bolt.Data
