import Bolt.RadixSort.KeyReader
import Bolt.RadixSort.KeyLoad
import Bolt.RadixSort.KeyVariable

/-!
# Comparing keys with special floating-point values

`RadixSortKeyCodec::compareEncoded` with the comparators that `prepareSpecialComparators`
selects. A column that may hold a NaN or a negative zero is compared value by value, with
floating-point bodies brought to one representative first; any other by its bytes.
-/

namespace Bolt.RadixSort

open Std Data Lib.Bytes Lib.Compare Lib.OrderCode Lib.Sorting Lib.Readers BitVec

/-! ## Special-value flags -/

mutual
/-- `hasSpecialValues` of a column and of its children. -/
@[reducible] def SpecialValues : SqlType → Type
  | .scalar _ => Bool
  | .string _ => Bool
  | .unknown => Bool
  | .array element => Bool × SpecialValues element
  | .map key value => Bool × SpecialValues key × SpecialValues value
  | .row children => Bool × SpecialFields children
  | .function => Bool
@[reducible] def SpecialFields : List SqlType → Type
  | [] => Unit
  | type :: types => SpecialValues type × SpecialFields types
end

mutual
def encodedSpecialValues : (type : SqlType) → SpecialValues type → Bool
  | .scalar kind, hasSpecialValues => containsFloatingPoint (.scalar kind) && hasSpecialValues
  | .string kind, hasSpecialValues => containsFloatingPoint (.string kind) && hasSpecialValues
  | .unknown, hasSpecialValues => containsFloatingPoint .unknown && hasSpecialValues
  | .array element, (hasSpecialValues, child) =>
    containsFloatingPoint (.array element) && (hasSpecialValues || encodedSpecialValues element child)
  | .map key value, (hasSpecialValues, keys, values) =>
    containsFloatingPoint (.map key value) &&
      (hasSpecialValues || (encodedSpecialValues key keys || encodedSpecialValues value values))
  | .row children, (hasSpecialValues, fields) =>
    containsFloatingPoint (.row children) && (hasSpecialValues || anyEncodedSpecialValues children fields)
  | .function, hasSpecialValues => containsFloatingPoint .function && hasSpecialValues
def anyEncodedSpecialValues : (types : List SqlType) → SpecialFields types → Bool
  | [], _ => false
  | type :: types, (special, specials) => encodedSpecialValues type special || anyEncodedSpecialValues types specials
end

/-! ## Floating-point keys -/

/-- `normalizeFloatingPointKey`: NaNs become the largest key and the negative zero the
positive one, in the direction of the column. -/
def normalizeFloatingPointKey {w : ℕ} (key : BitVec w) (descending : Bool) : BitVec w :=
  let sign := 1#w <<< (w - 1)
  let infinity := if w = 32 then 0x7f800000#w else 0x7ff0000000000000#w
  let negativeInfinity := ~~~(sign ||| infinity)
  let positiveInfinity := sign ||| infinity
  let directionMask := if descending then allOnes w else 0#w
  let directed := key ^^^ directionMask
  let normalized :=
    if directed < negativeInfinity ∨ positiveInfinity < directed then allOnes w
    else if directed = sign - 1#w then sign
    else directed
  normalized ^^^ directionMask

def compareFloatingPointBody (size : ℕ) (left right : List UInt8) (descending : Bool) : ℤ :=
  let a := normalizeFloatingPointKey (BitVec.ofNat (size * 8) (fromBigEndian size (loadUnaligned left))) descending
  let b := normalizeFloatingPointKey (BitVec.ofNat (size * 8) (fromBigEndian size (loadUnaligned right))) descending
  threeWay a.toNat b.toNat

/-! ## Comparators of encoded values -/

abbrev EncodedComparator := PairReader KeyError UInt8 ℤ

def compareKeyBytes (left right : List UInt8) : ℤ :=
  let common := min left.length right.length
  let result := if common = 0 then 0 else memcmp (left.take common) (right.take common)
  if result = 0 then threeWay left.length right.length else threeWay result 0

def compareEncodedBytes (type : SqlType) (flags : CompareFlags) : EncodedComparator := do
  let a ← left (consumed (skipValue type flags))
  let b ← right (consumed (skipValue type flags))
  return compareKeyBytes a b

def compareMarked (flags : CompareFlags) (compareBody : EncodedComparator) : EncodedComparator := do
  let a ← left checkedReadByte
  let b ← right checkedReadByte
  if a ≠ b then return threeWay a b
  else if a = nullMarker flags then return 0
  else if a ≠ validMarker flags then throw .invalidMarker
  else compareBody

def compareEncodedFloating (size : ℕ) (flags : CompareFlags) : EncodedComparator :=
  compareMarked flags do
    let a ← left (taken .truncated size)
    let b ← right (taken .truncated size)
    return compareFloatingPointBody size a b (!flags.ascending)

def containerDelimiter (flags : CompareFlags) : UInt8 := if flags.ascending then 0 else 255

def compareEncodedArray (flags : CompareFlags) (child : EncodedComparator) : EncodedComparator :=
  compareMarked flags do
    let (result, _) ← compareUntil threeWay .truncated .roundsExhausted (containerDelimiter flags) child
    return result

def compareMapEnd (flags : CompareFlags) : EncodedComparator := do
  let a ← left checkedReadByte
  let b ← right checkedReadByte
  if a ≠ containerDelimiter flags then throw .invalidMapDelimiter
  else if b ≠ containerDelimiter flags then throw .invalidMapDelimiter
  else return 0

def compareMapBody (flags : CompareFlags) (key value : EncodedComparator) : EncodedComparator := do
  let (result, count) ← compareUntil threeWay .truncated .roundsExhausted (containerDelimiter flags) key
  if result ≠ 0 then return result
  else firstDifference (compareTimes value count) (compareMapEnd flags)

def compareEncodedMap (flags : CompareFlags) (key value : EncodedComparator) : EncodedComparator :=
  compareMarked flags (compareMapBody flags key value)

def compareEncodedScalar : ScalarKind → CompareFlags → EncodedComparator
  | .real, flags => compareEncodedFloating 4 flags
  | .double, flags => compareEncodedFloating 8 flags
  | kind, flags => compareEncodedBytes (.scalar kind) flags

mutual
/-- `RadixSortKeyColumn::encodedComparator` as `prepareColumnComparators` sets it. -/
def encodedComparator : (type : SqlType) → CompareFlags → SpecialValues type → EncodedComparator
  | .scalar kind, flags, special =>
    if encodedSpecialValues (.scalar kind) special then compareEncodedScalar kind flags
    else compareEncodedBytes (.scalar kind) flags
  | .string kind, flags, _ => compareEncodedBytes (.string kind) flags
  | .unknown, flags, _ => compareEncodedBytes .unknown flags
  | .array element, flags, special =>
    if encodedSpecialValues (.array element) special then
      compareEncodedArray flags (encodedComparator element flags special.2)
    else compareEncodedBytes (.array element) flags
  | .map key value, flags, special =>
    if encodedSpecialValues (.map key value) special then
      compareEncodedMap flags (encodedComparator key flags special.2.1) (encodedComparator value flags special.2.2)
    else compareEncodedBytes (.map key value) flags
  | .row children, flags, special =>
    if encodedSpecialValues (.row children) special then
      compareMarked flags (compareEncodedRow children flags special.2)
    else compareEncodedBytes (.row children) flags
  | .function, flags, _ => compareEncodedBytes .function flags
def compareEncodedRow : (types : List SqlType) → CompareFlags → SpecialFields types → EncodedComparator
  | [], _, _ => return 0
  | type :: types, flags, (special, specials) =>
    firstDifference (encodedComparator type flags special) (compareEncodedRow types flags specials)
end

/-! ## `compareEncoded` -/

@[reducible] def RowSpecialValues : List RadixSortKeyColumn → Type
  | [] => Unit
  | column :: columns => SpecialValues column.type × RowSpecialValues columns

def floatingPointEndLoop : (column floatingPointEnd : ℕ) → List RadixSortKeyColumn → ℕ
  | _, floatingPointEnd, [] => floatingPointEnd
  | index, floatingPointEnd, column :: columns =>
    floatingPointEndLoop (index + 1) (if containsFloatingPoint column.type then index + 1 else floatingPointEnd) columns

def floatingPointEnd (columns : List RadixSortKeyColumn) : ℕ := floatingPointEndLoop 0 0 columns

/-- The column loop of `compareEncoded`, from `firstColumn` to `specialComparisonEnd`,
and the comparison of the bytes that remain. -/
def compareEncodedColumns : (columns : List RadixSortKeyColumn) → RowSpecialValues columns →
    (firstColumn specialComparisonEnd : ℕ) → EncodedComparator
  | _ :: columns, (_, specials), firstColumn + 1, specialComparisonEnd =>
    compareEncodedColumns columns specials firstColumn (specialComparisonEnd - 1)
  | column :: columns, (special, specials), 0, specialComparisonEnd + 1 =>
    firstDifference (encodedComparator column.type column.flags special)
      (compareEncodedColumns columns specials 0 specialComparisonEnd)
  | _, _, _, _ => do
    let (left, right) ← get
    return compareKeyBytes left right

/-- `compareEncoded` after `prepareSpecialComparators`. -/
def compareEncoded (columns : List RadixSortKeyColumn) (special : RowSpecialValues columns)
    (left right : List UInt8) (firstColumn : ℕ) : Except KeyError ℤ :=
  (compareEncodedColumns columns special firstColumn (floatingPointEnd columns)).run' (left, right)

/-! ## Floating-point bodies -/

theorem signOf_threeWay_uint8 (a b : UInt8) : signOf (threeWay a b) = compare a b := by
  rw [compare_uint8, ← signOf_threeWay_nat]
  rfl

theorem signOf_compareKeyBytes (left right : List UInt8) : signOf (compareKeyBytes left right) = compare left right := by
  have hc : (if min left.length right.length = 0 then 0 else
      memcmp (left.take (min left.length right.length)) (right.take (min left.length right.length))) =
        memcmp (left.take (min left.length right.length)) (right.take (min left.length right.length)) := by
    split
    · rename_i hz
      rw [hz]
      rfl
    · rfl
  have hd := signOf_memcmp_or (left.take (min left.length right.length))
    (right.take (min left.length right.length)) (threeWay left.length right.length)
  rw [signOf_threeWay_nat, ← compare_eq_take_then, ite_not] at hd
  rw [compareKeyBytes, hc]
  exact hd

/-- What the constants of `normalizeFloatingPointKey` have to do with a format. -/
structure FloatingWidth (f : Lib.Ieee.Format) (w : ℕ) : Prop where
  patterns : 2 ^ w = 2 * f.sign
  sign : (1#w <<< (w - 1)).toNat = f.sign
  positiveInfinity : ((1#w <<< (w - 1)) ||| (if w = 32 then 0x7f800000#w else 0x7ff0000000000000#w)).toNat =
    f.sign + f.infinity

theorem floatingWidth_real : FloatingWidth binary32 32 := ⟨by decide, by decide, by decide⟩

theorem floatingWidth_double : FloatingWidth binary64 64 := ⟨by decide, by decide, by decide⟩

section Floating

variable {f : Lib.Ieee.Format} {w : ℕ} (hw : FloatingWidth f w)
include hw

theorem toNat_normalizeFloatingPointKey (key : BitVec w) :
    (normalizeFloatingPointKey key false).toNat = f.normalizeKey key.toNat := by
  have hpo := f.sign_pos
  have hone : (allOnes w).toNat = 2 * f.sign - 1 := by rw [toNat_allOnes, hw.patterns]
  have ho : (1#w).toNat = 1 := by
    exact Nat.mod_eq_of_lt (by rw [hw.patterns]; omega)
  have hp : ((1#w <<< (w - 1)) - 1#w).toNat = f.sign - 1 := by
    rw [toNat_sub_of_le (by rw [le_def, ho, hw.sign]; exact hpo), hw.sign, ho]
  have hl : (~~~((1#w <<< (w - 1)) ||| (if w = 32 then 0x7f800000#w else 0x7ff0000000000000#w))).toNat =
      f.sign - 1 - f.infinity := by
    rw [toNat_not, hw.positiveInfinity, hw.patterns]
    omega
  unfold normalizeFloatingPointKey Lib.Ieee.Format.normalizeKey
  simp only [Bool.false_eq_true, if_false, xor_zero, lt_def, ← toNat_inj, hl, hw.positiveInfinity, hp]
  split
  · exact hone
  · split
    · exact hw.sign
    · rfl

omit hw in
theorem normalizeFloatingPointKey_descending (key : BitVec w) :
    normalizeFloatingPointKey key true = ~~~(normalizeFloatingPointKey (~~~key) false) := by
  simp only [normalizeFloatingPointKey, if_true, Bool.false_eq_true, if_false, xor_zero, xor_allOnes]

theorem compare_normalizeFloatingPointKey (ascending : Bool) {a b : ℕ} (ha : a < 2 * f.sign) (hb : b < 2 * f.sign)
    {x y : BitVec w} (hx : x.toNat = f.sortKey a) (hy : y.toNat = f.sortKey b) :
    compare (normalizeFloatingPointKey (if ascending then x else ~~~x) (!ascending)).toNat
      (normalizeFloatingPointKey (if ascending then y else ~~~y) (!ascending)).toNat =
        directed ascending f.compareValues a b := by
  have hke := f.compare_normalizeKey ha hb
  rw [← hx, ← hy, ← toNat_normalizeFloatingPointKey hw, ← toNat_normalizeFloatingPointKey hw] at hke
  cases ascending with
  | true => exact hke
  | false =>
    have hf : ∀ p q : BitVec w, compare (~~~p).toNat (~~~q).toNat = (compare p.toNat q.toNat).swap := by
      intro p q
      rw [Nat.compare_swap, toNat_not, toNat_not]
      simp only [Nat.compare_eq_ite_lt]
      split_ifs <;> first | rfl | omega
    simp only [Bool.false_eq_true, if_false, Bool.not_false, normalizeFloatingPointKey_descending, BitVec.not_not,
      hf, directed, hke]

end Floating

/-- The word a floating-point body holds, complemented in a descending column. -/
private theorem fromBigEndian_body (size : ℕ) (ascending : Bool) {key : ℕ} (hke : key < 256 ^ size) :
    BitVec.ofNat (size * 8) (fromBigEndian size (loadUnaligned ((beBytes size key).map (directedByte (!ascending))))) =
      if ascending then BitVec.ofNat (size * 8) key else ~~~(BitVec.ofNat (size * 8) key) := by
  have hp : 2 ^ (size * 8) = 256 ^ size := by
    rw [Nat.mul_comm, pow_mul]
    norm_num
  rw [fromBigEndian_load (by simp)]
  cases ascending with
  | true =>
    simp only [Bool.not_true, directedByte_false, List.map_id, if_true]
    rw [beValue_beBytes, Nat.mod_eq_of_lt hke]
  | false =>
    simp only [Bool.not_false, directedByte_true, Bool.false_eq_true, if_false]
    rw [← beBytes_complement hke, beValue_beBytes, Nat.mod_eq_of_lt (by omega)]
    apply eq_of_toNat_eq
    rw [toNat_not, toNat_ofNat, toNat_ofNat, hp, Nat.mod_eq_of_lt hke, Nat.mod_eq_of_lt (by omega)]

theorem signOf_compareFloatingBody {f : Lib.Ieee.Format} {size : ℕ} (hw : FloatingWidth f (size * 8))
    (ascending : Bool) {a b : ℕ} (ha : a < 2 * f.sign) (hb : b < 2 * f.sign) :
    signOf (compareFloatingPointBody size ((beBytes size (f.sortKey a)).map (directedByte (!ascending)))
      ((beBytes size (f.sortKey b)).map (directedByte (!ascending))) (!ascending)) =
        directed ascending f.compareValues a b := by
  have hp : 256 ^ size = 2 * f.sign := by
    rw [← hw.patterns, Nat.mul_comm, pow_mul]
    norm_num
  have hke : ∀ bits, bits < 2 * f.sign → f.sortKey bits < 256 ^ size := by
    intro bits hbi
    rw [hp, Lib.Ieee.Format.sortKey]
    split <;> omega
  have hwo : ∀ bits, bits < 2 * f.sign → (BitVec.ofNat (size * 8) (f.sortKey bits)).toNat = f.sortKey bits := by
    intro bits hbi
    rw [toNat_ofNat, hw.patterns, ← hp]
    exact Nat.mod_eq_of_lt (hke bits hbi)
  rw [compareFloatingPointBody, fromBigEndian_body size ascending (hke a ha),
    fromBigEndian_body size ascending (hke b hb), signOf_threeWay_nat]
  exact compare_normalizeFloatingPointKey hw ascending ha hb (hwo a ha) (hwo b hb)

end Bolt.RadixSort
