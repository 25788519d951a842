import Bolt.RadixSort.KeyOrder
import Bolt.RadixSort.KeyVariable

/-!
# Sizes of encoded keys

No value is encoded in more bytes than the maximum size of its type, and a value
uses all of them exactly when none of the nulls below it is shorter than its place:
a null inside a row is one marker, whatever the size of the child's type.
-/

namespace Bolt.RadixSort

open Data Lib.Bytes Lib.Sorting

variable {size : ℕ} {type : SqlType}

mutual
/-- No row at or below this value has a null child, `unknown` children apart. -/
def FullWidth : (type : SqlType) → Datum type → Prop
  | .row children, fields => FullWidthFields children fields
  | .scalar _, _ => True
  | .string _, _ => True
  | .unknown, _ => True
  | .array _, _ => True
  | .map _ _, _ => True
  | .function, _ => True
def FullWidthFields : (types : List SqlType) → Fields types → Prop
  | [], _ => True
  | type :: types, (value, values) =>
    (type = .unknown ∨ ∃ datum, value = some datum ∧ FullWidth type datum) ∧ FullWidthFields types values
end

/-- A nullable value takes its full width: it is of type `unknown`, or neither it nor a
child below it is null. -/
def FullWidthValue (type : SqlType) (value : Value type) : Prop :=
  type = .unknown ∨ ∃ datum, value = some datum ∧ FullWidth type datum

theorem addMaximumSizes_cons {base : ℕ} {types : List SqlType}
    (h : addMaximumSizes (some base) (type :: types) = some size) :
    ∃ child, maximumEncodedSize type = some child ∧ addMaximumSizes (some (base + child)) types = some size := by
  rw [addMaximumSizes] at h
  split at h
  · cases h
  · rename_i child hc
    refine ⟨child, hc, ?_⟩
    cases hs : checkedAdd base child with
    | none =>
      rw [hs] at h
      cases types <;> simp [addMaximumSizes] at h
    | some sum => rwa [hs, (checkedAdd_eq_some hs).1] at h

private theorem le_addMaximumSizes {types : List SqlType} {base : ℕ}
    (h : addMaximumSizes (some base) types = some size) : base ≤ size := by
  induction types generalizing base with
  | nil =>
    exact le_of_eq (Option.some.inj h)
  | cons type types ih =>
    obtain ⟨child, -, ht⟩ := addMaximumSizes_cons h
    exact le_trans (Nat.le_add_right _ _) (ih ht)

theorem maximumEncodedSize_pos (h : maximumEncodedSize type = some size) : 0 < size := by
  cases type with
  | scalar scalar =>
    rw [← Option.some.inj h]
    exact Nat.succ_pos _
  | unknown =>
    rw [← Option.some.inj h]
    exact Nat.one_pos
  | row children =>
    exact le_addMaximumSizes h
  | _ => simp [maximumEncodedSize] at h

private theorem length_encodeNullable (S : ComparisonSort) {flags : CompareFlags}
    (h : maximumEncodedSize type = some size) (hb : ∀ datum, (encodeBody S type flags datum).length + 1 ≤ size ∧
      (FullWidth type datum → (encodeBody S type flags datum).length + 1 = size)) (value : Value type) :
    (encodeNullable flags (encodeBody S type flags) value).length ≤ size ∧
      (FullWidthValue type value → (encodeNullable flags (encodeBody S type flags) value).length = size) := by
  cases value with
  | none =>
    refine ⟨maximumEncodedSize_pos h, ?_⟩
    rintro (rfl | ⟨datum, hdatum, -⟩)
    · exact Option.some.inj h
    · cases hdatum
  | some datum =>
    refine ⟨(hb datum).1, ?_⟩
    rintro (rfl | ⟨datum', hdatum, hw⟩)
    · exact Empty.elim datum
    · obtain rfl := Option.some.inj hdatum
      exact (hb _).2 hw

mutual
/-- A marker and a body take at most the maximum size, and all of it when no row
below is short. -/
theorem length_encodeBody (S : ComparisonSort) : (type : SqlType) → (flags : CompareFlags) →
    (datum : Datum type) → {size : ℕ} → maximumEncodedSize type = some size →
    (encodeBody S type flags datum).length + 1 ≤ size ∧
      (FullWidth type datum → (encodeBody S type flags datum).length + 1 = size)
  | .scalar scalar, flags, value, size, h => by
    rw [maximumEncodedSize] at h
    obtain rfl := Option.some.inj h
    rw [encodeBody, length_encodeBytesScalar]
    exact ⟨le_refl _, fun _ => rfl⟩
  | .unknown, _, value, _, _ => nomatch value
  | .row children, flags, fields, size, h => by
    rw [maximumEncodedSize] at h
    obtain ⟨hle, heq⟩ := length_encodeFields S children flags fields h
    rw [encodeBody, FullWidth]
    exact ⟨by omega, fun hf => by rw [Nat.add_comm]; exact heq hf⟩
  | .string _, _, _, _, h => by simp [maximumEncodedSize] at h
  | .array _, _, _, _, h => by simp [maximumEncodedSize] at h
  | .map _ _, _, _, _, h => by simp [maximumEncodedSize] at h
  | .function, _, value, _, _ => nomatch value
theorem length_encodeFields (S : ComparisonSort) : (types : List SqlType) → (flags : CompareFlags) →
    (fields : Fields types) → {base size : ℕ} → addMaximumSizes (some base) types = some size →
    base + (encodeFields S types flags fields).length ≤ size ∧
      (FullWidthFields types fields → base + (encodeFields S types flags fields).length = size)
  | [], _, _, base, size, h => by
    rw [addMaximumSizes] at h
    obtain rfl := Option.some.inj h
    exact ⟨le_refl _, fun _ => rfl⟩
  | type :: types, flags, (value, values), base, size, h => by
    obtain ⟨child, hc, hty⟩ := addMaximumSizes_cons h
    obtain ⟨hle, heq⟩ := length_encodeFields S types flags values hty
    have hv := length_encodeNullable S hc
      (fun datum => length_encodeBody S type flags datum hc) value
    rw [encodeFields, List.length_append, FullWidthFields]
    refine ⟨by omega, ?_⟩
    rintro ⟨hh, ht⟩
    have := hv.2 hh
    have := heq ht
    omega
end

theorem length_encodeVariableColumn (S : ComparisonSort) (wide : Bool) (flags : CompareFlags)
    (value : Value type) (h : maximumEncodedSize type = some size) :
    (encodeVariableColumn S wide type flags value).length ≤ size ∧
      (FullWidthValue type value → (encodeVariableColumn S wide type flags value).length = size) := by
  have hv := length_encodeNullable S h (fun datum => length_encodeBody S type flags datum h) value
  cases type with
  | scalar scalar =>
    obtain rfl := Option.some.inj h
    cases value with
    | none =>
      refine ⟨?_, fun hf => ?_⟩
      · cases wide <;> simp [encodeVariableColumn, encodeFixedColumn]
      · obtain hf | ⟨_, hf, -⟩ := hf <;> cases hf
    | some native =>
      simp [encodeVariableColumn, encodeFixedColumn, encodeScalar_eq, length_encodeBytesScalar]
  | unknown =>
    obtain rfl := Option.some.inj h
    exact ⟨le_refl _, fun _ => rfl⟩
  | row children => exact hv
  | _ => simp [maximumEncodedSize] at h

end Bolt.RadixSort
