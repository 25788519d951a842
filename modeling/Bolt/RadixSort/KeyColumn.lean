import Bolt.Data.Types

/-!
# Key columns and binding

The column metadata of `RadixSortKeyCodec` and `RadixSortKeyCodec::bind`. A column
carries what `bind` has checked about it. The sizes and the floating-point mark that the
source stores per column are functions of its type.
-/

namespace Bolt.RadixSort

open Data

variable {types : List SqlType} {flags : List CompareFlags}

def nullFirstMarker : UInt8 := 1

def nullLastMarker : UInt8 := 2

def stringDelimiter : UInt8 := 0

def blobEscape : UInt8 := 1

def validFlags (flags : CompareFlags) : Bool :=
  !flags.equalsOnly && !flags.compareSizeFirst && flags.nullHandlingMode == .nullAsValue

def bodySize : ScalarKind → ℕ
  | .boolean => 1
  | .tinyint => 1
  | .smallint => 2
  | .integer => 4
  | .real => 4
  | .bigint => 8
  | .double => 8
  | .hugeint => 16
  | .timestamp => 16

def isFixedScalarColumn : SqlType → Bool
  | .scalar _ => true
  | _ => false

mutual
def supportsType : SqlType → Bool
  | .scalar _ => true
  | .string _ => true
  | .unknown => true
  | .array element => supportsType element
  | .map key value => supportsType key && supportsType value
  | .row children => supportsTypes children
  | .function => false
def supportsTypes : List SqlType → Bool
  | [] => true
  | type :: types => supportsType type && supportsTypes types
end

def checkedAdd (left right : ℕ) : Option ℕ :=
  if left + right < 2 ^ 64 then some (left + right) else none

theorem checkedAdd_eq_some {left right sum : ℕ} (h : checkedAdd left right = some sum) :
    sum = left + right ∧ sum < 2 ^ 64 := by
  unfold checkedAdd at h
  split at h
  · obtain rfl := Option.some.inj h
    exact ⟨rfl, by assumption⟩
  · cases h

mutual
/-- `RadixSortKeyColumn::maximumEncodedSize` as `buildMetadata` computes it. -/
def maximumEncodedSize : SqlType → Option ℕ
  | .scalar kind => some (bodySize kind + 1)
  | .unknown => some 1
  | .row children => addMaximumSizes (some 1) children
  | .string _ => none
  | .array _ => none
  | .map _ _ => none
  | .function => none
/-- The loop of `buildMetadata` over the children of a row. -/
def addMaximumSizes : Option ℕ → List SqlType → Option ℕ
  | size, [] => size
  | none, _ :: _ => none
  | some size, child :: children =>
    match maximumEncodedSize child with
    | none => none
    | some childSize => addMaximumSizes (checkedAdd size childSize) children
end

mutual
def containsFloatingPoint : SqlType → Bool
  | .scalar .real => true
  | .scalar .double => true
  | .scalar _ => false
  | .string _ => false
  | .unknown => false
  | .array element => containsFloatingPoint element
  | .map key value => containsFloatingPoint key || containsFloatingPoint value
  | .row children => anyFloatingPoint children
  | .function => false
def anyFloatingPoint : List SqlType → Bool
  | [] => false
  | type :: types => containsFloatingPoint type || anyFloatingPoint types
end

structure RadixSortKeyColumn where
  type : SqlType
  flags : CompareFlags
  fixedPrefixOffset : Option ℕ
  flags_valid : validFlags flags = true
  type_supported : supportsType type = true

structure RadixSortKeyCodec where
  columns : List RadixSortKeyColumn
  maximumEncodedSize : Option ℕ

/-- The checks of `bind`, in the order of its messages: "Radix sort key codec
requires at least one column", "Radix sort key type and flag counts do not match",
"Radix sort key comparison flags are not order-by flags", "Radix sort key type is
not supported", "Radix sort key maximum encoded size overflows". -/
inductive BindError where
  | noColumns
  | countMismatch
  | notOrderByFlags
  | unsupportedType (type : SqlType)
  | sizeOverflow

/-- The running sizes of the column loop of `bind`. -/
structure BindSizes where
  maximumEncodedSize : Option ℕ := some 0
  maximumEncodedSizeValid : Bool := true
  fixedPrefixSize : Option ℕ := some 0

def BindSizes.add (sizes : BindSizes) (type : SqlType) : BindSizes where
  fixedPrefixSize :=
    match sizes.fixedPrefixSize, isFixedScalarColumn type, RadixSort.maximumEncodedSize type with
    | some offset, true, some size => checkedAdd offset size
    | _, _, _ => none
  maximumEncodedSize :=
    match sizes.maximumEncodedSize, RadixSort.maximumEncodedSize type with
    | some total, some size => checkedAdd total size
    | _, _ => none
  maximumEncodedSizeValid :=
    match sizes.maximumEncodedSize, RadixSort.maximumEncodedSize type with
    | some total, some size => sizes.maximumEncodedSizeValid && (checkedAdd total size).isSome
    | _, _ => sizes.maximumEncodedSizeValid

/-- The offset `bind` records for a column: a leading run of fixed scalars. -/
def BindSizes.prefixOffset (sizes : BindSizes) (type : SqlType) : Option ℕ :=
  match sizes.fixedPrefixSize, isFixedScalarColumn type with
  | some offset, true => some (offset % 2 ^ 32)
  | _, _ => none

def bindColumns : List SqlType → List CompareFlags → BindSizes → Except BindError (List RadixSortKeyColumn × BindSizes)
  | type :: types, flag :: flags, sizes =>
    if hflags : validFlags flag then
      if htype : supportsType type then
        match bindColumns types flags (sizes.add type) with
        | .ok (columns, final) => .ok (⟨type, flag, sizes.prefixOffset type, hflags, htype⟩ :: columns, final)
        | .error error => .error error
      else .error (.unsupportedType type)
    else .error .notOrderByFlags
  | _, _, sizes => .ok ([], sizes)

def bind (types : List SqlType) (flags : List CompareFlags) : Except BindError RadixSortKeyCodec :=
  if types.isEmpty then .error .noColumns
  else if types.length ≠ flags.length then .error .countMismatch
  else
    match bindColumns types flags {} with
    | .error error => .error error
    | .ok (columns, sizes) =>
      if sizes.maximumEncodedSizeValid then .ok ⟨columns, sizes.maximumEncodedSize⟩
      else .error .sizeOverflow

@[reducible] def KeyRow : List RadixSortKeyColumn → Type
  | [] => Unit
  | column :: columns => Value column.type × KeyRow columns

theorem validFlags_default : validFlags {} = true := rfl

variable {codec : RadixSortKeyCodec}

variable (h : bind types flags = .ok codec)

include h in
theorem bind_eq_ok : types.length = flags.length ∧ ∃ sizes : BindSizes,
      bindColumns types flags {} = .ok (codec.columns, sizes) ∧ sizes.maximumEncodedSizeValid = true ∧
        codec.maximumEncodedSize = sizes.maximumEncodedSize := by
  unfold bind at h
  split at h
  · cases h
  · split at h
    · cases h
    · rename_i hl
      split at h
      · cases h
      · rename_i columns sizes hb
        split at h
        · rename_i hv
          obtain rfl := Except.ok.inj h
          exact ⟨by simpa using hl, sizes, hb, hv, rfl⟩
        · cases h

variable {sizes final : BindSizes} {columns : List RadixSortKeyColumn}

theorem bindColumns_cons_eq_ok {type : SqlType} {flag : CompareFlags}
    (h : bindColumns (type :: types) (flag :: flags) sizes = .ok (columns, final)) :
    ∃ hf ht rest, bindColumns types flags (sizes.add type) = .ok (rest, final) ∧
      columns = ⟨type, flag, sizes.prefixOffset type, hf, ht⟩ :: rest := by
  rw [bindColumns] at h
  split at h
  · rename_i hf
    split at h
    · rename_i ht
      split at h
      · rename_i rest final' hr
        obtain ⟨hc, rfl⟩ := Prod.mk.inj (Except.ok.inj h)
        exact ⟨hf, ht, rest, hr, hc.symm⟩
      · cases h
    · cases h
  · cases h

private theorem bindColumns_columns (hl : types.length = flags.length)
    (h : bindColumns types flags sizes = .ok (columns, final)) :
    columns.map (·.type) = types ∧ columns.map (·.flags) = flags := by
  induction types generalizing flags sizes columns final with
  | nil =>
    obtain rfl : flags = [] := List.eq_nil_of_length_eq_zero hl.symm
    simp only [bindColumns, Except.ok.injEq, Prod.mk.injEq] at h
    simp [← h.1]
  | cons type types ih =>
    cases flags with
    | nil => cases hl
    | cons flag flags =>
      obtain ⟨_, _, rest, hr, rfl⟩ := bindColumns_cons_eq_ok h
      obtain ⟨ht, hf⟩ := ih (Nat.succ.inj hl) hr
      simp [ht, hf]

include h in
theorem bind_columns : codec.columns.map (·.type) = types ∧ codec.columns.map (·.flags) = flags := by
  obtain ⟨hl, _, hc, -, -⟩ := bind_eq_ok h
  exact bindColumns_columns hl hc

/-! ## Sizes and prefix offsets -/

/-- The sum of the maximum sizes of the columns, where all have one. -/
def totalMaximumSize : List RadixSortKeyColumn → Option ℕ
  | [] => some 0
  | column :: columns =>
    match maximumEncodedSize column.type, totalMaximumSize columns with
    | some size, some total => some (size + total)
    | _, _ => none

private theorem bindColumns_sizes (hl : types.length = flags.length)
    (h : bindColumns types flags sizes = .ok (columns, final)) (hv : final.maximumEncodedSizeValid = true) :
    sizes.maximumEncodedSizeValid = true ∧ (sizes.maximumEncodedSize = none → final.maximumEncodedSize = none) ∧
      ∀ total, sizes.maximumEncodedSize = some total →
        final.maximumEncodedSize = (totalMaximumSize columns).map (total + ·) := by
  induction types generalizing flags sizes columns final with
  | nil =>
    obtain rfl : flags = [] := List.eq_nil_of_length_eq_zero hl.symm
    obtain ⟨rfl, rfl⟩ := h
    exact ⟨hv, id, fun total hto => by simp [totalMaximumSize, hto]⟩
  | cons type types ih =>
    cases flags with
    | nil => cases hl
    | cons flag flags =>
      obtain ⟨_, _, rest, hr, rfl⟩ := bindColumns_cons_eq_ok h
      obtain ⟨hv', hn, hs⟩ := ih (Nat.succ.inj hl) hr hv
      cases hsi : sizes.maximumEncodedSize with
      | none =>
        simp only [BindSizes.add, hsi] at hv' hn
        exact ⟨hv', fun _ => hn trivial, (fun total hto => nomatch hto)⟩
      | some running =>
        cases ht : maximumEncodedSize type with
        | none =>
          simp only [BindSizes.add, hsi, ht] at hv' hn
          refine ⟨hv', (fun h => nomatch h), fun total _ => ?_⟩
          simp [totalMaximumSize, ht, hn]
        | some size =>
          simp only [BindSizes.add, hsi, ht, Bool.and_eq_true] at hv' hs
          refine ⟨hv'.1, (fun h => nomatch h), ?_⟩
          intro total hto
          obtain rfl := Option.some.inj hto
          obtain ⟨sum, hsu⟩ := Option.isSome_iff_exists.mp hv'.2
          rw [hs sum hsu, totalMaximumSize, ht, (checkedAdd_eq_some hsu).1]
          cases totalMaximumSize rest <;> simp [Nat.add_assoc]

include h in
theorem bind_maximumSize : codec.maximumEncodedSize = totalMaximumSize codec.columns := by
  obtain ⟨hl, sizes, hc, hv, hs⟩ := bind_eq_ok h
  obtain ⟨-, -, hso⟩ := bindColumns_sizes hl hc hv
  rw [hs, hso 0 rfl]
  simp

/-- The prefix offsets of bound columns: a leading run of fixed scalars, each at the
sum of the sizes before it. -/
def PrefixOffsets : ℕ → List RadixSortKeyColumn → Prop
  | _, [] => True
  | offset, column :: columns =>
    column.fixedPrefixOffset = none ∨
      ∃ scalar, column.type = .scalar scalar ∧ column.fixedPrefixOffset = some (offset % 2 ^ 32) ∧
        PrefixOffsets (offset + (bodySize scalar + 1)) columns

private theorem bindColumns_prefixOffsets (hl : types.length = flags.length)
    (h : bindColumns types flags sizes = .ok (columns, final)) (offset : ℕ)
    (hs : sizes.fixedPrefixSize = some offset ∨ sizes.fixedPrefixSize = none) : PrefixOffsets offset columns := by
  induction types generalizing flags sizes columns final offset with
  | nil =>
    obtain rfl : flags = [] := List.eq_nil_of_length_eq_zero hl.symm
    simp only [bindColumns, Except.ok.injEq, Prod.mk.injEq] at h
    rw [← h.1]
    trivial
  | cons type types ih =>
    cases flags with
    | nil => cases hl
    | cons flag flags =>
      obtain ⟨_, _, rest, hr, rfl⟩ := bindColumns_cons_eq_ok h
      rcases hs with hs | hs
      · cases type with
        | scalar scalar =>
          refine .inr ⟨scalar, rfl, by simp [BindSizes.prefixOffset, hs, isFixedScalarColumn], ?_⟩
          apply ih (Nat.succ.inj hl) hr
          have ha : (sizes.add (.scalar scalar)).fixedPrefixSize =
              checkedAdd offset (bodySize scalar + 1) := by
            simp [BindSizes.add, hs, isFixedScalarColumn, maximumEncodedSize]
          rw [ha, checkedAdd]
          split
          · exact .inl rfl
          · exact .inr rfl
        | _ => exact .inl (by simp [BindSizes.prefixOffset, isFixedScalarColumn])
      · exact .inl (by simp [BindSizes.prefixOffset, hs])

include h in
theorem bind_prefixOffsets : PrefixOffsets 0 codec.columns := by
  obtain ⟨hl, _, hc, -, -⟩ := bind_eq_ok h
  exact bindColumns_prefixOffsets hl hc 0 (.inl rfl)

end Bolt.RadixSort
