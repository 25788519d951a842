import Bolt.RadixSort.KeySize
import Bolt.RadixSort.KeySpecialOrder

/-!
# Comparing stored keys with special floating-point values

`RadixSortKeyCodec::comparePhysical` compares two records without materializing their
keys where it can: column by column over the words of a fixed layout, or over the raw prefix
of a variable layout and then over the suffixes on the heap.
-/

namespace Bolt.RadixSort

open Std Data Lib.Bytes Lib.Compare Lib.OrderCode Lib.Sorting Lib.Readers List Ordering

/-! ## Comparators of one column -/

def comparePhysicalUnsigned (size : ℕ) (left right : List UInt8) (offset inlineWordBytes : ℕ) : ℤ :=
  threeWay (loadEncodedUnsigned true size left offset inlineWordBytes)
    (loadEncodedUnsigned true size right offset inlineWordBytes)

/-- The last word of `comparePhysicalBytes`, when a byte remains. -/
def comparePhysicalByte (left right : List UInt8) (inlineWordBytes size offset : ℕ) : ℤ :=
  if size = 0 then 0 else comparePhysicalUnsigned 1 left right offset inlineWordBytes

/-- One round of `comparePhysicalBytes` on words of the given width, when that many
bytes remain. -/
def comparePhysicalStep (width : ℕ) (left right : List UInt8) (inlineWordBytes : ℕ) (next : ℕ → ℕ → ℤ)
    (size offset : ℕ) : ℤ :=
  if width ≤ size then
    let result := comparePhysicalUnsigned width left right offset inlineWordBytes
    if result ≠ 0 then result else next (size - width) (offset + width)
  else next size offset

/-- `comparePhysicalBytes`: eight bytes at a time, then at most one word of four, two
and one byte. -/
def comparePhysicalBytes (left right : List UInt8) (inlineWordBytes : ℕ) : (size offset : ℕ) → ℤ
  | size + 8, offset =>
    let result := comparePhysicalUnsigned 8 left right offset inlineWordBytes
    if result ≠ 0 then result else comparePhysicalBytes left right inlineWordBytes size (offset + 8)
  | size, offset =>
    comparePhysicalStep 4 left right inlineWordBytes
      (comparePhysicalStep 2 left right inlineWordBytes (comparePhysicalByte left right inlineWordBytes)) size offset

def compareFixedBytes (type : SqlType) (left right : List UInt8) (offset inlineWordBytes : ℕ) : ℤ :=
  comparePhysicalBytes left right inlineWordBytes ((maximumEncodedSize type).getD 0 - 1) offset

def compareFixedFloating (size : ℕ) (flags : CompareFlags) (left right : List UInt8) (offset inlineWordBytes : ℕ) : ℤ :=
  let x := normalizeFloatingPointKey
    (BitVec.ofNat (size * 8) (loadEncodedUnsigned true size left offset inlineWordBytes)) (!flags.ascending)
  let y := normalizeFloatingPointKey
    (BitVec.ofNat (size * 8) (loadEncodedUnsigned true size right offset inlineWordBytes)) (!flags.ascending)
  threeWay x.toNat y.toNat

def compareFixedScalar : ScalarKind → CompareFlags → List UInt8 → List UInt8 → ℕ → ℕ → ℤ
  | .real, flags, left, right, offset, inlineWordBytes =>
    compareFixedFloating 4 flags left right offset inlineWordBytes
  | .double, flags, left, right, offset, inlineWordBytes =>
    compareFixedFloating 8 flags left right offset inlineWordBytes
  | kind, _, left, right, offset, inlineWordBytes => compareFixedBytes (.scalar kind) left right offset inlineWordBytes

/-- `RadixSortKeyColumn::fixedComparator` as `prepareColumnComparators` sets it. -/
def fixedComparator : (type : SqlType) → CompareFlags → SpecialValues type → (left right : List UInt8) →
    (offset inlineWordBytes : ℕ) → ℤ
  | .scalar kind, flags, special, left, right, offset, inlineWordBytes =>
    if encodedSpecialValues (.scalar kind) special then compareFixedScalar kind flags left right offset inlineWordBytes
    else compareFixedBytes (.scalar kind) left right offset inlineWordBytes
  | type, _, _, left, right, offset, inlineWordBytes => compareFixedBytes type left right offset inlineWordBytes

def compareVariableBytes (type : SqlType) (left right : List UInt8) (offset : ℕ) : ℤ :=
  let size := (maximumEncodedSize type).getD 0 - 1
  threeWay (memcmp (bytesAt left offset size) (bytesAt right offset size)) 0

def compareVariableFloating (size : ℕ) (flags : CompareFlags) (left right : List UInt8) (offset : ℕ) : ℤ :=
  compareFloatingPointBody size (bytesAt left offset size) (bytesAt right offset size) (!flags.ascending)

def compareVariableScalar : ScalarKind → CompareFlags → List UInt8 → List UInt8 → ℕ → ℤ
  | .real, flags, left, right, offset => compareVariableFloating 4 flags left right offset
  | .double, flags, left, right, offset => compareVariableFloating 8 flags left right offset
  | kind, _, left, right, offset => compareVariableBytes (.scalar kind) left right offset

/-- `RadixSortKeyColumn::variableComparator` as `prepareColumnComparators` sets it. -/
def variableComparator : (type : SqlType) → CompareFlags → SpecialValues type → (left right : List UInt8) →
    (offset : ℕ) → ℤ
  | .scalar kind, flags, special, left, right, offset =>
    if encodedSpecialValues (.scalar kind) special then compareVariableScalar kind flags left right offset
    else compareVariableBytes (.scalar kind) left right offset
  | type, _, _, left, right, offset => compareVariableBytes type left right offset

/-! ## `comparePhysical` -/

def compareFixedColumns (inlineWordBytes : ℕ) (left right : List UInt8) : (columns : List RadixSortKeyColumn) →
    RowSpecialValues columns → (offset : ℕ) → ℤ
  | [], _, _ => 0
  | column :: columns, (special, specials), offset =>
    let a := loadEncodedByte true left offset inlineWordBytes
    let b := loadEncodedByte true right offset inlineWordBytes
    if a ≠ b then threeWay a b
    else if a = nullMarker column.flags then compareFixedColumns inlineWordBytes left right columns specials (offset + 1)
    else
      let result := fixedComparator column.type column.flags special left right (offset + 1) inlineWordBytes
      if result ≠ 0 then result
      else
        compareFixedColumns inlineWordBytes left right columns specials
          (offset + (maximumEncodedSize column.type).getD 0)

def comparePrefixColumns (left right : List UInt8) : (columns : List RadixSortKeyColumn) →
    RowSpecialValues columns → (prefixColumns : ℕ) → ℤ
  | column :: columns, (special, specials), prefixColumns + 1 =>
    let offset := column.fixedPrefixOffset.getD 0
    let a := left.getD offset 0
    let b := right.getD offset 0
    if a ≠ b then threeWay a b
    else if a = nullMarker column.flags then comparePrefixColumns left right columns specials prefixColumns
    else
      let result := variableComparator column.type column.flags special left right (offset + 1)
      if result ≠ 0 then threeWay result 0 else comparePrefixColumns left right columns specials prefixColumns
  | _, _, _ => 0

/-- `RadixSortKey::deconstruct`: the words of a fixed record swapped back and its tail. -/
def deconstruct (kind : RadixSortKeyLayoutKind) (key : List UInt8) : List UInt8 :=
  (((range kind.inlineWords).flatMap fun word => storeUnaligned 8 (byteSwap 8 (wordAt key word))) ++
    bytesAt key kind.inlineWordBytes kind.inlineTailBytes).take kind.inlineCapacity

/-- `comparePhysical` after `prepareSpecialComparators`. Without suffixes from the
caller they are read from the heap of the records. -/
def comparePhysical (codec : RadixSortKeyCodec) (specials : RowSpecialValues codec.columns)
    (layout : RadixSortKeyLayout) (left right : KeyRecord layout.kind)
    (suffixes : Option (List UInt8 × List UInt8)) : Except KeyError ℤ :=
  if !layout.kind.isVariable then
    if codec.columns.all fun column => column.fixedPrefixOffset.isSome then
      .ok (compareFixedColumns layout.kind.inlineWordBytes left.inlineBytes right.inlineBytes codec.columns specials 0)
    else
      compareEncoded codec.columns specials (deconstruct layout.kind left.inlineBytes)
        (deconstruct layout.kind right.inlineBytes) 0
  else
    let prefixColumns := fixedPrefixColumnCount layout.heapKeyOffset codec.columns
    let result := comparePrefixColumns left.inlineBytes right.inlineBytes codec.columns specials prefixColumns
    if result ≠ 0 then .ok result
    else
      match suffixes with
      | some (leftSuffix, rightSuffix) => compareEncoded codec.columns specials leftSuffix rightSuffix prefixColumns
      | none =>
        compareEncoded codec.columns specials (left.heapBytes 0 (left.size - layout.heapKeyOffset))
          (right.heapBytes 0 (right.size - layout.heapKeyOffset)) prefixColumns

/-! ## Bodies of scalar columns -/

/-- The order in which the comparators of a scalar column see two bodies. -/
def bodyOrder (kind : ScalarKind) (flags : CompareFlags) (special : Bool) (left right : List UInt8) : Ordering :=
  if encodedSpecialValues (.scalar kind) special then
    signOf (compareFloatingPointBody (bodySize kind) left right (!flags.ascending))
  else compare left right

variable (flags : CompareFlags)

theorem bodyOrder_eq {kind : ScalarKind} {special : Bool} {a b : kind.Native} (ha : Covered (.scalar kind) special a)
    (hb : Covered (.scalar kind) special b) :
    bodyOrder kind flags special (encodeBytesFixedScalarValue (!flags.ascending) kind a)
      (encodeBytesFixedScalarValue (!flags.ascending) kind b) = directed flags.ascending kind.order a b := by
  rw [bodyOrder]
  split
  · rename_i hs
    have hfl := floatingPoint_of_encodedSpecial (.scalar kind) special hs
    rw [encodeBytesScalar_eq, encodeBytesScalar_eq]
    cases kind with
    | real =>
      have hbo := @signOf_compareFloatingBody _ 4 floatingWidth_real flags.ascending a.toNat b.toNat a.isLt b.isLt
      rw [← toNat_encodeFloat, ← toNat_encodeFloat] at hbo
      exact hbo
    | double =>
      have hbo := @signOf_compareFloatingBody _ 8 floatingWidth_double flags.ascending a.toNat b.toNat a.isLt b.isLt
      rw [← toNat_encodeDouble, ← toNat_encodeDouble] at hbo
      exact hbo
    | _ => exact absurd hfl (by decide)
  · rename_i hs
    have hfa := Bool.eq_false_iff.mpr hs
    exact (orderCodeOn_encodeBytesScalar kind flags.ascending).compare_eq
      (ordinary_of_covered (.scalar kind) special a hfa ha) (ordinary_of_covered (.scalar kind) special b hfa hb)

theorem signOf_variableComparator (kind : ScalarKind) (flags : CompareFlags) (special : Bool) (left right : List UInt8)
    (offset : ℕ) :
    signOf (variableComparator (.scalar kind) flags special left right offset) =
      bodyOrder kind flags special (bytesAt left offset (bodySize kind)) (bytesAt right offset (bodySize kind)) := by
  have hb : signOf (compareVariableBytes (.scalar kind) left right offset) =
      compare (bytesAt left offset (bodySize kind)) (bytesAt right offset (bodySize kind)) := by
    have hm := signOf_memcmp_or (bytesAt left offset (bodySize kind)) (bytesAt right offset (bodySize kind)) 0
    show signOf (threeWay (memcmp (bytesAt left offset (bodySize kind)) (bytesAt right offset (bodySize kind))) 0) = _
    rw [signOf_zero, then_eq] at hm
    rw [← hm]
    split
    · rfl
    · rename_i hz
      rw [not_not.mp hz]
      rfl
  rw [variableComparator, bodyOrder]
  split
  · rename_i hs
    have hfl := floatingPoint_of_encodedSpecial (.scalar kind) special hs
    cases kind with
    | real => rfl
    | double => rfl
    | _ => exact absurd hfl (by decide)
  · exact hb

section Fixed

variable {inlineWordBytes : ℕ} {left right leftEncoded rightEncoded : List UInt8}
  (hl : StoredKey inlineWordBytes left leftEncoded) (hr : StoredKey inlineWordBytes right rightEncoded)
  (hleft : left.length = leftEncoded.length) (hright : right.length = rightEncoded.length)

variable {size offset : ℕ}

include hl hr hleft hright

variable (hf : offset + size ≤ leftEncoded.length) (hfit : offset + size ≤ rightEncoded.length)

include hf hfit in
theorem signOf_comparePhysicalUnsigned (hp : 0 < size) (hs : size ≤ 8) :
    signOf (comparePhysicalUnsigned size left right offset inlineWordBytes) =
      compare (bytesAt leftEncoded offset size) (bytesAt rightEncoded offset size) := by
  rw [comparePhysicalUnsigned, signOf_threeWay_nat, loadEncodedUnsigned_eq hl hleft hp hs hf,
    loadEncodedUnsigned_eq hr hright hp hs hfit, compare_eq_beValue]
  rw [length_bytesAt hf, length_bytesAt hfit]

theorem signOf_physicalWord {width : ℕ} (hp : 0 < width) (hw : width ≤ 8) {rest : ℤ}
    (hf : offset + (width + size) ≤ leftEncoded.length) (hfit : offset + (width + size) ≤ rightEncoded.length)
    (hre : signOf rest =
      compare (bytesAt leftEncoded (offset + width) size) (bytesAt rightEncoded (offset + width) size)) :
    signOf (if comparePhysicalUnsigned width left right offset inlineWordBytes ≠ 0
        then comparePhysicalUnsigned width left right offset inlineWordBytes else rest) =
      compare (bytesAt leftEncoded offset (width + size)) (bytesAt rightEncoded offset (width + size)) := by
  rw [signOf_ite_ne_zero, hre, bytesAt_add, bytesAt_add,
    signOf_comparePhysicalUnsigned hl hr hleft hright (by omega) (by omega) hp hw, compare_append]
  rw [length_bytesAt (by omega), length_bytesAt (by omega)]

include hf hfit in
theorem signOf_comparePhysicalStep {width : ℕ} (hp : 0 < width) (hw : width ≤ 8) {next : ℕ → ℕ → ℤ}
    (hn : ∀ size' offset', offset' + size' = offset + size → (width ≤ size → size' = size - width) →
      (size < width → size' = size) →
      signOf (next size' offset') = compare (bytesAt leftEncoded offset' size') (bytesAt rightEncoded offset' size')) :
    signOf (comparePhysicalStep width left right inlineWordBytes next size offset) =
      compare (bytesAt leftEncoded offset size) (bytesAt rightEncoded offset size) := by
  rw [comparePhysicalStep]
  split
  · rename_i hle
    obtain ⟨rest, rfl⟩ := Nat.exists_eq_add_of_le hle
    refine signOf_physicalWord hl hr hleft hright hp hw hf hfit ?_
    rw [Nat.add_sub_cancel_left]
    exact hn rest (offset + width) (by omega) (by omega) (by omega)
  · rename_i hlt
    exact hn size offset rfl (by omega) (by omega)

include hf hfit in
theorem signOf_comparePhysicalBytes : signOf (comparePhysicalBytes left right inlineWordBytes size offset) =
      compare (bytesAt leftEncoded offset size) (bytesAt rightEncoded offset size) := by
  induction size using Nat.strongRecOn generalizing offset with
  | ind size ih =>
    rcases Nat.lt_or_ge size 8 with hs | hlarge
    · rw [comparePhysicalBytes.eq_2 _ _ _ _ _ (by omega)]
      refine signOf_comparePhysicalStep hl hr hleft hright hf hfit (by decide) (by decide) ?_
      intro size₁ offset₁ hend₁ hcut₁ hkeep₁
      refine signOf_comparePhysicalStep hl hr hleft hright (by omega) (by omega) (by decide) (by decide) ?_
      intro size₂ offset₂ hend₂ hcut₂ hkeep₂
      -- below eight bytes the steps of four and two leave at most one byte
      rw [comparePhysicalByte]
      split
      · rename_i hz
        subst hz
        rfl
      · obtain rfl : size₂ = 1 := by omega
        exact signOf_comparePhysicalUnsigned hl hr hleft hright (by omega) (by omega) (by decide) (by decide)
    · obtain ⟨rest, rfl⟩ := Nat.exists_eq_add_of_le' hlarge
      rw [comparePhysicalBytes, Nat.add_comm rest 8]
      exact signOf_physicalWord hl hr hleft hright (by decide) (by decide) (by omega) (by omega)
        (ih rest (by omega) (by omega) (by omega))

theorem signOf_fixedComparator (kind : ScalarKind) (flags : CompareFlags) (special : Bool)
    (hf : offset + bodySize kind ≤ leftEncoded.length) (hfit : offset + bodySize kind ≤ rightEncoded.length) :
    signOf (fixedComparator (.scalar kind) flags special left right offset inlineWordBytes) =
      bodyOrder kind flags special (bytesAt leftEncoded offset (bodySize kind))
        (bytesAt rightEncoded offset (bodySize kind)) := by
  have hfl : ∀ size, 0 < size → size ≤ 8 → offset + size ≤ leftEncoded.length →
      offset + size ≤ rightEncoded.length →
      compareFixedFloating size flags left right offset inlineWordBytes =
        compareFloatingPointBody size (bytesAt leftEncoded offset size) (bytesAt rightEncoded offset size)
          (!flags.ascending) := by
    intro size hp hs hf hfit
    rw [compareFixedFloating, compareFloatingPointBody, loadEncodedUnsigned_eq hl hleft hp hs hf,
      loadEncodedUnsigned_eq hr hright hp hs hfit, fromBigEndian_load (length_bytesAt hf),
      fromBigEndian_load (length_bytesAt hfit)]
  rw [fixedComparator, bodyOrder]
  split
  · rename_i hsp
    have hc := floatingPoint_of_encodedSpecial (.scalar kind) special hsp
    cases kind with
    | real => exact congrArg signOf (hfl 4 (by decide) (by decide) hf hfit)
    | double => exact congrArg signOf (hfl 8 (by decide) (by decide) hf hfit)
    | _ => exact absurd hc (by decide)
  · exact signOf_comparePhysicalBytes hl hr hleft hright hf hfit

end Fixed

private theorem head_of_drop {l t : List UInt8} {x : UInt8} {n : ℕ} (h : l.drop n = x :: t) :
    n < l.length ∧ l.getD n 0 = x ∧ l.drop (n + 1) = t := by
  have hlen : n < l.length := by
    rcases Nat.lt_or_ge n l.length with hlt | hge
    · exact hlt
    · rw [drop_of_length_le hge] at h
      cases h
  rw [drop_eq_getElem_cons hlen] at h
  obtain ⟨hh, ht⟩ := cons.inj h
  exact ⟨hlen, by rw [getD_eq_getElem _ _ hlen, hh], ht⟩

private theorem bytesAt_of_drop {l front t : List UInt8} {n size : ℕ} (h : l.drop n = front ++ t) (hn : n ≤ l.length)
    (hs : front.length = size) : bytesAt l n size = front ∧ n + size ≤ l.length ∧ l.drop (n + size) = t := by
  subst hs
  have hlen := congrArg length h
  rw [length_drop, length_append] at hlen
  refine ⟨by rw [bytesAt, h, take_left], by omega, ?_⟩
  rw [← drop_drop, h, drop_left]

def markerOf {α : Type} (flags : CompareFlags) : Option α → UInt8
  | none => nullMarker flags
  | some _ => validMarker flags

/-- One round of a column loop: the markers decide first, two nulls leave the decision
to the columns behind, and two values decide before those columns. -/
theorem signOf_columnRound {α : Type} {cmp : α → α → Ordering} {x y : Option α} {onNulls onValues : ℤ}
    {later : Ordering} (hnu : x = none → y = none → signOf onNulls = later)
    (hv : ∀ a b, x = some a → y = some b → signOf onValues = (cmp a b).then later) :
    signOf (if markerOf flags x ≠ markerOf flags y then threeWay (markerOf flags x) (markerOf flags y)
      else if markerOf flags x = nullMarker flags then onNulls else onValues) =
        (compareOption cmp flags.nullOrder x y).then later := by
  obtain ⟨hm, hs⟩ := compare_markers flags
  have hne := nullMarker_ne_valid flags
  have hn := flags.nullOrder_ne_eq
  cases x with
  | none =>
    cases y with
    | none =>
      rw [markerOf, if_neg (not_not_intro rfl), if_pos rfl]
      exact hnu rfl rfl
    | some b =>
      rw [markerOf, markerOf, if_pos hne, signOf_threeWay_uint8, hm, compareOption]
      revert hn
      cases flags.nullOrder <;> simp
  | some a =>
    cases y with
    | none =>
      rw [markerOf, markerOf, if_pos hne.symm, signOf_threeWay_uint8, hs, compareOption]
      revert hn
      cases flags.nullOrder <;> simp
    | some b =>
      rw [markerOf, markerOf, if_neg (not_not_intro rfl), if_neg hne.symm]
      exact hv a b rfl rfl

def AllScalar (columns : List RadixSortKeyColumn) : Prop := ∀ column ∈ columns, ∃ kind, column.type = .scalar kind

variable (S : ComparisonSort)

theorem encodeColumns_cons (column : RadixSortKeyColumn) (columns : List RadixSortKeyColumn) (value : Value column.type)
    (values : KeyRow columns) :
    encodeColumns S (column :: columns) 0 (value, values) =
      markerOf column.flags value :: (value.elim [] (encodeBody S column.type column.flags) ++
        encodeColumns S columns 0 values) := by
  rw [encodeColumns]
  simp only [Nat.lt_irrefl, decide_false, Nat.zero_sub, encodeVariableColumn_eq]
  cases value <;> rfl

theorem signOf_compareFixedColumns (S : ComparisonSort) {kind : RadixSortKeyLayoutKind} (hfi : kind.isVariable = false)
    (left right : KeyRecord kind) : (columns : List RadixSortKeyColumn) → (specials : RowSpecialValues columns) →
    (offset : ℕ) → AllScalar columns → (l r : KeyRow columns) → CoveredRow columns specials l →
    CoveredRow columns specials r → (t u : List UInt8) →
    left.encodedBytes.drop offset = encodeColumns S columns 0 l ++ t →
    right.encodedBytes.drop offset = encodeColumns S columns 0 r ++ u →
    signOf (compareFixedColumns kind.inlineWordBytes left.inlineBytes right.inlineBytes columns specials offset) =
      sqlOrderRow S columns l r
  | [], _, _, _, _, _, _, _, _, _, _, _ => rfl
  | ⟨type, flags, prefixOffset, hfl, ht⟩ :: columns, (special, specials), offset, hs, (x, l), (y, r),
      hl, hr, t, u, hleft, hright => by
    obtain ⟨scalar, rfl⟩ : ∃ scalar, type = .scalar scalar := hs _ mem_cons_self
    have hc : AllScalar columns := fun column hcol => hs column (mem_cons_of_mem _ hcol)
    have hlo : ∀ (record : KeyRecord kind), offset < record.encodedBytes.length →
        loadEncodedByte true record.inlineBytes offset kind.inlineWordBytes = record.encodedBytes.getD offset 0 := by
      intro record hlt
      rw [record.length_encodedBytes] at hlt
      rw [← record.encodedByte_eq hlt, KeyRecord.encodedByte, hfi]
      rfl
    rw [encodeColumns_cons, cons_append, append_assoc] at hleft hright
    obtain ⟨hltl, hgetl, hrestl⟩ := head_of_drop hleft
    obtain ⟨hltr, hgetr, hrestr⟩ := head_of_drop hright
    rw [compareFixedColumns, sqlOrderRow, sqlOrderValue]
    simp only [hlo left hltl, hlo right hltr, hgetl, hgetr]
    refine signOf_columnRound flags ?_ ?_
    · rintro rfl rfl
      exact signOf_compareFixedColumns S hfi left right columns specials (offset + 1) hc l r hl.2 hr.2 t u
        hrestl hrestr
    · rintro a b rfl rfl
      have hsi : ∀ value : scalar.Native, (encodeBody S (.scalar scalar) flags value).length = bodySize scalar := by
        intro value
        rw [encodeBody, length_encodeBytesScalar]
      rw [Option.elim_some] at hrestl hrestr
      obtain ⟨hbo, hf, htaill⟩ := bytesAt_of_drop hrestl hltl (hsi a)
      obtain ⟨hb, hfit, htailr⟩ := bytesAt_of_drop hrestr hltr (hsi b)
      have hco := signOf_fixedComparator (storedKey_encodedBytes left hfi) (storedKey_encodedBytes right hfi)
        (left.inlineBytes_length.trans left.length_encodedBytes.symm)
        (right.inlineBytes_length.trans right.length_encodedBytes.symm) scalar flags special hf hfit
      rw [hbo, hb, encodeBody, encodeBody, bodyOrder_eq flags (hl.1 a rfl) (hr.1 b rfl)] at hco
      have hn : offset + 1 + bodySize scalar = offset + (maximumEncodedSize (.scalar scalar)).getD 0 := by
        rw [maximumEncodedSize, Option.getD_some]
        omega
      rw [hn] at htaill htailr
      rw [signOf_ite_ne_zero, hco, sqlOrder,
        signOf_compareFixedColumns S hfi left right columns specials _ hc l r hl.2 hr.2 t u htaill htailr]

/-- The encodings of the first `count` columns, nulls padded to their width. -/
def prefixBytes (S : ComparisonSort) : (columns : List RadixSortKeyColumn) → (count : ℕ) → KeyRow columns → List UInt8
  | column :: columns, count + 1, (value, values) =>
    encodeVariableColumn S true column.type column.flags value ++ prefixBytes S columns count values
  | [], _, _ => []
  | _ :: _, 0, _ => []

/-- The order of key rows by their first `count` columns. -/
def sqlOrderPrefix (S : ComparisonSort) : (columns : List RadixSortKeyColumn) → (count : ℕ) →
    KeyRow columns → KeyRow columns → Ordering
  | column :: columns, count + 1, (left, lefts), (right, rights) =>
    (sqlOrderValue S column.type column.flags left right).then (sqlOrderPrefix S columns count lefts rights)
  | [], _, _, _ => .eq
  | _ :: _, 0, _, _ => .eq

theorem encodeColumns_eq_append (S : ComparisonSort) : (columns : List RadixSortKeyColumn) → (count : ℕ) →
    (row : KeyRow columns) →
    encodeColumns S columns count row = prefixBytes S columns count row ++ encodeSuffixColumns S columns count row
  | column :: columns, count + 1, (value, values) => by
    rw [encodeColumns, prefixBytes, encodeSuffixColumns, append_assoc, Nat.add_sub_cancel,
      encodeColumns_eq_append S columns count values]
    rfl
  | [], 0, _ => rfl
  | [], _ + 1, _ => rfl
  | _ :: _, 0, _ => rfl

theorem sqlOrderRow_eq_prefix_then (S : ComparisonSort) : (columns : List RadixSortKeyColumn) → (count : ℕ) →
    (left right : KeyRow columns) →
    sqlOrderRow S columns left right =
      (sqlOrderPrefix S columns count left right).then (sqlOrderSuffix S columns count left right)
  | column :: columns, count + 1, (left, lefts), (right, rights) => by
    rw [sqlOrderRow, sqlOrderPrefix, sqlOrderSuffix, then_assoc,
      ← sqlOrderRow_eq_prefix_then S columns count lefts rights]
  | [], 0, _, _ => rfl
  | [], _ + 1, _, _ => rfl
  | _ :: _, 0, _, _ => rfl

private theorem encodeVariableColumn_padded (S : ComparisonSort) (scalar : ScalarKind) (flags : CompareFlags)
    (value : Value (.scalar scalar)) :
    encodeVariableColumn S true (.scalar scalar) flags value =
      markerOf flags value :: value.elim (replicate (bodySize scalar) 0)
        (encodeBytesFixedScalarValue (!flags.ascending) scalar) := by
  cases value with
  | none => rfl
  | some native => rw [encodeVariableColumn, encodeFixedColumn, encodeScalar_eq]; rfl

private theorem signOf_ite_threeWay (result other : ℤ) :
    signOf (if result ≠ 0 then threeWay result 0 else other) = (signOf result).then (signOf other) := by
  have hs : signOf (threeWay result 0) = signOf result := by
    unfold threeWay
    rcases Int.lt_trichotomy result 0 with h | h | h
    · rw [if_neg (by omega), if_pos h]
      exact (Int.compare_eq_lt.mpr h).symm
    · rw [h]
      rfl
    · rw [if_pos h, if_neg (by omega)]
      exact (Int.compare_eq_gt.mpr h).symm
  rw [← signOf_ite_ne_zero]
  split
  · exact hs
  · rfl

theorem signOf_comparePrefixColumns (S : ComparisonSort) {left right : List UInt8} (hleft : left.length < 2 ^ 32)
    (heapKeyOffset : ℕ) : (columns : List RadixSortKeyColumn) → (specials : RowSpecialValues columns) → (offset : ℕ) →
    PrefixOffsets offset columns → (l r : KeyRow columns) → CoveredRow columns specials l →
    CoveredRow columns specials r → (t u : List UInt8) →
    left.drop offset = prefixBytes S columns (fixedPrefixColumnCount heapKeyOffset columns) l ++ t →
    right.drop offset = prefixBytes S columns (fixedPrefixColumnCount heapKeyOffset columns) r ++ u →
    signOf (comparePrefixColumns left right columns specials (fixedPrefixColumnCount heapKeyOffset columns)) =
      sqlOrderPrefix S columns (fixedPrefixColumnCount heapKeyOffset columns) l r
  | [], _, _, _, _, _, _, _, _, _, _, _ => rfl
  | ⟨type, flags, prefixOffset, hfl, ht⟩ :: columns, (special, specials), offset, hof, (x, l), (y, r),
      hl, hr, t, u, hdropl, hdropr => by
    rcases hof.count_cons heapKeyOffset with hco | ⟨scalar, hsc, hs, hre, hco⟩
    · rw [hco]
      rfl
    · dsimp only at hsc hs
      subst hsc hs
      rw [hco, prefixBytes, encodeVariableColumn_padded, append_assoc, cons_append] at hdropl hdropr
      obtain ⟨hltl, hgetl, hrestl⟩ := head_of_drop hdropl
      obtain ⟨hltr, hgetr, hrestr⟩ := head_of_drop hdropr
      have ho : offset % 2 ^ 32 = offset := Nat.mod_eq_of_lt (Nat.lt_trans hltl hleft)
      have hsi : ∀ value : Value (.scalar scalar), (value.elim (replicate (bodySize scalar) 0)
          (encodeBytesFixedScalarValue (!flags.ascending) scalar)).length = bodySize scalar := by
        intro value
        cases value with
        | none => exact length_replicate
        | some native => exact length_encodeBytesScalar _ _ _
      obtain ⟨hbo, -, htaill⟩ := bytesAt_of_drop hrestl hltl (hsi x)
      obtain ⟨hb, -, htailr⟩ := bytesAt_of_drop hrestr hltr (hsi y)
      rw [show offset + 1 + bodySize scalar = offset + (bodySize scalar + 1) by omega] at htaill htailr
      have hla := signOf_comparePrefixColumns S hleft heapKeyOffset columns specials _ hre l r hl.2 hr.2 t u
        htaill htailr
      rw [hco, comparePrefixColumns, sqlOrderPrefix, sqlOrderValue]
      simp only [Option.getD_some, ho, hgetl, hgetr]
      refine signOf_columnRound flags (fun _ _ => hla) ?_
      rintro a b rfl rfl
      have hc := signOf_variableComparator scalar flags special left right (offset + 1)
      rw [hbo, hb, Option.elim_some, Option.elim_some, bodyOrder_eq flags (hl.1 a rfl) (hr.1 b rfl)] at hc
      rw [signOf_ite_threeWay, hc, hla, sqlOrder]

/-! ## Keys of one order have one length -/

private theorem length_encodeNullable_eq {α : Type} {cmp : α → α → Ordering} (encodeBody : α → List UInt8)
    (h : ∀ a b, cmp a b = .eq → (encodeBody a).length = (encodeBody b).length) {x y : Option α}
    (heq : compareOption cmp flags.nullOrder x y = .eq) :
    (encodeNullable flags encodeBody x).length = (encodeNullable flags encodeBody y).length := by
  cases x with
  | none =>
    cases y with
    | none => rfl
    | some b => exact absurd heq flags.nullOrder_ne_eq
  | some a =>
    cases y with
    | none => exact absurd (swap_eq_eq.mp heq) flags.nullOrder_ne_eq
    | some b => exact congrArg (· + 1) (h a b heq)

mutual
/-- Values of a fixed size that compare equal are null in the same places. -/
theorem length_encodeBody_eq (S : ComparisonSort) : (type : SqlType) → (flags : CompareFlags) →
    (left right : Datum type) → (maximumEncodedSize type).isSome = true → sqlOrder S type flags left right = .eq →
    (encodeBody S type flags left).length = (encodeBody S type flags right).length
  | .scalar scalar, flags, left, right, _, _ => by
    rw [encodeBody, encodeBody, length_encodeBytesScalar, length_encodeBytesScalar]
  | .unknown, _, left, _, _, _ => nomatch left
  | .row children, flags, left, right, h, heq => by
    rw [maximumEncodedSize] at h
    rw [sqlOrder] at heq
    obtain ⟨size, hs⟩ := Option.isSome_iff_exists.mp h
    rw [encodeBody, encodeBody]
    exact length_encodeFields_eq S children flags left right hs heq
  | .string _, _, _, _, h, _ => by simp [maximumEncodedSize] at h
  | .array _, _, _, _, h, _ => by simp [maximumEncodedSize] at h
  | .map _ _, _, _, _, h, _ => by simp [maximumEncodedSize] at h
  | .function, _, left, _, _, _ => nomatch left
theorem length_encodeFields_eq (S : ComparisonSort) : (types : List SqlType) → (flags : CompareFlags) →
    (left right : Fields types) → {base size : ℕ} → addMaximumSizes (some base) types = some size →
    sqlOrderFields S types flags left right = .eq →
    (encodeFields S types flags left).length = (encodeFields S types flags right).length
  | [], _, _, _, _, _, _, _ => rfl
  | type :: types, flags, (left, lefts), (right, rights), base, size, h, heq => by
    obtain ⟨child, hc, hty⟩ := addMaximumSizes_cons h
    rw [sqlOrderFields] at heq
    obtain ⟨hh, ht⟩ := then_eq_eq.mp heq
    have hlen := length_encodeNullable_eq flags (encodeBody S type flags)
      (fun a b => length_encodeBody_eq S type flags a b (by rw [hc]; rfl)) hh
    rw [encodeFields, encodeFields, length_append, length_append, hlen,
      length_encodeFields_eq S types flags lefts rights hty ht]
end

theorem length_encodeColumns_eq (S : ComparisonSort) : (columns : List RadixSortKeyColumn) →
    (left right : KeyRow columns) → (totalMaximumSize columns).isSome = true → sqlOrderRow S columns left right = .eq →
    (encodeColumns S columns 0 left).length = (encodeColumns S columns 0 right).length
  | [], _, _, _, _ => rfl
  | column :: columns, (left, lefts), (right, rights), h, heq => by
    obtain ⟨hh, ht⟩ := then_eq_eq.mp heq
    rw [totalMaximumSize] at h
    split at h
    · rename_i size total hs hto
      have hlen := length_encodeNullable_eq column.flags (encodeBody S column.type column.flags)
        (fun a b => length_encodeBody_eq S column.type column.flags a b (by rw [hs]; rfl)) hh
      have hre := length_encodeColumns_eq S columns lefts rights (by rw [hto]; rfl) ht
      rw [encodeColumns, encodeColumns]
      simp only [Nat.lt_irrefl, decide_false, Nat.zero_sub, encodeVariableColumn_eq, length_append]
      rw [encodeValue, encodeValue, hlen, hre]
    · cases h

theorem length_encodeColumns_le (S : ComparisonSort) : (columns : List RadixSortKeyColumn) → (row : KeyRow columns) →
    {total : ℕ} → totalMaximumSize columns = some total → (encodeColumns S columns 0 row).length ≤ total
  | [], _, _, _ => Nat.zero_le _
  | column :: columns, (value, values), total, h => by
    rw [totalMaximumSize] at h
    split at h
    · rename_i size rest hs hre
      have hh := (length_encodeVariableColumn S false column.flags value hs).1
      have ht := length_encodeColumns_le S columns values hre
      rw [← Option.some.inj h, encodeColumns, length_append]
      simp only [Nat.lt_irrefl, decide_false, Nat.zero_sub]
      omega
    · cases h

/-! ## Records of a layout -/

theorem allScalar_of_prefixOffsets : (columns : List RadixSortKeyColumn) → (offset : ℕ) →
    PrefixOffsets offset columns → (columns.all fun column => column.fixedPrefixOffset.isSome) = true →
    AllScalar columns
  | [], _, _, _ => fun _ h => nomatch h
  | column :: columns, offset, ho, ha => by
    rw [all_cons, Bool.and_eq_true] at ha
    rcases ho with hn | ⟨scalar, hs, -, hre⟩
    · rw [hn] at ha
      cases ha.1
    · intro c hc
      rcases mem_cons.mp hc with rfl | hc
      · exact ⟨scalar, hs⟩
      · exact allScalar_of_prefixOffsets columns _ hre ha.2 c hc

theorem deconstruct_inlineBytes {kind : RadixSortKeyLayoutKind} (hfi : kind.isVariable = false) (record : KeyRecord kind) :
    deconstruct kind record.inlineBytes = record.encodedBytes := by
  rw [KeyRecord.encodedBytes, hfi]
  exact take_of_length_le (Nat.le_of_eq (length_storeKeyPrefix _ record.inlineBytes_length))

section Records

variable {S : ComparisonSort} {types : List SqlType} {flags : List CompareFlags} {codec : RadixSortKeyCodec}
  (hbind : bind types flags = .ok codec) {hasPayload : Bool} {layout : RadixSortKeyLayout}
  (hlayout : createLayout codec hasPayload = .ok layout)

variable {payload : ℕ}

include hbind hlayout

section

variable {flat : Bool} {row : KeyRow codec.columns} {record : KeyRecord layout.kind}
  (h : appendRow S codec layout flat row payload = .ok record)

include h

theorem fixed_encodedBytes (hfi : layout.kind.isVariable = false) :
    record.encodedBytes = encodeColumns S codec.columns 0 row ++
      replicate (layout.kind.inlineCapacity - (encodeColumns S codec.columns 0 row).length) 0 := by
  obtain ⟨size, hs, hle, -⟩ := (createLayout_fits hlayout).1.fixed_size hfi
  rw [bind_maximumSize hbind] at hs
  have hlen := length_encodeColumns_le S codec.columns row hs
  have hre : record = fixedRecord layout.kind (encodeColumns S codec.columns 0 row) payload := by
    rw [appendRow, if_neg (by rw [hfi]; decide)] at h
    exact appendFixed_eq h
  rw [KeyRecord.encodedBytes, hfi, hre, fixedRecord]
  simp only [Bool.false_eq_true, if_false]
  rw [storeFixedKeyPrefix_self (length_padTo _ _), padTo_eq, take_of_length_le (Nat.le_trans hlen hle)]

/-- The inline bytes of a variable record begin with the padded prefix columns, and its
heap holds the columns behind them. -/
theorem variable_record (hv : layout.kind.isVariable = true) : (∃ rest, record.inlineBytes =
      prefixBytes S codec.columns (fixedPrefixColumnCount layout.heapKeyOffset codec.columns) row ++ rest) ∧
    record.heapBytes 0 (record.size - layout.heapKeyOffset) =
      encodeSuffixColumns S codec.columns (fixedPrefixColumnCount layout.heapKeyOffset codec.columns) row := by
  have ho := bind_prefixOffsets hbind
  have hfi := (createLayout_fits hlayout).1
  rw [appendRow, if_pos hv] at h
  obtain rfl := Except.ok.inj h
  obtain ⟨hle, encoded, hlen, -, hke⟩ := encodedKey_eq_append ho hfi hv row
  have hp : prefixBytes S codec.columns (fixedPrefixColumnCount layout.heapKeyOffset codec.columns) row =
      encoded := by
    rw [encodedKey, prefixColumnCount, if_pos hv, encodeColumns_eq_append] at hke
    exact append_cancel_right hke
  refine ⟨⟨padTo (layout.kind.inlineCapacity - encoded.length)
    (encodeSuffixColumns S codec.columns (fixedPrefixColumnCount layout.heapKeyOffset codec.columns) row), ?_⟩, ?_⟩
  · rw [appendVariable_inlineBytes ho hfi hv, hke, padTo_append (by omega), hp]
  · rw [KeyRecord.heapBytes, appendVariable]
    apply ext_getElem (by simp)
    intro index hind hind'
    rw [getElem_map, getElem_range, Nat.zero_add, getD_eq_getElem _ _ hind']

end

/-- `comparePhysical` finds the sign of the SQL order of the two rows, in every layout
and whether or not the caller passes the suffixes. -/
theorem comparePhysical_spec {specials : RowSpecialValues codec.columns} {l r : KeyRow codec.columns}
    (hl : CoveredRow codec.columns specials l) (hr : CoveredRow codec.columns specials r) {flat flat' : Bool}
    {payload' : ℕ} {left right : KeyRecord layout.kind} (hleft : appendRow S codec layout flat l payload = .ok left)
    (hright : appendRow S codec layout flat' r payload' = .ok right) {suffixes : Option (List UInt8 × List UInt8)}
    (hsu : ∀ given, suffixes = some given →
      given = (encodeSuffixColumns S codec.columns (prefixColumnCount codec layout) l,
        encodeSuffixColumns S codec.columns (prefixColumnCount codec layout) r)) :
    ∃ result, comparePhysical codec specials layout left right suffixes = .ok result ∧
      signOf result = sqlOrderRow S codec.columns l r := by
  unfold comparePhysical
  cases hv : layout.kind.isVariable with
  | false =>
    have hby := fixed_encodedBytes hbind hlayout hleft hv
    have hb := fixed_encodedBytes hbind hlayout hright hv
    by_cases hsc : (codec.columns.all fun column => column.fixedPrefixOffset.isSome) = true
    · have ha := allScalar_of_prefixOffsets codec.columns 0 (bind_prefixOffsets hbind) hsc
      rw [if_pos hsc]
      exact ⟨_, rfl, signOf_compareFixedColumns S hv left right codec.columns specials 0 ha l r hl hr _ _
        hby hb⟩
    · rw [if_neg hsc, deconstruct_inlineBytes hv, deconstruct_inlineBytes hv, hby, hb]
      obtain ⟨result, hre, hs⟩ := compareEncoded_spec S hl hr 0
        (replicate (layout.kind.inlineCapacity - (encodeColumns S codec.columns 0 l).length) 0)
        (replicate (layout.kind.inlineCapacity - (encodeColumns S codec.columns 0 r).length) 0)
      rw [encodeSuffix_zero, encodeSuffix_zero] at hre
      refine ⟨result, hre, ?_⟩
      rw [hs, sqlOrderSuffix_zero]
      cases ho : sqlOrderRow S codec.columns l r with
      | lt => rfl
      | gt => rfl
      | eq =>
        -- equal rows have keys of one length, so the zeros behind them are equally many
        obtain ⟨size, hsi, -, -⟩ := (createLayout_fits hlayout).1.fixed_size hv
        rw [bind_maximumSize hbind] at hsi
        rw [length_encodeColumns_eq S codec.columns l r (by rw [hsi]; rfl) ho, eq_then]
        exact ReflOrd.compare_self
  | true =>
    obtain ⟨⟨restl, hinlinel⟩, hheapl⟩ := variable_record hbind hlayout hleft hv
    obtain ⟨⟨restr, hinliner⟩, hheapr⟩ := variable_record hbind hlayout hright hv
    have hlen : left.inlineBytes.length < 2 ^ 32 := by
      rw [left.inlineBytes_length]
      cases layout.kind <;> decide
    have hp := signOf_comparePrefixColumns S hlen layout.heapKeyOffset codec.columns specials 0
      (bind_prefixOffsets hbind) l r hl hr restl restr hinlinel hinliner
    have hc : prefixColumnCount codec layout = fixedPrefixColumnCount layout.heapKeyOffset codec.columns := by
      rw [prefixColumnCount, if_pos hv]
    rw [hc] at hsu
    obtain ⟨result, hre, hs⟩ := compareEncoded_spec S hl hr
      (fixedPrefixColumnCount layout.heapKeyOffset codec.columns) [] []
    rw [append_nil, append_nil] at hre
    rw [ReflOrd.compare_self, then_eq] at hs
    rw [if_neg (by decide), sqlOrderRow_eq_prefix_then S codec.columns
      (fixedPrefixColumnCount layout.heapKeyOffset codec.columns), ← hp, ← hs, ← signOf_ite_ne_zero]
    dsimp only
    split
    · exact ⟨_, rfl, rfl⟩
    · refine ⟨result, ?_, rfl⟩
      cases suffixes with
      | none => rw [hheapl, hheapr, hre]
      | some given =>
        rw [hsu given rfl]
        exact hre

end Records

/-! ## The order of covered rows -/

theorem transCmp_sqlOrderRow (S : ComparisonSort) : (columns : List RadixSortKeyColumn) → TransCmp (sqlOrderRow S columns)
  | [] => { eq_swap := rfl, isLE_trans := fun _ _ => rfl }
  | column :: columns => by
    have := transCmp_sqlOrderValue S column.type column.flags
    have := transCmp_sqlOrderRow S columns
    exact transCmp_comparePair (sqlOrderValue S column.type column.flags) (sqlOrderRow S columns)

abbrev CoveredKeyRow (columns : List RadixSortKeyColumn) (specials : RowSpecialValues columns) : Type :=
  { row : KeyRow columns // CoveredRow columns specials row }

def encodedLess (S : ComparisonSort) (columns : List RadixSortKeyColumn) (specials : RowSpecialValues columns)
    (left right : CoveredKeyRow columns specials) : Bool :=
  match compareEncoded columns specials (encodeColumns S columns 0 left.1) (encodeColumns S columns 0 right.1) 0 with
  | .ok result => decide (result < 0)
  | .error _ => false

theorem compareEncoded_encodeColumns {columns : List RadixSortKeyColumn} {specials : RowSpecialValues columns}
    {left right : KeyRow columns} (hl : CoveredRow columns specials left) (hr : CoveredRow columns specials right) :
    ∃ result, compareEncoded columns specials (encodeColumns S columns 0 left) (encodeColumns S columns 0 right) 0 =
      .ok result ∧ signOf result = sqlOrderRow S columns left right := by
  obtain ⟨result, hre, hs⟩ := compareEncoded_spec S hl hr 0 [] []
  rw [encodeSuffix_zero, encodeSuffix_zero, append_nil, append_nil] at hre
  rw [ReflOrd.compare_self, then_eq, sqlOrderSuffix_zero] at hs
  exact ⟨result, hre, hs⟩

theorem strictWeakOrder_encodedLess (columns : List RadixSortKeyColumn) (specials : RowSpecialValues columns) :
    StrictWeakOrder (encodedLess S columns specials) := by
  have := transCmp_sqlOrderRow S columns
  have hles : encodedLess S columns specials = fun left right => (sqlOrderRow S columns left.1 right.1).isLT := by
    funext left right
    obtain ⟨result, hre, hs⟩ := compareEncoded_encodeColumns S left.2 right.2
    rw [encodedLess, hre, ← hs, signOf_isLT]
  rw [hles]
  exact (strictWeak_isLT (sqlOrderRow S columns)).comap Subtype.val

/-- On rows whose NaNs and negative zeros the special-value flags cover, the comparison
of the encoded keys and that of the stored records of every layout find the sign of
one order, the SQL order of the rows, and it is a strict weak order. -/
theorem compareSpecial_sqlOrder (S : ComparisonSort) {types : List SqlType} {flags : List CompareFlags}
    {codec : RadixSortKeyCodec} (hbind : bind types flags = .ok codec) (specials : RowSpecialValues codec.columns) :
    (∀ l r : KeyRow codec.columns, CoveredRow codec.columns specials l → CoveredRow codec.columns specials r →
      (∃ result, compareEncoded codec.columns specials (encodeColumns S codec.columns 0 l)
        (encodeColumns S codec.columns 0 r) 0 = .ok result ∧ signOf result = sqlOrderRow S codec.columns l r) ∧
      ∀ (hasPayload : Bool) (layout : RadixSortKeyLayout), createLayout codec hasPayload = .ok layout →
        ∀ (flat flat' : Bool) (payload payload' : ℕ) (left right : KeyRecord layout.kind),
        appendRow S codec layout flat l payload = .ok left → appendRow S codec layout flat' r payload' = .ok right →
        ∀ suffixes : Option (List UInt8 × List UInt8),
        (∀ given, suffixes = some given → given = (encodeSuffixColumns S codec.columns (prefixColumnCount codec layout) l,
            encodeSuffixColumns S codec.columns (prefixColumnCount codec layout) r)) →
        ∃ result, comparePhysical codec specials layout left right suffixes = .ok result ∧
          signOf result = sqlOrderRow S codec.columns l r) ∧
    StrictWeakOrder (encodedLess S codec.columns specials) := by
  refine ⟨fun l r hl hr => ⟨compareEncoded_encodeColumns S hl hr, ?_⟩,
    strictWeakOrder_encodedLess S codec.columns specials⟩
  intro hasPayload layout hlayout flat flat' payload payload' left right hleft hright suffixes hsuffixes
  exact comparePhysical_spec hbind hlayout hl hr hleft hright hsuffixes

def doubleThenInteger : List RadixSortKeyColumn :=
  [⟨.scalar .double, { ascending := false, nullsFirst := false }, some 0, rfl, rfl⟩,
    ⟨.scalar .integer, { nullsFirst := false }, some 9, rfl, rfl⟩]

/-- Two NaNs of different patterns leave the decision to the column behind, and in a
descending column a NaN comes before an infinity. -/
theorem compareSpecial_sqlOrder_nan : bind [.scalar .double, .scalar .integer]
        [{ ascending := false, nullsFirst := false }, { nullsFirst := false }] =
      .ok ⟨doubleThenInteger, some 14⟩ ∧
    (∃ result, compareEncoded doubleThenInteger (true, false, ())
      (encodeColumns .insertion doubleThenInteger 0 (some 0x7ff8000000000000#64, some 1#32, ()))
      (encodeColumns .insertion doubleThenInteger 0 (some 0xfff8000000000001#64, some 2#32, ())) 0 = .ok result ∧
        signOf result = .lt) ∧
    ∃ result, compareEncoded doubleThenInteger (true, false, ())
      (encodeColumns .insertion doubleThenInteger 0 (some 0x7ff8000000000000#64, some 2#32, ()))
      (encodeColumns .insertion doubleThenInteger 0 (some 0x7ff0000000000000#64, some 1#32, ())) 0 = .ok result ∧
        signOf result = .lt := by
  have hbind : bind [.scalar .double, .scalar .integer]
        [{ ascending := false, nullsFirst := false }, { nullsFirst := false }] =
      .ok ⟨doubleThenInteger, some 14⟩ := rfl
  have hcovered : ∀ bits key,
      CoveredRow doubleThenInteger (true, false, ()) (some bits, some key, ()) := by
    intro bits key
    exact ⟨fun _ _ => .inl rfl, fun _ _ => .inr trivial, trivial⟩
  have horder := (compareSpecial_sqlOrder .insertion hbind (true, false, ())).1
  refine ⟨hbind, ?_, ?_⟩
  · obtain ⟨result, hresult, hsign⟩ :=
      (horder _ _ (hcovered 0x7ff8000000000000#64 1#32) (hcovered 0xfff8000000000001#64 2#32)).1
    exact ⟨result, hresult, hsign.trans (by decide)⟩
  · obtain ⟨result, hresult, hsign⟩ :=
      (horder _ _ (hcovered 0x7ff8000000000000#64 2#32) (hcovered 0x7ff0000000000000#64 1#32)).1
    exact ⟨result, hresult, hsign.trans (by decide)⟩

end Bolt.RadixSort
