import Bolt.RadixSort.KeyRecord

/-!
# Keys of fixed layouts

The records that `RadixSortKeyCodec::append` stores in a fixed layout, by the general
path and by the direct kernels for one flat fixed column. Both store the encoded key
in a zeroed buffer.
-/

namespace Bolt.RadixSort

open Data Lib.Bytes Lib.Sorting RadixSortKeyLayoutKind

variable {kind : RadixSortKeyLayoutKind}

theorem length_inline (kind : RadixSortKeyLayoutKind) (enc : List UInt8) :
    (storeFixedKeyPrefix kind (padTo kind.inlineCapacity enc)).length = kind.inlineCapacity :=
  length_storeKeyPrefix kind (length_padTo _ _)

/-- A record of a fixed layout: the encoded key in a zeroed buffer, its words swapped. -/
def fixedRecord (kind : RadixSortKeyLayoutKind) (encoded : List UInt8) (payload : ℕ) : KeyRecord kind where
  inlineBytes := storeFixedKeyPrefix kind (padTo kind.inlineCapacity encoded)
  size := 0
  heap := []
  payload := if kind.hasPayload then payload else 0
  inlineBytes_length := length_inline kind encoded

def appendInlineLayout (S : ComparisonSort) (columns : List RadixSortKeyColumn) (kind : RadixSortKeyLayoutKind)
    (row : KeyRow columns) (payload : ℕ) : KeyRecord kind :=
  fixedRecord kind (encodeColumns S columns 0 row) payload

/-- The layout checks of the direct kernels: "Direct fixed sort key layout does not
match type" and "Direct 64-bit sort key layout does not match type". -/
inductive AppendError where
  | fixedLayoutMismatch
  | fixed64LayoutMismatch

def appendSingleFixedFlatKernel (scalar : ScalarKind) (flags : CompareFlags) (kind : RadixSortKeyLayoutKind)
    (value : Option scalar.Native) (payload : ℕ) : KeyRecord kind :=
  fixedRecord kind (encodeFixedColumn scalar flags false value) payload

def appendSingleFixedFlat (noPayloadKind payloadKind : RadixSortKeyLayoutKind) (scalar : ScalarKind)
    (flags : CompareFlags) (kind : RadixSortKeyLayoutKind) (value : Option scalar.Native) (payload : ℕ) :
    Except AppendError (KeyRecord kind) :=
  if kind = noPayloadKind ∨ kind = payloadKind then
    .ok (appendSingleFixedFlatKernel scalar flags kind value payload)
  else .error .fixedLayoutMismatch

/-- The inline bytes `appendSingleFixed64FlatKernel` writes from the encoded value and
the first word. -/
def fixed64Bytes (kind : RadixSortKeyLayoutKind) (encoded firstWord : ℕ) : List UInt8 :=
  storeUnaligned 8 firstWord ++
    if kind.inlineWords > 1 then storeUnaligned 8 (encoded <<< 56 % 2 ^ 64)
    else UInt8.ofNat encoded :: List.replicate (kind.inlineTailBytes - 1) 0

/-- The inline bytes of `appendSingleFixed64FlatKernel` for one row; `encodeBody` is
the caller's `encodeFixed64Value`. -/
def appendSingleFixed64FlatKernel {α : Type} (encodeBody : α → BitVec 64) (flags : CompareFlags)
    (kind : RadixSortKeyLayoutKind) (value : Option α) : List UInt8 :=
  let descendingMask : BitVec 64 := if flags.ascending then 0 else BitVec.allOnes 64
  match value with
  | none => fixed64Bytes kind 0 ((nullMarker flags).toNat <<< 56)
  | some value =>
    let encoded := (encodeBody value ^^^ descendingMask).toNat
    fixed64Bytes kind encoded ((validMarker flags).toNat <<< 56 ||| encoded >>> 8)

variable (hki : kind = .keyOnlyFixed16 ∨ kind = .keyWithPayloadFixed16)

include hki in
theorem length_fixed64Bytes (enc firstWord : ℕ) :
    (fixed64Bytes kind enc firstWord).length = kind.inlineCapacity := by
  rcases hki with rfl | rfl <;> simp [fixed64Bytes, storeUnaligned, inlineWords, inlineTailBytes, inlineWordBytes,
    inlineCapacity]

def appendSingleFixed64Flat {α : Type} (encodeBody : α → BitVec 64) (flags : CompareFlags)
    (kind : RadixSortKeyLayoutKind) (value : Option α) (payload : ℕ) : Except AppendError (KeyRecord kind) :=
  if hkind : kind = .keyOnlyFixed16 ∨ kind = .keyWithPayloadFixed16 then
    .ok {
      inlineBytes := appendSingleFixed64FlatKernel encodeBody flags kind value
      size := 0
      heap := []
      payload := if kind.hasPayload then payload else 0
      inlineBytes_length := by cases value <;> exact length_fixed64Bytes hkind _ _ }
  else .error .fixed64LayoutMismatch

/-- `appendSingleFixedFlatByKind`; `encodeFixed64Value` is written out in its two cases. -/
def appendSingleFixedFlatByKind (flags : CompareFlags) (kind : RadixSortKeyLayoutKind) :
    (scalar : ScalarKind) → Option scalar.Native → ℕ → Except AppendError (KeyRecord kind)
  | .bigint, value, payload =>
    appendSingleFixed64Flat (fun v : ScalarKind.Native .bigint => flipSign v) flags kind value payload
  | .double, value, payload =>
    appendSingleFixed64Flat (fun v : ScalarKind.Native .double => encodeDouble v) flags kind value payload
  | .hugeint, value, payload =>
    appendSingleFixedFlat .keyOnlyFixed24 .keyWithPayloadFixed24 .hugeint flags kind value payload
  | .timestamp, value, payload =>
    appendSingleFixedFlat .keyOnlyFixed24 .keyWithPayloadFixed24 .timestamp flags kind value payload
  | .boolean, value, payload =>
    appendSingleFixedFlat .keyOnlyFixed8 .keyWithPayloadFixed16 .boolean flags kind value payload
  | .tinyint, value, payload =>
    appendSingleFixedFlat .keyOnlyFixed8 .keyWithPayloadFixed16 .tinyint flags kind value payload
  | .smallint, value, payload =>
    appendSingleFixedFlat .keyOnlyFixed8 .keyWithPayloadFixed16 .smallint flags kind value payload
  | .integer, value, payload =>
    appendSingleFixedFlat .keyOnlyFixed8 .keyWithPayloadFixed16 .integer flags kind value payload
  | .real, value, payload =>
    appendSingleFixedFlat .keyOnlyFixed8 .keyWithPayloadFixed16 .real flags kind value payload

private theorem firstWord_bytes (marker : UInt8) {enc : ℕ} (h : enc < 2 ^ 64) :
    beBytes 8 (marker.toNat <<< 56 ||| enc >>> 8) = marker :: beBytes 7 (enc / 256) := by
  have hu : enc / 256 < 2 ^ 56 := by omega
  have ho : marker.toNat <<< 56 ||| enc >>> 8 = marker.toNat * 256 ^ 7 + enc / 256 := by
    rw [Nat.shiftRight_eq_div_pow, ← Nat.shiftLeft_add_eq_or_of_lt hu, Nat.shiftLeft_eq]
    norm_num
  have hm := marker.toNat_lt
  apply beValue_inj (by simp)
  rw [beValue_beBytes, ho, beValue_cons, beValue_beBytes, length_beBytes]
  omega

include hki in
/-- The 64-bit kernel writes the record of the marker and the eight value bytes. -/
theorem fixed64Bytes_eq (marker : UInt8) {enc : ℕ} (h : enc < 2 ^ 64) :
    fixed64Bytes kind enc (marker.toNat <<< 56 ||| enc >>> 8) =
      storeFixedKeyPrefix kind (padTo kind.inlineCapacity (marker :: beBytes 8 enc)) := by
  have hf : storeUnaligned 8 (marker.toNat <<< 56 ||| enc >>> 8) =
      (marker :: beBytes 7 (enc / 256)).reverse := by
    rw [storeUnaligned, leBytes_eq_reverse, firstWord_bytes marker h]
  have hs : storeUnaligned 8 (enc <<< 56 % 2 ^ 64) =
      (UInt8.ofNat enc :: List.replicate 7 0).reverse := by
    rw [storeUnaligned, leBytes_eq_reverse]
    congr 1
    apply beValue_inj (by simp)
    rw [beValue_beBytes, beValue_cons, Nat.shiftLeft_eq]
    simp [beValue]
    omega
  have hby : beBytes 8 enc = beBytes 7 (enc / 256) ++ [UInt8.ofNat enc] := by
    simpa [beBytes] using beBytes_add 7 1 enc
  obtain ⟨b₁, b₂, b₃, b₄, b₅, b₆, b₇, hb⟩ : ∃ b₁ b₂ b₃ b₄ b₅ b₆ b₇,
      beBytes 7 (enc / 256) = [b₁, b₂, b₃, b₄, b₅, b₆, b₇] := ⟨_, _, _, _, _, _, _, rfl⟩
  have hwo := swapped_word (c := [marker, b₁, b₂, b₃, b₄, b₅, b₆, b₇]) rfl
  have hw := swapped_word (c := [UInt8.ofNat enc, 0, 0, 0, 0, 0, 0, 0]) rfl
  rcases hki with rfl | rfl
  · change storeUnaligned 8 _ ++ storeUnaligned 8 _ = _
    rw [hf, hs, hby, hb]
    change _ = storeUnaligned 8 (byteSwap 8 (loadUnaligned [marker, b₁, b₂, b₃, b₄, b₅, b₆, b₇])) ++
      (storeUnaligned 8 (byteSwap 8 (loadUnaligned [UInt8.ofNat enc, 0, 0, 0, 0, 0, 0, 0])) ++ []) ++ []
    rw [hwo, hw]
    rfl
  · change storeUnaligned 8 _ ++ _ = _
    rw [hf, hby, hb]
    change _ = storeUnaligned 8 (byteSwap 8 (loadUnaligned [marker, b₁, b₂, b₃, b₄, b₅, b₆, b₇])) ++ [] ++
      [UInt8.ofNat enc, 0]
    rw [hwo]
    rfl

include hki in
private theorem appendSingleFixed64FlatKernel_eq {α : Type} (encodeBody : α → BitVec 64) (flags : CompareFlags)
    (value : Option α) :
    appendSingleFixed64FlatKernel encodeBody flags kind value =
      storeFixedKeyPrefix kind (padTo kind.inlineCapacity (encodeNullable flags
        (fun v => (beBytes 8 (encodeBody v).toNat).map (directedByte (!flags.ascending))) value)) := by
  cases value with
  | none =>
    have hz := fixed64Bytes_eq hki (nullMarker flags) (show 0 < 2 ^ 64 by decide)
    rw [Nat.zero_shiftRight, Nat.or_zero] at hz
    rw [appendSingleFixed64FlatKernel, hz, encodeNullable]
    rcases hki with rfl | rfl <;> rfl
  | some v =>
    have hm : beBytes 8 (encodeBody v ^^^ if flags.ascending then 0 else BitVec.allOnes 64).toNat =
        (beBytes 8 (encodeBody v).toNat).map (directedByte (!flags.ascending)) := by
      cases flags.ascending with
      | true => simp [directedByte_false]
      | false =>
        have hc := beBytes_complement (n := 8) (encodeBody v).isLt
        rw [if_neg Bool.false_ne_true, BitVec.xor_allOnes, BitVec.toNat_not]
        exact hc
    rw [appendSingleFixed64FlatKernel, fixed64Bytes_eq hki _ (BitVec.isLt _), hm, encodeNullable]

private theorem encodeFixedColumn_eq_nullable (scalar : ScalarKind) (flags : CompareFlags)
    (value : Option scalar.Native) :
    encodeFixedColumn scalar flags false value =
      encodeNullable flags (encodeBytesFixedScalarValue (!flags.ascending) scalar) value := by
  cases value with
  | none => rfl
  | some value => rw [encodeFixedColumn, encodeScalar_eq, encodeNullable]

/-- The direct kernels store what the general path stores. -/
theorem appendSingleFixedFlatByKind_eq {flags : CompareFlags} {scalar : ScalarKind} {value : Option scalar.Native}
    {payload : ℕ} {record : KeyRecord kind}
    (h : appendSingleFixedFlatByKind flags kind scalar value payload = .ok record) :
    record = fixedRecord kind (encodeFixedColumn scalar flags false value) payload := by
  have hg : ∀ noPayloadKind payloadKind,
      appendSingleFixedFlat noPayloadKind payloadKind scalar flags kind value payload = .ok record →
      record = fixedRecord kind (encodeFixedColumn scalar flags false value) payload := by
    intro noPayloadKind payloadKind h
    unfold appendSingleFixedFlat at h
    split at h
    · exact (Except.ok.inj h).symm
    · cases h
  have hfixed64 : ∀ encodeBody : scalar.Native → BitVec 64,
      (∀ v, encodeBytesFixedScalarValue (!flags.ascending) scalar v =
        (beBytes 8 (encodeBody v).toNat).map (directedByte (!flags.ascending))) →
      appendSingleFixed64Flat encodeBody flags kind value payload = .ok record →
      record = fixedRecord kind (encodeFixedColumn scalar flags false value) payload := by
    intro encodeBody hb h
    unfold appendSingleFixed64Flat at h
    split at h
    · rename_i hki
      have heq := appendSingleFixed64FlatKernel_eq hki encodeBody flags value
      simp only [← hb] at heq
      rw [← Except.ok.inj h, fixedRecord, encodeFixedColumn_eq_nullable]
      simp only [heq]
    · cases h
  cases scalar with
  | bigint | double => exact hfixed64 _ (fun v => encodeBytesScalar_eq _ _ v) h
  | hugeint | timestamp | boolean | tinyint | smallint | integer | real => exact hg _ _ h

def fixedScalarValue : (type : SqlType) → Value type → Option ((scalar : ScalarKind) × Option scalar.Native)
  | .scalar scalar, value => some ⟨scalar, value⟩
  | _, _ => none

/-- The value the direct kernels apply to: the only column is a fixed scalar. -/
def singleFixedValue : (columns : List RadixSortKeyColumn) → KeyRow columns →
    Option (CompareFlags × (scalar : ScalarKind) × Option scalar.Native)
  | [column], (value, _) => (fixedScalarValue column.type value).map (column.flags, ·)
  | [], _ => none
  | _ :: _ :: _, _ => none

/-- `append` for one row of a fixed layout. `flat` tells that the only column is a
flat vector, the condition of `canAppendSingleFixedFlat` on the input. -/
def appendFixed (S : ComparisonSort) (codec : RadixSortKeyCodec) (kind : RadixSortKeyLayoutKind) (flat : Bool)
    (row : KeyRow codec.columns) (payload : ℕ) : Except AppendError (KeyRecord kind) :=
  match singleFixedValue codec.columns row with
  | some (flags, ⟨scalar, value⟩) =>
    if flat && codec.maximumEncodedSize.any (· ≤ kind.inlineCapacity) then
      appendSingleFixedFlatByKind flags kind scalar value payload
    else .ok (appendInlineLayout S codec.columns kind row payload)
  | none => .ok (appendInlineLayout S codec.columns kind row payload)

theorem singleFixedValue_spec (S : ComparisonSort) :
    (columns : List RadixSortKeyColumn) → (row : KeyRow columns) → {flags : CompareFlags} →
    {scalar : ScalarKind} → {value : Option scalar.Native} →
    singleFixedValue columns row = some (flags, ⟨scalar, value⟩) →
    encodeColumns S columns 0 row = encodeFixedColumn scalar flags false value ∧
      totalMaximumSize columns = some (bodySize scalar + 1)
  | [], _, _, _, _, h => nomatch h
  | [column], (value, _), flags, scalar, native, h => by
    obtain ⟨found, hf, hp⟩ := Option.map_eq_some_iff.mp h
    obtain ⟨rfl, rfl⟩ := Prod.mk.inj hp
    obtain ⟨type, _, _, _, _⟩ := column
    cases type with
    | scalar kind =>
      obtain ⟨rfl, hv⟩ := Sigma.mk.inj (Option.some.inj hf)
      obtain rfl := eq_of_heq hv
      simp [encodeColumns, encodeVariableColumn, totalMaximumSize, maximumEncodedSize]
    | _ => cases hf
  | _ :: _ :: _, _, _, _, _, h => nomatch h

/-- Whichever path a fixed layout takes, it stores the padded encoded key. -/
theorem appendFixed_eq {S : ComparisonSort} {codec : RadixSortKeyCodec} {flat : Bool} {row : KeyRow codec.columns}
    {payload : ℕ} {record : KeyRecord kind} (h : appendFixed S codec kind flat row payload = .ok record) :
    record = fixedRecord kind (encodeColumns S codec.columns 0 row) payload := by
  unfold appendFixed at h
  split at h
  · rename_i flags scalar value hv
    split at h
    · rw [(singleFixedValue_spec S codec.columns row hv).1]
      exact appendSingleFixedFlatByKind_eq h
    · exact (Except.ok.inj h).symm
  · exact (Except.ok.inj h).symm

end Bolt.RadixSort
