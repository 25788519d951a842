import Bolt.RadixSort.KeyAppend

/-!
# Keys of variable layouts

The leading fixed columns are in a prefix, the other columns on the heap, and the first heap
bytes are copied behind the prefix. The encoded byte a record holds at an offset of its
inline part is that byte of the row's encoded key, or zero past its end.
-/

namespace Bolt.RadixSort

open Data Lib.Bytes Lib.Sorting List

variable {codec : RadixSortKeyCodec} {layout : RadixSortKeyLayout} {S : ComparisonSort}

def heapKeyOffsetLoop (inlineCapacity : ℕ) : List RadixSortKeyColumn → ℕ → ℕ
  | [], offset => offset
  | column :: columns, offset =>
    match column.fixedPrefixOffset, maximumEncodedSize column.type with
    | some _, some size =>
      match checkedAdd offset size with
      | some next => if next ≤ inlineCapacity then heapKeyOffsetLoop inlineCapacity columns next else offset
      | none => offset
    | _, _ => offset

def heapKeyOffsetForVariableLayout (columns : List RadixSortKeyColumn) (inlineCapacity : ℕ) : ℕ :=
  heapKeyOffsetLoop inlineCapacity columns 0

def fixedPrefixColumnCount (heapKeyOffset : ℕ) : List RadixSortKeyColumn → ℕ
  | [] => 0
  | column :: columns =>
    match column.fixedPrefixOffset with
    | some offset => if offset < heapKeyOffset then fixedPrefixColumnCount heapKeyOffset columns + 1 else 0
    | none => 0

def writeAt (bytes : List UInt8) (offset : ℕ) (written : List UInt8) : List UInt8 :=
  (bytes.take offset ++ written ++ bytes.drop (offset + written.length)).take bytes.length

/-- The prefix columns of `appendVariable`, each written at its prefix offset. -/
def encodePrefixColumns (S : ComparisonSort) : (columns : List RadixSortKeyColumn) → ℕ → KeyRow columns →
    List UInt8 → List UInt8
  | column :: columns, count + 1, (value, values), record =>
    encodePrefixColumns S columns count values
      (writeAt record (column.fixedPrefixOffset.getD 0)
        (encodeVariableColumn S true column.type column.flags value))
  | [], _, _, record => record
  | _ :: _, 0, _, record => record

/-- The heap bytes of `appendVariable`: the columns from `firstSuffixColumn` on. -/
def encodeSuffixColumns (S : ComparisonSort) : (columns : List RadixSortKeyColumn) →
    (firstSuffixColumn : ℕ) → KeyRow columns → List UInt8
  | _ :: columns, firstSuffixColumn + 1, (_, values) => encodeSuffixColumns S columns firstSuffixColumn values
  | [], _, _ => []
  | column :: columns, 0, row => encodeColumns S (column :: columns) 0 row

theorem length_writeAt (bytes : List UInt8) (offset : ℕ) (written : List UInt8) :
    (writeAt bytes offset written).length = bytes.length := by
  simp only [writeAt, length_take, length_append, length_drop]
  omega

theorem writeAt_middle (before replaced after written : List UInt8) (hl : written.length = replaced.length) :
    writeAt (before ++ replaced ++ after) before.length written = before ++ written ++ after := by
  have ht : (before ++ replaced ++ after).take before.length = before := by simp
  have hd : (before ++ replaced ++ after).drop (before.length + written.length) = after := by
    rw [hl, ← length_append, drop_left]
  rw [writeAt, ht, hd]
  apply take_of_length_le
  simp [hl]

theorem length_encodePrefixColumns (S : ComparisonSort) : (columns : List RadixSortKeyColumn) → (count : ℕ) →
    (row : KeyRow columns) → (record : List UInt8) →
    (encodePrefixColumns S columns count row record).length = record.length
  | column :: columns, count + 1, (value, values), record => by
    rw [encodePrefixColumns, length_encodePrefixColumns S columns count values, length_writeAt]
  | [], _, _, _ => rfl
  | _ :: _, 0, _, _ => rfl

/-- `appendVariable` for one row. The source leaves the bytes before the heap offset
unset until the prefix columns overwrite all of them. -/
def appendVariable (S : ComparisonSort) (codec : RadixSortKeyCodec) (layout : RadixSortKeyLayout)
    (row : KeyRow codec.columns) (payload : ℕ) : KeyRecord layout.kind where
  inlineBytes :=
    let count := fixedPrefixColumnCount layout.heapKeyOffset codec.columns
    let heap := encodeSuffixColumns S codec.columns count row
    let prefixed := encodePrefixColumns S codec.columns count row (replicate layout.kind.inlineCapacity 0)
    writeAt prefixed layout.heapKeyOffset (heap.take (layout.radixWidth - layout.heapKeyOffset))
  heap := encodeSuffixColumns S codec.columns (fixedPrefixColumnCount layout.heapKeyOffset codec.columns) row
  size := layout.heapKeyOffset +
    (encodeSuffixColumns S codec.columns (fixedPrefixColumnCount layout.heapKeyOffset codec.columns) row).length
  payload := if layout.kind.hasPayload then payload else 0
  inlineBytes_length := by rw [length_writeAt, length_encodePrefixColumns, length_replicate]

theorem length_encodeColumn_padded (scalar : ScalarKind) (flags : CompareFlags) (value : Option scalar.Native) :
    (encodeFixedColumn scalar flags true value).length = bodySize scalar + 1 := by
  cases value with
  | none => simp [encodeFixedColumn]
  | some value =>
    rw [encodeFixedColumn, encodeScalar_eq, length_cons, length_encodeBytesScalar]

theorem le_heapKeyOffsetLoop (inlineCapacity : ℕ) (columns : List RadixSortKeyColumn) (offset : ℕ) :
    offset ≤ heapKeyOffsetLoop inlineCapacity columns offset := by
  fun_induction heapKeyOffsetLoop inlineCapacity columns offset with
  | case2 column columns offset _ size hc hs next hn hle ih =>
    obtain ⟨ha, -⟩ := checkedAdd_eq_some hn
    omega
  | _ => exact le_refl _

section PrefixSteps

variable {column : RadixSortKeyColumn} {columns : List RadixSortKeyColumn} {offset : ℕ}

/-- A column is counted only if it is a scalar at the offset that is reached. -/
theorem PrefixOffsets.count_cons (ho : PrefixOffsets offset (column :: columns)) (heapKeyOffset : ℕ) :
    fixedPrefixColumnCount heapKeyOffset (column :: columns) = 0 ∨
      ∃ scalar, column.type = .scalar scalar ∧ column.fixedPrefixOffset = some (offset % 2 ^ 32) ∧
        PrefixOffsets (offset + (bodySize scalar + 1)) columns ∧
        fixedPrefixColumnCount heapKeyOffset (column :: columns) = fixedPrefixColumnCount heapKeyOffset columns + 1 := by
  rcases ho with hn | ⟨scalar, ht, hs, hr⟩
  · rw [fixedPrefixColumnCount, hn]
    exact .inl rfl
  · rw [fixedPrefixColumnCount, hs]
    dsimp only
    split
    · exact .inr ⟨scalar, ht, rfl, hr, rfl⟩
    · exact .inl rfl

theorem heapKeyOffsetLoop_cons {scalar : ScalarKind} (ht : column.type = .scalar scalar)
    (hso : column.fixedPrefixOffset = some offset) {inlineCapacity : ℕ} (hc : inlineCapacity < 2 ^ 32)
    (hle : offset ≤ inlineCapacity) :
    heapKeyOffsetLoop inlineCapacity (column :: columns) offset = if offset + (bodySize scalar + 1) ≤ inlineCapacity then
        heapKeyOffsetLoop inlineCapacity columns (offset + (bodySize scalar + 1))
      else offset := by
  have hs : maximumEncodedSize column.type = some (bodySize scalar + 1) := by
    rw [ht, maximumEncodedSize]
  have hb : bodySize scalar ≤ 16 := by cases scalar <;> decide
  have ha : checkedAdd offset (bodySize scalar + 1) = some (offset + (bodySize scalar + 1)) :=
    if_pos (by omega)
  rw [heapKeyOffsetLoop]
  simp [hso, hs, ha]

end PrefixSteps

/-- The prefix columns, written at their offsets, take exactly the bytes up to the heap offset. -/
def PrefixWritten (S : ComparisonSort) (inlineCapacity : ℕ) (columns : List RadixSortKeyColumn) (offset heapKeyOffset : ℕ)
    (row : KeyRow columns) : Prop :=
  heapKeyOffset ≤ inlineCapacity ∧ ∃ encoded : List UInt8, encoded.length = heapKeyOffset - offset ∧
    (∀ before replaced after : List UInt8, before.length = offset → replaced.length = heapKeyOffset - offset →
      encodePrefixColumns S columns (fixedPrefixColumnCount heapKeyOffset columns) row
        (before ++ replaced ++ after) = before ++ encoded ++ after) ∧
    encodeColumns S columns (fixedPrefixColumnCount heapKeyOffset columns) row =
      encoded ++ encodeSuffixColumns S columns (fixedPrefixColumnCount heapKeyOffset columns) row

theorem prefixWritten_nil {S : ComparisonSort} {inlineCapacity offset heapKeyOffset : ℕ} {columns : List RadixSortKeyColumn}
    (hs : heapKeyOffset = offset) (hle : offset ≤ inlineCapacity) (row : KeyRow columns)
    (hc : fixedPrefixColumnCount heapKeyOffset columns = 0) :
    PrefixWritten S inlineCapacity columns offset heapKeyOffset row := by
  rw [PrefixWritten, hc]
  refine ⟨by omega, [], by simp [hs], ?_, by cases columns <;> rfl⟩
  intro before replaced after _ hreplaced
  obtain rfl : replaced = [] := eq_nil_of_length_eq_zero (by omega)
  cases columns <;> rfl

theorem encodePrefixColumns_eq (S : ComparisonSort) {inlineCapacity : ℕ} (hc : inlineCapacity < 2 ^ 32) :
    (columns : List RadixSortKeyColumn) → (offset : ℕ) → PrefixOffsets offset columns → offset ≤ inlineCapacity →
    (heapKeyOffset : ℕ) → heapKeyOffset = heapKeyOffsetLoop inlineCapacity columns offset →
    (row : KeyRow columns) → PrefixWritten S inlineCapacity columns offset heapKeyOffset row := by
  intro columns
  induction columns with
  | nil => exact fun offset _ hle heapKeyOffset heap row => prefixWritten_nil heap hle row rfl
  | cons column columns ih =>
    intro offset ho hle heapKeyOffset heap row
    obtain ⟨value, values⟩ := row
    rcases ho with hn | ⟨scalar, ht, hs, ho⟩
    · rw [heapKeyOffsetLoop, hn] at heap
      exact prefixWritten_nil heap hle _ (by rw [fixedPrefixColumnCount, hn])
    · have hm : offset % 2 ^ 32 = offset := Nat.mod_eq_of_lt (by omega)
      rw [hm] at hs
      rw [heapKeyOffsetLoop_cons ht hs hc hle] at heap
      split_ifs at heap with hf
      · have hge := le_heapKeyOffsetLoop inlineCapacity columns (offset + (bodySize scalar + 1))
        have hco : fixedPrefixColumnCount heapKeyOffset (column :: columns) =
            fixedPrefixColumnCount heapKeyOffset columns + 1 := by
          rw [fixedPrefixColumnCount, hs]
          simp only
          rw [if_pos (by omega)]
        have hl : (encodeVariableColumn S true column.type column.flags value).length = bodySize scalar + 1 := by
          obtain ⟨type, flags, _, _, _⟩ := column
          subst ht
          exact length_encodeColumn_padded scalar flags value
        obtain ⟨hbo, enc, hen, hw, hcon⟩ :=
          ih (offset + (bodySize scalar + 1)) ho hf heapKeyOffset heap values
        refine ⟨hbo, encodeVariableColumn S true column.type column.flags value ++ enc, ?_, ?_, ?_⟩
        · rw [length_append, hl, hen]
          omega
        · intro before replaced after hb hreplaced
          rw [hco, encodePrefixColumns, hs, Option.getD_some]
          have hsp : before ++ replaced ++ after =
              before ++ replaced.take (bodySize scalar + 1) ++ (replaced.drop (bodySize scalar + 1) ++ after) := by
            rw [append_assoc before, append_assoc before, ← append_assoc (take _ _), take_append_drop]
          rw [hsp, ← hb, writeAt_middle _ _ _ _ (by rw [hl, length_take]; omega)]
          rw [← append_assoc, hw _ _ after (by rw [length_append, hl]; omega)
            (by rw [length_drop]; omega), append_assoc, append_assoc, append_assoc,
            append_assoc]
        · rw [hco, encodeColumns, encodeSuffixColumns, Nat.add_sub_cancel, hcon, append_assoc]
          simp
      · refine prefixWritten_nil heap hle _ ?_
        rw [fixedPrefixColumnCount, hs]
        simp [heap]

/-! ## The encoded bytes of a record -/

def appendRow (S : ComparisonSort) (codec : RadixSortKeyCodec) (layout : RadixSortKeyLayout) (flat : Bool)
    (row : KeyRow codec.columns) (payload : ℕ) : Except AppendError (KeyRecord layout.kind) :=
  if layout.kind.isVariable then .ok (appendVariable S codec layout row payload)
  else appendFixed S codec layout.kind flat row payload

def createLayout (codec : RadixSortKeyCodec) (hasPayload : Bool) : Except LayoutError RadixSortKeyLayout :=
  match RadixSortKeyLayout.select codec.maximumEncodedSize hasPayload 0 with
  | .error error => .error error
  | .ok layout =>
    if layout.kind.isVariable then
      RadixSortKeyLayout.select codec.maximumEncodedSize hasPayload
        (heapKeyOffsetForVariableLayout codec.columns layout.kind.inlineCapacity)
    else .ok layout

def prefixColumnCount (codec : RadixSortKeyCodec) (layout : RadixSortKeyLayout) : ℕ :=
  if layout.kind.isVariable then fixedPrefixColumnCount layout.heapKeyOffset codec.columns else 0

def encodedKey (S : ComparisonSort) (codec : RadixSortKeyCodec) (layout : RadixSortKeyLayout)
    (row : KeyRow codec.columns) : List UInt8 :=
  encodeColumns S codec.columns (prefixColumnCount codec layout) row

/-- What `create` guarantees of the layout it selects. -/
structure LayoutFits (codec : RadixSortKeyCodec) (layout : RadixSortKeyLayout) : Prop where
  variable_width : layout.kind.isVariable = true → layout.radixWidth = layout.kind.inlineCapacity
  variable_heap : layout.kind.isVariable = true →
    layout.heapKeyOffset = heapKeyOffsetForVariableLayout codec.columns layout.kind.inlineCapacity
  fixed_size : layout.kind.isVariable = false → ∃ size, codec.maximumEncodedSize = some size ∧
    size ≤ layout.kind.inlineCapacity ∧ layout.radixWidth = min size 8

theorem createLayout_fits {hasPayload : Bool} (h : createLayout codec hasPayload = .ok layout) :
    LayoutFits codec layout ∧ kindFor codec.maximumEncodedSize hasPayload = .ok layout.kind := by
  unfold createLayout at h
  split at h
  · cases h
  · rename_i first hfir
    obtain ⟨hki, -, -, hfi⟩ := select_eq_ok hfir
    split at h
    · rename_i hv
      obtain ⟨hkin', hh, hw, -⟩ := select_eq_ok h
      have hsa : first.kind = layout.kind := Except.ok.inj (hki.symm.trans hkin')
      rw [hsa] at hh hv
      exact ⟨⟨fun _ => (hw hv).1, fun _ => hh,
        fun hfi => absurd (hv.symm.trans hfi) (by decide)⟩, hkin'⟩
    · rename_i hv
      obtain rfl := Except.ok.inj h
      refine ⟨⟨fun h => absurd h hv, fun h => absurd h hv, fun hfa => ?_⟩, hki⟩
      obtain ⟨size, hs, hle, -⟩ := kindFor_fixed hki hfa
      refine ⟨size, hs, hle, ?_⟩
      rw [(hfi hfa).2, hs, Option.getD_some]

section

variable (ho : PrefixOffsets 0 codec.columns) (hf : LayoutFits codec layout)
include ho hf

section Variable

variable (hv : layout.kind.isVariable = true) (row : KeyRow codec.columns) (payload : ℕ)
include hv

theorem encodedKey_eq_append :
    layout.heapKeyOffset ≤ layout.kind.inlineCapacity ∧ ∃ enc : List UInt8, enc.length = layout.heapKeyOffset ∧
      (∀ replaced after : List UInt8, replaced.length = layout.heapKeyOffset →
        encodePrefixColumns S codec.columns (fixedPrefixColumnCount layout.heapKeyOffset codec.columns) row
          (replaced ++ after) = enc ++ after) ∧
      encodedKey S codec layout row =
        enc ++ encodeSuffixColumns S codec.columns (fixedPrefixColumnCount layout.heapKeyOffset codec.columns) row := by
  have hc : layout.kind.inlineCapacity < 2 ^ 32 := by cases layout.kind <;> decide
  obtain ⟨hle, enc, hl, hw, hco⟩ := encodePrefixColumns_eq S hc codec.columns 0 ho
    (Nat.zero_le _) layout.heapKeyOffset (hf.variable_heap hv) row
  refine ⟨hle, enc, hl, fun replaced after => hw [] replaced after rfl, ?_⟩
  rw [encodedKey, prefixColumnCount, if_pos hv, hco]

theorem appendVariable_inlineBytes : (appendVariable S codec layout row payload).inlineBytes =
      padTo layout.kind.inlineCapacity (encodedKey S codec layout row) := by
  obtain ⟨hle, enc, hl, hw, hke⟩ := encodedKey_eq_append ho hf hv row
  have hp := hw (replicate layout.heapKeyOffset 0)
    (replicate (layout.kind.inlineCapacity - layout.heapKeyOffset) 0) (by simp)
  rw [← replicate_add, Nat.add_sub_cancel' hle] at hp
  rw [appendVariable, hke]
  simp only [hp, hf.variable_width hv]
  generalize encodeSuffixColumns S codec.columns
    (fixedPrefixColumnCount layout.heapKeyOffset codec.columns) row = heap
  have hh : layout.heapKeyOffset = enc.length := by omega
  have hz : replicate (layout.kind.inlineCapacity - layout.heapKeyOffset) (0 : UInt8) =
      replicate (heap.take (layout.kind.inlineCapacity - layout.heapKeyOffset)).length 0 ++
        replicate (layout.kind.inlineCapacity - layout.heapKeyOffset -
          (heap.take (layout.kind.inlineCapacity - layout.heapKeyOffset)).length) 0 := by
    rw [← replicate_add, Nat.add_sub_cancel' (by rw [length_take]; omega)]
  rw [hz, ← append_assoc, hh, writeAt_middle _ _ _ _ (by simp), padTo_append (by omega), padTo_eq, append_assoc]

theorem appendVariable_size :
    (appendVariable S codec layout row payload).size = (encodedKey S codec layout row).length := by
  obtain ⟨-, enc, hl, -, hke⟩ := encodedKey_eq_append ho hf hv row
  rw [appendVariable, hke, length_append, hl]

end Variable

theorem appendRow_encodedByte {flat : Bool} {row : KeyRow codec.columns} {payload : ℕ} {record : KeyRecord layout.kind}
    (h : appendRow S codec layout flat row payload = .ok record) {offset : ℕ}
    (hof : offset < layout.kind.inlineCapacity) :
    record.encodedByte offset = (encodedKey S codec layout row).getD offset 0 := by
  have hp : (padTo layout.kind.inlineCapacity (encodedKey S codec layout row)).getD offset 0 =
      (encodedKey S codec layout row).getD offset 0 := by
    rw [padTo, getD_eq_getElem?_getD, getElem?_take_of_lt hof, getD_eq_getElem?_getD]
    rcases Nat.lt_or_ge offset (encodedKey S codec layout row).length with hlt | hge
    · rw [getElem?_append_left hlt]
    · rw [getElem?_append_right hge, getElem?_eq_none hge, getElem?_replicate]
      split <;> rfl
  unfold appendRow at h
  split at h
  · rename_i hv
    obtain rfl := Except.ok.inj h
    rw [KeyRecord.encodedByte, hv, loadEncodedByte, appendVariable_inlineBytes ho hf hv]
    exact hp
  · rename_i hfi
    have hfi : layout.kind.isVariable = false := by simpa using hfi
    have hke : encodedKey S codec layout row = encodeColumns S codec.columns 0 row := by
      rw [encodedKey, prefixColumnCount, hfi]
      rfl
    rw [appendFixed_eq h, KeyRecord.encodedByte, hfi, ← hp, hke]
    exact loadByte_storeFixedKeyPrefix layout.kind (length_padTo _ _) hof

end

theorem appendRow_isOk (S : ComparisonSort) {types : List SqlType} {flags : List CompareFlags}
    (hb : bind types flags = .ok codec) {hasPayload : Bool} (hl : createLayout codec hasPayload = .ok layout)
    (flat : Bool) (row : KeyRow codec.columns) (payload : ℕ) :
    ∃ record, appendRow S codec layout flat row payload = .ok record := by
  unfold appendRow
  split
  · exact ⟨_, rfl⟩
  · rename_i hfi
    have hfi : layout.kind.isVariable = false := by simpa using hfi
    obtain ⟨size, hs, -, hki⟩ := kindFor_fixed (createLayout_fits hl).2 hfi
    rw [bind_maximumSize hb] at hs
    unfold appendFixed
    split
    · rename_i flags' scalar value hva
      split
      · have hone := (singleFixedValue_spec S codec.columns row hva).2
        obtain rfl : size = bodySize scalar + 1 := Option.some.inj (hs.symm.trans hone)
        rw [hki]
        cases hasPayload <;> cases scalar <;> exact ⟨_, rfl⟩
      · exact ⟨_, rfl⟩
    · exact ⟨_, rfl⟩

end Bolt.RadixSort
