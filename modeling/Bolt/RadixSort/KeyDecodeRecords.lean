import Bolt.Lib.Traverse
import Bolt.RadixSort.KeyDecodeSound

/-!
# Decoding the records of a run

Whole columns over a batch of views, a single fixed column from the words of its
record, and the prefix columns of a variable layout. Whatever the layout, decoding the
records that `append` stored gives back the rows.
-/

namespace Bolt.RadixSort

open Std Data Lib.Bytes Lib.Compare Lib.Sorting Lib.Readers Lib.Traverse List

/-- The flags that tell which columns may have nulls cover the nulls of a row. -/
def CoversNulls : (columns : List RadixSortKeyColumn) → (mayHaveNulls : List Bool) → KeyRow columns → Prop
  | [], _, _ => True
  | _ :: columns, mayHaveNulls, (value, values) =>
    (mayHaveNulls.headD true = false → value ≠ none) ∧ CoversNulls columns mayHaveNulls.tail values

def sortedRow (S : ComparisonSort) : (columns : List RadixSortKeyColumn) → KeyRow columns → KeyRow columns
  | [], row => row
  | column :: columns, (value, values) => (sortedValue S column.type value, sortedRow S columns values)

def ReturnedRow (S : ComparisonSort) : (columns : List RadixSortKeyColumn) → KeyRow columns → KeyRow columns → Prop
  | [], _, _ => True
  | column :: columns, (value, values), (returned, others) =>
    SameNullable (ReturnedAs S column.type) value returned ∧ ReturnedRow S columns values others

theorem returnedRow_sortedRow (S : ComparisonSort) : (columns : List RadixSortKeyColumn) → (row : KeyRow columns) →
    ReturnedRow S columns row (sortedRow S columns row)
  | [], _ => trivial
  | column :: columns, (value, values) => by
    refine ⟨?_, returnedRow_sortedRow S columns values⟩
    cases value with
    | none => trivial
    | some datum => exact returnedAs_sortedDatum S column.type datum

private theorem decodesOn_decodeLayered {α : Type} {encode : α → List UInt8} {view : α → α} {decode : KeyDecoder α}
    (h : DecodesOn (fun _ => True) encode view decode) (flags : CompareFlags) (mayHaveNulls : Bool) :
    DecodesOn (fun value => mayHaveNulls = false → value ≠ none) (encodeNullable flags encode) (Option.map view)
      (decodeColumn.decodeLayered flags mayHaveNulls decode) := by
  intro value hv r
  cases mayHaveNulls with
  | true => exact decodesOn_decodeNullable h flags value trivial r
  | false =>
    cases value with
    | none => exact absurd rfl (hv rfl)
    | some datum =>
      rw [decodeColumn.decodeLayered, if_neg (by decide), encodeNullable, cons_append,
        run_bind_ok (run_next ..), run_bind_ok (h datum trivial r)]
      rfl

/-- A column is decoded from exactly the bytes the encoder wrote for it. -/
theorem decodesOn_decodeColumn (S : ComparisonSort) (type : SqlType) (flags : CompareFlags) (mayHaveNulls : Bool) :
    DecodesOn (fun value => mayHaveNulls = false → value ≠ none) (encodeVariableColumn S false type flags)
      (sortedValue S type) (decodeColumn type flags mayHaveNulls) := by
  have hn := decodesOn_decodeNullable (decodesOn_decodeBody S type flags) flags
  intro value hva r
  cases type with
  | scalar kind =>
    have hl := decodesOn_decodeLayered (decodesOn_decodeScalar kind (!flags.ascending)) flags
      mayHaveNulls value hva r
    have hen : encodeVariableColumn S false (.scalar kind) flags value =
        encodeNullable flags (encodeBytesFixedScalarValue (!flags.ascending) kind) value := by
      cases value with
      | none => rfl
      | some datum => rw [encodeVariableColumn, encodeFixedColumn, encodeNullable, encodeScalar_eq]
    have hv : sortedValue S (.scalar kind) value = value.map id := by
      cases value with
      | none => rfl
      | some datum =>
        rfl
    rw [hen, hv]
    exact hl
  | string kind =>
    have hl := decodesOn_decodeLayered (decodesOn_decodeString (!flags.ascending)) flags mayHaveNulls value
      hva r
    have hen : encodeVariableColumn S false (.string kind) flags value =
        encodeNullable flags (encodeStringValue (!flags.ascending)) value := by
      cases value <;> rfl
    have hv : sortedValue S (.string kind) value = value.map id := by
      cases value with
      | none => rfl
      | some datum =>
        rfl
    rw [hen, hv]
    exact hl
  | unknown =>
    cases value with
    | none => rfl
    | some datum => cases datum
  | array elem | map key mapped | row children => exact hn value trivial r
  | function =>
    cases value with
    | none => exact hn none trivial r
    | some datum => cases datum

/-- Column by column over all rows, every row is decoded from exactly the bytes the
encoder wrote for it. -/
theorem decodeColumns_encodeColumns (S : ComparisonSort) : (columns : List RadixSortKeyColumn) →
    (mayHaveNulls : List Bool) → (rows : List (KeyRow columns × List UInt8)) →
    (∀ row ∈ rows, CoversNulls columns mayHaveNulls row.1) →
    decodeColumns columns mayHaveNulls (rows.map fun row => encodeColumns S columns 0 row.1 ++ row.2) =
      .ok (rows.map fun row => (sortedRow S columns row.1, row.2))
  | [], _, rows, _ => by
    rw [decodeColumns, map_map]
    rfl
  | column :: columns, mayHaveNulls, rows, hc => by
    have hco : (rows.map fun row => encodeColumns S (column :: columns) 0 row.1 ++ row.2).mapM
        (fun view => (decodeColumn column.type column.flags (mayHaveNulls.headD true)).run view) =
          .ok (rows.map fun row => (sortedValue S column.type row.1.1, encodeColumns S columns 0 row.1.2 ++ row.2)) := by
      rw [mapM_eq_ok_iff, forall₂_map_left_iff, forall₂_map_right_iff, forall₂_same]
      rintro ⟨⟨value, values⟩, rest⟩ hr
      rw [encodeColumns, append_assoc]
      exact decodesOn_decodeColumn S column.type column.flags _ value (hc _ hr).1 _
    have hre := decodeColumns_encodeColumns S columns mayHaveNulls.tail
      (rows.map fun row => (row.1.2, row.2)) (by
        intro row hr
        obtain ⟨before, hb, rfl⟩ := mem_map.mp hr
        exact (hc before hb).2)
    rw [map_map, map_map] at hre
    rw [decodeColumns, hco]
    show (decodeColumns columns mayHaveNulls.tail ((rows.map _).map Prod.snd) >>= _) = _
    rw [map_map]
    erw [hre]
    show Except.ok (zipWith _ _ _) = _
    rw [zipWith_map, zipWith_self]
    rfl

/-- A word that begins in the stored words is the directed value of its encoded bytes,
whether it lies in one stored word, across two, or across the last one and the tail. -/
theorem decodePhysicalUnsigned_stored {inlineWordBytes : ℕ} {key enc : List UInt8}
    (h : StoredKey inlineWordBytes key enc) (hl : key.length = enc.length) {offset size : ℕ}
    (desc : Bool) (hs : size ≤ 8) (hf : offset + size ≤ enc.length)
    (ho : offset < inlineWordBytes) :
    decodePhysicalUnsigned true size key desc offset inlineWordBytes =
      beValue ((bytesAt enc offset size).map (directedByte desc)) := by
  have hw := h.words
  have hind : offset / 8 * 8 + offset % 8 = offset := Nat.div_add_mod' offset 8
  rw [← directedWord_beValue desc (length_bytesAt hf)]
  unfold decodePhysicalUnsigned
  congr 1
  rw [if_neg (by decide)]
  split
  · rename_i hin
    dsimp only
    split
    · -- within one stored word
      rename_i hone
      rw [← h.word_slice (offset / 8) (offset % 8) size (by omega) hone, hind]
    · -- across two stored words
      rename_i ht
      have hfit := h.fits
      have hfi := h.word (offset / 8) (by omega)
      have hse := h.word (offset / 8 + 1) (by omega)
      have hp : wordAt key (offset / 8) <<< 64 ||| wordAt key (offset / 8 + 1) =
          beValue (bytesAt enc (offset / 8 * 8) 16) := by
        have hlt : wordAt key (offset / 8 + 1) < 2 ^ 64 := h.wordAt_lt (by omega)
        rw [← Nat.shiftLeft_add_eq_or_of_lt hlt, Nat.shiftLeft_eq, hfi, hse,
          bytesAt_add enc (offset / 8 * 8) 8 8, beValue_append, length_bytesAt (by omega), Nat.succ_mul]
        rfl
      have hsl := bytesAt_bytesAt enc (offset / 8 * 8) 16 (offset % 8) size (by omega)
      have hv := beValue_bytesAt (show (bytesAt enc (offset / 8 * 8) 16).length = 16 from
        length_bytesAt (by omega)) (show offset % 8 + size ≤ 16 by omega)
      have hd : 256 ^ size ∣ 2 ^ 64 := by
        exact Nat.pow_dvd_pow 256 hs
      rw [hp, Nat.mod_mod_of_dvd _ hd, ← hv, hsl, hind]
  · -- across the last stored word and the tail
    rename_i hin
    exact h.word_and_tail hl hs hf ho (by omega)

theorem decodePhysicalUnsigned_bytes {key : List UInt8} {offset size : ℕ} (desc : Bool) (inlineWordBytes : ℕ)
    (hf : offset + size ≤ key.length) :
    decodePhysicalUnsigned false size key desc offset inlineWordBytes =
      beValue ((bytesAt key offset size).map (directedByte desc)) := by
  rw [← directedWord_beValue desc (length_bytesAt hf)]
  unfold decodePhysicalUnsigned
  congr 1
  rw [if_pos (by decide), fromBigEndian_load (length_bytesAt hf)]

/-- Decoding a single fixed column from a physical record gives the value that decoding
the materialized view of the record gives, whatever the record holds. -/
theorem decodeSinglePhysicalColumn_eq {kind : RadixSortKeyLayoutKind} (hfi : kind.isVariable = false)
    (record : KeyRecord kind) {scalar : ScalarKind} (hfits : bodySize scalar + 1 ≤ kind.inlineCapacity)
    (flags : CompareFlags) (mayHaveNulls : Bool) :
    ∃ rest, (decodeColumn (.scalar scalar) flags mayHaveNulls).run (deconstruct kind record.inlineBytes) =
      .ok (decodeSinglePhysicalColumn true scalar flags mayHaveNulls record.inlineBytes 0 kind.inlineWordBytes,
        rest) := by
  have hst := storedKey_encodedBytes record hfi
  have hl := record.length_encodedBytes
  have hb : ∀ offset < kind.inlineCapacity,
      loadEncodedByte true record.inlineBytes offset kind.inlineWordBytes = record.encodedBytes.getD offset 0 := by
    intro offset ho
    rw [← record.encodedByte_eq ho, KeyRecord.encodedByte, hfi]
    rfl
  have hwor : ∀ offset, offset ≤ 8 → (offset = 0 ∨ bodySize scalar = 16) → 0 + 1 + offset < kind.inlineWordBytes := by
    intro offset ho hlarge
    rcases hlarge with rfl | hlarge
    · cases kind <;> decide
    · have hw : 17 ≤ kind.inlineCapacity := by omega
      have hwo : 16 ≤ kind.inlineWordBytes := by
        revert hw hfi
        cases kind <;> decide
      omega
  have hbo : 0 < bodySize scalar := by cases scalar <;> decide
  obtain ⟨marker, tail, hby⟩ : ∃ marker tail, record.encodedBytes = marker :: tail := by
    cases hcase : record.encodedBytes with
    | nil =>
      rw [hcase] at hl
      simp only [length_nil] at hl
      omega
    | cons marker tail => exact ⟨marker, tail, rfl⟩
  have htai : tail.length + 1 = kind.inlineCapacity := by rw [← hl, hby, length_cons]
  -- the scalar of the body is the scalar of the words
  have hsc : decodeScalarWith
      (fun offset size => decodePhysicalUnsigned true size record.inlineBytes (!flags.ascending)
        (0 + 1 + offset) kind.inlineWordBytes)
      (directedByte (!flags.ascending) (loadEncodedByte true record.inlineBytes (0 + 1) kind.inlineWordBytes)) scalar =
        scalarOfBody scalar (!flags.ascending) (tail.take (bodySize scalar)) := by
    have hf : loadEncodedByte true record.inlineBytes (0 + 1) kind.inlineWordBytes =
        (tail.take (bodySize scalar)).getD 0 0 := by
      rw [hb _ (by omega), hby]
      show tail.getD 0 0 = _
      rw [getD_eq_getElem?_getD, getD_eq_getElem?_getD, getElem?_take_of_lt hbo]
    rw [scalarOfBody, hf]
    refine decodeScalarWith_congr scalar _ ?_
    intro offset size _ hs hins ho hlarge
    have hfit : 0 + 1 + offset + size ≤ record.encodedBytes.length := by omega
    have hsh : bytesAt record.encodedBytes (0 + 1 + offset) size =
        bytesAt (tail.take (bodySize scalar)) offset size := by
      have ht : tail.take (bodySize scalar) = bytesAt record.encodedBytes 1 (bodySize scalar) := by
        rw [hby]
        rfl
      rw [ht, bytesAt_bytesAt _ _ _ _ _ hins]
    rw [decodePhysicalUnsigned_stored hst (record.inlineBytes_length.trans hl.symm) (!flags.ascending) hs hfit
      (hwor offset ho hlarge), hsh]
    have hbod : (bytesAt (tail.take (bodySize scalar)) offset size).length = size := by
      apply length_bytesAt
      rw [length_take]
      omega
    exact (decodeUnsigned_eq (!flags.ascending) hbod).symm
  have hr : (decodeFixedScalarValue scalar (!flags.ascending)).run tail =
      .ok (scalarOfBody scalar (!flags.ascending) (tail.take (bodySize scalar)), tail.drop (bodySize scalar)) := by
    have hta := run_taken DecodeError.truncated
      (show (tail.take (bodySize scalar)).length = bodySize scalar by rw [length_take]; omega)
      (tail.drop (bodySize scalar))
    rw [take_append_drop] at hta
    rw [decodeFixedScalarValue, run_bind_ok hta]
    rfl
  have hm : loadEncodedByte true record.inlineBytes 0 kind.inlineWordBytes = marker := by
    rw [hb 0 (by omega), hby]
    rfl
  rw [deconstruct_inlineBytes hfi, hby, decodeColumn, decodeSinglePhysicalColumn, hm, hsc]
  cases mayHaveNulls with
  | false =>
    refine ⟨tail.drop (bodySize scalar), ?_⟩
    rw [decodeColumn.decodeLayered, if_neg (by decide), run_bind_ok (run_next ..), run_bind_ok hr, if_neg (by simp)]
    rfl
  | true =>
    rw [decodeColumn.decodeLayered, if_pos rfl, decodeNullable, run_bind_ok (run_next ..)]
    by_cases hn : marker = nullMarker flags
    · refine ⟨tail, ?_⟩
      rw [if_pos hn, if_pos ⟨rfl, hn⟩]
      rfl
    · refine ⟨tail.drop (bodySize scalar), ?_⟩
      rw [if_neg hn, run_bind_ok hr, if_neg (fun h => hn h.2)]
      rfl

def dropRow : (columns : List RadixSortKeyColumn) → (count : ℕ) → KeyRow columns → KeyRow (columns.drop count)
  | [], 0, row => row
  | [], _ + 1, row => row
  | _ :: _, 0, row => row
  | _ :: columns, count + 1, (_, values) => dropRow columns count values

theorem encodeSuffixColumns_eq (S : ComparisonSort) : (columns : List RadixSortKeyColumn) → (count : ℕ) →
    (row : KeyRow columns) →
    encodeSuffixColumns S columns count row = encodeColumns S (columns.drop count) 0 (dropRow columns count row)
  | [], 0, _ => rfl
  | [], _ + 1, _ => rfl
  | _ :: _, 0, _ => rfl
  | _ :: columns, count + 1, (_, values) => encodeSuffixColumns_eq S columns count values

theorem CoversNulls.drop : (columns : List RadixSortKeyColumn) → (count : ℕ) → (mayHaveNulls : List Bool) →
    (row : KeyRow columns) → CoversNulls columns mayHaveNulls row →
    CoversNulls (columns.drop count) (mayHaveNulls.drop count) (dropRow columns count row)
  | [], 0, _, _, _ => trivial
  | [], _ + 1, _, _, _ => trivial
  | _ :: _, 0, _, _, h => h
  | _ :: columns, count + 1, mayHaveNulls, (_, values), h => by
    have hr := CoversNulls.drop columns count mayHaveNulls.tail values h.2
    rw [drop_tail] at hr
    exact hr

/-- A padded column is decoded from its place in the prefix. -/
theorem decodeSinglePhysicalColumn_padded {scalar : ScalarKind} {flags : CompareFlags} {value : Option scalar.Native}
    {key rest : List UInt8} {offset : ℕ} (mayHaveNulls : Bool)
    (hke : key.drop offset = encodeFixedColumn scalar flags true value ++ rest)
    (hnulls : mayHaveNulls = false → value ≠ none) :
    decodeSinglePhysicalColumn false scalar flags mayHaveNulls key offset 0 = value := by
  have hbo : 0 < bodySize scalar := by cases scalar <;> decide
  have hl : bodySize scalar + 1 ≤ (key.drop offset).length := by
    rw [hke, length_append, length_encodeColumn_padded]
    omega
  rw [length_drop] at hl
  have hb : ∀ past, loadEncodedByte false key (offset + past) 0 = (key.drop offset).getD past 0 := by
    intro past
    rw [getD_eq_getElem?_getD, getElem?_drop, ← getD_eq_getElem?_getD]
    rfl
  have hm := hb 0
  rw [Nat.add_zero, hke] at hm
  rw [decodeSinglePhysicalColumn, hm]
  cases value with
  | none =>
    have hma : mayHaveNulls = true := by
      cases mayHaveNulls with
      | true => rfl
      | false => exact absurd rfl (hnulls rfl)
    rw [if_pos ⟨hma, rfl⟩]
  | some datum =>
    rw [if_neg (fun h => (nullMarker_ne_valid flags).symm h.2)]
    have hen : encodeFixedColumn scalar flags true (some datum) =
        validMarker flags :: encodeBytesFixedScalarValue (!flags.ascending) scalar datum := by
      rw [encodeFixedColumn, encodeScalar_eq]
    have hsi := length_encodeBytesScalar (!flags.ascending) scalar datum
    have hd : key.drop (offset + 1) = encodeBytesFixedScalarValue (!flags.ascending) scalar datum ++ rest := by
      rw [← drop_drop, hke, hen]
      rfl
    have hf : loadEncodedByte false key (offset + 1) 0 =
        (encodeBytesFixedScalarValue (!flags.ascending) scalar datum).getD 0 0 := by
      rw [hb 1, hke, hen]
      show (encodeBytesFixedScalarValue (!flags.ascending) scalar datum ++ rest).getD 0 0 = _
      exact getD_append _ _ _ _ (by omega)
    have hs := scalarOfBody_encode scalar (!flags.ascending) datum
    refine congrArg some ?_
    rw [hf]
    refine (decodeScalarWith_congr scalar _ ?_).trans hs
    intro offset' size _ _ hins _ _
    have hsl : bytesAt key (offset + 1 + offset') size =
        bytesAt (encodeBytesFixedScalarValue (!flags.ascending) scalar datum) offset' size := by
      rw [bytesAt, bytesAt, ← drop_drop, hd, drop_append_of_le_length (by omega),
        take_append_of_le_length (by rw [length_drop]; omega)]
    rw [decodePhysicalUnsigned_bytes (!flags.ascending) 0 (by omega), hsl,
      decodeUnsigned_eq (!flags.ascending) (length_bytesAt (by omega))]

theorem decodeFixedPrefix_spec (S : ComparisonSort) {key : List UInt8} (hke : key.length < 2 ^ 32)
    (heapKeyOffset : ℕ) : (columns : List RadixSortKeyColumn) → (offset : ℕ) → PrefixOffsets offset columns →
    (mayHaveNulls : List Bool) → (row : KeyRow columns) → CoversNulls columns mayHaveNulls row →
    (rest : List UInt8) →
    key.drop offset = prefixBytes S columns (fixedPrefixColumnCount heapKeyOffset columns) row ++ rest →
    decodeFixedPrefix key columns (fixedPrefixColumnCount heapKeyOffset columns) mayHaveNulls
        (sortedRow S (columns.drop (fixedPrefixColumnCount heapKeyOffset columns))
          (dropRow columns (fixedPrefixColumnCount heapKeyOffset columns) row)) =
      sortedRow S columns row
  | [], _, _, _, _, _, _, _ => rfl
  | ⟨type, flags, prefixOffset, hf, ht⟩ :: columns, offset, ho, mayHaveNulls, (value, values), hc,
      rest, hst => by
    rcases ho.count_cons heapKeyOffset with hco | ⟨scalar, hsc, hs, hr, hco⟩
    · rw [hco]
      rfl
    · dsimp only at hsc hs
      subst hsc hs
      rw [hco] at hst ⊢
      have hsp : key.drop offset = encodeFixedColumn scalar flags true value ++
          (prefixBytes S columns (fixedPrefixColumnCount heapKeyOffset columns) values ++ rest) := by
        rw [hst, prefixBytes, append_assoc]
        rfl
      have hl := congrArg length hsp
      rw [length_drop, length_append, length_encodeColumn_padded] at hl
      have hm : offset % 2 ^ 32 = offset := Nat.mod_eq_of_lt (by omega)
      have hn : key.drop (offset + (bodySize scalar + 1)) =
          prefixBytes S columns (fixedPrefixColumnCount heapKeyOffset columns) values ++ rest := by
        rw [← drop_drop, hsp]
        exact drop_left' (length_encodeColumn_padded scalar flags value)
      have hcolu := decodeSinglePhysicalColumn_padded (mayHaveNulls.headD true) hsp hc.1
      have hcol := decodeFixedPrefix_spec S hke heapKeyOffset columns _ hr mayHaveNulls.tail values
        hc.2 rest hn
      have hso : sortedValue S (.scalar scalar) value = value := by
        cases value with
        | none => rfl
        | some datum => rw [sortedValue, Option.map_some, sortedDatum]
      rw [decodeFixedPrefix, Option.getD_some, hm, decodePrefixColumn, hcolu, sortedRow]
      exact Prod.ext hso.symm hcol

theorem totalMaximumSize_of_prefix {inlineCapacity : ℕ} (hc : inlineCapacity < 2 ^ 32) :
    (columns : List RadixSortKeyColumn) → (offset : ℕ) → PrefixOffsets offset columns → offset ≤ inlineCapacity →
    (heapKeyOffset : ℕ) → heapKeyOffset = heapKeyOffsetLoop inlineCapacity columns offset →
    fixedPrefixColumnCount heapKeyOffset columns = columns.length →
    ∃ total, totalMaximumSize columns = some total ∧ offset + total ≤ inlineCapacity
  | [], offset, _, hle, _, _, _ => ⟨0, rfl, hle⟩
  | column :: columns, offset, ho, hle, heapKeyOffset, heap, hco => by
    rcases ho with hn | ⟨scalar, ht, hs, ho⟩
    · rw [fixedPrefixColumnCount, hn] at hco
      cases hco
    · rw [Nat.mod_eq_of_lt (by omega)] at hs
      rw [heapKeyOffsetLoop_cons ht hs hc hle] at heap
      rw [fixedPrefixColumnCount, hs] at hco
      dsimp only at hco
      split at hco
      · split at heap
        · obtain ⟨total, hto, hb⟩ := totalMaximumSize_of_prefix hc columns _ ho ‹_› heapKeyOffset heap
            (Nat.succ.inj hco)
          have hsi : maximumEncodedSize column.type = some (bodySize scalar + 1) := by
            rw [ht, maximumEncodedSize]
          exact ⟨bodySize scalar + 1 + total, by rw [totalMaximumSize, hsi, hto], by omega⟩
        · omega
      · cases hco

section Zipped

variable {α β γ δ : Type} {R : α → β → Prop} {l : List α} {m : List β} (h : Forall₂ R l m) {g : α → γ}
include h

private theorem map_eq_of_forall₂ {f : β → γ} (hf : ∀ a ∈ l, ∀ b ∈ m, R a b → f b = g a) : m.map f = l.map g := by
  induction h with
  | nil => rfl
  | cons hab _ ih =>
    rw [map_cons, map_cons, hf _ mem_cons_self _ mem_cons_self hab,
      ih fun a ha b hb => hf a (.tail _ ha) b (.tail _ hb)]

private theorem zipWith_eq_of_forall₂ {f : β → γ → δ} {k : α → δ} (hf : ∀ a ∈ l, ∀ b, R a b → f b (g a) = k a) :
    zipWith f m (l.map g) = l.map k := by
  induction h with
  | nil => rfl
  | cons hab _ ih =>
    rw [map_cons, zipWith_cons_cons, map_cons, hf _ mem_cons_self _ hab, ih fun a ha => hf a (.tail _ ha)]

end Zipped

section Records

variable {S : ComparisonSort} {types : List SqlType} {flags : List CompareFlags} {codec : RadixSortKeyCodec}
  (hbind : bind types flags = .ok codec) {hasPayload : Bool} {layout : RadixSortKeyLayout}
  (hlayout : createLayout codec hasPayload = .ok layout)

include hbind in
theorem bind_columns_pos : 0 < codec.columns.length := by
  have ht := (bind_columns hbind).1
  apply Nat.pos_of_ne_zero
  intro hz
  have hem : types = [] := by
    rw [← ht, length_eq_zero_iff.mp hz]
    rfl
  rw [hem] at hbind
  cases hbind

include hbind hlayout

theorem firstSuffixColumn_lt (hv : layout.kind.isVariable = true) :
    fixedPrefixColumnCount layout.heapKeyOffset codec.columns < codec.columns.length := by
  obtain ⟨hf, hki⟩ := createLayout_fits hlayout
  have hle : ∀ columns, fixedPrefixColumnCount layout.heapKeyOffset columns ≤ columns.length := by
    intro columns
    fun_induction fixedPrefixColumnCount layout.heapKeyOffset columns with
    | case2 column columns offset _ _ ih => exact Nat.succ_le_succ ih
    | _ => exact Nat.zero_le _
  refine Nat.lt_of_le_of_ne (hle _) fun ha => ?_
  have hc : layout.kind.inlineCapacity < 2 ^ 32 := by cases layout.kind <;> decide
  obtain ⟨total, ht, hb⟩ := totalMaximumSize_of_prefix hc codec.columns 0 (bind_prefixOffsets hbind)
    (Nat.zero_le _) layout.heapKeyOffset (hf.variable_heap hv) ha
  rw [bind_maximumSize hbind, ht, kindFor] at hki
  have hsm : total ≤ 18 := by
    have hw : layout.kind.isVariable = true → layout.kind.inlineCapacity ≤ 18 := by cases layout.kind <;> decide
    have hr := hw hv
    omega
  have hn : ∀ width ≤ 24, (selectKind hasPayload width).isVariable = false := by
    intro width hwi
    unfold selectKind
    split_ifs <;> rfl
  have hs := hn (total + if hasPayload then 6 else 0) (by split <;> omega)
  split at hki
  · cases hki
  · rw [checkedAdd, if_pos (by split <;> omega)] at hki
    rw [← Except.ok.inj hki, hs] at hv
    cases hv

theorem materializeVariableKeyView_eq (hv : layout.kind.isVariable = true) {flat : Bool}
    {row : KeyRow codec.columns} {payload : ℕ} {record : KeyRecord layout.kind}
    (h : appendRow S codec layout flat row payload = .ok record) {fromInline : Bool}
    (hinline : fromInline = true → record.size ≤ layout.radixWidth) :
    materializeVariableKeyView layout fromInline record =
      encodeSuffixColumns S codec.columns (fixedPrefixColumnCount layout.heapKeyOffset codec.columns) row := by
  obtain ⟨-, hh⟩ := variable_record hbind hlayout h hv
  cases fromInline with
  | false => exact hh
  | true =>
    have ho := bind_prefixOffsets hbind
    have hf := (createLayout_fits hlayout).1
    have hs := hinline rfl
    rw [appendRow, if_pos hv] at h
    obtain rfl := Except.ok.inj h
    obtain ⟨hle, enc, hl, -, hke⟩ := encodedKey_eq_append ho hf hv row
    rw [hf.variable_width hv, appendVariable_size ho hf hv] at hs
    have hp := padTo_append hs []
    rw [append_nil, hke] at hp
    rw [materializeVariableKeyView, if_pos rfl, appendVariable_inlineBytes ho hf hv,
      appendVariable_size ho hf hv, hke, hp, bytesAt, append_assoc,
      drop_left' (by omega)]
    apply take_left'
    rw [length_append]
    omega

variable {rows : List (KeyRow codec.columns)} {records : List (KeyRecord layout.kind)}
  (happend : Forall₂ (fun row record => ∃ flat payload, appendRow S codec layout flat row payload = .ok record)
    rows records)
  {mayHaveNulls : List Bool} (hnulls : ∀ row ∈ rows, CoversNulls codec.columns mayHaveNulls row) {fromInline : Bool}
  (hinline : fromInline = true → ∀ record ∈ records, record.size ≤ layout.radixWidth)

include happend hnulls hinline

theorem decodeKeys_appendRow :
    decodeKeys codec layout fromInline mayHaveNulls records = .ok (rows.map (sortedRow S codec.columns)) := by
  unfold decodeKeys
  cases hv : layout.kind.isVariable with
  | true =>
    have hvi : records.map (materializeVariableKeyView layout fromInline) =
        (rows.map fun row => (dropRow codec.columns (fixedPrefixColumnCount layout.heapKeyOffset codec.columns) row,
          [])).map fun row => encodeColumns S (codec.columns.drop
            (fixedPrefixColumnCount layout.heapKeyOffset codec.columns)) 0 row.1 ++ row.2 := by
      rw [map_map]
      refine map_eq_of_forall₂ happend fun row _ record hm ⟨flat, payload, hr⟩ => ?_
      rw [materializeVariableKeyView_eq hbind hlayout hv hr (fun h => hinline h record hm),
        encodeSuffixColumns_eq]
      exact (append_nil _).symm
    have hd := decodeColumns_encodeColumns S
      (codec.columns.drop (fixedPrefixColumnCount layout.heapKeyOffset codec.columns))
      (mayHaveNulls.drop (fixedPrefixColumnCount layout.heapKeyOffset codec.columns))
      (rows.map fun row => (dropRow codec.columns (fixedPrefixColumnCount layout.heapKeyOffset codec.columns) row, []))
      (by
        intro row hro
        obtain ⟨whole, hw, rfl⟩ := mem_map.mp hro
        exact CoversNulls.drop _ _ _ _ (hnulls whole hw))
    dsimp only
    rw [decodeFrom, if_pos (firstSuffixColumn_lt hbind hlayout hv), hvi, hd, map_map]
    refine congrArg Except.ok ?_
    refine zipWith_eq_of_forall₂ happend fun row hro record ⟨flat, payload, hr⟩ => ?_
    obtain ⟨⟨rest, hst⟩, -⟩ := variable_record hbind hlayout hr hv
    have hsh : record.inlineBytes.length < 2 ^ 32 := by
      rw [record.inlineBytes_length]
      cases layout.kind <;> decide
    exact decodeFixedPrefix_spec S hsh layout.heapKeyOffset codec.columns 0 (bind_prefixOffsets hbind) mayHaveNulls
      row (hnulls row hro) rest hst
  | false =>
    rw [if_neg (by decide)]
    have hp := bind_columns_pos hbind
    obtain ⟨size, hs, hle, -⟩ := (createLayout_fits hlayout).1.fixed_size hv
    rw [bind_maximumSize hbind] at hs
    have hb : ∀ row record, (∃ flat payload, appendRow S codec layout flat row payload = .ok record) →
        record.encodedBytes = encodeColumns S codec.columns 0 row ++
          replicate (layout.kind.inlineCapacity - (encodeColumns S codec.columns 0 row).length) 0 := by
      rintro row record ⟨flat, payload, hr⟩
      exact fixed_encodedBytes hbind hlayout hr hv
    have hvi : records.map (fun record => deconstruct layout.kind record.inlineBytes) =
        (rows.map fun row => (row, replicate
          (layout.kind.inlineCapacity - (encodeColumns S codec.columns 0 row).length) 0)).map
            fun row => encodeColumns S codec.columns 0 row.1 ++ row.2 := by
      rw [map_map]
      refine map_eq_of_forall₂ happend fun row _ record _ hr => ?_
      rw [deconstruct_inlineBytes hv, hb row record hr]
      rfl
    have hd := decodeColumns_encodeColumns S codec.columns mayHaveNulls
      (rows.map fun row => (row, replicate
        (layout.kind.inlineCapacity - (encodeColumns S codec.columns 0 row).length) 0))
      (by
        intro row hro
        obtain ⟨whole, hw, rfl⟩ := mem_map.mp hro
        exact hnulls whole hw)
    obtain ⟨columns, maximum⟩ := codec
    dsimp only at *
    split
    · rename_i kind flags prefixOffset hfl hsupported
      refine congrArg Except.ok ?_
      refine map_eq_of_forall₂ happend ?_
      rintro ⟨value, rest⟩ hro record - hr
      have hf : bodySize kind + 1 ≤ layout.kind.inlineCapacity := by
        have ht : size = bodySize kind + 1 + 0 := (Option.some.inj hs).symm
        omega
      obtain ⟨left, hphysical⟩ := decodeSinglePhysicalColumn_eq hv record hf flags (mayHaveNulls.headD true)
      rw [deconstruct_inlineBytes hv, hb _ _ hr, encodeColumns, encodeColumns, append_nil] at hphysical
      have hde := decodesOn_decodeColumn S (.scalar kind) flags (mayHaveNulls.headD true) value (hnulls _ hro).1
      have hva := (Prod.mk.inj (Except.ok.inj ((hde _).symm.trans hphysical))).1
      rw [← hva]
      rfl
    · rw [← hvi] at hd
      have hfr : decodeFrom columns 0 mayHaveNulls
          (records.map fun record => deconstruct layout.kind record.inlineBytes) = .ok _ :=
        (if_pos hp).trans hd
      rw [hfr]
      refine congrArg Except.ok ?_
      rw [map_map, map_map]
      rfl

/-- The round trip of keys. Every column is decoded from exactly the bytes the encoder
wrote for it; the records of a run decode to the rows that were appended, a map as the
same association by ascending keys and everything else as it was; and a single fixed
column decodes from the record as it does from the materialized view. -/
theorem decodeKeys_roundTrip : (∃ returned, decodeKeys codec layout fromInline mayHaveNulls records = .ok returned ∧
      Forall₂ (ReturnedRow S codec.columns) rows returned) ∧
    (∀ column ∈ codec.columns, ∀ mayHaveNull, ∀ value : Value column.type, (mayHaveNull = false → value ≠ none) →
      ∃ returned, SameNullable (ReturnedAs S column.type) value returned ∧ ∀ rest,
        (decodeColumn column.type column.flags mayHaveNull).run
          (encodeVariableColumn S false column.type column.flags value ++ rest) = .ok (returned, rest)) ∧
    (∀ scalar columnFlags, layout.kind.isVariable = false →
      codec.columns.map (fun column => (column.type, column.flags)) = [(.scalar scalar, columnFlags)] →
      ∀ (record : KeyRecord layout.kind) mayHaveNull, ∃ rest,
        (decodeColumn (.scalar scalar) columnFlags mayHaveNull).run (deconstruct layout.kind record.inlineBytes) =
          .ok (decodeSinglePhysicalColumn true scalar columnFlags mayHaveNull record.inlineBytes 0
            layout.kind.inlineWordBytes, rest)) := by
  refine ⟨⟨_, decodeKeys_appendRow hbind hlayout happend hnulls hinline, ?_⟩, ?_, ?_⟩
  · rw [forall₂_map_right_iff, forall₂_same]
    exact fun row _ => returnedRow_sortedRow S codec.columns row
  · intro column _ mayHaveNull value hvalue
    refine ⟨sortedValue S column.type value, ?_,
      decodesOn_decodeColumn S column.type column.flags mayHaveNull value hvalue⟩
    cases value with
    | none => trivial
    | some datum => exact returnedAs_sortedDatum S column.type datum
  · intro scalar columnFlags hfixed hcolumns record mayHaveNull
    obtain ⟨size, hsize, hle, -⟩ := (createLayout_fits hlayout).1.fixed_size hfixed
    rw [bind_maximumSize hbind] at hsize
    obtain ⟨column, hsingle, hcolumn⟩ := map_eq_singleton_iff.mp hcolumns
    have htype : column.type = .scalar scalar := (Prod.mk.inj hcolumn).1
    rw [hsingle, totalMaximumSize, htype, maximumEncodedSize] at hsize
    have htotal : size = bodySize scalar + 1 + 0 := (Option.some.inj hsize).symm
    exact decodeSinglePhysicalColumn_eq hfixed record (by omega) columnFlags mayHaveNull

end Records

def integerStringMapCodec : RadixSortKeyCodec :=
  ⟨[⟨.scalar .integer, {}, some 0, Eq.refl true, Eq.refl true⟩,
    ⟨.string .varchar, ⟨false, false, false, .nullAsValue, false⟩, none, Eq.refl true, Eq.refl true⟩,
    ⟨.map (.scalar .tinyint) (.string .varchar), {}, none, Eq.refl true, Eq.refl true⟩], none⟩

/-- A null, a string with bytes to escape and a map whose entries are not in order. -/
def integerStringMapRow : KeyRow integerStringMapCodec.columns :=
  (none, some [0, 1, 255], some [(some 5#8, none), (some 3#8, some [7])], ())

/-- The row comes back with the entries of its map by ascending keys. -/
theorem decodeKeys_roundTrip_map :
    ∃ returned, decodeKeys integerStringMapCodec ⟨.keyWithPayloadVariable32, 12, 5⟩ false [true, false]
        [appendVariable .insertion integerStringMapCodec ⟨.keyWithPayloadVariable32, 12, 5⟩ integerStringMapRow 9] =
          .ok returned ∧
      Forall₂ (ReturnedRow .insertion integerStringMapCodec.columns) [integerStringMapRow] returned := by
  have hbind : bind [.scalar .integer, .string .varchar, .map (.scalar .tinyint) (.string .varchar)]
      [{}, ⟨false, false, false, .nullAsValue, false⟩, {}] = .ok integerStringMapCodec := rfl
  have hlayout : createLayout integerStringMapCodec true = .ok ⟨.keyWithPayloadVariable32, 12, 5⟩ := rfl
  have hinline : false = true → ∀ record ∈ [appendVariable .insertion integerStringMapCodec
      ⟨.keyWithPayloadVariable32, 12, 5⟩ integerStringMapRow 9], record.size ≤ 12 := by
    intro h
    cases h
  refine (decodeKeys_roundTrip hbind hlayout (.cons ⟨false, 9, rfl⟩ .nil) ?_ hinline).1
  intro row hrow
  obtain rfl := mem_singleton.mp hrow
  refine ⟨?_, ?_, ?_, trivial⟩
  · intro h
    cases h
  · intro _ h
    cases h
  · intro h
    cases h

end Bolt.RadixSort
