import Bolt.RadixSort.KeyPhysical

/-!
# Decoding keys

The decoders of `RadixSortKeyCodec.cpp`. A key is decoded from a byte view column by
column, over all rows of a batch, with one cursor for each row. A single fixed column is
decoded from the words of the record, and so are the prefix columns of a variable layout.
Reading past the end of a view, undefined in the source, is an error.
-/

namespace Bolt.RadixSort

open Data Lib.Bytes Lib.Sorting Lib.Readers

/-- The failures of the decoders: "Radix sort key input is truncated", "Radix sort
encoded map key and value counts differ", "Radix sort key decode is not implemented
for {}" and the check of `decode` that a column is left to decode. The last constructor
is the bound on the rounds of a loop of the model. -/
inductive DecodeError where
  | truncated
  | mapCountsDiffer
  | decodeNotImplemented
  | noSuffixColumn
  | roundsExhausted
  deriving DecidableEq, Repr

abbrev KeyDecoder := Reader DecodeError UInt8

def directedWord (size : ℕ) (descending : Bool) (word : ℕ) : ℕ :=
  if descending then complementWord size word else word

def decodeUnsigned (size : ℕ) (descending : Bool) (bytes : List UInt8) : ℕ :=
  fromBigEndian size (directedWord size descending (loadUnaligned bytes))

def decodeSigned (w word : ℕ) : BitVec w := flipSign (BitVec.ofNat w word)

def decodeFloat (input : BitVec 32) : BitVec 32 :=
  if input &&& (1#32 <<< 31) ≠ 0 then input ^^^ (1#32 <<< 31) else ~~~input

def decodeDouble (input : BitVec 64) : BitVec 64 :=
  if input &&& (1#64 <<< 63) ≠ 0 then input ^^^ (1#64 <<< 63) else ~~~input

def hugeBuild (upper lower : BitVec 64) : BitVec 128 := (upper.setWidth 128 <<< 64) ||| lower.setWidth 128

/-- The scalar behind a marker, over the loads of an unsigned word of a given size and
of a byte at an offset of the body. -/
def decodeScalarWith (word : (offset size : ℕ) → ℕ) (byte : UInt8) : (kind : ScalarKind) → kind.Native
  | .boolean => byte ≠ 0
  | .tinyint => decodeSigned 8 (word 0 1)
  | .smallint => decodeSigned 16 (word 0 2)
  | .integer => decodeSigned 32 (word 0 4)
  | .bigint => decodeSigned 64 (word 0 8)
  | .hugeint => hugeBuild (decodeSigned 64 (word 0 8)) (BitVec.ofNat 64 (word 8 8))
  | .real => decodeFloat (BitVec.ofNat 32 (word 0 4))
  | .double => decodeDouble (BitVec.ofNat 64 (word 0 8))
  | .timestamp => ⟨decodeSigned 64 (word 0 8), BitVec.ofNat 64 (word 8 8)⟩

def scalarOfBody (kind : ScalarKind) (descending : Bool) (body : List UInt8) : kind.Native :=
  decodeScalarWith (fun offset size => decodeUnsigned size descending (bytesAt body offset size))
    (directedByte descending (body.getD 0 0)) kind

def decodeFixedScalarValue (kind : ScalarKind) (descending : Bool) : KeyDecoder kind.Native := do
  let body ← taken .truncated (bodySize kind)
  return scalarOfBody kind descending body

def scanStringLoop (descending : Bool) : List UInt8 → (cursor decodedSize : ℕ) → Except DecodeError (ℕ × ℕ)
  | [], _, _ => .error .truncated
  | byte :: rest, cursor, decodedSize =>
    if directedByte descending byte = stringDelimiter then .ok (decodedSize, cursor + 1)
    else if directedByte descending byte = blobEscape then
      match rest with
      | [] => .error .truncated
      | _ :: rest => scanStringLoop descending rest (cursor + 2) (decodedSize + 1)
    else scanStringLoop descending rest (cursor + 1) (decodedSize + 1)

def memchr (bytes : List UInt8) (byte : UInt8) : Option ℕ := bytes.findIdx? (· = byte)

/-- `scanStringBody`. A long body is first searched for the delimiter and the escape:
without an escape before the delimiter the string ends there, and otherwise the loop
begins at the escape. -/
def scanStringBody (descending : Bool) (body : List UInt8) : Except DecodeError (ℕ × ℕ) :=
  if 32 ≤ body.length then
    match memchr body (delimiter descending), memchr body (directedByte descending blobEscape) with
    | some stop, none => .ok (stop, stop + 1)
    | some stop, some escape =>
      if stop < escape then .ok (stop, stop + 1) else scanStringLoop descending (body.drop escape) escape escape
    | none, some escape => scanStringLoop descending (body.drop escape) escape escape
    | none, none => scanStringLoop descending body 0 0
  else scanStringLoop descending body 0 0

/-- The unescaping loop of `writeDecodedString`. -/
def unescape (descending : Bool) : List UInt8 → (decodedSize : ℕ) → List UInt8
  | _, 0 => []
  | [], _ + 1 => []
  | byte :: rest, decodedSize + 1 =>
    if directedByte descending byte = blobEscape then
      match rest with
      | [] => []
      | escaped :: rest => directedByte descending escaped :: unescape descending rest decodedSize
    else directedByte descending byte :: unescape descending rest decodedSize

/-- `writeDecodedString`: a copy when nothing is escaped. -/
def writeDecodedString (descending : Bool) (body : List UInt8) (decodedSize encodedSize : ℕ) : List UInt8 :=
  if encodedSize = decodedSize + 1 then
    if descending then complementBytes (body.take decodedSize) else body.take decodedSize
  else unescape descending body decodedSize

def decodeString (descending : Bool) : KeyDecoder (List UInt8) := fun body =>
  match scanStringBody descending body with
  | .error error => .error error
  | .ok (decodedSize, encodedSize) =>
    .ok (writeDecodedString descending body decodedSize encodedSize, body.drop encodedSize)

/-- The marker that `decodeValue` reads first, around a decoder of bodies. -/
def decodeNullable {α : Type} (flags : CompareFlags) (decodeBody : KeyDecoder α) : KeyDecoder (Option α) := do
  let marker ← next .truncated
  if marker = nullMarker flags then return none
  else
    let value ← decodeBody
    return some value

/-- One round of the counting scan of `decodeFixedScalarArrayElements`. -/
def scanFixedElement (kind : ScalarKind) (flags : CompareFlags) : KeyDecoder Unit := do
  let marker ← next .truncated
  if marker = nullMarker flags then return
  else
    let _ ← taken .truncated (bodySize kind)

/-- `decodeFixedScalarArrayElements`: a scan up to the delimiter counts the elements,
which are then decoded from where the scan began. -/
def decodeFixedScalarArrayElements (kind : ScalarKind) (flags : CompareFlags) :
    KeyDecoder (List (Option kind.Native)) := do
  let text ← get
  let scanned ← untilDelimiter .truncated .roundsExhausted (delimiter (!flags.ascending)) (scanFixedElement kind flags)
  set text
  let elements ← times (decodeNullable flags (decodeFixedScalarValue kind (!flags.ascending))) scanned.length
  let _ ← next .truncated
  return elements

/-- The element loop of `decodeValue`, up to the delimiter. -/
def decodeElements {α : Type} (flags : CompareFlags) (decodeElement : KeyDecoder α) : KeyDecoder (List α) :=
  untilDelimiter .truncated .roundsExhausted (delimiter (!flags.ascending)) decodeElement

/-- The values of a map that are not fixed scalars: as many as there are keys, and the
delimiter behind them. -/
def decodeMapValues {α : Type} (decodeElement : KeyDecoder α) (count : ℕ) : KeyDecoder (List α) := do
  let values ← times decodeElement count
  let _ ← next .truncated
  return values

mutual
def decodeBody : (type : SqlType) → CompareFlags → KeyDecoder (Datum type)
  | .scalar kind, flags => decodeFixedScalarValue kind (!flags.ascending)
  | .string _, flags => decodeString (!flags.ascending)
  | .unknown, _ => throw .decodeNotImplemented
  | .array (.scalar kind), flags => do
    let letter ← peek .truncated
    if letter = delimiter (!flags.ascending) then
      let _ ← next .truncated
      return []
    else decodeFixedScalarArrayElements kind flags
  | .array element, flags => decodeElements flags (decodeNullable flags (decodeBody element flags))
  | .map key value, flags => do
    let keys ← decodeKeyElements key flags
    let values ← decodeValueElements value flags keys.length
    if values.length ≠ keys.length then throw .mapCountsDiffer
    return keys.zip values
  | .row children, flags => decodeFields children flags
  | .function, _ => throw .decodeNotImplemented
def decodeKeyElements : (type : SqlType) → CompareFlags → KeyDecoder (List (Option (Datum type)))
  | .scalar kind, flags => decodeFixedScalarArrayElements kind flags
  | type, flags => decodeElements flags (decodeNullable flags (decodeBody type flags))
/-- The values of a map of a given number of keys, with the delimiter behind them. -/
def decodeValueElements : (type : SqlType) → CompareFlags → ℕ → KeyDecoder (List (Option (Datum type)))
  | .scalar kind, flags, _ => decodeFixedScalarArrayElements kind flags
  | type, flags, count => decodeMapValues (decodeNullable flags (decodeBody type flags)) count
def decodeFields : (types : List SqlType) → CompareFlags → KeyDecoder (Fields types)
  | [], _ => return ()
  | type :: types, flags => do
    let value ← decodeNullable flags (decodeBody type flags)
    let values ← decodeFields types flags
    return (value, values)
end

/-- `decodeColumn` for one row. A column that may not have nulls does not look at its
markers. -/
def decodeColumn : (type : SqlType) → CompareFlags → (mayHaveNulls : Bool) → KeyDecoder (Value type)
  | .scalar kind, flags, mayHaveNulls => decodeLayered flags mayHaveNulls (decodeFixedScalarValue kind (!flags.ascending))
  | .string _, flags, mayHaveNulls => decodeLayered flags mayHaveNulls (decodeString (!flags.ascending))
  | .unknown, _, _ => do
    let _ ← next .truncated
    return none
  | .array element, flags, _ => decodeNullable flags (decodeBody (.array element) flags)
  | .map key value, flags, _ => decodeNullable flags (decodeBody (.map key value) flags)
  | .row children, flags, _ => decodeNullable flags (decodeBody (.row children) flags)
  | .function, flags, _ => decodeNullable flags (decodeBody .function flags)
where
  decodeLayered {α : Type} (flags : CompareFlags) (mayHaveNulls : Bool) (decodeBody : KeyDecoder α) :
      KeyDecoder (Option α) :=
    if mayHaveNulls then decodeNullable flags decodeBody
    else do
      let _ ← next .truncated
      let value ← decodeBody
      return some value

/-- `decodeColumns`: each column over all rows, from where the column before it left the
cursors. A missing flag means that the column may have nulls. -/
def decodeColumns : (columns : List RadixSortKeyColumn) → (mayHaveNulls : List Bool) → List (List UInt8) →
    Except DecodeError (List (KeyRow columns × List UInt8))
  | [], _, views => .ok (views.map fun view => ((), view))
  | column :: columns, mayHaveNulls, views => do
    let decoded ← views.mapM fun view =>
      (decodeColumn column.type column.flags (mayHaveNulls.headD true)).run view
    let others ← decodeColumns columns mayHaveNulls.tail (decoded.map Prod.snd)
    return decoded.zipWith (fun first rest => ((first.1, rest.1), rest.2)) others

/-- `decodePhysicalUnsigned`. Unlike `loadEncodedUnsigned` it joins two words at 128
bits and never reads a word that lies in the tail. -/
def decodePhysicalUnsigned (hostOrderWords : Bool) (size : ℕ) (key : List UInt8) (descending : Bool)
    (offset inlineWordBytes : ℕ) : ℕ :=
  directedWord size descending <|
    if !hostOrderWords then fromBigEndian size (loadUnaligned (bytesAt key offset size))
    else if offset + size ≤ inlineWordBytes then
      let byteOffset := offset % 8
      let first := wordAt key (offset / 8)
      if byteOffset + size ≤ 8 then (first >>> ((8 - byteOffset - size) * 8)) % 256 ^ size
      else
        let second := wordAt key (offset / 8 + 1)
        (((first <<< 64 ||| second) >>> ((16 - byteOffset - size) * 8)) % 2 ^ 64) % 256 ^ size
    else
      let byteOffset := offset % 8
      let wordBytes := 8 - byteOffset
      let tailBytes := size - wordBytes
      let first := wordAt key (offset / 8)
      let mask := (2 ^ 64 - 1) >>> (byteOffset * 8)
      joinTail size key inlineWordBytes tailBytes ((((first &&& mask) <<< (tailBytes * 8)) % 2 ^ 64) % 256 ^ size)

def decodeSinglePhysicalColumn (hostOrderWords : Bool) (kind : ScalarKind) (flags : CompareFlags)
    (mayHaveNulls : Bool) (key : List UInt8) (encodedOffset inlineWordBytes : ℕ) : Option kind.Native :=
  if mayHaveNulls ∧ loadEncodedByte hostOrderWords key encodedOffset inlineWordBytes = nullMarker flags then none
  else
    some (decodeScalarWith
      (fun offset size => decodePhysicalUnsigned hostOrderWords size key (!flags.ascending)
        (encodedOffset + 1 + offset) inlineWordBytes)
      (directedByte (!flags.ascending) (loadEncodedByte hostOrderWords key (encodedOffset + 1) inlineWordBytes)) kind)

/-- `decodeSinglePhysicalColumn<false>` at the offset of a prefix column, which is a
fixed scalar. -/
def decodePrefixColumn (key : List UInt8) (flags : CompareFlags) (mayHaveNulls : Bool) (encodedOffset : ℕ) :
    (type : SqlType) → Value type
  | .scalar kind => decodeSinglePhysicalColumn false kind flags mayHaveNulls key encodedOffset 0
  | _ => none

/-- `decodeFixedPrefix` for one record: the prefix columns, each at its offset, in front
of the columns decoded from the view. -/
def decodeFixedPrefix (key : List UInt8) : (columns : List RadixSortKeyColumn) → (prefixColumns : ℕ) →
    (mayHaveNulls : List Bool) → KeyRow (columns.drop prefixColumns) → KeyRow columns
  | [], 0, _, row => row
  | [], _ + 1, _, row => row
  | _ :: _, 0, _, row => row
  | column :: columns, prefixColumns + 1, mayHaveNulls, row =>
    (decodePrefixColumn key column.flags (mayHaveNulls.headD true) (column.fixedPrefixOffset.getD 0) column.type,
      decodeFixedPrefix key columns prefixColumns mayHaveNulls.tail row)

def decodeFrom (columns : List RadixSortKeyColumn) (firstColumn : ℕ) (mayHaveNulls : List Bool)
    (views : List (List UInt8)) : Except DecodeError (List (KeyRow (columns.drop firstColumn) × List UInt8)) :=
  if firstColumn < columns.length then
    decodeColumns (columns.drop firstColumn) (mayHaveNulls.drop firstColumn) views
  else .error .noSuffixColumn

/-- `materializeVariableKeyView`: the suffix in the record, where every key of the run
fits there, or on its heap. -/
def materializeVariableKeyView (layout : RadixSortKeyLayout) (fromInline : Bool) (record : KeyRecord layout.kind) :
    List UInt8 :=
  if fromInline then bytesAt record.inlineBytes layout.heapKeyOffset (record.size - layout.heapKeyOffset)
  else record.heapBytes 0 (record.size - layout.heapKeyOffset)

def decodeKeys (codec : RadixSortKeyCodec) (layout : RadixSortKeyLayout) (fromInline : Bool)
    (mayHaveNulls : List Bool) (records : List (KeyRecord layout.kind)) :
    Except DecodeError (List (KeyRow codec.columns)) :=
  if layout.kind.isVariable then do
    let firstSuffixColumn := fixedPrefixColumnCount layout.heapKeyOffset codec.columns
    let decoded ← decodeFrom codec.columns firstSuffixColumn mayHaveNulls
      (records.map (materializeVariableKeyView layout fromInline))
    return records.zipWith (fun record suffix =>
      decodeFixedPrefix record.inlineBytes codec.columns firstSuffixColumn mayHaveNulls suffix.1) decoded
  else
    match codec.columns with
    | [⟨.scalar kind, flags, _, _, _⟩] => .ok (records.map fun record =>
        (decodeSinglePhysicalColumn true kind flags (mayHaveNulls.headD true) record.inlineBytes 0
          layout.kind.inlineWordBytes, ()))
    | columns => do
      let decoded ← decodeFrom columns 0 mayHaveNulls
        (records.map fun record => deconstruct layout.kind record.inlineBytes)
      return decoded.map Prod.fst

end Bolt.RadixSort
