import Bolt.Lib.Bytes
import Bolt.Data.Order
import Bolt.RadixSort.KeyColumn

/-!
# Key encoding

The encoders of `RadixSortKeyCodec.cpp` as functions to byte strings. A nullable
value is a marker and, unless null, a body; descending columns complement every body byte
but no marker. Words are stored as a little-endian host stores them.
-/

namespace Bolt.RadixSort

open Data Lib.Bytes Lib.Sorting

def nullMarker (flags : CompareFlags) : UInt8 :=
  if flags.nullsFirst then nullFirstMarker else nullLastMarker

def validMarker (flags : CompareFlags) : UInt8 :=
  if flags.nullsFirst then nullLastMarker else nullFirstMarker

/-- A body byte as a column of the given direction writes it. -/
def directedByte (descending : Bool) (byte : UInt8) : UInt8 :=
  if descending then ~~~byte else byte

/-- The delimiter of strings and containers. -/
def delimiter (descending : Bool) : UInt8 := directedByte descending stringDelimiter

def byteSwap (size word : ℕ) : ℕ := leValue (beBytes size word)

def toBigEndian (size word : ℕ) : ℕ := byteSwap size word

def complementWord (size word : ℕ) : ℕ := 256 ^ size - 1 - word

/-- The bytes `storeUnaligned` writes on a little-endian host. -/
def storeUnaligned (size word : ℕ) : List UInt8 := leBytes size word

/-- The word `loadUnaligned` reads on a little-endian host. -/
def loadUnaligned (bytes : List UInt8) : ℕ := leValue bytes

/-- `encodeUnsigned`: one byte at a time, most significant first. -/
def encodeUnsigned (size value : ℕ) (descending : Bool) : List UInt8 :=
  (List.range size).map fun byte =>
    directedByte descending (UInt8.ofNat (value >>> ((size - byte - 1) * 8)))

def encodeUnsignedWord (size value : ℕ) (descending : Bool) : List UInt8 :=
  let encoded := toBigEndian size value
  storeUnaligned size (if descending then complementWord size encoded else encoded)

def flipSign {w : ℕ} (value : BitVec w) : BitVec w := value ^^^ (1#w <<< (w - 1))

def encodeFloat (bits : BitVec 32) : BitVec 32 :=
  if bits &&& (1#32 <<< 31) = 0 then bits ||| (1#32 <<< 31) else ~~~bits

def encodeDouble (bits : BitVec 64) : BitVec 64 :=
  if bits &&& (1#64 <<< 63) = 0 then bits ||| (1#64 <<< 63) else ~~~bits

def hugeUpper (value : BitVec 128) : BitVec 64 := (value >>> 64).setWidth 64

def hugeLower (value : BitVec 128) : BitVec 64 := value.setWidth 64

/-- The scalar body, over the writer of unsigned words that the two families of
encoders differ in. -/
def encodeScalarWith (writeUnsigned : ℕ → ℕ → Bool → List UInt8) (descending : Bool) :
    (kind : ScalarKind) → kind.Native → List UInt8
  | .boolean, value => [directedByte descending (if value then 1 else 0)]
  | .tinyint, value => writeUnsigned 1 (flipSign value).toNat descending
  | .smallint, value => writeUnsigned 2 (flipSign value).toNat descending
  | .integer, value => writeUnsigned 4 (flipSign value).toNat descending
  | .bigint, value => writeUnsigned 8 (flipSign value).toNat descending
  | .hugeint, value =>
    writeUnsigned 8 (flipSign (hugeUpper value)).toNat descending ++
      writeUnsigned 8 (hugeLower value).toNat descending
  | .real, value => writeUnsigned 4 (encodeFloat value).toNat descending
  | .double, value => writeUnsigned 8 (encodeDouble value).toNat descending
  | .timestamp, value =>
    writeUnsigned 8 (flipSign value.seconds).toNat descending ++
      writeUnsigned 8 value.nanos.toNat descending

/-- `encodeFixedScalarValue`, used for whole columns. -/
def encodeFixedScalarValue (descending : Bool) (kind : ScalarKind) (value : kind.Native) : List UInt8 :=
  encodeScalarWith encodeUnsignedWord descending kind value

/-- `encodeBytesFixedScalarValue`, used inside nested values. -/
def encodeBytesFixedScalarValue (descending : Bool) (kind : ScalarKind) (value : kind.Native) : List UInt8 :=
  encodeScalarWith encodeUnsigned descending kind value

/-- The complementing copy of the fast path: eight bytes at a time, then the rest. -/
def complementBytes : List UInt8 → List UInt8
  | b₀ :: b₁ :: b₂ :: b₃ :: b₄ :: b₅ :: b₆ :: b₇ :: rest =>
    storeUnaligned 8 (complementWord 8 (loadUnaligned [b₀, b₁, b₂, b₃, b₄, b₅, b₆, b₇])) ++ complementBytes rest
  | rest => rest.map fun byte => ~~~byte

/-- The escaping loop of the slow path, without the delimiter. -/
def escapeByte (descending : Bool) (byte : UInt8) : List UInt8 :=
  if byte ≤ blobEscape then [directedByte descending blobEscape, directedByte descending byte]
  else [directedByte descending byte]

def encodeStringValue (descending : Bool) (value : List UInt8) : List UInt8 :=
  if stringDelimiter ∉ value ∧ blobEscape ∉ value then
    (if descending then complementBytes value else value) ++ [delimiter descending]
  else value.flatMap (escapeByte descending) ++ [delimiter descending]

def encodeFixedScalarArrayElements (kind : ScalarKind) (flags : CompareFlags)
    (elements : List (Option kind.Native)) : List UInt8 :=
  elements.flatMap fun element =>
    match element with
    | none => [nullMarker flags]
    | some value => validMarker flags :: encodeBytesFixedScalarValue (!flags.ascending) kind value

/-- The marker and body of a value, around an encoder of bodies. -/
def encodeNullable {α : Type} (flags : CompareFlags) (encodeBody : α → List UInt8) : Option α → List UInt8
  | none => [nullMarker flags]
  | some value => validMarker flags :: encodeBody value

/-- `MapKeyIndexScratch::withSortedIndices`: maps of at most one entry and maps whose
keys already ascend strictly keep their order. A vector that promises sorted keys
also keeps its order, which is one a sort may return. -/
def withSortedIndices (S : ComparisonSort) (less : ℕ → ℕ → Bool) (count : ℕ) : List ℕ :=
  if count ≤ 1 then List.range count
  else if (List.range (count - 1)).all fun index => less index (index + 1) then List.range count
  else S.sort less (List.range count)

mutual
/-- The body `encodeValue` writes after the marker of a value that is not null. -/
def encodeBody (S : ComparisonSort) : (type : SqlType) → CompareFlags → Datum type → List UInt8
  | .scalar kind, flags, value => encodeBytesFixedScalarValue (!flags.ascending) kind value
  | .string _, flags, value => encodeStringValue (!flags.ascending) value
  | .unknown, _, value => nomatch value
  | .array (.scalar kind), flags, elements =>
    encodeFixedScalarArrayElements kind flags elements ++ [delimiter (!flags.ascending)]
  | .array element, flags, elements =>
    elements.flatMap (encodeNullable flags (encodeBody S element flags)) ++ [delimiter (!flags.ascending)]
  | .map key value, flags, (entries : Entries key value) =>
    let indices := withSortedIndices S
      (fun i j => decide (compareValue S key {} (keyAt entries i) (keyAt entries j) < 0)) entries.length
    indices.flatMap (fun index => encodeNullable flags (encodeBody S key flags) (keyAt entries index)) ++
      delimiter (!flags.ascending) ::
    indices.flatMap (fun index => encodeNullable flags (encodeBody S value flags) (valueAt entries index)) ++
      [delimiter (!flags.ascending)]
  | .row children, flags, fields => encodeFields S children flags fields
  | .function, _, value => nomatch value
def encodeFields (S : ComparisonSort) : (types : List SqlType) → CompareFlags → Fields types → List UInt8
  | [], _, _ => []
  | type :: types, flags, (value, values) =>
    encodeNullable flags (encodeBody S type flags) value ++ encodeFields S types flags values
end

def encodeValue (S : ComparisonSort) (type : SqlType) (flags : CompareFlags) (value : Value type) : List UInt8 :=
  encodeNullable flags (encodeBody S type flags) value

/-- `encodeFixedColumn` for one row. In the prefix of a variable layout a null is
padded to the width of the column. -/
def encodeFixedColumn (kind : ScalarKind) (flags : CompareFlags) (fixedWidthNulls : Bool)
    (value : Option kind.Native) : List UInt8 :=
  match value with
  | none =>
    if fixedWidthNulls then nullMarker flags :: List.replicate (bodySize kind) 0 else [nullMarker flags]
  | some value => validMarker flags :: encodeFixedScalarValue (!flags.ascending) kind value

def encodeStringColumn (flags : CompareFlags) (value : Option (List UInt8)) : List UInt8 :=
  match value with
  | none => [nullMarker flags]
  | some value => validMarker flags :: encodeStringValue (!flags.ascending) value

/-- `encodeVariableColumn` for one row; an `unknown` column is written as null. -/
def encodeVariableColumn (S : ComparisonSort) (fixedWidthNulls : Bool) :
    (type : SqlType) → CompareFlags → Value type → List UInt8
  | .string _, flags, value => encodeStringColumn flags value
  | .scalar kind, flags, value => encodeFixedColumn kind flags fixedWidthNulls value
  | .unknown, flags, _ => [nullMarker flags]
  | .array element, flags, value => encodeValue S (.array element) flags value
  | .map key mapped, flags, value => encodeValue S (.map key mapped) flags value
  | .row children, flags, value => encodeValue S (.row children) flags value
  | .function, flags, value => encodeValue S .function flags value

/-- The concatenated encoding of a key row, the first `prefixColumns` of its columns
with padded nulls. -/
def encodeColumns (S : ComparisonSort) : (columns : List RadixSortKeyColumn) → (prefixColumns : ℕ) →
    KeyRow columns → List UInt8
  | [], _, _ => []
  | column :: columns, prefixColumns, (value, values) =>
    encodeVariableColumn S (0 < prefixColumns) column.type column.flags value ++
      encodeColumns S columns (prefixColumns - 1) values

end Bolt.RadixSort
