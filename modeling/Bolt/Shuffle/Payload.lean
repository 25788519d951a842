import Bolt.Lib.Streams

/-!
# Block payloads of the shuffle writer

A block payload is a number of rows and the buffers of their columns, any of which may be
absent or empty. It is written with its type, its number of rows and a mode byte. In row
vector mode the buffers of all simple columns are joined into one value buffer, with a
buffer of their lengths before it.
-/

namespace Bolt.Shuffle

open Lib.Bytes Lib.Streams

/-- How writing or reading a payload can fail. -/
inductive PayloadError where
  /-- `arrow::Status::Invalid`. -/
  | invalid
  /-- `BOLT_CHECK`. -/
  | checkFailed
  /-- The stream ends inside a value, which is then not set. -/
  | endOfStream
  /-- Memory outside a buffer is read or written. -/
  | outOfBounds
  /-- Bytes that were never written are read. -/
  | uninitialized
  /-- The codec throws. -/
  | codecFailed
deriving DecidableEq

abbrev Buffer : Type := Option (List UInt8)

inductive PayloadType where
  | compressed
  | uncompressed
  | toBeCompressed
deriving DecidableEq

def PayloadType.toByte : PayloadType → UInt8
  | compressed => 1
  | uncompressed => 2
  | toBeCompressed => 3

inductive PayloadMode where
  | buffer
  | rowVector
deriving DecidableEq

def PayloadMode.toByte : PayloadMode → UInt8
  | buffer => 1
  | rowVector => 2

inductive FieldKind where
  | null
  | string
  | complex
  | fixedWidth
deriving DecidableEq

/-- `Codec`. Compression is told the length of its output buffer, decompression the
length of the result. -/
structure Codec where
  maxCompressedLen : ℕ → ℕ
  compress : List UInt8 → ℤ → Except PayloadError (List UInt8)
  decompress : List UInt8 → ℕ → Except PayloadError (List UInt8)

def kZeroLengthBuffer : ℤ := 0
def kNullBuffer : ℤ := -1
def kUncompressedBuffer : ℤ := -2
def kCompressedBufferHeaderLength : ℤ := 16

def compressBuffer (codec : Codec) (outputRemainingLength : ℤ) : Buffer → Except PayloadError (List UInt8)
  | none => .ok (int64Bytes kNullBuffer)
  | some data =>
    if data.length = 0 then
      .ok (int64Bytes kZeroLengthBuffer)
    else do
      let compressed ← codec.compress data (outputRemainingLength - kCompressedBufferHeaderLength)
      if data.length ≤ compressed.length then
        -- Write uncompressed buffer.
        return int64Bytes kUncompressedBuffer ++ int64Bytes data.length ++ data
      else
        return int64Bytes compressed.length ++ int64Bytes data.length ++ compressed

def compressAndFlush (codec : Codec) : Buffer → Except PayloadError (List UInt8)
  | none => .ok (int64Bytes kNullBuffer)
  | some data =>
    if data.length = 0 then
      .ok (int64Bytes kZeroLengthBuffer)
    else
      compressBuffer codec (kCompressedBufferHeaderLength + codec.maxCompressedLen data.length) (some data)

/-- The size of a buffer; an absent one has none. -/
def Buffer.size : Buffer → ℕ
  | none => 0
  | some data => data.length

def totalSize (buffers : List Buffer) : ℕ := (buffers.map Buffer.size).sum

/-- The value of an `int` after an assignment of a wider number. -/
def toInt32 (x : ℤ) : ℤ := Int.bmod x (2 ^ 32)

/-- `memcpy` into a buffer, whose bytes are not set at first. -/
def writeAt (memory : List (Option UInt8)) (offset : ℤ) (data : List UInt8) : Except PayloadError (List (Option UInt8)) :=
  if 0 ≤ offset ∧ offset.toNat + data.length ≤ memory.length then
    .ok (memory.take offset.toNat ++ data.map some ++ memory.drop (offset.toNat + data.length))
  else
    .error .outOfBounds

/-- The loop of `concatBuffer` over the buffers of the simple columns. The offset is an
`int`. -/
def copyBuffers : List Buffer → ℤ → List (Option UInt8) → Except PayloadError (List (Option UInt8))
  | [], _, original => .ok original
  | none :: buffers, offset, original => copyBuffers buffers offset original
  | some data :: buffers, offset, original =>
    if data.length = 0 then
      copyBuffers buffers offset original
    else do
      let original ← writeAt original offset data
      copyBuffers buffers (toInt32 (offset + data.length)) original

/-- The bytes of a buffer that is read as a whole. -/
def initialized (memory : List (Option UInt8)) : Except PayloadError (List UInt8) :=
  memory.mapM fun byte =>
    match byte with
    | some byte => .ok byte
    | none => .error .uninitialized

def lengthEntry : Buffer → ℤ
  | none => kNullBuffer
  | some data => if data.length = 0 then kZeroLengthBuffer else data.length

def lengthWords (columns : List Buffer) (hasComplexType : Bool) : List ℤ :=
  [(totalSize columns : ℤ), (columns.length : ℤ), (hasComplexType.toNat : ℤ)] ++ columns.map lengthEntry

/-- Joins the buffers of the simple columns into one. -/
def concatBuffer (buffers : List Buffer) (hasComplexType : Bool) : Except PayloadError (List Buffer) :=
  let columns := buffers.take (buffers.length - hasComplexType.toNat)
  let complex := buffers.drop (buffers.length - hasComplexType.toNat)
  do
    let original ← copyBuffers columns 0 (List.replicate (totalSize columns) none)
    let original ← initialized original
    return [some ((lengthWords columns hasComplexType).map int64Bytes).flatten, some original] ++ complex

/-- The buffers of a number of rows, as they are held until written. -/
structure BlockPayload where
  type : PayloadType
  numRows : UInt32
  buffers : List Buffer
  mode : PayloadMode
deriving DecidableEq

/-- The loop of `fromBuffers` that compresses the buffers one by one into one output. -/
def compressBuffers (codec : Codec) : ℤ → List Buffer → Except PayloadError (List UInt8)
  | _, [] => .ok []
  | availableLength, buffer :: buffers => do
    let output ← compressBuffer codec availableLength buffer
    let rest ← compressBuffers codec (availableLength - output.length) buffers
    return output ++ rest

def maxCompressedLength (codec : Codec) (buffers : List Buffer) : ℤ :=
  16 * buffers.length + (buffers.map fun buffer =>
    match buffer with
    | none => (0 : ℤ)
    | some data => codec.maxCompressedLen data.length).sum

/-- The first step of `fromBuffers`. -/
def joinBuffers (payloadType : PayloadType) (buffers : List Buffer) (mode : PayloadMode) (hasComplexType : Bool) :
    Except PayloadError (List Buffer) :=
  if mode = .rowVector ∧ (payloadType = .compressed ∨ payloadType = .toBeCompressed) ∧ 3 < buffers.length then
    concatBuffer buffers hasComplexType
  else
    .ok buffers

def fromBuffers (payloadType : PayloadType) (numRows : UInt32) (buffers : List Buffer) (codec : Codec) (mode : PayloadMode)
    (hasComplexType : Bool) : Except PayloadError BlockPayload := do
  let buffers ← joinBuffers payloadType buffers mode hasComplexType
  if payloadType = .compressed then
    let compressed ← compressBuffers codec (maxCompressedLength codec buffers) buffers
    return ⟨.compressed, numRows, [some compressed], mode⟩
  else
    return ⟨payloadType, numRows, buffers, mode⟩

def payloadHeader (type : PayloadType) (numRows : UInt32) (mode : PayloadMode) : List UInt8 :=
  [type.toByte] ++ leBytes 4 numRows.toNat ++ [mode.toByte]

def uncompressedBytes : Buffer → List UInt8
  | none => int64Bytes kNullBuffer
  | some data => int64Bytes data.length ++ data

/-- What the payload writes to the output stream. -/
def BlockPayload.serialize (payload : BlockPayload) (codec : Codec) : Except PayloadError (List UInt8) :=
  match payload.type with
  | .uncompressed =>
    .ok (payloadHeader .uncompressed payload.numRows .buffer ++ (payload.buffers.map uncompressedBytes).flatten)
  | .toBeCompressed => do
    let buffers ← payload.buffers.mapM (compressAndFlush codec)
    return payloadHeader .compressed payload.numRows payload.mode ++ buffers.flatten
  | .compressed =>
    match payload.buffers with
    | some compressed :: _ => .ok (payloadHeader .compressed payload.numRows payload.mode ++ compressed)
    | _ => .error .outOfBounds

/-- The read-ahead buffer, if any, and the input stream behind it. -/
structure Source where
  readAheadBuffer : Option (List UInt8)
  inputStream : List UInt8
deriving DecidableEq

abbrev PayloadReader : Type → Type := StateT Source (Except PayloadError)

/-- Streams are complete: the source does not look at the byte count that `Read` returns, so a
stream that ends too early, an error here, is not noticed there. -/
def readFromStream (already : List UInt8) (bytes : ℕ) (inputStream : List UInt8) :
    Except PayloadError (List UInt8 × Source) :=
  if bytes ≤ inputStream.length then
    .ok (already ++ inputStream.take bytes, ⟨none, inputStream.drop bytes⟩)
  else
    .error .endOfStream

def readFromCacheOrStream (bytes : ℕ) : PayloadReader (List UInt8) := fun source =>
  match source.readAheadBuffer with
  | some ahead =>
    if bytes ≤ ahead.length then
      .ok (ahead.take bytes,
        ⟨if (ahead.drop bytes).length = 0 then none else some (ahead.drop bytes), source.inputStream⟩)
    else
      readFromStream ahead (bytes - ahead.length) source.inputStream
  | none => readFromStream [] bytes source.inputStream

def readInt64 : PayloadReader ℤ := do
  let bytes ← readFromCacheOrStream 8
  return int64Value bytes

/-- A buffer of a length that was read: no buffer of a negative length can be allocated. -/
def readLength (length : ℤ) : PayloadReader (List UInt8) :=
  if 0 ≤ length then readFromCacheOrStream length.toNat else throw .invalid

def readUncompressedBuffer : PayloadReader Buffer := do
  let bufferLength ← readInt64
  if bufferLength = kNullBuffer then
    return none
  else
    let data ← readLength bufferLength
    return some data

def readCompressedBuffer (codec : Codec) : PayloadReader Buffer := do
  let compressedLength ← readInt64
  if compressedLength = kNullBuffer then
    return none
  else if compressedLength = kZeroLengthBuffer then
    return some []
  else
    let uncompressedLength ← readInt64
    if compressedLength = kUncompressedBuffer then
      let data ← readLength uncompressedLength
      return some data
    else
      let compressed ← readLength compressedLength
      if uncompressedLength < 0 then throw .invalid
      let data ← codec.decompress compressed uncompressedLength.toNat
      return some data

def lengthAt (lengths : List UInt8) (i : ℕ) : Except PayloadError ℤ :=
  if 8 * i + 8 ≤ lengths.length then .ok (int64Value ((lengths.drop (8 * i)).take 8)) else .error .outOfBounds

def sliceAt (values : List UInt8) (offset : ℕ) (length : ℤ) : Except PayloadError (List UInt8) :=
  if 0 ≤ length ∧ offset + length.toNat ≤ values.length then
    .ok ((values.drop offset).take length.toNat)
  else
    .error .outOfBounds

def bufferAt (values : List UInt8) (offset : ℕ) (length : ℤ) : Except PayloadError Buffer :=
  if length = kNullBuffer then
    .ok none
  else if length = kZeroLengthBuffer then
    .ok (some [])
  else
    (sliceAt values offset length).map some

/-- The loop of `deserializeRowVectorModeBuffers` over `count` buffers from word `i` on,
with the offset behind the last one. -/
def sliceBuffers (lengths values : List UInt8) : ℕ → ℕ → ℕ → Except PayloadError (List Buffer × ℕ)
  | 0, _, bufferOffset => .ok ([], bufferOffset)
  | count + 1, i, bufferOffset => do
    let length ← lengthAt lengths i
    let buffer ← bufferAt values bufferOffset length
    let (buffers, last) ← sliceBuffers lengths values count (i + 1) (bufferOffset + buffer.size)
    return (buffer :: buffers, last)

/-- The buffers of the simple columns, cut from the value buffer, and whether a complex
buffer follows. -/
def cutBuffers (lengths values : List UInt8) : Except PayloadError (List Buffer × ℤ) := do
  let uncompressLength ← lengthAt lengths 0
  let valueBufferLength ← lengthAt lengths 1
  let complexTypeBuffer ← lengthAt lengths 2
  if uncompressLength ≠ values.length then
    throw .invalid
  else
    let (buffers, bufferOffset) ← sliceBuffers lengths values valueBufferLength.toNat 3 0
    if (bufferOffset : ℤ) ≠ uncompressLength then throw .invalid else return (buffers, complexTypeBuffer)

/-- `deserializeRowVectorModeBuffers` behind the length buffer. -/
def deserializeValueBuffers (codec : Codec) (lengths : List UInt8) : PayloadReader (List Buffer) := do
  let valueBuffer ← readCompressedBuffer codec
  match valueBuffer with
  | none => throw .invalid
  | some values =>
    let cut ← cutBuffers lengths values
    if cut.2 ≠ 0 then
      let complexBuffer ← readCompressedBuffer codec
      return cut.1 ++ [complexBuffer]
    else
      return cut.1

def deserializeRowVectorModeBuffers (codec : Codec) : PayloadReader (List Buffer) := do
  let lengthBuffer ← readCompressedBuffer codec
  match lengthBuffer with
  | none => throw .invalid
  -- the zero length buffer has no data
  | some [] => throw .invalid
  | some (first :: others) => deserializeValueBuffers codec (first :: others)

/-- The number of buffers that a field has of its own. -/
def FieldKind.numBuffers : FieldKind → ℕ
  | null => 0
  | string => 3
  | complex => 0
  | fixedWidth => 2

def readFields (readBuffer : PayloadReader Buffer) : List FieldKind → PayloadReader (List Buffer)
  | [] => return []
  | field :: fields => do
    let own ← repeatM readBuffer field.numBuffers
    let others ← readFields readBuffer fields
    return own ++ others

/-- `BlockPayload::deserialize` behind the rows and the mode. -/
def deserializeBuffers (codec : Codec) (schema : List FieldKind) (type mode : UInt8) : PayloadReader (List Buffer) :=
  if mode = PayloadMode.rowVector.toByte then
    if type ≠ PayloadType.compressed.toByte then throw .invalid else deserializeRowVectorModeBuffers codec
  else do
    let readBuffer := if type = PayloadType.compressed.toByte then readCompressedBuffer codec else readUncompressedBuffer
    let buffers ← readFields readBuffer schema
    if FieldKind.complex ∈ schema then
      let complexBuffer ← readBuffer
      return buffers ++ [complexBuffer]
    else
      return buffers

/-- `BlockPayload::deserialize`, for a type that the caller has read. -/
def deserialize (codec : Codec) (schema : List FieldKind) (type : UInt8) : PayloadReader (UInt32 × List Buffer) :=
  if 4 ≤ type then throw .checkFailed
  else do
    let numRows ← readFromCacheOrStream 4
    let mode ← readFromCacheOrStream 1
    let buffers ← deserializeBuffers codec schema type (mode.headD 0)
    return (UInt32.ofNat (leValue numRows), buffers)

/-- Reads the next block of the stream. -/
def readBlock (codec : Codec) (schema : List FieldKind) : PayloadReader (UInt32 × List Buffer) := do
  let type ← readFromCacheOrStream 1
  deserialize codec schema (type.headD 0)

/-! ## Payloads in spill files -/

def readSpilled (bytes : ℕ) : StateT (List UInt8) (Except PayloadError) (List UInt8) := fun file =>
  if bytes ≤ file.length then .ok (file.take bytes, file.drop bytes) else .error .endOfStream

/-- `UncompressedDiskBlockPayload::readUncompressedBuffer`. -/
def readSpilledBuffer : StateT (List UInt8) (Except PayloadError) Buffer := do
  let word ← readSpilled 8
  if int64Value word = kNullBuffer then
    return none
  else if int64Value word = 0 then
    return some []
  else if int64Value word < 0 then
    throw .invalid
  else
    let buffer ← readSpilled (int64Value word).toNat
    return some buffer

/-- The loop of `UncompressedDiskBlockPayload::serialize`, which reads buffers until
`rawSize` bytes are behind the start of the payload: what it writes, and the file behind
the payload. Every buffer takes bytes, so `rawSize` is enough fuel. -/
def compressSpilled (codec : Codec) (rawSize : ℕ) : ℕ → ℕ → List UInt8 → Except PayloadError (List UInt8 × List UInt8)
  | 0, _, file => .ok ([], file)
  | fuel + 1, position, file =>
    if position < rawSize then do
      let (uncompressed, behind) ← readSpilledBuffer.run file
      let output ← compressAndFlush codec uncompressed
      let (rest, last) ← compressSpilled codec rawSize fuel (position + (file.length - behind.length)) behind
      return (output ++ rest, last)
    else
      .ok ([], file)

/-- `UncompressedDiskBlockPayload::serialize` of a payload that takes the next `rawSize`
bytes of its file, and the file behind it. -/
def serializeUncompressedSpill (type : PayloadType) (codec : Option Codec) (numRows : UInt32) (rawSize : ℕ)
    (file : List UInt8) : Except PayloadError (List UInt8 × List UInt8) :=
  match codec with
  | none => .ok (file.take rawSize, file.drop rawSize)
  | some codec =>
    if type = .uncompressed then
      .ok (file.take rawSize, file.drop rawSize)
    else if type ≠ .toBeCompressed then
      .error .invalid
    else do
      -- Discard type and rows.
      let (output, file) ← compressSpilled codec rawSize rawSize 6 (file.drop 6)
      return (payloadHeader .compressed numRows .buffer ++ output, file)

/-- `CompressedDiskBlockPayload::serialize`. -/
def serializeCompressedSpill (rawSize : ℕ) (file : List UInt8) : List UInt8 × List UInt8 :=
  (file.take rawSize, file.drop rawSize)

end Bolt.Shuffle
