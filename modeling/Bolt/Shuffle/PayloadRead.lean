import Bolt.Shuffle.Payload

/-!
# Reading the buffers of a payload

What the readers find behind the bytes of one buffer, however the read-ahead buffer and
the input stream divide them, and what they find behind a list of buffers. The codec is
assumed to compress into a buffer of its own bound and to decompress what it compressed.
-/

namespace Bolt.Shuffle

open Lib.Bytes Lib.Streams List

variable {source : Source} {buffer : Buffer} {codec : Codec} {buffers : List Buffer} {schema : List FieldKind}
  {body : List UInt8}

/-- The documented behaviour of a codec. -/
structure Codec.Lawful (codec : Codec) : Prop where
  /-- An output buffer of the maximal compressed length is enough. -/
  compress_ok : ∀ data outputLength, (codec.maxCompressedLen data.length : ℤ) ≤ outputLength →
    ∃ compressed, codec.compress data outputLength = .ok compressed
  length_le : ∀ data outputLength compressed, codec.compress data outputLength = .ok compressed →
    compressed.length ≤ codec.maxCompressedLen data.length
  ne_nil : ∀ data outputLength compressed, data ≠ [] → codec.compress data outputLength = .ok compressed → compressed ≠ []
  decompress_compress : ∀ data outputLength compressed, codec.compress data outputLength = .ok compressed →
    codec.decompress compressed data.length = .ok data

def Source.bytes (source : Source) : List UInt8 := source.readAheadBuffer.getD [] ++ source.inputStream

theorem readFromStream_eq {already inputStream : List UInt8} {bytes : ℕ} (h : bytes ≤ inputStream.length) :
    readFromStream already bytes inputStream = .ok (already ++ inputStream.take bytes, ⟨none, inputStream.drop bytes⟩) :=
  if_pos h

/-- A read takes the first bytes, wherever they are. -/
theorem readFromCacheOrStream_run {bytes : ℕ} (h : bytes ≤ source.bytes.length) :
    ∃ source', (readFromCacheOrStream bytes).run source = .ok (source.bytes.take bytes, source') ∧
      source'.bytes = source.bytes.drop bytes := by
  obtain ⟨readAheadBuffer, inputStream⟩ := source
  cases readAheadBuffer with
  | none =>
    have hl : bytes ≤ inputStream.length := by simpa [Source.bytes] using h
    exact ⟨_, readFromStream_eq hl, rfl⟩
  | some ahead =>
    simp only [Source.bytes, Option.getD_some, length_append] at h
    by_cases ha : bytes ≤ ahead.length
    · refine ⟨⟨if (ahead.drop bytes).length = 0 then none else some (ahead.drop bytes), inputStream⟩, ?_, ?_⟩
      · show (if bytes ≤ ahead.length then _ else _) = _
        rw [if_pos ha]
        simp only [Source.bytes, Option.getD_some, take_append_of_le_length ha]
      · simp only [Source.bytes, Option.getD_some, drop_append_of_le_length ha]
        split_ifs with hem
        · rw [length_eq_zero_iff.mp hem]
          rfl
        · rfl
    · refine ⟨⟨none, inputStream.drop (bytes - ahead.length)⟩, ?_, ?_⟩
      · show (if bytes ≤ ahead.length then _ else readFromStream ahead (bytes - ahead.length) inputStream) = _
        rw [if_neg ha, readFromStream_eq (by omega)]
        simp only [Source.bytes, Option.getD_some, take_append]
        rw [take_of_length_le (show ahead.length ≤ bytes by omega)]
      · simp only [Source.bytes, Option.getD_some, Option.getD_none, nil_append, drop_append]
        rw [drop_of_length_le (show ahead.length ≤ bytes by omega), nil_append]

theorem reads_readFromCacheOrStream (text : List UInt8) :
    Reads Source.bytes (readFromCacheOrStream text.length) text text := by
  intro source rest h
  have hl : text.length ≤ source.bytes.length := by simp [h]
  obtain ⟨source', hr, hb⟩ := readFromCacheOrStream_run hl
  rw [h, take_left] at hr
  rw [h, drop_left] at hb
  exact ⟨source', hr, hb⟩

theorem readFromCacheOrStream_nil {bytes : ℕ} (hb : 0 < bytes) (h : source.bytes = []) :
    (readFromCacheOrStream bytes).run source = .error .endOfStream := by
  obtain ⟨readAheadBuffer, inputStream⟩ := source
  obtain ⟨ha, hs⟩ := append_eq_nil_iff.mp h
  subst hs
  have hsh : ¬ bytes ≤ ([] : List UInt8).length := by simpa using hb.ne'
  cases readAheadBuffer with
  | none => exact if_neg hsh
  | some ahead =>
    obtain rfl : ahead = [] := ha
    show (if bytes ≤ [].length then _ else readFromStream [] (bytes - 0) []) = _
    rw [if_neg hsh]
    exact if_neg hsh

theorem reads_readInt64 {x : ℤ} (hl : -2 ^ 63 ≤ x) (hh : x < 2 ^ 63) :
    Reads Source.bytes readInt64 (int64Bytes x) x := by
  have hr := reads_readFromCacheOrStream (int64Bytes x)
  have hv := hr.map int64Value
  rw [int64Value_int64Bytes hl hh] at hv
  exact hv

theorem reads_readLength (data : List UInt8) : Reads Source.bytes (readLength data.length) data data := by
  unfold readLength
  exact reads_readFromCacheOrStream data

theorem reads_readUncompressedBuffer (hs : buffer.size < 2 ^ 63) :
    Reads Source.bytes readUncompressedBuffer (uncompressedBytes buffer) buffer := by
  cases buffer with
  | none =>
    refine (reads_readInt64 (by decide) (by decide)).bind ?_
    exact Reads.pure Source.bytes none
  | some data =>
    change data.length < 2 ^ 63 at hs
    have hr := reads_readInt64 (x := data.length) (by omega) (by omega)
    refine hr.bind ?_
    rw [if_neg (by unfold kNullBuffer; omega)]
    exact (reads_readLength data).map some

theorem reads_readCompressedBuffer_none (codec : Codec) :
    Reads Source.bytes (readCompressedBuffer codec) (int64Bytes kNullBuffer) none := by
  refine (reads_readInt64 (by decide) (by decide)).bind ?_
  exact Reads.pure Source.bytes none

theorem reads_readCompressedBuffer_empty (codec : Codec) :
    Reads Source.bytes (readCompressedBuffer codec) (int64Bytes kZeroLengthBuffer) (some []) := by
  refine (reads_readInt64 (by decide) (by decide)).bind ?_
  exact Reads.pure Source.bytes (some [])

theorem reads_readCompressedBuffer_uncompressed (codec : Codec) {data : List UInt8} (hs : data.length < 2 ^ 63) :
    Reads Source.bytes (readCompressedBuffer codec) (int64Bytes kUncompressedBuffer ++ int64Bytes data.length ++ data)
      (some data) := by
  refine (reads_readInt64 (by decide) (by decide)).bind ?_
  refine (reads_readInt64 (x := data.length) (by omega) (by omega)).bind ?_
  exact (reads_readLength data).map some

theorem reads_readCompressedBuffer_compressed {data compressed : List UInt8} (hne : compressed ≠ [])
    (hs : data.length < 2 ^ 63) (hsh : compressed.length < data.length)
    (hd : codec.decompress compressed data.length = .ok data) :
    Reads Source.bytes (readCompressedBuffer codec) (int64Bytes compressed.length ++ int64Bytes data.length ++ compressed)
      (some data) := by
  have hp : 0 < compressed.length := length_pos_iff.mpr hne
  refine (reads_readInt64 (x := compressed.length) (by omega) (by omega)).bind ?_
  rw [if_neg (by unfold kNullBuffer; omega), if_neg (by unfold kZeroLengthBuffer; omega)]
  refine (reads_readInt64 (x := data.length) (by omega) (by omega)).bind ?_
  rw [if_neg (by unfold kUncompressedBuffer; omega)]
  intro source rest h
  obtain ⟨source', hr, hb⟩ := reads_readLength compressed source rest h
  refine ⟨source', ?_, hb⟩
  rw [StateT.run_bind, hr]
  simp only [bind, Except.bind]
  rw [Int.toNat_natCast, hd]
  rfl

theorem maxCompressedLength_cons (codec : Codec) (buffer : Buffer) (buffers : List Buffer) :
    maxCompressedLength codec (buffer :: buffers) =
      maxCompressedLength codec [buffer] + maxCompressedLength codec buffers := by
  simp only [maxCompressedLength, length_cons, length_nil, map_cons, map_nil, sum_cons, sum_nil]
  push_cast
  ring

theorem maxCompressedLength_nonneg (codec : Codec) (buffers : List Buffer) : 0 ≤ maxCompressedLength codec buffers := by
  induction buffers with
  | nil => exact le_refl 0
  | cons buffer buffers ih =>
    rw [maxCompressedLength_cons]
    have hh : 0 ≤ maxCompressedLength codec [buffer] := by
      cases buffer <;> simp [maxCompressedLength]
      omega
    omega

/-- A buffer reads back, compressed or not. -/
theorem compressBuffer_reads (hc : codec.Lawful) (hs : buffer.size < 2 ^ 63) {remaining : ℤ}
    (hr : maxCompressedLength codec [buffer] ≤ remaining) :
    ∃ output, compressBuffer codec remaining buffer = .ok output ∧
      Reads Source.bytes (readCompressedBuffer codec) output buffer ∧
      (output.length : ℤ) ≤ maxCompressedLength codec [buffer] := by
  cases buffer with
  | none =>
    refine ⟨_, rfl, reads_readCompressedBuffer_none codec, ?_⟩
    simp [maxCompressedLength]
  | some data =>
    have hb : maxCompressedLength codec [some data] = 16 + codec.maxCompressedLen data.length := by
      simp [maxCompressedLength]
    unfold compressBuffer
    dsimp only
    by_cases hem : data.length = 0
    · obtain rfl := length_eq_zero_iff.mp hem
      refine ⟨_, rfl, reads_readCompressedBuffer_empty codec, ?_⟩
      rw [length_int64Bytes]
      omega
    · rw [if_neg hem]
      obtain ⟨compressed, hcompress⟩ := hc.compress_ok data (remaining - kCompressedBufferHeaderLength)
        (by unfold kCompressedBufferHeaderLength; omega)
      have hlen := hc.length_le _ _ _ hcompress
      simp only [hcompress, bind, Except.bind]
      split_ifs with hl
      · refine ⟨_, rfl, reads_readCompressedBuffer_uncompressed codec hs, ?_⟩
        simp only [length_append, length_int64Bytes]
        omega
      · have hne := hc.ne_nil _ _ _ (fun h => hem (by rw [h]; rfl)) hcompress
        refine ⟨_, rfl, reads_readCompressedBuffer_compressed hne hs (by omega)
          (hc.decompress_compress _ _ _ hcompress), ?_⟩
        simp only [length_append, length_int64Bytes]
        omega

theorem compressAndFlush_reads (hc : codec.Lawful) (hs : buffer.size < 2 ^ 63) :
    ∃ output, compressAndFlush codec buffer = .ok output ∧
      Reads Source.bytes (readCompressedBuffer codec) output buffer := by
  cases buffer with
  | none => exact ⟨_, rfl, reads_readCompressedBuffer_none codec⟩
  | some data =>
    unfold compressAndFlush
    dsimp only
    by_cases hem : data.length = 0
    · obtain rfl := length_eq_zero_iff.mp hem
      exact ⟨_, rfl, reads_readCompressedBuffer_empty codec⟩
    · rw [if_neg hem]
      obtain ⟨output, houtput, hr, -⟩ := compressBuffer_reads hc hs
        (show maxCompressedLength codec [some data] ≤ kCompressedBufferHeaderLength + codec.maxCompressedLen data.length by
          simp [maxCompressedLength, kCompressedBufferHeaderLength])
      exact ⟨output, houtput, hr⟩

/-- The share of the output that the buffers before have left is enough for the rest. -/
theorem compressBuffers_reads (hc : codec.Lawful) (hs : ∀ buffer ∈ buffers, buffer.size < 2 ^ 63) {available : ℤ}
    (hav : maxCompressedLength codec buffers ≤ available) :
    ∃ output, compressBuffers codec available buffers = .ok output ∧
      ReadsAll Source.bytes (readCompressedBuffer codec) output buffers := by
  induction buffers generalizing available with
  | nil => exact ⟨[], rfl, .nil⟩
  | cons buffer buffers ih =>
    rw [maxCompressedLength_cons] at hav
    have hn := maxCompressedLength_nonneg codec buffers
    obtain ⟨first, hf, hr, hl⟩ := compressBuffer_reads hc (hs buffer (by simp))
      (show maxCompressedLength codec [buffer] ≤ available by omega)
    obtain ⟨others, ho, ha⟩ := ih (fun b hb => hs b (mem_cons_of_mem _ hb))
      (show maxCompressedLength codec buffers ≤ available - first.length by omega)
    refine ⟨first ++ others, ?_, .cons hr ha⟩
    simp only [compressBuffers, hf, ho, bind, Except.bind, pure, Except.pure]

theorem mapM_compressAndFlush_reads (hc : codec.Lawful) (hs : ∀ buffer ∈ buffers, buffer.size < 2 ^ 63) :
    ∃ outputs, buffers.mapM (compressAndFlush codec) = .ok outputs ∧
      ReadsAll Source.bytes (readCompressedBuffer codec) outputs.flatten buffers := by
  induction buffers with
  | nil => exact ⟨[], rfl, .nil⟩
  | cons buffer buffers ih =>
    obtain ⟨first, hf, hr⟩ := compressAndFlush_reads hc (hs buffer (by simp))
    obtain ⟨others, ho, ha⟩ := ih fun b hb => hs b (mem_cons_of_mem _ hb)
    refine ⟨first :: others, ?_, .cons hr ha⟩
    rw [mapM_cons, hf, ho]
    rfl

theorem uncompressedBytes_readsAll (hs : ∀ buffer ∈ buffers, buffer.size < 2 ^ 63) :
    ReadsAll Source.bytes readUncompressedBuffer (buffers.map uncompressedBytes).flatten buffers := by
  induction buffers with
  | nil => exact .nil
  | cons buffer buffers ih =>
    exact .cons (reads_readUncompressedBuffer (hs buffer (by simp)))
      (ih fun b hb => hs b (mem_cons_of_mem _ hb))

/-! ## The buffers of a schema -/

/-- How many buffers rows of the schema have: those of the simple columns, and one for all
complex columns. -/
def bufferCount (schema : List FieldKind) : ℕ :=
  (schema.map FieldKind.numBuffers).sum + if FieldKind.complex ∈ schema then 1 else 0

theorem readFields_eq (readBuffer : PayloadReader Buffer) (schema : List FieldKind) :
    readFields readBuffer schema = repeatM readBuffer (schema.map FieldKind.numBuffers).sum := by
  induction schema with
  | nil => rfl
  | cons field schema ih => rw [readFields, ih, map_cons, sum_cons, repeatM_add]

theorem toByte_lt (type : PayloadType) : ¬ (4 : UInt8) ≤ type.toByte := by
  cases type <;> decide

theorem readBlock_run {type : PayloadType} {mode : PayloadMode} {numRows : UInt32}
    (h : source.bytes = payloadHeader type numRows mode ++ body) :
    ∃ behind, behind.bytes = body ∧ (readBlock codec schema).run source =
      ((fun buffers => (numRows, buffers)) <$> deserializeBuffers codec schema type.toByte mode.toByte).run behind := by
  have hro : UInt32.ofNat (leValue (leBytes 4 numRows.toNat)) = numRows := by
    rw [leValue_leBytes, Nat.mod_eq_of_lt (by have := numRows.toNat_lt; omega)]
    exact UInt32.ofNat_toNat
  have hn := reads_readFromCacheOrStream (leBytes 4 numRows.toNat)
  rw [length_leBytes] at hn
  unfold payloadHeader at h
  obtain ⟨snd, hs, hf⟩ := (reads_readFromCacheOrStream [type.toByte]).run_bind
    (fun bytes => deserialize codec schema (bytes.headD 0)) h
  unfold deserialize at hf
  rw [headD_cons, if_neg (toByte_lt type)] at hf
  obtain ⟨third, hthird, hr⟩ := hn.run_bind _ hs
  rw [hr] at hf
  obtain ⟨behind, hbeh, hr⟩ := (reads_readFromCacheOrStream [mode.toByte]).run_bind _ hthird
  rw [length_singleton] at hr
  rw [hr, hro] at hf
  exact ⟨behind, hbeh, hf⟩

/-- A block reads back if its buffers do. -/
theorem reads_readBlock {type : PayloadType} {mode : PayloadMode} (numRows : UInt32)
    (hb : Reads Source.bytes (deserializeBuffers codec schema type.toByte mode.toByte) body buffers) :
    Reads Source.bytes (readBlock codec schema) (payloadHeader type numRows mode ++ body) (numRows, buffers) := by
  intro source rest h
  obtain ⟨behind, hbeh, hr⟩ := readBlock_run h
  rw [hr]
  exact hb.map (fun buffers => (numRows, buffers)) behind rest hbeh

theorem reads_deserializeBuffers {type : UInt8} (hco : buffers.length = bufferCount schema)
    (hb : ReadsAll Source.bytes
      (if type = PayloadType.compressed.toByte then readCompressedBuffer codec else readUncompressedBuffer) body buffers) :
    Reads Source.bytes (deserializeBuffers codec schema type PayloadMode.buffer.toByte) body buffers := by
  have hr := hb.repeatM
  rw [hco, bufferCount] at hr
  unfold deserializeBuffers
  rw [if_neg (by decide)]
  simp only [readFields_eq]
  by_cases hc : FieldKind.complex ∈ schema
  · rw [if_pos hc, repeatM_add] at hr
    simpa [hc, Lib.Streams.repeatM] using hr
  · simpa [hc] using hr

end Bolt.Shuffle
