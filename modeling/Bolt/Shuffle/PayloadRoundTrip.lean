import Bolt.Shuffle.PayloadConcat

/-!
# The round trip of a block payload

A block is written from memory, or from a spill file. In row vector mode the reader expects
joined buffers, but the writer sets this mode for a compressed payload also where it has not
joined them. So a block reads back exactly when this mode is not written, or its buffers were
joined without an offset that leaves an `int`.
-/

namespace Bolt.Shuffle

open Lib.Bytes Lib.Streams List

variable {buffer : Buffer} {buffers : List Buffer} {source : Source} {body : List UInt8}

structure Block where
  schema : List FieldKind
  numRows : UInt32
  buffers : List Buffer
  matchesSchema : buffers.length = bufferCount schema
  /-- The buffers and their lengths are in memory together. -/
  inMemory : totalSize buffers + 8 * (buffers.length + 3) < 2 ^ 63

/-- How a block comes into the data file. -/
inductive Route where
  /-- A payload of the type is serialized. -/
  | memory (type : PayloadType)
  /-- An uncompressed payload is spilled, and written at the merge, compressed there if it
  is to be and there is a codec. -/
  | spilledUncompressed (toBeCompressed hasCodec : Bool)
  /-- A compressed payload is spilled and copied at the merge. -/
  | spilledCompressed
deriving DecidableEq

namespace Block

variable (codec : Codec) (block : Block) (mode : PayloadMode)

def hasComplexType : Bool := FieldKind.complex ∈ block.schema

def serialize (type : PayloadType) : Except PayloadError (List UInt8) := do
  let payload ← fromBuffers type block.numRows block.buffers codec mode block.hasComplexType
  payload.serialize codec

/-- What is written for the block, and the rest of the spill file in which other bytes
follow the payload. -/
def write (following : List UInt8) : Route → Except PayloadError (List UInt8 × List UInt8)
  | .memory type => do
    let bytes ← block.serialize codec mode type
    return (bytes, following)
  | .spilledUncompressed toBeCompressed hasCodec => do
    let spilled ← block.serialize codec mode .uncompressed
    serializeUncompressedSpill (if toBeCompressed then .toBeCompressed else .uncompressed)
      (if hasCodec then some codec else none) block.numRows spilled.length (spilled ++ following)
  | .spilledCompressed => do
    let spilled ← block.serialize codec mode .compressed
    return serializeCompressedSpill spilled.length (spilled ++ following)

/-- The block is written, the spill file is left behind its payload, and the reader finds
the rows and the buffers behind the written bytes, however they are divided between a
read-ahead buffer and the stream, and whatever follows. -/
def RoundTrips (route : Route) : Prop :=
  ∀ following, ∃ bytes, block.write codec mode following route = .ok (bytes, following) ∧
    Reads Source.bytes (readBlock codec block.schema) bytes (block.numRows, block.buffers)

def columns : List Buffer := block.buffers.take (block.buffers.length - block.hasComplexType.toNat)

def Joined : Prop := 3 < block.buffers.length ∧ StartsFit block.columns 0

end Block

/-- The mode of the payload is written, and not the buffer mode. -/
def Route.WritesMode : Route → Prop
  | memory type => type ≠ .uncompressed
  | spilledUncompressed _ _ => False
  | spilledCompressed => True

theorem Block.size_lt (block : Block) (h : buffer ∈ block.buffers) : buffer.size < 2 ^ 63 := by
  have hle := size_le_totalSize h
  have hm := block.inMemory
  omega

variable {codec : Codec} {block : Block} {mode : PayloadMode}

theorem serialize_uncompressed : block.serialize codec mode .uncompressed =
    .ok (payloadHeader .uncompressed block.numRows .buffer ++ (block.buffers.map uncompressedBytes).flatten) := by
  unfold Block.serialize fromBuffers joinBuffers
  rw [if_neg (by simp)]
  rfl

theorem joinBuffers_of_short {type : PayloadType} (h : ¬ (mode = .rowVector ∧ 3 < block.buffers.length)) :
    joinBuffers type block.buffers mode block.hasComplexType = .ok block.buffers := by
  unfold joinBuffers
  rw [if_neg fun hjo => h ⟨hjo.1, hjo.2.2⟩]

section Compressed

variable {type : PayloadType} (htype : type ≠ .uncompressed)
include htype

theorem serialize_compressed (hcodec : codec.Lawful) {buffers : List Buffer}
    (hjo : joinBuffers type block.buffers mode block.hasComplexType = .ok buffers)
    (hs : ∀ buffer ∈ buffers, buffer.size < 2 ^ 63) :
    ∃ body, block.serialize codec mode type = .ok (payloadHeader .compressed block.numRows mode ++ body) ∧
      ReadsAll Source.bytes (readCompressedBuffer codec) body buffers := by
  unfold Block.serialize fromBuffers
  rw [hjo]
  cases type with
  | uncompressed => exact absurd rfl htype
  | compressed =>
    obtain ⟨body, hcompress, hr⟩ := compressBuffers_reads hcodec hs (le_refl (maxCompressedLength codec buffers))
    refine ⟨body, ?_, hr⟩
    simp only [bind, Except.bind, if_true, hcompress, pure, Except.pure]
    rfl
  | toBeCompressed =>
    obtain ⟨outputs, hcompress, hr⟩ := mapM_compressAndFlush_reads hcodec hs
    refine ⟨outputs.flatten, ?_, hr⟩
    simp only [bind, Except.bind, pure, Except.pure]
    rw [if_neg (by decide)]
    unfold BlockPayload.serialize
    dsimp only
    rw [hcompress]
    rfl

theorem joinBuffers_of_long (h : 3 < block.buffers.length) :
    joinBuffers type block.buffers .rowVector block.hasComplexType = concatBuffer block.buffers block.hasComplexType := by
  unfold joinBuffers
  rw [if_pos ⟨rfl, by cases type <;> simp_all, h⟩]

end Compressed

theorem serialize_error {type : PayloadType} {e : PayloadError}
    (hjo : joinBuffers type block.buffers mode block.hasComplexType = .error e) :
    block.serialize codec mode type = .error e := by
  unfold Block.serialize fromBuffers
  rw [hjo]
  rfl

/-! ## Payloads in spill files -/

theorem reads_readSpilled (text : List UInt8) : Reads id (readSpilled text.length) text text := by
  intro file rest h
  subst h
  refine ⟨rest, ?_, rfl⟩
  show (if _ then _ else _) = _
  rw [if_pos (by simp), take_left, drop_left]

theorem reads_readSpilledBuffer (hs : buffer.size < 2 ^ 63) :
    Reads id readSpilledBuffer (uncompressedBytes buffer) buffer := by
  have hw x := reads_readSpilled (int64Bytes x)
  cases buffer with
  | none =>
    refine (hw kNullBuffer).bind ?_
    exact Reads.pure id none
  | some data =>
    change data.length < 2 ^ 63 at hs
    refine (hw data.length).bind ?_
    rw [int64Value_int64Bytes (by omega) (by omega), if_neg (by unfold kNullBuffer; omega)]
    by_cases hem : data.length = 0
    · obtain rfl := length_eq_zero_iff.mp hem
      exact Reads.pure id (some [])
    · rw [if_neg (by omega), if_neg (by omega), Int.toNat_natCast]
      exact (reads_readSpilled data).map some

theorem length_uncompressedBytes_pos (buffer : Buffer) : 0 < (uncompressedBytes buffer).length := by
  cases buffer <;> simp [uncompressedBytes]

/-- The loop compresses the buffers of the payload and stops behind them. -/
theorem compressSpilled_reads (hcodec : codec.Lawful) (hs : ∀ buffer ∈ buffers, buffer.size < 2 ^ 63)
    (following : List UInt8) {rawSize fuel position : ℕ}
    (hp : rawSize = position + (buffers.map uncompressedBytes).flatten.length) (hf : buffers.length ≤ fuel) :
    ∃ output, compressSpilled codec rawSize fuel position ((buffers.map uncompressedBytes).flatten ++ following) =
        .ok (output, following) ∧
      ReadsAll Source.bytes (readCompressedBuffer codec) output buffers := by
  induction buffers generalizing fuel position with
  | nil =>
    refine ⟨[], ?_, .nil⟩
    cases fuel with
    | zero => rfl
    | succ fuel =>
      unfold compressSpilled
      rw [if_neg (by simp at hp; omega)]
      rfl
  | cons buffer buffers ih =>
    cases fuel with
    | zero => simp at hf
    | succ fuel =>
      have hpo := length_uncompressedBytes_pos buffer
      rw [map_cons, flatten_cons, length_append] at hp
      obtain ⟨first, hfi, hre⟩ := compressAndFlush_reads hcodec (hs buffer (by simp))
      obtain ⟨others, ho, ha⟩ := ih (fun b hb => hs b (mem_cons_of_mem _ hb))
        (show rawSize = position + (uncompressedBytes buffer).length + (buffers.map uncompressedBytes).flatten.length by omega)
        (show buffers.length ≤ fuel by simp at hf; omega)
      refine ⟨first ++ others, ?_, .cons hre ha⟩
      rw [map_cons, flatten_cons, append_assoc]
      obtain ⟨behind, hr, hbeh⟩ := reads_readSpilledBuffer (hs buffer (by simp))
        (uncompressedBytes buffer ++ ((buffers.map uncompressedBytes).flatten ++ following)) _ rfl
      subst hbeh
      unfold compressSpilled
      rw [if_pos (by omega), hr]
      simp only [bind, Except.bind, hfi]
      have hm : (uncompressedBytes buffer ++ ((buffers.map uncompressedBytes).flatten ++ following)).length -
          ((buffers.map uncompressedBytes).flatten ++ following).length = (uncompressedBytes buffer).length := by
        rw [length_append, Nat.add_sub_cancel]
      rw [hm, ho]
      rfl

/-! ## Buffers that were not joined -/

theorem readCompressedBuffer_nil (h : source.bytes = []) :
    (readCompressedBuffer codec).run source = .error .endOfStream := by
  have hr : readInt64.run source = .error .endOfStream := by
    unfold readInt64
    rw [StateT.run_bind, readFromCacheOrStream_nil (by norm_num) h]
    rfl
  unfold readCompressedBuffer
  rw [StateT.run_bind, hr]
  rfl

theorem Reads.ne_nil {text : List UInt8} (h : Reads Source.bytes (readCompressedBuffer codec) text buffer) :
    text ≠ [] := by
  rintro rfl
  obtain ⟨source, hr, -⟩ := h ⟨none, []⟩ [] rfl
  cases hr

/-- Behind a first buffer taken for the lengths, what is read has no byte of it. -/
theorem deserializeValueBuffers_totalSize {lengths : List UInt8} {others result : List Buffer}
    (hb : ReadsAll Source.bytes (readCompressedBuffer codec) body others) (ho : others.length ≤ 2)
    {last : Source} (hso : source.bytes = body) (hl : last.bytes = [])
    (hr : (deserializeValueBuffers codec lengths).run source = .ok (result, last)) :
    totalSize result = totalSize others := by
  unfold deserializeValueBuffers at hr
  cases hb with
  | nil =>
    rw [StateT.run_bind, readCompressedBuffer_nil hso] at hr
    cases hr
  | @cons text rest buffer others hbuffer hre =>
    obtain ⟨behind, hbeh, hs⟩ := hbuffer.run_bind _ hso
    rw [hs] at hr
    cases buffer with
    | none => cases hr
    | some values =>
      cases hc : cutBuffers lengths values with
      | error e =>
        dsimp only at hr
        rw [hc] at hr
        cases hr
      | ok cut =>
        have ht := cutBuffers_totalSize hc
        dsimp only at hr
        rw [hc] at hr
        change (if cut.2 ≠ 0 then _ else _ : PayloadReader (List Buffer)).run behind = _ at hr
        rw [totalSize_cons]
        change _ = values.length + _
        by_cases hw : cut.2 = 0
        · rw [if_neg (not_not.mpr hw)] at hr
          injection hr with hr
          injection hr with hres hby
          rw [← hby, hbeh] at hl
          cases hre with
          | nil => rw [← hres, ht, totalSize_nil, Nat.add_zero]
          | cons hbuffer _ => exact absurd (append_eq_nil_iff.mp hl).1 (Reads.ne_nil hbuffer)
        · rw [if_pos hw] at hr
          cases hre with
          | nil =>
            rw [StateT.run_bind, readCompressedBuffer_nil hbeh] at hr
            cases hr
          | @cons text rest complexBuffer others hco hre =>
            obtain ⟨behind, hbeh, hs⟩ := hco.run_bind _ hbeh
            rw [hs] at hr
            injection hr with hr
            injection hr with hres hby
            have hem : others = [] := length_eq_zero_iff.mp (by
              rw [length_cons, length_cons] at ho
              omega)
            subst hem
            rw [← hres, totalSize_append, ht, totalSize_cons]

/-- Up to three buffers that were not joined do not read back in row vector mode. -/
theorem deserializeRowVectorModeBuffers_short (hb : ReadsAll Source.bytes (readCompressedBuffer codec) body buffers)
    (hbu : buffers.length ≤ 3) {last : Source} (hs : source.bytes = body) (hl : last.bytes = []) :
    (deserializeRowVectorModeBuffers codec).run source ≠ .ok (buffers, last) := by
  intro hr
  unfold deserializeRowVectorModeBuffers at hr
  cases hb with
  | nil =>
    rw [StateT.run_bind, readCompressedBuffer_nil hs] at hr
    cases hr
  | @cons text rest buffer others hbuffer hre =>
    obtain ⟨behind, hbeh, hst⟩ := hbuffer.run_bind _ hs
    rw [hst] at hr
    match buffer with
    | none => cases hr
    | some [] => cases hr
    | some (first :: bytes) =>
      have ht := deserializeValueBuffers_totalSize hre (by simp at hbu; omega) hbeh hl hr
      rw [totalSize_cons] at ht
      change bytes.length + 1 + _ = _ at ht
      omega

theorem not_reads_short {numRows : UInt32} {schema : List FieldKind}
    (hb : ReadsAll Source.bytes (readCompressedBuffer codec) body buffers) (hbu : buffers.length ≤ 3) :
    ¬ Reads Source.bytes (readBlock codec schema) (payloadHeader .compressed numRows .rowVector ++ body) (numRows, buffers) := by
  intro hre
  obtain ⟨last, hr, hl⟩ := hre ⟨none, payloadHeader .compressed numRows .rowVector ++ body⟩ []
    (append_nil _).symm
  have hh : (Source.mk none (payloadHeader .compressed numRows .rowVector ++ body)).bytes =
      payloadHeader .compressed numRows .rowVector ++ body := rfl
  obtain ⟨behind, hbeh, hbl⟩ := readBlock_run hh
  rw [hbl, StateT.run_map] at hr
  change (fun p : List Buffer × Source => ((numRows, p.1), p.2)) <$> (deserializeRowVectorModeBuffers codec).run behind = _ at hr
  cases hrest : (deserializeRowVectorModeBuffers codec).run behind with
  | error e =>
    rw [hrest] at hr
    cases hr
  | ok result =>
    rw [hrest] at hr
    injection hr with hr
    injection hr with hres hs
    injection hres with hro hres
    refine deserializeRowVectorModeBuffers_short hb hbu hbeh hl ?_
    rw [hrest, ← hres, ← hs]

theorem Block.columns_append (block : Block) :
    ∃ complex, block.buffers = block.columns ++ complex ∧ complex.length = block.hasComplexType.toNat := by
  refine ⟨block.buffers.drop (block.buffers.length - block.hasComplexType.toNat), (take_append_drop _ _).symm, ?_⟩
  have hle : block.hasComplexType.toNat ≤ block.buffers.length := by
    rw [block.matchesSchema, bufferCount, Block.hasComplexType]
    by_cases hc : FieldKind.complex ∈ block.schema <;> simp [hc]
  rw [length_drop]
  omega

/-- What is written for the modes and types that write the mode. -/
def Block.SerializesBack (block : Block) (codec : Codec) (mode : PayloadMode) (type : PayloadType) : Prop :=
  ∃ bytes, block.serialize codec mode type = .ok bytes ∧
    Reads Source.bytes (readBlock codec block.schema) bytes (block.numRows, block.buffers)

theorem serializesBack_uncompressed : block.SerializesBack codec mode .uncompressed := by
  refine ⟨_, serialize_uncompressed, reads_readBlock block.numRows ?_⟩
  refine reads_deserializeBuffers block.matchesSchema ?_
  exact uncompressedBytes_readsAll fun buffer => block.size_lt

section Compressed

variable {type : PayloadType} (htype : type ≠ .uncompressed) (hcodec : codec.Lawful)
include htype hcodec

theorem serializesBack_buffer : block.SerializesBack codec .buffer type := by
  have hjo : joinBuffers type block.buffers .buffer block.hasComplexType = .ok block.buffers :=
    joinBuffers_of_short fun h => by cases h.1
  obtain ⟨body, hs, hb⟩ := serialize_compressed htype hcodec hjo fun buffer => block.size_lt
  refine ⟨_, hs, reads_readBlock block.numRows ?_⟩
  refine reads_deserializeBuffers block.matchesSchema ?_
  rw [if_pos rfl]
  exact hb

theorem serializesBack_joined (hjoi : block.Joined) : block.SerializesBack codec .rowVector type := by
  obtain ⟨hl, hf⟩ := hjoi
  obtain ⟨complex, hb, hc⟩ := block.columns_append
  have hme := block.inMemory
  have hjo := joinBuffers_of_long htype hl
  rw [hb, totalSize_append, length_append] at hme
  have hco := concatBuffer_ok hc hf
  rw [← hb, ← hjo] at hco
  have hw : (((lengthWords block.columns block.hasComplexType).map int64Bytes).flatten).length =
      8 * (block.columns.length + 3) := by
    simp [lengthWords, length_flatten, Function.comp_def]
    omega
  have hs : ∀ buffer ∈ ([some ((lengthWords block.columns block.hasComplexType).map int64Bytes).flatten,
      some (joined block.columns)] ++ complex : List Buffer), Buffer.size buffer < 2 ^ 63 := by
    intro buffer hm
    rw [mem_append, mem_pair] at hm
    rcases hm with (rfl | rfl) | hm
    · change length _ < _
      omega
    · change length _ < _
      rw [length_joined]
      omega
    · have hle := size_le_totalSize hm
      omega
  obtain ⟨body, hse, hbo⟩ := serialize_compressed htype hcodec hco hs
  refine ⟨_, hse, reads_readBlock block.numRows ?_⟩
  have hr := reads_deserializeRowVectorModeBuffers hc (by omega) (by omega) hbo
  rw [← hb] at hr
  exact hr

theorem joined_of_serializesBack (h : block.SerializesBack codec .rowVector type) : block.Joined := by
  obtain ⟨bytes, hs, hr⟩ := h
  by_cases hl : 3 < block.buffers.length
  · refine ⟨hl, ?_⟩
    by_contra hf
    obtain ⟨complex, hbu, hco⟩ := block.columns_append
    have hjo := joinBuffers_of_long htype hl
    cases hc : concatBuffer block.buffers block.hasComplexType with
    | error e =>
      rw [hc] at hjo
      rw [serialize_error hjo] at hs
      cases hs
    | ok buffers =>
      rw [hbu] at hc
      exact concatBuffer_ne_ok hco hf buffers hc
  · have hjo : joinBuffers type block.buffers .rowVector block.hasComplexType = .ok block.buffers :=
      joinBuffers_of_short fun h => hl h.2
    obtain ⟨body, hwritten, hb⟩ := serialize_compressed htype hcodec hjo fun buffer => block.size_lt
    rw [hwritten] at hs
    injection hs with hs
    rw [← hs] at hr
    exact absurd hr (not_reads_short hb (by omega))

theorem serializesBack_iff : block.SerializesBack codec mode type ↔ (mode = .rowVector → block.Joined) := by
  cases mode with
  | buffer => exact ⟨fun _ h => (by cases h), fun _ => serializesBack_buffer htype hcodec⟩
  | rowVector =>
    exact ⟨fun h _ => joined_of_serializesBack htype hcodec h, fun h => serializesBack_joined htype hcodec (h rfl)⟩

end Compressed

theorem roundTrips_iff {type : PayloadType} {route : Route}
    (hro : ∀ following, block.write codec mode following route =
      (block.serialize codec mode type).map fun bytes => (bytes, following)) :
    block.RoundTrips codec mode route ↔ block.SerializesBack codec mode type := by
  unfold Block.RoundTrips Block.SerializesBack
  simp only [hro]
  constructor
  · intro h
    obtain ⟨bytes, hw, hr⟩ := h []
    cases hs : block.serialize codec mode type with
    | error e =>
      rw [hs] at hw
      cases hw
    | ok written =>
      rw [hs] at hw
      injection hw with hw
      injection hw with hw _
      rw [hw]
      exact ⟨bytes, rfl, hr⟩
  · rintro ⟨bytes, hs, hr⟩ following
    refine ⟨bytes, ?_, hr⟩
    rw [hs]
    rfl

theorem write_memory (type : PayloadType) (following : List UInt8) : block.write codec mode following (.memory type) =
      (block.serialize codec mode type).map fun bytes => (bytes, following) := by
  unfold Block.write
  dsimp only
  cases block.serialize codec mode type <;> rfl

theorem write_spilledCompressed (following : List UInt8) : block.write codec mode following .spilledCompressed =
      (block.serialize codec mode .compressed).map fun bytes => (bytes, following) := by
  unfold Block.write serializeCompressedSpill
  cases hs : block.serialize codec mode .compressed with
  | error e => rfl
  | ok bytes =>
    simp only [bind, Except.bind, pure, Except.pure, Except.map, take_left, drop_left]

theorem write_spilledUncompressed_copied {toBeCompressed hasCodec : Bool} (h : toBeCompressed = false ∨ hasCodec = false)
    (following : List UInt8) :
    block.write codec mode following (.spilledUncompressed toBeCompressed hasCodec) =
      (block.serialize codec mode .uncompressed).map fun bytes => (bytes, following) := by
  unfold Block.write
  simp only [bind, Except.bind, Except.map, serializeUncompressedSpill]
  cases hasCodec with
  | false => simp
  | true =>
    obtain rfl : toBeCompressed = false := by simpa using h
    simp

theorem roundTrips_compressedAtMerge (hcodec : codec.Lawful) :
    block.RoundTrips codec mode (.spilledUncompressed true true) := by
  intro following
  have hh : (payloadHeader .uncompressed block.numRows .buffer).length = 6 := by
    simp [payloadHeader, length_leBytes]
  have hl : block.buffers.length ≤ (block.buffers.map uncompressedBytes).flatten.length := by
    induction block.buffers with
    | nil => exact Nat.zero_le _
    | cons buffer buffers ih =>
      have hp := length_uncompressedBytes_pos buffer
      rw [map_cons, flatten_cons, length_append, length_cons]
      omega
  obtain ⟨output, hs, hr⟩ := compressSpilled_reads hcodec (fun buffer => block.size_lt) following
    (show (payloadHeader .uncompressed block.numRows .buffer ++ (block.buffers.map uncompressedBytes).flatten).length =
      6 + (block.buffers.map uncompressedBytes).flatten.length by rw [length_append, hh])
    (show block.buffers.length ≤
      (payloadHeader .uncompressed block.numRows .buffer ++ (block.buffers.map uncompressedBytes).flatten).length by
        rw [length_append]
        omega)
  refine ⟨payloadHeader .compressed block.numRows .buffer ++ output, ?_, reads_readBlock block.numRows ?_⟩
  · unfold Block.write
    rw [serialize_uncompressed]
    simp only [bind, Except.bind, serializeUncompressedSpill, if_true]
    rw [if_neg (by decide), if_neg (by decide), append_assoc, ← hh, drop_left, hh, hs]
    rfl
  · refine reads_deserializeBuffers block.matchesSchema ?_
    exact hr

/-- A block reads back exactly when the row vector mode is not written, or its buffers were
joined at offsets that are an `int`. -/
theorem Block.roundTrips_iff_joined (hcodec : codec.Lawful) (block : Block) (mode : PayloadMode) (route : Route) :
    block.RoundTrips codec mode route ↔ (route.WritesMode → mode = .rowVector → block.Joined) := by
  cases route with
  | memory type =>
    rw [roundTrips_iff (write_memory type)]
    by_cases htype : type = .uncompressed
    · subst htype
      exact ⟨fun _ h => absurd rfl h, fun _ => serializesBack_uncompressed⟩
    · rw [serializesBack_iff htype hcodec]
      exact ⟨fun h _ => h, fun h => h htype⟩
  | spilledCompressed =>
    rw [roundTrips_iff write_spilledCompressed, serializesBack_iff (by decide) hcodec]
    exact ⟨fun h _ => h, fun h => h trivial⟩
  | spilledUncompressed toBeCompressed hasCodec =>
    refine ⟨fun _ h => h.elim, fun _ => ?_⟩
    by_cases hcopied : toBeCompressed = false ∨ hasCodec = false
    · rw [roundTrips_iff (write_spilledUncompressed_copied hcopied)]
      exact serializesBack_uncompressed
    · obtain ⟨rfl, rfl⟩ : toBeCompressed = true ∧ hasCodec = true := by simpa using hcopied
      exact roundTrips_compressedAtMerge hcodec

def Codec.identity : Codec where
  maxCompressedLen length := length
  compress data _ := .ok data
  decompress data _ := .ok data

theorem Codec.identity_lawful : Codec.identity.Lawful where
  compress_ok data _ _ := ⟨data, rfl⟩
  length_le _ _ _ h := by cases h; exact le_refl _
  ne_nil _ _ _ hne h := by cases h; exact hne
  decompress_compress _ _ _ h := by cases h; rfl

def Block.twoColumns : Block := ⟨[.fixedWidth, .fixedWidth], 1, [none, some [7], none, some [9]], rfl, by decide⟩

theorem Block.twoColumns_roundTrips : Codec.identity.Lawful ∧ Block.twoColumns.Joined ∧
      Block.twoColumns.RoundTrips Codec.identity .rowVector (.memory .toBeCompressed) := by
  have hjoined : Block.twoColumns.Joined := ⟨by decide, by simp [StartsFit, Block.columns, Block.twoColumns, Block.hasComplexType, Buffer.size]⟩
  exact ⟨Codec.identity_lawful, hjoined,
    (Block.roundTrips_iff_joined Codec.identity_lawful Block.twoColumns .rowVector (.memory .toBeCompressed)).mpr
      fun _ _ => hjoined⟩

def Block.oneColumn : Block := ⟨[.fixedWidth], 1, [none, some [7]], rfl, by decide⟩

/-- The two buffers of one column are not joined, but the row vector mode is written. The
reader takes the absent validity for the length buffer. -/
theorem Block.oneColumn_not_roundTrips :
    (Block.oneColumn.write Codec.identity .rowVector [] (.memory .toBeCompressed) >>= fun written =>
        (readBlock Codec.identity Block.oneColumn.schema).run ⟨none, written.1⟩) = .error .invalid ∧
      ¬ Block.oneColumn.RoundTrips Codec.identity .rowVector (.memory .toBeCompressed) := by
  refine ⟨rfl, ?_⟩
  rw [roundTrips_iff (write_memory .toBeCompressed)]
  intro h
  have hjoined := joined_of_serializesBack (by decide) Codec.identity_lawful h
  exact absurd hjoined.1 (by decide)

end Bolt.Shuffle
