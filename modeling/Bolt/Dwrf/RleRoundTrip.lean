import Bolt.Dwrf.BooleanRleDecoding

/-!
# Round trip of the byte and boolean encodings

Values added in batches are read back from the flushed stream by any requests, from its
start or from the position recorded after any of the batches.
-/

namespace Bolt.Dwrf

open Lib Lib.Chunks Lib.Spread Lib.BitMemory BooleanRleDecoder List BooleanRleEncoder ByteRleEncoder

/-- A call of a decoder: `next` into an output, or `skip`. -/
inductive Request where
  | next (numValues : ℕ) (nulls : Option (ℕ → Bool)) (data : ℕ → Byte)
  | skip (numValues : ℕ)

namespace Request

def wanted : List Request → ℕ
  | [] => 0
  | .next numValues nulls _ :: requests => rank (presentIn nulls) numValues + wanted requests
  | .skip numValues :: requests => numValues + wanted requests

section
variable {δ : Type} (next : δ → (ℕ → Byte) → ℕ → Option (ℕ → Bool) → Option (δ × (ℕ → Byte))) (skip : δ → ℕ → δ)

/-- The outputs of a decoder's calls, one after the other. -/
def serve : δ → List Request → Option (List (ℕ → Byte))
  | _, [] => some []
  | d, .next numValues nulls data :: requests => do
    let (d, output) ← next d data numValues nulls
    let outputs ← serve d requests
    return output :: outputs
  | d, .skip numValues :: requests => serve (skip d numValues) requests

variable {α : Type} (answer : (ℕ → Bool) → List α → ℕ → (ℕ → Byte) → (ℕ → Byte))

/-- The outputs that values give, taken off the front one request after the other. -/
def answers : List α → List Request → List (ℕ → Byte)
  | _, [] => []
  | values, .next numValues nulls data :: requests =>
    answer (presentIn nulls) values numValues data :: answers (values.drop (rank (presentIn nulls) numValues)) requests
  | values, .skip numValues :: requests => answers (values.drop numValues) requests

variable {next skip answer} (At : δ → List α → Prop)

/-- A decoder whose calls keep to the values it is at. -/
theorem serve_eq
    (hn : ∀ {d values}, At d values → ∀ nulls num data, rank (presentIn nulls) num ≤ values.length →
      ∃ d', next d data num nulls = some (d', answer (presentIn nulls) values num data) ∧
        At d' (values.drop (rank (presentIn nulls) num)))
    (hs : ∀ {d values}, At d values → ∀ {num}, num ≤ values.length → At (skip d num) (values.drop num))
    (reqs : List Request) : ∀ {d values}, At d values → wanted reqs ≤ values.length →
      serve next skip d reqs = some (answers answer values reqs) := by
  induction reqs with
  | nil => intro d values _ _; rfl
  | cons request reqs ih =>
    intro d values h hl
    cases request with
    | next num nulls data =>
      rw [wanted] at hl
      obtain ⟨d', hd', hen⟩ := hn h nulls num data (by omega)
      rw [serve, hd', Option.bind_eq_bind, Option.bind_some]
      simp only [ih hen (by rw [length_drop]; omega), Option.bind_eq_bind, Option.bind_some]
      rfl
    | skip num =>
      rw [wanted] at hl
      rw [serve, ih (hs h (by omega)) (by rw [length_drop]; omega)]
      rfl

end

end Request

structure ByteBatch where
  valueAt : ℕ → Byte
  ranges : List ℕ
  nulls : Option (ℕ → Bool)

namespace ByteBatch

def values (batch : ByteBatch) : List Byte := addedValues batch.valueAt batch.ranges batch.nulls

def encode (e : ByteRleEncoder) (batches : List ByteBatch) : ByteRleEncoder :=
  batches.foldl (fun e batch => e.add batch.valueAt batch.ranges batch.nulls) e

theorem wrote_encode (batches : List ByteBatch) : ∀ {e : ByteRleEncoder}, e.Valid →
    e.Wrote (encode e batches) (batches.flatMap values) := by
  induction batches with
  | nil => intro e h; exact ⟨h, Emits.refl _⟩
  | cons batch batches ih =>
    intro e h
    have ha := Valid.wrote_add batch.valueAt batch.nulls batch.ranges h
    exact ha.trans (ih ha.valid)

theorem encode_append (e : ByteRleEncoder) (before after : List ByteBatch) :
    encode e (before ++ after) = encode (encode e before) after := foldl_append

def stream (batches : List ByteBatch) : List Byte := (encode {} batches).flush.output

end ByteBatch

/-- Behind a position recorded while encoding, the decoder has ahead what the encoder held
back there and what came after. -/
theorem ahead_behind {e e' : ByteRleEncoder} {added : List Byte} (h : e.Wrote e' added) (hen : e'.pending = [])
    (s : Seekable e'.output) {d : ByteRleDecoder} (hinp : d.input = s.seek e.output.length) (hz : d.remainingValues = 0) :
    d.Ahead (e.pending ++ added) := by
  obtain ⟨runs, hb, hv⟩ := h.emits.behind hen
  refine ⟨[], runs, ?_, hv.symm⟩
  rw [ByteRleDecoder.Holds, hinp, Source.rest_seek, hz]
  split <;> exact ⟨rfl, hb⟩

theorem ByteBatch.at_seek (before after : List ByteBatch) (s : Seekable (stream (before ++ after))) (d : ByteRleDecoder) :
    (d.seekToRowGroup s (encode {} before).recordPosition).At (after.flatMap values) := by
  have hb := wrote_encode before ByteRleEncoder.valid_empty
  have ha := wrote_encode after hb.valid
  have hen := ha.trans ha.valid.wrote_writeValues
  rw [append_nil, ← encode_append] at hen
  refine ⟨_, ahead_behind hen (pending_writeValues _) s rfl rfl, ?_, ?_⟩
  · rw [length_append, length_pending]
    exact Nat.le_add_right _ _
  · exact (drop_left' (length_pending _)).symm

inductive BooleanBatch where
  | add (data : Option (ℕ → Byte)) (ranges : List ℕ) (nulls : Option (ℕ → Bool))
  | addBits (data : Option (ℕ → Bool)) (ranges : List ℕ) (nulls : Option (ℕ → Bool)) (invert : Bool)

def bitsOf (byte : Byte) : List Bool := (range 8).map byte.getMsbD

theorem getD_flatMap_bitsOf (bytes : List Byte) : ∀ j,
    (bytes.flatMap bitsOf).getD j false = (bytes.getD (j / 8) 0).getMsbD (j % 8) := by
  induction bytes with
  | nil => intro j; simp
  | cons byte bytes ih =>
    intro j
    have hl : (bitsOf byte).length = 8 := by simp [bitsOf]
    rw [flatMap_cons]
    by_cases hj : j < 8
    · rw [getD_append _ _ _ _ (by omega), show j / 8 = 0 by omega, show j % 8 = j by omega]
      simp [bitsOf, hj]
    · rw [getD_append_right _ _ _ _ (by omega), hl, ih, show j / 8 = (j - 8) / 8 + 1 by omega,
        show j % 8 = (j - 8) % 8 by omega, getD_cons_succ]

theorem length_flatMap_bitsOf (bytes : List Byte) : (bytes.flatMap bitsOf).length = 8 * bytes.length := by
  induction bytes with
  | nil => rfl
  | cons byte bytes ih => rw [flatMap_cons, length_append, ih, length_cons]; simp [bitsOf]; omega

namespace BooleanRleEncoder

variable {e : BooleanRleEncoder}

def held (e : BooleanRleEncoder) : List Bool := (range (8 - e.bitsRemained)).map e.current.getMsbD

structure Valid (e : BooleanRleEncoder) : Prop where
  base : e.toByteRleEncoder.Valid
  low : 0 < e.bitsRemained
  high : e.bitsRemained ≤ 8
  clear : ∀ t < e.bitsRemained, e.current.getLsbD t = false

def Wrote (e e' : BooleanRleEncoder) (added : List Bool) : Prop :=
  e'.Valid ∧ ∃ bytes, e.toByteRleEncoder.Wrote e'.toByteRleEncoder bytes ∧ bytes.flatMap bitsOf ++ e'.held = e.held ++ added

theorem Valid.wrote_nil (h : e.Valid) : e.Wrote e [] :=
  ⟨h, [], ⟨h.base, Emits.refl _⟩, by simp⟩

theorem Wrote.trans {e' e'' : BooleanRleEncoder} {added added' : List Bool} (h : e.Wrote e' added)
    (h' : e'.Wrote e'' added') :
    e.Wrote e'' (added ++ added') := by
  obtain ⟨-, bytes, hb, hbi⟩ := h
  obtain ⟨hv, bytes', hb', hbi'⟩ := h'
  refine ⟨hv, bytes ++ bytes', hb.trans hb', ?_⟩
  rw [flatMap_append, append_assoc, hbi', ← append_assoc, hbi, append_assoc]

theorem valid_empty : ({} : BooleanRleEncoder).Valid := by
  refine ⟨ByteRleEncoder.valid_empty, by decide, le_rfl, fun t _ => ?_⟩
  exact BitVec.getLsbD_zero

theorem wrote_writeByte (h : e.toByteRleEncoder.Valid) :
    e.writeByte.Valid ∧ e.toByteRleEncoder.Wrote e.writeByte.toByteRleEncoder [e.current] ∧ e.writeByte.held = [] := by
  have hw := h.wrote_write e.current
  exact ⟨⟨hw.valid, Nat.succ_pos 7, le_rfl, fun t _ => BitVec.getLsbD_zero⟩, hw, rfl⟩

theorem Valid.wrote_writeBool (h : e.Valid) (val : Bool) : e.Wrote (e.writeBool val) [val] := by
  obtain ⟨hb, hl, hhi, hcl⟩ := h
  obtain ⟨r, hr⟩ : ∃ r, e.bitsRemained = r + 1 := ⟨e.bitsRemained - 1, by omega⟩
  obtain ⟨current, hc⟩ : ∃ current, current = e.current ||| ((if val then 1#8 else 0#8) <<< r) := ⟨_, rfl⟩
  have hbi : ∀ t < 8, current.getLsbD t = if t = r then val else e.current.getLsbD t := by
    intro t ht
    cases val <;> simp <;> grind
  have hh : (range (8 - r)).map current.getMsbD = e.held ++ [val] := by
    rw [held, hr, show 8 - r = 8 - (r + 1) + 1 by omega, range_succ, map_append]
    congr 1
    · refine map_congr_left fun k hk => ?_
      rw [mem_range] at hk
      rw [BitVec.getMsbD, BitVec.getMsbD, hbi _ (by omega), if_neg (by omega)]
    · rw [map_singleton, BitVec.getMsbD, hbi _ (by omega), if_pos (by omega), decide_eq_true (by omega), Bool.true_and]
  rw [writeBool, hr, Nat.add_sub_cancel, ← hc]
  split
  · next hz =>
    subst hz
    obtain ⟨hv, hwrote, hn⟩ := wrote_writeByte (e := { e with bitsRemained := 0, current }) hb
    refine ⟨hv, [current], hwrote, ?_⟩
    rw [hn, ← hh]
    simp [bitsOf]
  · next hne =>
    refine ⟨⟨hb, by simp only; omega, by simp only; omega, fun t ht => ?_⟩, [], ⟨hb, Emits.refl _⟩, hh⟩
    simp only at ht ⊢
    rw [hbi t (by omega), if_neg (by omega), hcl t (by omega)]

theorem Valid.wrote_addValues (valueAt : ℕ → Bool) (nulls : Option (ℕ → Bool)) (ranges : List ℕ) : ∀ {e : BooleanRleEncoder},
    e.Valid → e.Wrote (e.addValues valueAt ranges nulls) (addedValues valueAt ranges nulls) := by
  induction ranges with
  | nil => intro e h; cases nulls <;> exact h.wrote_nil
  | cons position ranges ih =>
    intro e h
    have hw := h.wrote_writeBool (valueAt position)
    cases nulls with
    | none => exact hw.trans (ih hw.1)
    | some present =>
      cases hp : present position with
      | false => simpa [addValues, addedValues, hp] using ih h
      | true => simpa [addValues, addedValues, hp] using hw.trans (ih hw.1)

theorem Valid.wrote_flush (h : e.Valid) :
    e.flush.pending = [] ∧ ∃ bytes padding, e.toByteRleEncoder.Wrote e.flush.toByteRleEncoder bytes ∧
      bytes.flatMap bitsOf = e.held ++ padding := by
  refine ⟨pending_writeValues _, ?_⟩
  rw [flush]
  split
  · obtain ⟨hv, hwrote, -⟩ := wrote_writeByte h.base
    refine ⟨_, (bitsOf e.current).drop (8 - e.bitsRemained), hwrote.trans hv.base.wrote_writeValues, ?_⟩
    have hh : e.held = (bitsOf e.current).take (8 - e.bitsRemained) := by
      rw [held, bitsOf, ← map_take, take_range, Nat.min_eq_left (by omega)]
    rw [hh, take_append_drop]
    simp
  · next hf => exact ⟨[], [], h.base.wrote_writeValues, by rw [held, not_not.mp hf]; rfl⟩

end BooleanRleEncoder

namespace BooleanBatch

def values : BooleanBatch → List Bool
  | .add data ranges nulls => addedValues (byteValue data) ranges nulls
  | .addBits data ranges nulls invert => addedValues (bitValue data invert) ranges nulls

def apply (e : BooleanRleEncoder) : BooleanBatch → BooleanRleEncoder
  | .add data ranges nulls => e.add data ranges nulls
  | .addBits data ranges nulls invert => e.addBits data ranges nulls invert

def encode (e : BooleanRleEncoder) (batches : List BooleanBatch) : BooleanRleEncoder := batches.foldl apply e

theorem wrote_encode (batches : List BooleanBatch) : ∀ {e : BooleanRleEncoder}, e.Valid →
    e.Wrote (encode e batches) (batches.flatMap values) := by
  induction batches with
  | nil => intro e h; exact h.wrote_nil
  | cons batch batches ih =>
    intro e h
    have hb : e.Wrote (apply e batch) batch.values := by
      cases batch <;> exact h.wrote_addValues _ _ _
    exact hb.trans (ih hb.1)

theorem encode_append (e : BooleanRleEncoder) (before after : List BooleanBatch) :
    encode e (before ++ after) = encode (encode e before) after := foldl_append

def stream (batches : List BooleanBatch) : List Byte := (encode {} batches).flush.output

theorem at_seek (before after : List BooleanBatch) (s : Seekable (stream (before ++ after))) (d : BooleanRleDecoder) :
    ∃ d', d.seekToRowGroup s (encode {} before).recordPosition = some d' ∧ d'.At (after.flatMap values) := by
  have hbe := wrote_encode before valid_empty
  obtain ⟨hv, bytes, hwrote, hb⟩ := wrote_encode after hbe.1
  obtain ⟨hpe, last, padding, hla, hp⟩ := hv.wrote_flush
  have hen := hwrote.trans hla
  rw [← encode_append] at hen hpe
  obtain ⟨e, he⟩ : ∃ e, e = encode {} before := ⟨_, rfl⟩
  rw [← he] at hb hp hen ⊢
  have hah := ahead_behind hen hpe s
    (d := { d.toByteRleDecoder.seekToRowGroup s e.toByteRleEncoder.recordPosition with
      pendingSkip := 8 * e.numLiterals + (8 - e.bitsRemained) }) rfl rfl
  -- The bits ahead are those of the bytes held back, of the byte not full, and of what came after.
  obtain ⟨all, ha⟩ : ∃ all, all = e.pending.flatMap bitsOf ++ e.held ++ after.flatMap values := ⟨_, rfl⟩
  have hf : (e.pending ++ (bytes ++ last)).flatMap bitsOf = all ++ padding := by
    rw [flatMap_append, flatMap_append, hp, ← append_assoc (bytes.flatMap bitsOf), hb, ha]
    simp
  have hl : (e.pending.flatMap bitsOf ++ e.held).length = 8 * e.numLiterals + (8 - e.bitsRemained) := by
    rw [length_append, length_flatMap_bitsOf, length_pending, held, length_map, length_range]
  refine ⟨_, if_pos (Nat.sub_le _ _), all, ⟨Nat.succ_pos 7, _, hah, ?_, fun j hj => ?_⟩, ?_, ?_⟩
  · rw [Nat.zero_add, ← length_flatMap_bitsOf, hf, length_append]
    exact Nat.le_add_right _ _
  · rw [bitAhead, shifted, if_neg (Nat.not_lt_zero j), Nat.sub_zero, ← getD_flatMap_bitsOf, hf, getD_append _ _ _ _ hj]
  · rw [ha, length_append, hl]
    exact Nat.le_add_right _ _
  · rw [ha]
    exact (drop_left' hl).symm

end BooleanBatch

open Request in
/-- Bytes and booleans added in batches are read back by any requests that the values
suffice for, from the start of the stream and from the position recorded between batches. -/
theorem rle_roundTrip (hasBmi2 : Bool) (d : ByteRleDecoder) (b : BooleanRleDecoder) (requests : List Request) :
    (∀ (before after : List ByteBatch) (s : Seekable (ByteBatch.stream (before ++ after))),
      (wanted requests ≤ ((before ++ after).flatMap ByteBatch.values).length →
        serve ByteRleDecoder.next ByteRleDecoder.skip { input := s.seek 0 } requests =
          some (answers ByteRleDecoder.answer ((before ++ after).flatMap ByteBatch.values) requests)) ∧
      (wanted requests ≤ (after.flatMap ByteBatch.values).length →
        serve ByteRleDecoder.next ByteRleDecoder.skip
            (d.seekToRowGroup s (ByteBatch.encode {} before).recordPosition) requests =
          some (answers ByteRleDecoder.answer (after.flatMap ByteBatch.values) requests))) ∧
    ∀ (before after : List BooleanBatch) (s : Seekable (BooleanBatch.stream (before ++ after))),
      (wanted requests ≤ ((before ++ after).flatMap BooleanBatch.values).length →
        serve (next hasBmi2) skip { input := s.seek 0 } requests =
          some (answers answer ((before ++ after).flatMap BooleanBatch.values) requests)) ∧
      (wanted requests ≤ (after.flatMap BooleanBatch.values).length →
        (b.seekToRowGroup s (BooleanBatch.encode {} before).recordPosition).bind
            (serve (next hasBmi2) skip · requests) =
          some (answers answer (after.flatMap BooleanBatch.values) requests)) := by
  have hbyte : ∀ {d values}, ByteRleDecoder.At d values → _ :=
    serve_eq ByteRleDecoder.At ByteRleDecoder.At.next ByteRleDecoder.At.skip requests
  have hboolean : ∀ {d values}, At d values → _ :=
    serve_eq At (At.next hasBmi2) At.skip requests
  refine ⟨fun before after s => ⟨fun h => ?_, fun h => ?_⟩, fun before after s => ⟨fun h => ?_, fun h => ?_⟩⟩
  · exact hbyte (ByteBatch.at_seek [] (before ++ after) s { input := s.seek 0 }) h
  · exact hbyte (ByteBatch.at_seek before after s d) h
  · obtain ⟨d', hd', hat⟩ := BooleanBatch.at_seek [] (before ++ after) s { input := s.seek 0 }
    obtain rfl := Option.some.inj hd'
    exact hboolean hat h
  · obtain ⟨d', hd', hat⟩ := BooleanBatch.at_seek before after s b
    rw [hd', Option.bind_some]
    exact hboolean hat h

def sampleBytes : ByteBatch := ⟨fun i => BitVec.ofNat 8 (i / 4), range 9, some (· != 2)⟩

def sampleBooleans : BooleanBatch := .addBits (some (· % 3 == 0)) (range 9) (some (· != 2)) true

def sampleRequests : List Request := [.skip 2, .next 5 (some (· != 1)) fun _ => 0xff]

open Request in
theorem rle_roundTrip_sample : serve ByteRleDecoder.next ByteRleDecoder.skip
        { input := (Seekable.whole (ByteBatch.stream ([sampleBytes] ++ [sampleBytes]))).seek 0 } sampleRequests =
      some (answers ByteRleDecoder.answer ([sampleBytes, sampleBytes].flatMap ByteBatch.values)
        sampleRequests) ∧
    serve ByteRleDecoder.next ByteRleDecoder.skip
        (({ input := ⟨[], [], forall_mem_nil _⟩ } : ByteRleDecoder).seekToRowGroup
          (Seekable.whole (ByteBatch.stream ([sampleBytes] ++ [sampleBytes]))) (ByteBatch.encode {} [sampleBytes]).recordPosition)
        sampleRequests =
      some (answers ByteRleDecoder.answer ([sampleBytes].flatMap ByteBatch.values)
        sampleRequests) ∧
    serve (next true) skip
        { input := (Seekable.whole (BooleanBatch.stream ([sampleBooleans] ++ [sampleBooleans]))).seek 0 } sampleRequests =
      some (answers answer ([sampleBooleans, sampleBooleans].flatMap BooleanBatch.values) sampleRequests) ∧
    (({ input := ⟨[], [], forall_mem_nil _⟩ } : BooleanRleDecoder).seekToRowGroup
          (Seekable.whole (BooleanBatch.stream ([sampleBooleans] ++ [sampleBooleans])))
          (BooleanBatch.encode {} [sampleBooleans]).recordPosition).bind
        (serve (next true) skip · sampleRequests) =
      some (answers answer ([sampleBooleans].flatMap BooleanBatch.values) sampleRequests) := by
  have h := rle_roundTrip true { input := ⟨[], [], forall_mem_nil _⟩ } { input := ⟨[], [], forall_mem_nil _⟩ } sampleRequests
  exact ⟨(h.1 [sampleBytes] [sampleBytes] _).1 (by decide), (h.1 [sampleBytes] [sampleBytes] _).2 (by decide),
    (h.2 [sampleBooleans] [sampleBooleans] _).1 (by decide), (h.2 [sampleBooleans] [sampleBooleans] _).2 (by decide)⟩

end Bolt.Dwrf
