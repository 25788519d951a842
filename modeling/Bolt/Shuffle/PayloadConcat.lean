import Bolt.Shuffle.PayloadRead

/-!
# Joined buffers

`concatBuffer` copies the buffers of the simple columns one behind the other, at an offset
that is an `int`. Where every non-empty buffer starts below 2^31, the copy is the
concatenation. Where one starts later, some byte of the value buffer is never written.
-/

namespace Bolt.Shuffle

open Lib.Bytes Lib.Streams List

variable {memory : List (Option UInt8)} {done : List UInt8}

def joined (columns : List Buffer) : List UInt8 := (columns.map fun buffer => buffer.getD []).flatten

/-- Every non-empty buffer starts below 2^31, if the first starts at the given place. -/
def StartsFit : List Buffer → ℕ → Prop
  | [], _ => True
  | buffer :: columns, start => (0 < buffer.size → start < 2 ^ 31) ∧ StartsFit columns (start + buffer.size)

@[simp]
theorem totalSize_nil : totalSize [] = 0 := rfl

@[simp]
theorem totalSize_cons (buffer : Buffer) (buffers : List Buffer) :
    totalSize (buffer :: buffers) = buffer.size + totalSize buffers := by
  simp [totalSize]

@[simp]
theorem totalSize_append (first second : List Buffer) : totalSize (first ++ second) = totalSize first + totalSize second := by
  simp [totalSize]

theorem size_le_totalSize {buffer : Buffer} {buffers : List Buffer} (h : buffer ∈ buffers) :
    buffer.size ≤ totalSize buffers := by
  induction buffers with
  | nil => cases h
  | cons first buffers ih =>
    rw [totalSize_cons]
    rcases mem_cons.mp h with rfl | hm
    · omega
    · have hle := ih hm
      omega

@[simp]
theorem joined_cons (buffer : Buffer) (columns : List Buffer) : joined (buffer :: columns) = buffer.getD [] ++ joined columns := rfl

theorem length_joined (columns : List Buffer) : (joined columns).length = totalSize columns := by
  induction columns with
  | nil => rfl
  | cons buffer columns ih =>
    rw [joined_cons, length_append, totalSize_cons, ih]
    cases buffer <;> rfl

theorem toInt32_of_lt {x : ℕ} (h : x < 2 ^ 31) : toInt32 x = x := by
  unfold toInt32
  rw [Int.bmod_eq_of_le] <;> omega

theorem toInt32_lt (x : ℤ) : toInt32 x < 2 ^ 31 := by
  have hlt := Int.bmod_lt (x := x) (m := 2 ^ 32) (by norm_num)
  unfold toInt32
  omega

theorem toInt32_nil : toInt32 ([] : List UInt8).length = 0 := toInt32_of_lt (show 0 < 2 ^ 31 by norm_num)

/-- The number of bytes that were never written. -/
def unset (memory : List (Option UInt8)) : ℕ := memory.count none

theorem unset_map_some (data : List UInt8) : unset (data.map some) = 0 := by
  rw [unset, count_eq_zero]
  simp

theorem writeAt_unset {memory' : List (Option UInt8)} {offset : ℤ} {data : List UInt8}
    (h : writeAt memory offset data = .ok memory') :
    0 ≤ offset ∧ unset memory = unset memory' + unset ((memory.drop offset.toNat).take data.length) := by
  unfold writeAt at h
  split_ifs at h with hf
  refine ⟨hf.1, ?_⟩
  injection h with h
  subst h
  have hm : memory = memory.take offset.toNat ++
      ((memory.drop offset.toNat).take data.length ++ memory.drop (offset.toNat + data.length)) := by
    rw [← drop_drop, take_append_drop, take_append_drop]
  have hd := unset_map_some data
  unfold unset at hd ⊢
  conv_lhs => rw [hm]
  simp only [count_append, hd]
  omega

variable {columns : List Buffer}

/-- A copy of a list of buffers sets at most as many bytes as they have. -/
theorem copyBuffers_unset {offset : ℤ} {memory' : List (Option UInt8)}
    (h : copyBuffers columns offset memory = .ok memory') : unset memory ≤ unset memory' + totalSize columns := by
  induction columns generalizing offset memory with
  | nil =>
    injection h with h
    rw [h]
    omega
  | cons buffer columns ih =>
    rw [totalSize_cons]
    cases buffer with
    | none =>
      have hr := ih h
      omega
    | some data =>
      unfold copyBuffers at h
      split_ifs at h with hem
      · have hr := ih h
        omega
      · cases hw : writeAt memory offset data with
        | error e => rw [hw] at h; cases h
        | ok written =>
          rw [hw] at h
          have hr := ih h
          obtain ⟨-, hu⟩ := writeAt_unset hw
          have hl : unset ((memory.drop offset.toNat).take data.length) ≤ data.length :=
            count_le_length.trans (by rw [length_take]; omega)
          change _ ≤ _ + (data.length + _)
          omega

theorem writeAt_next {data : List UInt8} {left : ℕ} :
    writeAt (done.map some ++ replicate (data.length + left) none) done.length data =
      .ok ((done ++ data).map some ++ replicate left none) := by
  have hl : (done.map some).length = done.length := length_map some
  unfold writeAt
  rw [if_pos (by simp), Int.toNat_natCast, map_append, ← hl, take_left, drop_append, drop_of_length_le (by omega)]
  simp

theorem copyBuffers_ok (h : StartsFit columns done.length) :
    copyBuffers columns (toInt32 done.length) (done.map some ++ replicate (totalSize columns) none) =
      .ok ((done ++ joined columns).map some) := by
  induction columns generalizing done with
  | nil => simp [copyBuffers, joined]
  | cons buffer columns ih =>
    obtain ⟨hs, hr⟩ := h
    cases buffer with
    | none => simpa [copyBuffers, Buffer.size] using ih hr
    | some data =>
      unfold copyBuffers
      by_cases hem : data.length = 0
      · obtain rfl := length_eq_zero_iff.mp hem
        simpa [Buffer.size] using ih hr
      · have hlt : done.length < 2 ^ 31 := hs (Nat.pos_of_ne_zero hem)
        rw [if_neg hem, totalSize_cons, toInt32_of_lt hlt]
        change (writeAt (done.map some ++ replicate (data.length + totalSize columns) none) done.length data >>= _) = _
        rw [writeAt_next]
        have hd : StartsFit columns (done ++ data).length := by
          rw [length_append]
          exact hr
        have hn := ih hd
        simpa [bind, Except.bind] using hn

/-- A non-empty buffer that starts too late leaves a byte unset. -/
theorem copyBuffers_unset_pos (h : ¬ StartsFit columns done.length)
    (hcopy : copyBuffers columns (toInt32 done.length) (done.map some ++ replicate (totalSize columns) none) =
      .ok memory) : 0 < unset memory := by
  induction columns generalizing done with
  | nil => exact absurd trivial h
  | cons buffer columns ih =>
    cases buffer with
    | none =>
      have hr : ¬ StartsFit columns done.length := fun hf => h ⟨fun hp => absurd hp (lt_irrefl 0), hf⟩
      refine ih hr ?_
      simpa [copyBuffers, Buffer.size] using hcopy
    | some data =>
      unfold copyBuffers at hcopy
      by_cases hem : data.length = 0
      · obtain rfl := length_eq_zero_iff.mp hem
        have hr : ¬ StartsFit columns done.length := fun hf => h ⟨fun hp => absurd hp (lt_irrefl 0), hf⟩
        refine ih hr ?_
        simpa [Buffer.size] using hcopy
      · rw [if_neg hem, totalSize_cons] at hcopy
        change (writeAt (done.map some ++ replicate (data.length + totalSize columns) none)
          (toInt32 done.length) data >>= _) = _ at hcopy
        by_cases hlt : done.length < 2 ^ 31
        · have hr : ¬ StartsFit columns (done ++ data).length := by
            rw [length_append]
            exact fun hf => h ⟨fun _ => hlt, hf⟩
          refine ih hr ?_
          rw [toInt32_of_lt hlt, writeAt_next] at hcopy
          rw [length_append]
          exact hcopy
        · cases hw : writeAt (done.map some ++ replicate (data.length + totalSize columns) none)
            (toInt32 done.length) data with
          | error e => rw [hw] at hcopy; cases hcopy
          | ok written =>
            rw [hw] at hcopy
            have hcop := copyBuffers_unset hcopy
            obtain ⟨ho, hu⟩ := writeAt_unset hw
            -- the copy starts on a byte that is already there
            have hl := toInt32_lt done.length
            obtain ⟨offset, ho'⟩ := Int.eq_ofNat_of_zero_le ho
            rw [ho'] at hu hl
            have hb : offset < (done.map some).length := by
              rw [length_map]
              omega
            have hov : unset (((done.map some ++ replicate (data.length + totalSize columns) none).drop
                (offset : ℤ).toNat).take data.length) < data.length := by
              rw [Int.toNat_natCast, drop_append_of_le_length hb.le, drop_eq_getElem_cons hb]
              obtain ⟨count, hco⟩ := Nat.exists_eq_succ_of_ne_zero hem
              rw [hco, cons_append, take_succ_cons, unset, count_cons_of_ne (by simp)]
              refine Nat.lt_succ_of_le (count_le_length.trans ?_)
              rw [length_take]
              omega
            have hini : unset (done.map some ++ replicate (data.length + totalSize columns) none) =
                data.length + totalSize columns := by
              have hd := unset_map_some done
              unfold unset at hd ⊢
              rw [count_append, hd, count_replicate_self, Nat.zero_add]
            omega

/-! ## Reading the copy as a whole -/

theorem initialized_map_some (data : List UInt8) : initialized (data.map some) = .ok data := by
  unfold initialized
  induction data with
  | nil => rfl
  | cons byte data ih =>
    rw [map_cons, mapM_cons, ih]
    rfl

theorem initialized_of_unset (h : 0 < unset memory) : initialized memory = .error .uninitialized := by
  unfold initialized
  induction memory with
  | nil => exact absurd h (lt_irrefl 0)
  | cons byte memory ih =>
    rw [mapM_cons]
    cases byte with
    | none => rfl
    | some byte =>
      rw [ih h]
      rfl

section Concat

variable {columns complex : List Buffer} {hasComplexType : Bool} (hc : complex.length = hasComplexType.toNat)
include hc

theorem concatBuffer_append : concatBuffer (columns ++ complex) hasComplexType = do
      let original ← copyBuffers columns 0 (replicate (totalSize columns) none)
      let original ← initialized original
      return [some ((lengthWords columns hasComplexType).map int64Bytes).flatten, some original] ++ complex := by
  have hl : (columns ++ complex).length - hasComplexType.toNat = columns.length := by
    rw [length_append, hc, Nat.add_sub_cancel]
  unfold concatBuffer
  simp only [hl, take_left, drop_left]

theorem concatBuffer_ok (hf : StartsFit columns 0) : concatBuffer (columns ++ complex) hasComplexType =
      .ok ([some ((lengthWords columns hasComplexType).map int64Bytes).flatten, some (joined columns)] ++ complex) := by
  have hco := copyBuffers_ok (show StartsFit columns [].length from hf)
  rw [toInt32_nil, map_nil, nil_append, nil_append] at hco
  rw [concatBuffer_append hc, hco]
  simp only [bind, Except.bind, initialized_map_some, pure, Except.pure]

theorem concatBuffer_ne_ok (hf : ¬ StartsFit columns 0) (buffers : List Buffer) :
    concatBuffer (columns ++ complex) hasComplexType ≠ .ok buffers := by
  rw [concatBuffer_append hc]
  cases hco : copyBuffers columns 0 (replicate (totalSize columns) none) with
  | error e => exact fun h => by cases h
  | ok memory =>
    have hu := copyBuffers_unset_pos (show ¬ StartsFit columns [].length from hf) hco
    simp only [bind, Except.bind, initialized_of_unset hu]
    exact fun h => by cases h

end Concat

theorem lengthAt_word {before after : List ℤ} {word : ℤ} (hl : -2 ^ 63 ≤ word) (hh : word < 2 ^ 63) :
    lengthAt ((before ++ word :: after).map int64Bytes).flatten before.length = .ok word := by
  have hb : ((before.map int64Bytes).flatten).length = 8 * before.length := by
    induction before with
    | nil => rfl
    | cons first before ih =>
      rw [map_cons, flatten_cons, length_append, ih, length_int64Bytes, length_cons]
      omega
  have hw : (int64Bytes word).length = 8 := length_int64Bytes word
  unfold lengthAt
  rw [map_append, flatten_append, map_cons, flatten_cons, if_pos (by
    simp only [length_append, hb, hw]
    omega), ← hb, drop_left, ← hw, take_left, int64Value_int64Bytes hl hh]

theorem lengthEntry_bounds {buffer : Buffer} (hs : buffer.size < 2 ^ 63) :
    -2 ^ 63 ≤ lengthEntry buffer ∧ lengthEntry buffer < 2 ^ 63 := by
  cases buffer with
  | none => decide
  | some data =>
    change data.length < 2 ^ 63 at hs
    unfold lengthEntry kZeroLengthBuffer
    dsimp only
    split_ifs <;> omega

theorem bufferAt_joined (done : List UInt8) (buffer : Buffer) (columns : List Buffer) :
    bufferAt (done ++ joined (buffer :: columns)) done.length (lengthEntry buffer) = .ok buffer := by
  cases buffer with
  | none => rfl
  | some data =>
    rw [joined_cons, Option.getD_some]
    by_cases hem : data.length = 0
    · obtain rfl := length_eq_zero_iff.mp hem
      rfl
    · have hen : lengthEntry (some data) = data.length := if_neg hem
      unfold bufferAt sliceAt
      rw [hen, if_neg (by unfold kNullBuffer; omega), if_neg (by unfold kZeroLengthBuffer; omega), if_pos (by simp),
        drop_left, Int.toNat_natCast, take_left]
      rfl

/-- The lengths cut the joined buffers at the places where they were joined. -/
theorem sliceBuffers_joined (hs : ∀ buffer ∈ columns, buffer.size < 2 ^ 63) (before : List ℤ) (done : List UInt8) :
    sliceBuffers ((before ++ columns.map lengthEntry).map int64Bytes).flatten (done ++ joined columns) columns.length
      before.length done.length = .ok (columns, done.length + totalSize columns) := by
  induction columns generalizing before done with
  | nil => rfl
  | cons buffer columns ih =>
    have hbo := lengthEntry_bounds (hs buffer (by simp))
    have hw : lengthAt ((before ++ (buffer :: columns).map lengthEntry).map int64Bytes).flatten before.length =
        .ok (lengthEntry buffer) := lengthAt_word hbo.1 hbo.2
    have hr := ih (fun b hb => hs b (mem_cons_of_mem _ hb)) (before ++ [lengthEntry buffer]) (done ++ buffer.getD [])
    have hl : (buffer.getD []).length = buffer.size := by cases buffer <;> rfl
    rw [append_assoc, append_assoc, singleton_append, length_append, length_append,
      length_singleton, hl, ← map_cons, ← joined_cons] at hr
    rw [length_cons, sliceBuffers, hw]
    simp only [bind, Except.bind, bufferAt_joined, hr, pure, Except.pure]
    rw [totalSize_cons, Nat.add_assoc]

theorem sliceBuffers_totalSize {lengths values : List UInt8} {count i bufferOffset last : ℕ} {buffers : List Buffer}
    (h : sliceBuffers lengths values count i bufferOffset = .ok (buffers, last)) : last = bufferOffset + totalSize buffers := by
  induction count generalizing i bufferOffset buffers last with
  | zero =>
    injection h with h
    injection h with hb hl
    subst hb hl
    rfl
  | succ count ih =>
    unfold sliceBuffers at h
    cases hlen : lengthAt lengths i with
    | error e => rw [hlen] at h; cases h
    | ok length =>
      simp only [hlen, bind, Except.bind] at h
      cases hbuffer : bufferAt values bufferOffset length with
      | error e => rw [hbuffer] at h; cases h
      | ok buffer =>
        simp only [hbuffer] at h
        cases hr : sliceBuffers lengths values count (i + 1) (bufferOffset + buffer.size) with
        | error e => rw [hr] at h; cases h
        | ok rest =>
          rw [hr] at h
          injection h with h
          injection h with hb hl
          have hm := ih (show sliceBuffers lengths values count (i + 1) (bufferOffset + buffer.size) = .ok (rest.1, rest.2) from hr)
          rw [← hb, ← hl, totalSize_cons, hm, Nat.add_assoc]

theorem cutBuffers_joined (hasComplexType : Bool) (hsiz : totalSize columns < 2 ^ 63)
    (hco : columns.length < 2 ^ 63) :
    cutBuffers ((lengthWords columns hasComplexType).map int64Bytes).flatten (joined columns) =
      .ok (columns, hasComplexType.toNat) := by
  have hsi : ∀ buffer ∈ columns, buffer.size < 2 ^ 63 := fun buffer hm => (size_le_totalSize hm).trans_lt hsiz
  have hs := sliceBuffers_joined hsi [(totalSize columns : ℤ), columns.length, hasComplexType.toNat] []
  change sliceBuffers ((lengthWords columns hasComplexType).map int64Bytes).flatten (joined columns) columns.length 3 0 =
    .ok (columns, 0 + totalSize columns) at hs
  have hl : lengthAt ((lengthWords columns hasComplexType).map int64Bytes).flatten 0 = .ok (totalSize columns : ℤ) :=
    @lengthAt_word [] _ _ (by omega) (by omega)
  have hcol : lengthAt ((lengthWords columns hasComplexType).map int64Bytes).flatten 1 = .ok columns.length :=
    @lengthAt_word [(totalSize columns : ℤ)] _ _ (by omega) (by omega)
  have hc : lengthAt ((lengthWords columns hasComplexType).map int64Bytes).flatten 2 = .ok hasComplexType.toNat :=
    @lengthAt_word [(totalSize columns : ℤ), columns.length] _ _ (by omega)
      (by have := Bool.toNat_le hasComplexType; omega)
  unfold cutBuffers
  simp only [hl, hcol, hc, bind, Except.bind]
  rw [if_neg (by rw [length_joined]; exact not_not.mpr rfl), Int.toNat_natCast, hs]
  dsimp only
  rw [Nat.zero_add, if_neg (not_not.mpr rfl)]
  rfl

theorem cutBuffers_totalSize {lengths values : List UInt8} {cut : List Buffer × ℤ} (h : cutBuffers lengths values = .ok cut) :
    totalSize cut.1 = values.length := by
  unfold cutBuffers at h
  cases hl : lengthAt lengths 0 with
  | error e => rw [hl] at h; cases h
  | ok uncompressLength =>
    simp only [hl, bind, Except.bind] at h
    cases hco : lengthAt lengths 1 with
    | error e => rw [hco] at h; cases h
    | ok valueBufferLength =>
      simp only [hco] at h
      cases hc : lengthAt lengths 2 with
      | error e => rw [hc] at h; cases h
      | ok complexTypeBuffer =>
        simp only [hc] at h
        split_ifs at h with ht
        cases hs : sliceBuffers lengths values valueBufferLength.toNat 3 0 with
        | error e => rw [hs] at h; cases h
        | ok slices =>
          simp only [hs] at h
          split_ifs at h with ho
          injection h with h
          subst h
          have hm := sliceBuffers_totalSize
            (show sliceBuffers lengths values valueBufferLength.toNat 3 0 = .ok (slices.1, slices.2) from hs)
          dsimp only
          omega

/-! ## The row vector mode -/

theorem reads_deserializeRowVectorModeBuffers {codec : Codec} {columns complex : List Buffer} {hasComplexType : Bool}
    (hc : complex.length = hasComplexType.toNat) (hs : totalSize columns < 2 ^ 63) (hco : columns.length < 2 ^ 63)
    {body : List UInt8}
    (hb : ReadsAll Source.bytes (readCompressedBuffer codec) body
      ([some ((lengthWords columns hasComplexType).map int64Bytes).flatten, some (joined columns)] ++ complex)) :
    Reads Source.bytes (deserializeRowVectorModeBuffers codec) body (columns ++ complex) := by
  have hcu := cutBuffers_joined hasComplexType hs hco
  obtain ⟨first, others, hw⟩ : ∃ first others, ((lengthWords columns hasComplexType).map int64Bytes).flatten = first :: others := by
    refine exists_cons_of_length_pos ?_
    simp [lengthWords]
  cases hb with
  | cons hl hb =>
    cases hb with
    | cons hv hb =>
      refine hl.bind (hv.bind ?_)
      refine (Reads.lift Source.bytes hcu).bind ?_
      cases hasComplexType with
      | false =>
        obtain rfl := length_eq_zero_iff.mp hc
        cases hb with
        | nil =>
          rw [append_nil]
          exact Reads.pure Source.bytes columns
      | true =>
        obtain ⟨buffer, rfl⟩ := length_eq_one_iff.mp hc
        cases hb with
        | cons hbuffer hb =>
          cases hb with
          | nil =>
            rw [append_nil]
            have hd := hbuffer.map fun buffer => columns ++ [buffer]
            exact hd

end Bolt.Shuffle
