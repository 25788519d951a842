import Bolt.RadixSort.KeyCompare

/-!
# Loading words of a stored key

`loadEncodedUnsigned` reads an unaligned word of the encoded key out of a record. The word
may lie in one stored word, across two of them, in the tail, or across the last word and the
tail.
-/

namespace Bolt.RadixSort

open Data Lib.Bytes List

variable {offset size : ℕ}

def fromBigEndian (size word : ℕ) : ℕ := byteSwap size word

def bytesAt (key : List UInt8) (offset size : ℕ) : List UInt8 := (key.drop offset).take size

/-- The loop over the bytes of the tail in `loadEncodedUnsigned`, one byte at a time. -/
def joinTail (size : ℕ) (key : List UInt8) (inlineWordBytes tailBytes word : ℕ) : ℕ :=
  (range tailBytes).foldl (fun result byte =>
    (result ||| (key.getD (inlineWordBytes + byte) 0).toNat <<< ((tailBytes - byte - 1) * 8)) % 256 ^ size) word

def loadEncodedUnsigned (hostOrderWords : Bool) (size : ℕ) (key : List UInt8) (offset inlineWordBytes : ℕ) : ℕ :=
  if !hostOrderWords then fromBigEndian size (loadUnaligned (bytesAt key offset size))
  else if offset + size ≤ inlineWordBytes then
    let byteOffset := offset % 8
    let first := wordAt key (offset / 8)
    if byteOffset + size ≤ 8 then (first >>> ((8 - byteOffset - size) * 8)) % 256 ^ size
    else
      let second := wordAt key (offset / 8 + 1)
      let joined := (first <<< (byteOffset * 8)) % 2 ^ 64 ||| second >>> ((8 - byteOffset) * 8)
      (joined >>> ((8 - size) * 8)) % 256 ^ size
  else if inlineWordBytes ≤ offset then fromBigEndian size (loadUnaligned (bytesAt key offset size))
  else
    let byteOffset := offset % 8
    let wordBytes := 8 - byteOffset
    let tailBytes := size - wordBytes
    let first := wordAt key (offset / 8)
    let mask := (2 ^ 64 - 1) >>> (byteOffset * 8)
    joinTail size key inlineWordBytes tailBytes ((((first &&& mask) <<< (tailBytes * 8)) % 2 ^ 64) % 256 ^ size)

/-! ## Words and tail of a stored key -/

theorem length_bytesAt {key : List UInt8} (h : offset + size ≤ key.length) : (bytesAt key offset size).length = size := by
  rw [bytesAt, length_take, length_drop]
  omega

theorem bytesAt_add (key : List UInt8) (offset first second : ℕ) :
    bytesAt key offset (first + second) = bytesAt key offset first ++ bytesAt key (offset + first) second := by
  rw [bytesAt, bytesAt, bytesAt, take_add, drop_drop]

theorem bytesAt_bytesAt (key : List UInt8) (offset size first count : ℕ) (h : first + count ≤ size) :
    bytesAt (bytesAt key offset size) first count = bytesAt key (offset + first) count := by
  rw [bytesAt, bytesAt, bytesAt, drop_take, take_take, drop_drop, Nat.min_eq_left (by omega)]

theorem two_pow_bytes (count : ℕ) : 2 ^ (count * 8) = 256 ^ count := by
  rw [Nat.mul_comm, pow_mul]
  rfl

theorem beValue_bytesAt {c : List UInt8} {first count : ℕ} (hs : c.length = size) (h : first + count ≤ size) :
    beValue (bytesAt c first count) = (beValue c >>> ((size - first - count) * 8)) % 256 ^ count := by
  subst hs
  rw [bytesAt, beValue_take_drop h, Nat.shiftRight_eq_div_pow, two_pow_bytes]

theorem fromBigEndian_load {c : List UInt8} (h : c.length = size) : fromBigEndian size (loadUnaligned c) = beValue c := by
  subst h
  exact byteSwap_loadUnaligned c

theorem bytesAt_one {key : List UInt8} (h : offset < key.length) : bytesAt key offset 1 = [key.getD offset 0] := by
  rw [bytesAt, drop_eq_getElem_cons h, take_succ_cons, take_zero, getD_eq_getElem _ _ h]

theorem joinTail_eq {key : List UInt8} {inlineWordBytes tail high : ℕ}
    (hke : inlineWordBytes + tail ≤ key.length) (hh : (high + 1) * 256 ^ tail ≤ 256 ^ size) :
    joinTail size key inlineWordBytes tail (high * 256 ^ tail) =
      high * 256 ^ tail + beValue (bytesAt key inlineWordBytes tail) := by
  have hl : ∀ count ≤ tail, (range count).foldl (fun result byte =>
      (result ||| (key.getD (inlineWordBytes + byte) 0).toNat <<< ((tail - byte - 1) * 8)) % 256 ^ size)
        (high * 256 ^ tail) =
          (high * 256 ^ count + beValue (bytesAt key inlineWordBytes count)) * 256 ^ (tail - count) := by
    intro count
    induction count with
    | zero =>
      intro _
      simp [bytesAt]
    | succ count ih =>
      intro hc
      have hb : (key.getD (inlineWordBytes + count) 0).toNat < 256 := UInt8.toNat_lt_size _
      have hs : 256 ^ (tail - count) = 256 * 256 ^ (tail - (count + 1)) := by
        rw [← pow_succ']
        congr 1
        omega
      have hn : beValue (bytesAt key inlineWordBytes (count + 1)) =
          beValue (bytesAt key inlineWordBytes count) * 256 + (key.getD (inlineWordBytes + count) 0).toNat := by
        rw [bytesAt_add, beValue_append, bytesAt_one (by omega), beValue_cons]
        simp
      have hlo : (key.getD (inlineWordBytes + count) 0).toNat <<< ((tail - count - 1) * 8) <
          2 ^ ((tail - count) * 8) := by
        rw [Nat.shiftLeft_eq, two_pow_bytes, two_pow_bytes, hs, Nat.sub_sub]
        exact Nat.mul_lt_mul_of_pos_right hb (Nat.pow_pos (by decide))
      have hlt := beValue_lt (bytesAt key inlineWordBytes (count + 1))
      rw [length_bytesAt (by omega)] at hlt
      rw [range_succ, foldl_append, ih (by omega), foldl_cons, foldl_nil, ← two_pow_bytes
        (tail - count), ← Nat.shiftLeft_eq, ← Nat.shiftLeft_add_eq_or_of_lt hlo, Nat.shiftLeft_eq,
        Nat.shiftLeft_eq, two_pow_bytes, two_pow_bytes, hs, Nat.sub_sub, hn, pow_succ]
      rw [Nat.mod_eq_of_lt]
      · ring
      · have hw : (high + 1) * 256 ^ tail =
            (high * (256 ^ count * 256) + 256 ^ (count + 1)) * 256 ^ (tail - (count + 1)) := by
          rw [← pow_succ, ← Nat.succ_mul, Nat.mul_assoc, ← pow_add]
          congr 2
          omega
        refine Nat.lt_of_lt_of_le ?_ hh
        rw [hw, ← Nat.mul_assoc, ← Nat.add_mul]
        apply Nat.mul_lt_mul_of_pos_right _ (Nat.pow_pos (by decide))
        rw [hn] at hlt
        rw [Nat.add_mul, Nat.add_assoc, Nat.mul_assoc]
        exact Nat.add_lt_add_left hlt _
  have ha := hl tail (Nat.le_refl _)
  rwa [Nat.sub_self, pow_zero, Nat.mul_one] at ha

structure StoredKey (inlineWordBytes : ℕ) (key encoded : List UInt8) : Prop where
  words : 8 ∣ inlineWordBytes
  fits : inlineWordBytes ≤ encoded.length
  word : ∀ index, (index + 1) * 8 ≤ inlineWordBytes → wordAt key index = beValue (bytesAt encoded (index * 8) 8)
  tail : key.drop inlineWordBytes = encoded.drop inlineWordBytes

theorem storedKey_encodedBytes {kind : RadixSortKeyLayoutKind} (record : KeyRecord kind)
    (hf : kind.isVariable = false) :
    StoredKey kind.inlineWordBytes record.inlineBytes record.encodedBytes := by
  have hse := storeFixedKeyPrefix_self record.inlineBytes_length
  have hen : record.encodedBytes = storeFixedKeyPrefix kind record.inlineBytes := by
    rw [KeyRecord.encodedBytes, hf]
    rfl
  have hl := record.length_encodedBytes
  have hle : kind.inlineWordBytes ≤ kind.inlineCapacity := Nat.div_mul_le_self _ _
  have hs : ∀ word, (storeUnaligned 8 (byteSwap 8 (wordAt record.encodedBytes word))).length = 8 :=
    fun _ => by simp [storeUnaligned]
  have hb : record.inlineBytes = storeFixedKeyPrefix kind record.encodedBytes := by rw [hen, hse]
  refine ⟨Dvd.intro_left _ rfl, by rw [hl]; exact hle, ?_, ?_⟩
  · intro index hind
    have hw : index < kind.inlineWords := by
      have hwo : kind.inlineWordBytes = kind.inlineWords * 8 := rfl
      omega
    have hc : (bytesAt record.encodedBytes (index * 8) 8).length = 8 := length_bytesAt (by omega)
    have hst : (record.inlineBytes.drop (index * 8)).take 8 =
        storeUnaligned 8 (byteSwap 8 (wordAt record.encodedBytes index)) := by
      conv_lhs => rw [hb, storeFixedKeyPrefix]
      exact flatMap_words_drop _ hs hw _
    rw [wordAt, hst]
    show loadUnaligned (storeUnaligned 8 (byteSwap 8 (loadUnaligned (bytesAt record.encodedBytes (index * 8) 8)))) = _
    rw [swapped_word hc, loadUnaligned, leValue_eq_beValue, reverse_reverse]
  · conv_lhs => rw [hb, storeFixedKeyPrefix]
    have hwo := flatMap_words_length _ hs kind.inlineWords
    refine (drop_left' hwo).trans (take_of_length_le ?_)
    rw [length_drop, hl]
    exact Nat.le_refl _

namespace StoredKey

variable {inlineWordBytes : ℕ} {key encoded : List UInt8} (h : StoredKey inlineWordBytes key encoded)
include h

theorem bytesAt_tail {offset : ℕ} (ho : inlineWordBytes ≤ offset) (size : ℕ) :
    bytesAt key offset size = bytesAt encoded offset size := by
  obtain ⟨past, rfl⟩ := Nat.exists_eq_add_of_le ho
  rw [bytesAt, bytesAt, ← drop_drop, ← drop_drop, h.tail]

theorem word_slice (index first count : ℕ) (hind : (index + 1) * 8 ≤ inlineWordBytes) (hc : first + count ≤ 8) :
    beValue (bytesAt encoded (index * 8 + first) count) =
      (wordAt key index >>> ((8 - first - count) * 8)) % 256 ^ count := by
  have hle := h.fits
  have hch : (bytesAt encoded (index * 8) 8).length = 8 := length_bytesAt (by omega)
  rw [← bytesAt_bytesAt encoded (index * 8) 8 first count hc, beValue_bytesAt hch hc, h.word index hind]

theorem wordAt_lt {index : ℕ} (hind : (index + 1) * 8 ≤ inlineWordBytes) : wordAt key index < 256 ^ 8 := by
  have hle := h.fits
  have hlt := beValue_lt (bytesAt encoded (index * 8) 8)
  rwa [length_bytesAt (by omega), ← h.word index hind] at hlt

theorem joined_words {index first : ℕ} (hind : (index + 1 + 1) * 8 ≤ inlineWordBytes) (hf : first ≤ 8) :
    (wordAt key index <<< (first * 8)) % 2 ^ 64 ||| wordAt key (index + 1) >>> ((8 - first) * 8) =
      beValue (bytesAt encoded (index * 8 + first) 8) := by
  have hle := h.fits
  have hh := h.word_slice index first (8 - first) (by omega) (by omega)
  have hl := h.word_slice (index + 1) 0 first hind (by omega)
  have hsh : (wordAt key index <<< (first * 8)) % 2 ^ 64 =
      beValue (bytesAt encoded (index * 8 + first) (8 - first)) <<< (first * 8) := by
    have hw : 2 ^ 64 = 256 ^ (8 - first) * 256 ^ first := by
      rw [← pow_add, Nat.sub_add_cancel hf]
      rfl
    rw [hh, Nat.sub_self, Nat.zero_mul, Nat.shiftRight_zero, Nat.shiftLeft_eq, Nat.shiftLeft_eq, two_pow_bytes,
      hw, Nat.mul_mod_mul_right]
  have hs : wordAt key (index + 1) >>> ((8 - first) * 8) < 256 ^ first := by
    rw [Nat.shiftRight_eq_div_pow, two_pow_bytes]
    apply Nat.div_lt_of_lt_mul
    rw [← pow_add, Nat.sub_add_cancel hf]
    exact h.wordAt_lt hind
  rw [Nat.add_zero, Nat.sub_zero, Nat.mod_eq_of_lt hs] at hl
  rw [hsh, ← hl, ← Nat.shiftLeft_add_eq_or_of_lt (by rw [hl, two_pow_bytes]; exact hs), Nat.shiftLeft_eq,
    two_pow_bytes]
  have hsp := bytesAt_add encoded (index * 8 + first) (8 - first) first
  rw [Nat.sub_add_cancel hf, show index * 8 + first + (8 - first) = (index + 1) * 8 by omega] at hsp
  rw [hsp, beValue_append, length_bytesAt (by omega)]

theorem word_and_tail (hl : key.length = encoded.length) {offset size : ℕ} (hs : size ≤ 8)
    (hf : offset + size ≤ encoded.length) (hwor : offset < inlineWordBytes)
    (ht : inlineWordBytes < offset + size) :
    joinTail size key inlineWordBytes (size - (8 - offset % 8))
        ((((wordAt key (offset / 8) &&& (2 ^ 64 - 1) >>> (offset % 8 * 8)) <<<
          ((size - (8 - offset % 8)) * 8)) % 2 ^ 64) % 256 ^ size) =
      beValue (bytesAt encoded offset size) := by
  have hwo := h.words
  have ho : offset / 8 * 8 + offset % 8 = offset := Nat.div_add_mod' offset 8
  have hind : (offset / 8 + 1) * 8 ≤ inlineWordBytes := by omega
  have hen : offset + (8 - offset % 8) = inlineWordBytes := by omega
  have hsl := h.word_slice (offset / 8) (offset % 8) (8 - offset % 8) hind (by omega)
  rw [ho, Nat.sub_self, Nat.zero_mul, Nat.shiftRight_zero] at hsl
  have hm : (2 ^ 64 - 1) >>> (offset % 8 * 8) = 2 ^ ((8 - offset % 8) * 8) - 1 := by
    have hal : ∀ first < 8, (2 ^ 64 - 1) >>> (first * 8) = 2 ^ ((8 - first) * 8) - 1 := by decide
    exact hal _ (Nat.mod_lt _ (by decide))
  have hh := beValue_lt (bytesAt encoded offset (8 - offset % 8))
  rw [length_bytesAt (by omega)] at hh
  have hsp : 256 ^ size = 256 ^ (8 - offset % 8) * 256 ^ (size - (8 - offset % 8)) := by
    rw [← pow_add]
    congr 1
    omega
  have hjo : bytesAt encoded offset size = bytesAt encoded offset (8 - offset % 8) ++
      bytesAt encoded inlineWordBytes (size - (8 - offset % 8)) := by
    have ha := bytesAt_add encoded offset (8 - offset % 8) (size - (8 - offset % 8))
    rwa [hen, Nat.add_sub_cancel' (by omega)] at ha
  have hfi : ((wordAt key (offset / 8) &&& (2 ^ 64 - 1) >>> (offset % 8 * 8)) <<<
      ((size - (8 - offset % 8)) * 8)) % 2 ^ 64 % 256 ^ size =
        beValue (bytesAt encoded offset (8 - offset % 8)) * 256 ^ (size - (8 - offset % 8)) := by
    have hsm : beValue (bytesAt encoded offset (8 - offset % 8)) * 256 ^ (size - (8 - offset % 8)) <
        256 ^ size := by
      rw [hsp]
      exact Nat.mul_lt_mul_of_pos_right hh (Nat.pow_pos (by decide))
    have hw : 256 ^ size ≤ 2 ^ 64 := by
      rw [← two_pow_bytes]
      exact Nat.pow_le_pow_right (by decide) (by omega)
    rw [hm, Nat.and_two_pow_sub_one_eq_mod, two_pow_bytes, ← hsl, Nat.shiftLeft_eq, two_pow_bytes,
      Nat.mod_eq_of_lt (Nat.lt_of_lt_of_le hsm hw), Nat.mod_eq_of_lt hsm]
  rw [hfi, joinTail_eq (by omega) (by rw [hsp]; exact Nat.mul_le_mul_right _ hh),
    h.bytesAt_tail (Nat.le_refl _), hjo, beValue_append, length_bytesAt (by omega)]

end StoredKey

theorem loadEncodedUnsigned_eq {inlineWordBytes : ℕ} {key encoded : List UInt8}
    (h : StoredKey inlineWordBytes key encoded) (hl : key.length = encoded.length) (hp : 0 < size)
    (hs : size ≤ 8) (hf : offset + size ≤ encoded.length) :
    loadEncodedUnsigned true size key offset inlineWordBytes = beValue (bytesAt encoded offset size) := by
  have hw := h.words
  have ho : offset / 8 * 8 + offset % 8 = offset := Nat.div_add_mod' offset 8
  unfold loadEncodedUnsigned
  rw [if_neg (by decide)]
  split
  · rename_i hin
    dsimp only
    split
    · -- within one stored word
      rename_i hone
      rw [← h.word_slice (offset / 8) (offset % 8) size (by omega) hone, ho]
    · -- across two stored words
      rename_i htw
      have hsp := bytesAt_bytesAt encoded offset 8 0 size (by omega)
      rw [Nat.add_zero] at hsp
      have hfi := h.fits
      have hjo := @StoredKey.joined_words _ _ _ h (offset / 8) (offset % 8) (by omega) (by omega)
      rw [hjo, ho, ← hsp, beValue_bytesAt (length_bytesAt (by omega)) (by omega), Nat.sub_zero]
  · rename_i hin
    split
    · -- in the tail
      rename_i ht
      rw [h.bytesAt_tail ht, fromBigEndian_load (length_bytesAt hf)]
    · -- across the last stored word and the tail
      rename_i hstraddle
      exact h.word_and_tail hl hs hf (by omega) (by omega)

end Bolt.RadixSort
