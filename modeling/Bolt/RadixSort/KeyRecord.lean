import Bolt.RadixSort.KeyScalars

/-!
# Physical key records

The record layouts of `RadixSortKey.h`. A fixed layout holds the encoded key as
words in host order followed by a big-endian tail; a variable layout holds the
first bytes of the key as they are, its size, and a pointer to the bytes that start
at the heap offset. A pointer is modelled by the bytes behind it.
-/

namespace Bolt.RadixSort

open Data Lib.Bytes List

/-- `RadixSortKeyLayoutKind` without its invalid value. -/
inductive RadixSortKeyLayoutKind where
  | keyOnlyFixed8
  | keyOnlyFixed16
  | keyOnlyFixed24
  | keyOnlyFixed32
  | keyOnlyVariable32
  | keyWithPayloadFixed16
  | keyWithPayloadFixed24
  | keyWithPayloadFixed32
  | keyWithPayloadVariable32
  deriving DecidableEq, Repr

namespace RadixSortKeyLayoutKind

def width : RadixSortKeyLayoutKind → ℕ
  | keyOnlyFixed8 => 8
  | keyOnlyFixed16 => 16
  | keyOnlyFixed24 => 24
  | keyOnlyFixed32 => 32
  | keyOnlyVariable32 => 32
  | keyWithPayloadFixed16 => 16
  | keyWithPayloadFixed24 => 24
  | keyWithPayloadFixed32 => 32
  | keyWithPayloadVariable32 => 32

def inlineCapacity : RadixSortKeyLayoutKind → ℕ
  | keyOnlyFixed8 => 8
  | keyOnlyFixed16 => 16
  | keyOnlyFixed24 => 24
  | keyOnlyFixed32 => 32
  | keyOnlyVariable32 => 18
  | keyWithPayloadFixed16 => 10
  | keyWithPayloadFixed24 => 18
  | keyWithPayloadFixed32 => 26
  | keyWithPayloadVariable32 => 12

def isVariable : RadixSortKeyLayoutKind → Bool
  | keyOnlyVariable32 => true
  | keyWithPayloadVariable32 => true
  | _ => false

def hasPayload : RadixSortKeyLayoutKind → Bool
  | keyWithPayloadFixed16 => true
  | keyWithPayloadFixed24 => true
  | keyWithPayloadFixed32 => true
  | keyWithPayloadVariable32 => true
  | _ => false

def inlineWords (kind : RadixSortKeyLayoutKind) : ℕ := kind.inlineCapacity / 8

def inlineWordBytes (kind : RadixSortKeyLayoutKind) : ℕ := kind.inlineWords * 8

def inlineTailBytes (kind : RadixSortKeyLayoutKind) : ℕ := kind.inlineCapacity - kind.inlineWordBytes

end RadixSortKeyLayoutKind

/-- `RadixSortKeyLayout`: a kind, the number of key bytes the radix passes look at
and the first key byte kept on the heap. -/
structure RadixSortKeyLayout where
  kind : RadixSortKeyLayoutKind
  radixWidth : ℕ
  heapKeyOffset : ℕ
  deriving DecidableEq, Repr

/-- The checks of `RadixSortKeyLayout::select`: "Payload radix sort key cannot be
empty", "Radix sort key width overflows", "Radix sort key heap offset must fit in the
inline prefix", "Fixed radix sort key layout cannot have a heap offset". -/
inductive LayoutError where
  | emptyPayloadKey
  | widthOverflow
  | heapOffsetTooLarge
  | fixedWithHeapOffset

def selectKind (hasPayload : Bool) (physicalWidth : ℕ) : RadixSortKeyLayoutKind :=
  if !hasPayload && physicalWidth ≤ 8 then .keyOnlyFixed8
  else if physicalWidth ≤ 16 then if hasPayload then .keyWithPayloadFixed16 else .keyOnlyFixed16
  else if physicalWidth ≤ 24 then if hasPayload then .keyWithPayloadFixed24 else .keyOnlyFixed24
  else if physicalWidth ≤ 32 then if hasPayload then .keyWithPayloadFixed32 else .keyOnlyFixed32
  else if hasPayload then .keyWithPayloadVariable32 else .keyOnlyVariable32

def kindFor (maximumEncodedSize : Option ℕ) (hasPayload : Bool) : Except LayoutError RadixSortKeyLayoutKind :=
  match maximumEncodedSize with
  | none => .ok (if hasPayload then .keyWithPayloadVariable32 else .keyOnlyVariable32)
  | some size =>
    if hasPayload ∧ size = 0 then .error .emptyPayloadKey
    else match checkedAdd size (if hasPayload then 6 else 0) with
      | none => .error .widthOverflow
      | some physicalWidth => .ok (selectKind hasPayload physicalWidth)

def RadixSortKeyLayout.select (maximumEncodedSize : Option ℕ) (hasPayload : Bool) (heapKeyOffset : ℕ) :
    Except LayoutError RadixSortKeyLayout :=
  match kindFor maximumEncodedSize hasPayload with
  | .error error => .error error
  | .ok kind =>
    if kind.isVariable then
      if heapKeyOffset ≤ kind.inlineCapacity then .ok ⟨kind, kind.inlineCapacity, heapKeyOffset⟩
      else .error .heapOffsetTooLarge
    else if heapKeyOffset = 0 then .ok ⟨kind, min (maximumEncodedSize.getD kind.inlineCapacity) 8, 0⟩
    else .error .fixedWithHeapOffset

theorem selectKind_fits {hasPayload : Bool} {size : ℕ}
    (h : (selectKind hasPayload (size + if hasPayload then 6 else 0)).isVariable = false) :
    size ≤ (selectKind hasPayload (size + if hasPayload then 6 else 0)).inlineCapacity := by
  unfold selectKind at h ⊢
  cases hasPayload <;> simp only [Bool.not_true, Bool.not_false, Bool.false_and, Bool.true_and,
    decide_eq_true_eq, Bool.false_eq_true, if_false, if_true, Nat.add_zero] at h ⊢ <;>
    split_ifs at h ⊢ <;> first | (cases h; done) | (simp only [RadixSortKeyLayoutKind.inlineCapacity]; omega)

theorem select_eq_ok {maximumEncodedSize : Option ℕ} {hasPayload : Bool} {heapKeyOffset : ℕ} {layout : RadixSortKeyLayout}
    (h : RadixSortKeyLayout.select maximumEncodedSize hasPayload heapKeyOffset = .ok layout) :
    kindFor maximumEncodedSize hasPayload = .ok layout.kind ∧ layout.heapKeyOffset = heapKeyOffset ∧
    (layout.kind.isVariable = true →
      layout.radixWidth = layout.kind.inlineCapacity ∧ heapKeyOffset ≤ layout.kind.inlineCapacity) ∧
    (layout.kind.isVariable = false → heapKeyOffset = 0 ∧
      layout.radixWidth = min (maximumEncodedSize.getD layout.kind.inlineCapacity) 8) := by
  unfold RadixSortKeyLayout.select at h
  split at h
  · cases h
  · rename_i kind hki
    split at h
    · rename_i hv
      split at h
      · rename_i hle
        obtain rfl := Except.ok.inj h
        exact ⟨hki, rfl, fun _ => ⟨rfl, hle⟩, fun hf => absurd (hv.symm.trans hf) (by decide)⟩
      · cases h
    · rename_i hf
      split at h
      · rename_i hz
        obtain rfl := Except.ok.inj h
        exact ⟨hki, hz.symm, fun hv => absurd hv hf, fun _ => ⟨hz, rfl⟩⟩
      · cases h

theorem kindFor_fixed {maximumEncodedSize : Option ℕ} {hasPayload : Bool} {kind : RadixSortKeyLayoutKind}
    (h : kindFor maximumEncodedSize hasPayload = .ok kind) (hf : kind.isVariable = false) :
    ∃ size, maximumEncodedSize = some size ∧ size ≤ kind.inlineCapacity ∧
      kind = selectKind hasPayload (size + if hasPayload then 6 else 0) := by
  unfold kindFor at h
  split at h
  · obtain rfl := Except.ok.inj h
    cases hasPayload <;> cases hf
  · rename_i size
    split at h
    · cases h
    · split at h
      · cases h
      · rename_i width hw
        obtain ⟨rfl, -⟩ := checkedAdd_eq_some hw
        obtain rfl := Except.ok.inj h
        exact ⟨size, rfl, selectKind_fits hf, rfl⟩

/-- A stored key. `inlineBytes` are the bytes of the record's inline part as memory
holds them; `size` and `heap` are used by variable layouts only. -/
structure KeyRecord (kind : RadixSortKeyLayoutKind) where
  inlineBytes : List UInt8
  size : ℕ
  heap : List UInt8
  payload : ℕ
  inlineBytes_length : inlineBytes.length = kind.inlineCapacity
  deriving DecidableEq

/-- The word at an index of a byte string, as a little-endian host reads it. -/
def wordAt (bytes : List UInt8) (index : ℕ) : ℕ := loadUnaligned ((bytes.drop (index * 8)).take 8)

/-- `storeFixedKeyPrefix`: swapped words, then the tail as it is. -/
def storeFixedKeyPrefix (kind : RadixSortKeyLayoutKind) (encoded : List UInt8) : List UInt8 :=
  ((range kind.inlineWords).flatMap fun index => storeUnaligned 8 (byteSwap 8 (wordAt encoded index))) ++
    (encoded.drop kind.inlineWordBytes).take kind.inlineTailBytes

def loadEncodedByte (hostOrderWords : Bool) (key : List UInt8) (offset inlineWordBytes : ℕ) : UInt8 :=
  if hostOrderWords && offset < inlineWordBytes then
    UInt8.ofNat (wordAt key (offset / 8) >>> ((7 - offset % 8) * 8))
  else key.getD offset 0

def KeyRecord.encodedByte {kind : RadixSortKeyLayoutKind} (record : KeyRecord kind) (offset : ℕ) : UInt8 :=
  loadEncodedByte (!kind.isVariable) record.inlineBytes offset kind.inlineWordBytes

/-- The encoded bytes of a record, padded with zeros to the inline capacity. -/
def padTo (capacity : ℕ) (encoded : List UInt8) : List UInt8 :=
  (encoded ++ replicate capacity 0).take capacity

theorem length_padTo (capacity : ℕ) (encoded : List UInt8) : (padTo capacity encoded).length = capacity := by
  simp [padTo]

theorem padTo_eq (capacity : ℕ) (encoded : List UInt8) : padTo capacity encoded =
      encoded.take capacity ++ replicate (capacity - (encoded.take capacity).length) 0 := by
  rw [padTo, take_append, take_replicate, length_take]
  congr 2
  omega

theorem padTo_append {capacity : ℕ} {encoded : List UInt8} (h : encoded.length ≤ capacity) (rest : List UInt8) :
    padTo capacity (encoded ++ rest) = encoded ++ padTo (capacity - encoded.length) rest := by
  rw [padTo_eq, padTo_eq, take_append, take_of_length_le h, append_assoc, length_append, Nat.sub_add_eq]

theorem swapped_word {c : List UInt8} (hc : c.length = 8) :
    storeUnaligned 8 (byteSwap 8 (loadUnaligned c)) = c.reverse := by
  have hs : beBytes 8 (leValue c) = c.reverse := by
    rw [← reverse_reverse (beBytes 8 (leValue c)), ← leBytes_eq_reverse, ← hc, leBytes_leValue]
  unfold storeUnaligned byteSwap loadUnaligned
  rw [hs, ← hc, ← length_reverse, leBytes_leValue]

theorem ofNat_beValue_shiftRight {c : List UInt8} {j : ℕ} (hj : j < c.length) :
    UInt8.ofNat (beValue c >>> ((c.length - j - 1) * 8)) = c.getD j 0 := by
  have hb := beBytes_beValue c
  rw [beBytes_eq_map_shiftRight] at hb
  have hg := congrArg (fun l => l.getD j 0) hb
  simpa [hj] using hg

theorem flatMap_words_length (words : ℕ → List UInt8) (hw : ∀ index, (words index).length = 8) (n : ℕ) :
    ((range n).flatMap words).length = n * 8 := by
  simp [length_flatMap, hw]

theorem flatMap_words_drop (words : ℕ → List UInt8) (hw : ∀ index, (words index).length = 8)
    {index n : ℕ} (hind : index < n) (tail : List UInt8) :
    (((range n).flatMap words ++ tail).drop (index * 8)).take 8 = words index := by
  obtain ⟨m, rfl⟩ : ∃ m, n = index + (m + 1) := ⟨n - index - 1, by omega⟩
  rw [range_add, flatMap_append, append_assoc, drop_append_of_le_length (by rw [flatMap_words_length words hw]),
    drop_of_length_le (by rw [flatMap_words_length words hw])]
  simp [range_succ_eq_map, flatMap_map, hw]

section

variable (kind : RadixSortKeyLayoutKind) {encoded : List UInt8} (hlen : encoded.length = kind.inlineCapacity)
include hlen

theorem length_storeKeyPrefix : (storeFixedKeyPrefix kind encoded).length = kind.inlineCapacity := by
  rw [storeFixedKeyPrefix, length_append, flatMap_words_length _ (fun _ => by simp [storeUnaligned]),
    length_take, length_drop, hlen]
  cases kind <;> decide

theorem loadByte_storeFixedKeyPrefix {offset : ℕ} (ho : offset < kind.inlineCapacity) :
    loadEncodedByte true (storeFixedKeyPrefix kind encoded) offset kind.inlineWordBytes = encoded.getD offset 0 := by
  have hb : kind.inlineWordBytes = kind.inlineWords * 8 := rfl
  have hle : kind.inlineWordBytes ≤ kind.inlineCapacity := Nat.div_mul_le_self _ _
  unfold loadEncodedByte
  split
  · -- the word that holds the byte is the reversed chunk of the encoded key
    rename_i hw
    have hw : offset < kind.inlineWordBytes := by simpa using hw
    have hind : offset / 8 < kind.inlineWords := by omega
    have hc : ((encoded.drop (offset / 8 * 8)).take 8).length = 8 := by
      rw [length_take, length_drop]
      omega
    have hlo : wordAt (storeFixedKeyPrefix kind encoded) (offset / 8) =
        beValue ((encoded.drop (offset / 8 * 8)).take 8) := by
      rw [wordAt, storeFixedKeyPrefix, flatMap_words_drop _ (fun _ => by simp [storeUnaligned]) hind, wordAt,
        swapped_word hc, loadUnaligned, leValue_eq_beValue, reverse_reverse]
    have hd := ofNat_beValue_shiftRight (c := (encoded.drop (offset / 8 * 8)).take 8) (j := offset % 8)
      (by omega)
    rw [hc, show 8 - offset % 8 - 1 = 7 - offset % 8 by omega] at hd
    rw [hlo, hd, getD_eq_getElem?_getD, getElem?_take_of_lt (by omega), getElem?_drop,
      getD_eq_getElem?_getD, show offset / 8 * 8 + offset % 8 = offset by omega]
  · rename_i hw
    have hw : kind.inlineWordBytes ≤ offset := by simpa using hw
    have hl := flatMap_words_length
      (fun index => storeUnaligned 8 (byteSwap 8 (wordAt encoded index)))
      (fun _ => by simp [storeUnaligned]) kind.inlineWords
    rw [storeFixedKeyPrefix, getD_append_right _ _ _ _ (by omega), hl, ← hb,
      getD_eq_getElem?_getD, getElem?_take_of_lt (by unfold RadixSortKeyLayoutKind.inlineTailBytes; omega),
      getElem?_drop, getD_eq_getElem?_getD]
    congr 2
    omega

end

end Bolt.RadixSort
