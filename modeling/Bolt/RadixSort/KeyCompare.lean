import Bolt.RadixSort.KeyAppend
import Mathlib.Data.List.Find

/-!
# Comparing stored keys

`RadixSortKeyOps` and `fixedKeyLess`. For every record contents the comparison is one order:
the bytes the radix passes see, then the suffix on the heap, then the size.
-/

namespace Bolt.RadixSort

open Std Data Lib.Bytes Lib.Compare Lib.OrderCode Lib.Sorting List KeyRecord

variable {key : List UInt8}

def threeWay {α : Type} [LT α] [DecidableLT α] (left right : α) : ℤ :=
  (if right < left then 1 else 0) - (if left < right then 1 else 0)

/-- The sign of `std::memcmp` on two ranges of one length. -/
def memcmp (left right : List UInt8) : ℤ :=
  match compare left right with
  | .lt => -1
  | .eq => 0
  | .gt => 1

/-- A word of the inline part, swapped where the record holds encoded bytes. -/
def inlineWord (rawEncodedWords : Bool) (key : List UInt8) (word : ℕ) : ℕ :=
  if rawEncodedWords then byteSwap 8 (wordAt key word) else wordAt key word

/-- The bytes of the inline part behind its words. -/
def inlineTail (kind : RadixSortKeyLayoutKind) (key : List UInt8) : List UInt8 :=
  (key.drop kind.inlineWordBytes).take kind.inlineTailBytes

def compareInlineKeyPrefix (kind : RadixSortKeyLayoutKind) (rawEncodedWords : Bool) (left right : List UInt8) : ℤ :=
  match (range kind.inlineWords).find? fun word =>
      inlineWord rawEncodedWords left word ≠ inlineWord rawEncodedWords right word with
  | some word => threeWay (inlineWord rawEncodedWords left word) (inlineWord rawEncodedWords right word)
  | none =>
    if kind.inlineTailBytes > 0 then
      let result := memcmp (inlineTail kind left) (inlineTail kind right)
      if result ≠ 0 then threeWay result 0 else 0
    else 0

/-- `fixedKeyLess`, by the number of words that remain. -/
def fixedKeyLess (tailBytes : ℕ) : ℕ → List UInt8 → List UInt8 → Bool
  | remaining + 2, left, right =>
    wordAt left 0 < wordAt right 0 ||
      (wordAt left 0 == wordAt right 0 && fixedKeyLess tailBytes (remaining + 1) (left.drop 8) (right.drop 8))
  | _, left, right =>
    if tailBytes > 0 then
      if wordAt left 0 ≠ wordAt right 0 then wordAt left 0 < wordAt right 0
      else
        byteSwap 2 (loadUnaligned ((left.drop 8).take 2)) < byteSwap 2 (loadUnaligned ((right.drop 8).take 2))
    else wordAt left 0 < wordAt right 0

variable {kind : RadixSortKeyLayoutKind}

/-- The bytes a range of the heap holds. Memory past the stored key reads as zero. -/
def KeyRecord.heapBytes (record : KeyRecord kind) (first count : ℕ) : List UInt8 :=
  (range count).map fun index => record.heap.getD (first + index) 0

def compareSuffixWithSizes (left right : KeyRecord kind) (heapKeyOffset radixWidth : ℕ) : ℤ :=
  let count := min left.size right.size - radixWidth
  let result := memcmp (left.heapBytes (radixWidth - heapKeyOffset) count)
    (right.heapBytes (radixWidth - heapKeyOffset) count)
  if result ≠ 0 then threeWay result 0 else threeWay left.size right.size

def compareSuffix (left right : KeyRecord kind) (heapKeyOffset radixWidth : ℕ) : ℤ :=
  if left.size ≤ radixWidth ∨ right.size ≤ radixWidth then threeWay left.size right.size
  else compareSuffixWithSizes left right heapKeyOffset radixWidth

def compareKeys (heapKeyOffset : ℕ) (left right : KeyRecord kind) : ℤ :=
  if kind.isVariable then
    let prefixResult := compareInlineKeyPrefix kind true left.inlineBytes right.inlineBytes
    if prefixResult ≠ 0 then prefixResult
    else if left.size ≤ kind.inlineCapacity ∨ right.size ≤ kind.inlineCapacity then
      threeWay left.size right.size
    else compareSuffixWithSizes left right heapKeyOffset kind.inlineCapacity
  else compareInlineKeyPrefix kind false left.inlineBytes right.inlineBytes

def radixSortKeyLess (heapKeyOffset : ℕ) (left right : KeyRecord kind) : Bool :=
  if kind.isVariable then compareKeys heapKeyOffset left right < 0
  else fixedKeyLess kind.inlineTailBytes kind.inlineWords left.inlineBytes right.inlineBytes

theorem signOf_threeWay_nat (left right : ℕ) : signOf (threeWay left right) = compare left right := by
  unfold threeWay
  rcases Nat.lt_trichotomy left right with h | h | h
  · rw [if_neg (by omega), if_pos h, Nat.compare_eq_lt.mpr h]
    rfl
  · rw [if_neg (by omega), if_neg (by omega), Nat.compare_eq_eq.mpr h]
    rfl
  · rw [if_pos h, if_neg (by omega), Nat.compare_eq_gt.mpr h]
    rfl

theorem signOf_memcmp_or (left right : List UInt8) (other : ℤ) :
    signOf (if memcmp left right ≠ 0 then threeWay (memcmp left right) 0 else other) =
      (compare left right).then (signOf other) := by
  unfold memcmp threeWay
  cases compare left right <;> simp

def wordBytes (key : List UInt8) (word : ℕ) : List UInt8 := (key.drop (word * 8)).take 8

private theorem flatMap_wordBytes (key : List UInt8) (words : ℕ) :
    (range words).flatMap (wordBytes key) = key.take (words * 8) := by
  induction words with
  | zero => simp
  | succ words ih =>
    rw [range_succ, flatMap_append, ih, Nat.succ_mul, take_add]
    simp [wordBytes]

section

variable (hlen : key.length = kind.inlineCapacity)
include hlen

theorem inlineTail_eq : inlineTail kind key = key.drop kind.inlineWordBytes := by
  apply take_of_length_le
  rw [length_drop, hlen]
  exact Nat.le_refl _

private theorem length_wordBytes {word : ℕ} (hw : word ∈ range kind.inlineWords) :
    (wordBytes key word).length = 8 := by
  have hle : kind.inlineWords * 8 ≤ kind.inlineCapacity := Nat.div_mul_le_self _ _
  have hw := mem_range.mp hw
  rw [wordBytes, length_take, length_drop]
  omega

theorem flatMap_wordBytes_append : (range kind.inlineWords).flatMap (wordBytes key) ++ inlineTail kind key = key := by
  rw [flatMap_wordBytes, inlineTail_eq hlen]
  exact take_append_drop _ _

theorem storeFixedKeyPrefix_eq : storeFixedKeyPrefix kind key =
      (range kind.inlineWords).flatMap (fun word => (wordBytes key word).reverse) ++ inlineTail kind key := by
  unfold storeFixedKeyPrefix
  congr 1
  refine flatMap_congr fun word hw => ?_
  exact swapped_word (length_wordBytes hlen hw)

theorem storeFixedKeyPrefix_self : storeFixedKeyPrefix kind (storeFixedKeyPrefix kind key) = key := by
  have hs : ∀ word, (storeUnaligned 8 (byteSwap 8 (wordAt key word))).length = 8 := fun _ => by
    simp [storeUnaligned]
  have hw : ∀ word ∈ range kind.inlineWords,
      (wordBytes (storeFixedKeyPrefix kind key) word).reverse = wordBytes key word := by
    intro word hw
    have hd := flatMap_words_drop _ hs (mem_range.mp hw)
      ((key.drop kind.inlineWordBytes).take kind.inlineTailBytes)
    have hsw : storeUnaligned 8 (byteSwap 8 (wordAt key word)) = (wordBytes key word).reverse :=
      swapped_word (length_wordBytes hlen hw)
    rw [wordBytes, storeFixedKeyPrefix, hd, hsw, reverse_reverse]
  have ht : inlineTail kind (storeFixedKeyPrefix kind key) = inlineTail kind key := by
    rw [inlineTail_eq (length_storeKeyPrefix kind hlen)]
    exact drop_left' (flatMap_words_length _ hs _)
  rw [storeFixedKeyPrefix_eq (length_storeKeyPrefix kind hlen), flatMap_congr hw, ht, flatMap_wordBytes_append hlen]

end

def KeyRecord.encodedBytes (record : KeyRecord kind) : List UInt8 :=
  if kind.isVariable then record.inlineBytes else storeFixedKeyPrefix kind record.inlineBytes

variable (record : KeyRecord kind)

theorem KeyRecord.length_encodedBytes : record.encodedBytes.length = kind.inlineCapacity := by
  unfold encodedBytes
  split
  · exact record.inlineBytes_length
  · exact length_storeKeyPrefix kind record.inlineBytes_length

theorem KeyRecord.encodedByte_eq {offset : ℕ} (ho : offset < kind.inlineCapacity) :
    record.encodedByte offset = record.encodedBytes.getD offset 0 := by
  unfold encodedByte encodedBytes
  cases kind.isVariable with
  | true => rfl
  | false =>
    have hl := loadByte_storeFixedKeyPrefix kind
      (length_storeKeyPrefix kind record.inlineBytes_length) ho
    rw [storeFixedKeyPrefix_self record.inlineBytes_length] at hl
    exact hl

/-! ## The order of the inline part -/

theorem byteSwap_loadUnaligned (c : List UInt8) : byteSwap c.length (loadUnaligned c) = beValue c := by
  have hb : beBytes c.length (leValue c) = c.reverse := by
    rw [← reverse_reverse (beBytes c.length (leValue c)), ← leBytes_eq_reverse, leBytes_leValue]
  rw [byteSwap, loadUnaligned, hb, leValue_eq_beValue, reverse_reverse]

private theorem inlineWord_eq (raw : Bool) {word : ℕ} (hlen : (wordBytes key word).length = 8) :
    inlineWord raw key word = beValue (if raw then wordBytes key word else (wordBytes key word).reverse) := by
  cases raw with
  | true =>
    have hs := byteSwap_loadUnaligned (wordBytes key word)
    rw [hlen] at hs
    exact hs
  | false => exact leValue_eq_beValue (wordBytes key word)

private theorem compare_flatMap_words {f g : ℕ → List UInt8} {words : List ℕ}
    (hlen : ∀ word ∈ words, (f word).length = (g word).length) (t s : List UInt8) :
    compare (words.flatMap f ++ t) (words.flatMap g ++ s) =
      match words.find? fun word => beValue (f word) ≠ beValue (g word) with
      | some word => compare (beValue (f word)) (beValue (g word))
      | none => compare t s := by
  induction words with
  | nil => rfl
  | cons word words ih =>
    have hh := hlen word mem_cons_self
    have ht := ih fun w hw => hlen w (mem_cons_of_mem word hw)
    rw [flatMap_cons, flatMap_cons, append_assoc, append_assoc,
      compare_append hh, ht, compare_eq_beValue hh, find?_cons]
    by_cases heq : beValue (f word) = beValue (g word)
    · simp [heq]
    · have hne : compare (beValue (f word)) (beValue (g word)) ≠ .eq := fun h => heq (Nat.compare_eq_eq.mp h)
      simp only [ne_eq, heq, not_false_eq_true, decide_true]
      cases hc : compare (beValue (f word)) (beValue (g word)) with
      | lt => rfl
      | eq => exact absurd hc hne
      | gt => rfl

private theorem encodedBytes_eq_words : record.encodedBytes = (range kind.inlineWords).flatMap (fun word =>
      if kind.isVariable then wordBytes record.inlineBytes word else (wordBytes record.inlineBytes word).reverse) ++
        inlineTail kind record.inlineBytes := by
  unfold encodedBytes
  cases kind.isVariable with
  | true => exact (flatMap_wordBytes_append record.inlineBytes_length).symm
  | false => exact storeFixedKeyPrefix_eq record.inlineBytes_length

/-- The inline comparison is the byte order of the encoded inline parts. -/
theorem signOf_compareInlineKeyPrefix (left right : KeyRecord kind) :
    signOf (compareInlineKeyPrefix kind kind.isVariable left.inlineBytes right.inlineBytes) =
      compare left.encodedBytes right.encodedBytes := by
  have hl := fun word (hw : word ∈ range kind.inlineWords) =>
    length_wordBytes left.inlineBytes_length hw
  have hr := fun word (hw : word ∈ range kind.inlineWords) =>
    length_wordBytes right.inlineBytes_length hw
  have hf : ((range kind.inlineWords).find? fun word =>
      inlineWord kind.isVariable left.inlineBytes word ≠ inlineWord kind.isVariable right.inlineBytes word) =
      (range kind.inlineWords).find? fun word =>
        beValue (if kind.isVariable then wordBytes left.inlineBytes word
          else (wordBytes left.inlineBytes word).reverse) ≠
        beValue (if kind.isVariable then wordBytes right.inlineBytes word
          else (wordBytes right.inlineBytes word).reverse) := by
    apply find?_congr
    intro word hw
    rw [inlineWord_eq _ (hl word hw), inlineWord_eq _ (hr word hw)]
  rw [encodedBytes_eq_words left, encodedBytes_eq_words right, compare_flatMap_words, compareInlineKeyPrefix, hf]
  · split
    · rename_i word hw
      have hm := mem_of_find?_eq_some hw
      rw [inlineWord_eq _ (hl word hm), inlineWord_eq _ (hr word hm), signOf_threeWay_nat]
    · split
      · rw [signOf_memcmp_or, signOf_zero, Ordering.then_eq]
      · rename_i ht
        have hz : kind.inlineTailBytes = 0 := by omega
        simp [inlineTail, hz]
  · intro word hw
    split
    · rw [hl word hw, hr word hw]
    · rw [length_reverse, length_reverse, hl word hw, hr word hw]

private theorem reversed_words_cons (words : ℕ) (key : List UInt8) :
    (range (words + 1)).flatMap (fun word => (wordBytes key word).reverse) = (key.take 8).reverse ++
        (range words).flatMap (fun word => (wordBytes (key.drop 8) word).reverse) := by
  rw [range_succ_eq_map, flatMap_cons, flatMap_map]
  simp [wordBytes, drop_drop, Nat.succ_mul, Nat.add_comm]

private theorem isLT_compare_then (left right : ℕ) (rest : Ordering) :
    ((compare left right).then rest).isLT = (left < right || (left == right && rest.isLT)) := by
  rcases Nat.lt_trichotomy left right with h | h | h
  · simp [Nat.compare_eq_lt.mpr h, h]
  · simp [h]
  · simp [Nat.compare_eq_gt.mpr h, Nat.not_lt_of_lt h, Nat.ne_of_gt h]

private theorem fixedKeyLess_eq (tailBytes : ℕ) (ht : tailBytes = 0 ∨ tailBytes = 2) (remaining : ℕ)
    (left right : List UInt8) (hl : left.length = (remaining + 1) * 8 + tailBytes)
    (hr : right.length = (remaining + 1) * 8 + tailBytes) :
    fixedKeyLess tailBytes (remaining + 1) left right = (compare
        ((range (remaining + 1)).flatMap (fun word => (wordBytes left word).reverse) ++ left.drop ((remaining + 1) * 8))
        ((range (remaining + 1)).flatMap (fun word => (wordBytes right word).reverse) ++
          right.drop ((remaining + 1) * 8))).isLT := by
  have hw : ∀ key : List UInt8, wordAt key 0 = beValue (key.take 8).reverse := by
    intro key
    rw [wordAt, Nat.zero_mul, drop_zero, loadUnaligned, leValue_eq_beValue]
  have hlen : (left.take 8).reverse.length = (right.take 8).reverse.length := by
    rw [length_reverse, length_reverse, length_take, length_take, hl, hr]
  induction remaining generalizing left right with
  | zero =>
    have ho : ∀ key : List UInt8,
        (range 1).flatMap (fun word => (wordBytes key word).reverse) = (key.take 8).reverse := by
      intro key
      simp [wordBytes]
    rw [ho, ho, compare_append hlen, compare_eq_beValue hlen, isLT_compare_then, ← hw, ← hw, fixedKeyLess]
    · rcases ht with rfl | rfl
      · have hn : ∀ key : List UInt8, key.length = (0 + 1) * 8 + 0 → key.drop ((0 + 1) * 8) = [] :=
          fun key hke => drop_of_length_le (by omega)
        rw [hn left hl, hn right hr]
        simp
      · have hs : ∀ key : List UInt8, key.length = (0 + 1) * 8 + 2 →
            byteSwap 2 (loadUnaligned ((key.drop 8).take 2)) = beValue (key.drop 8) := by
          intro key hke
          have hsi : (key.drop 8).length = 2 := by rw [length_drop]; omega
          have h := byteSwap_loadUnaligned (key.drop 8)
          rw [hsi] at h
          rw [take_of_length_le (by omega), h]
        have hta : (left.drop 8).length = (right.drop 8).length := by
          rw [length_drop, length_drop, hl, hr]
        rw [hs left hl, hs right hr, Nat.zero_add, Nat.one_mul, compare_eq_beValue hta]
        have hlt := isLT_compare_then (beValue (left.drop 8)) (beValue (right.drop 8)) .eq
        simp only [Ordering.then_eq] at hlt
        rw [hlt]
        by_cases heq : wordAt left 0 = wordAt right 0 <;> simp [heq]
    · simp
  | succ remaining ih =>
    rw [reversed_words_cons (remaining + 1) left, reversed_words_cons (remaining + 1) right, append_assoc,
      append_assoc, compare_append hlen, compare_eq_beValue hlen, isLT_compare_then, ← hw, ← hw,
      fixedKeyLess]
    have hd : ∀ key : List UInt8, key.drop ((remaining + 1 + 1) * 8) = (key.drop 8).drop ((remaining + 1) * 8) := by
      intro key
      rw [drop_drop]
      congr 1
      omega
    have hl' : (left.drop 8).length = (remaining + 1) * 8 + tailBytes := by rw [length_drop]; omega
    have hr' : (right.drop 8).length = (remaining + 1) * 8 + tailBytes := by rw [length_drop]; omega
    rw [hd left, hd right, ih _ _ hl' hr' (by
      rw [length_reverse, length_reverse, length_take, length_take, hl', hr'])]

/-! ## The order of stored keys -/

def KeyRecord.suffix (heapKeyOffset radixWidth : ℕ) (record : KeyRecord kind) : List UInt8 :=
  record.heapBytes (radixWidth - heapKeyOffset) (record.size - radixWidth)

def suffixOrder (heapKeyOffset radixWidth : ℕ) (left right : KeyRecord kind) : Ordering :=
  (compare (left.suffix heapKeyOffset radixWidth) (right.suffix heapKeyOffset radixWidth)).then
    (compare left.size right.size)

/-- The order of stored keys: the encoded inline bytes and, in a variable layout, the
suffix behind them. -/
def storedKeyOrder (heapKeyOffset : ℕ) (left right : KeyRecord kind) : Ordering :=
  (compare left.encodedBytes right.encodedBytes).then
    (if kind.isVariable then suffixOrder heapKeyOffset kind.inlineCapacity left right else .eq)

instance (heapKeyOffset radixWidth : ℕ) : TransCmp (@suffixOrder kind heapKeyOffset radixWidth) :=
  inferInstanceAs (TransCmp (compareLex
    (compareOn (suffix heapKeyOffset radixWidth)) (compareOn size)))

instance (heapKeyOffset : ℕ) : TransCmp (@storedKeyOrder kind heapKeyOffset) := by
  unfold storedKeyOrder
  cases kind.isVariable with
  | true =>
    exact inferInstanceAs (TransCmp (compareLex (compareOn encodedBytes)
      (suffixOrder heapKeyOffset kind.inlineCapacity)))
  | false =>
    simp only [Bool.false_eq_true, if_false, Ordering.then_eq]
    exact inferInstanceAs (TransCmp (compareOn encodedBytes))

private theorem heapBytes_take (first : ℕ) {count total : ℕ} (h : count ≤ total) :
    (record.heapBytes first total).take count = record.heapBytes first count := by
  rw [heapBytes, ← map_take, take_range, Nat.min_eq_left h, heapBytes]

/-- Where one key ends in the compared bytes the sizes decide, and the suffix order
agrees: the suffix of that key is empty. -/
private theorem suffixOrder_of_le {heapKeyOffset radixWidth : ℕ} {left right : KeyRecord kind}
    (h : left.size ≤ radixWidth ∨ right.size ≤ radixWidth) :
    suffixOrder heapKeyOffset radixWidth left right = compare left.size right.size := by
  have hem : ∀ record : KeyRecord kind, record.size ≤ radixWidth → record.suffix heapKeyOffset radixWidth = [] := by
    intro record hle
    rw [suffix, Nat.sub_eq_zero_of_le hle]
    rfl
  have hc : ∀ record : KeyRecord kind, radixWidth < record.size →
      ∃ byte rest, record.suffix heapKeyOffset radixWidth = byte :: rest := by
    intro record hlt
    apply exists_cons_of_length_pos
    rw [suffix, heapBytes, length_map, length_range]
    omega
  unfold suffixOrder
  by_cases hl : left.size ≤ radixWidth
  · by_cases hr : right.size ≤ radixWidth
    · rw [hem left hl, hem right hr]
      rfl
    · obtain ⟨byte, rest, hs⟩ := hc right (by omega)
      rw [hem left hl, hs, Nat.compare_eq_lt.mpr (by omega)]
      rfl
  · obtain ⟨byte, rest, hs⟩ := hc left (by omega)
    have hr : right.size ≤ radixWidth := h.resolve_left hl
    rw [hs, hem right hr, Nat.compare_eq_gt.mpr (by omega)]
    rfl

private theorem signOf_compareSuffixWithSizes {heapKeyOffset radixWidth : ℕ} {left right : KeyRecord kind}
    (hl : radixWidth < left.size) (hr : radixWidth < right.size) :
    signOf (compareSuffixWithSizes left right heapKeyOffset radixWidth) =
      suffixOrder heapKeyOffset radixWidth left right := by
  have hlen : ∀ record : KeyRecord kind,
      (record.suffix heapKeyOffset radixWidth).length = record.size - radixWidth := by
    intro record
    simp [suffix, heapBytes]
  have hm : min (left.size - radixWidth) (right.size - radixWidth) = min left.size right.size - radixWidth := by
    omega
  have hsi : compare (left.size - radixWidth) (right.size - radixWidth) = compare left.size right.size := by
    simp only [Nat.compare_eq_ite_lt]
    split_ifs <;> first | rfl | omega
  have hs := compare_eq_take_then (left.suffix heapKeyOffset radixWidth) (right.suffix heapKeyOffset radixWidth)
  rw [hlen, hlen, hm, hsi, suffix, suffix, heapBytes_take _ _ (by omega),
    heapBytes_take _ _ (by omega), ← suffix, ← suffix] at hs
  rw [compareSuffixWithSizes, signOf_memcmp_or, signOf_threeWay_nat, suffixOrder, hs, Ordering.then_assoc]
  congr 1
  cases compare left.size right.size <;> rfl

theorem signOf_compareSuffix (heapKeyOffset radixWidth : ℕ) (left right : KeyRecord kind) :
    signOf (compareSuffix left right heapKeyOffset radixWidth) = suffixOrder heapKeyOffset radixWidth left right := by
  unfold compareSuffix
  split
  · rename_i h
    rw [signOf_threeWay_nat, suffixOrder_of_le h]
  · rename_i h
    exact signOf_compareSuffixWithSizes (by omega) (by omega)

theorem signOf_compareKeys (heapKeyOffset : ℕ) (left right : KeyRecord kind) :
    signOf (compareKeys heapKeyOffset left right) = storedKeyOrder heapKeyOffset left right := by
  have hinl := signOf_compareInlineKeyPrefix left right
  unfold compareKeys storedKeyOrder
  split
  · rename_i hv
    rw [hv] at hinl
    have hs := signOf_compareSuffix heapKeyOffset kind.inlineCapacity left right
    unfold compareSuffix at hs
    rw [signOf_ite_ne_zero, hinl, hs]
  · rename_i hf
    rw [show kind.isVariable = false by simpa using hf] at hinl
    rw [hinl, Ordering.then_eq]

/-- The test the sorter uses is the strict part of `RadixSortKeyOps::compare`. -/
theorem radixSortKeyLess_eq (heapKeyOffset : ℕ) (left right : KeyRecord kind) :
    radixSortKeyLess heapKeyOffset left right = (storedKeyOrder heapKeyOffset left right).isLT := by
  unfold radixSortKeyLess
  split
  · rw [← signOf_compareKeys, signOf_isLT]
  · rename_i hf
    have hf : kind.isVariable = false := by simpa using hf
    obtain ⟨remaining, hw⟩ : ∃ remaining, kind.inlineWords = remaining + 1 :=
      ⟨kind.inlineWords - 1, by cases kind <;> decide⟩
    have ht : kind.inlineTailBytes = 0 ∨ kind.inlineTailBytes = 2 := by
      revert hf
      cases kind <;> decide
    have hc : kind.inlineCapacity = (remaining + 1) * 8 + kind.inlineTailBytes := by
      rw [← hw]
      cases kind <;> decide
    have hl := fixedKeyLess_eq kind.inlineTailBytes ht remaining left.inlineBytes right.inlineBytes
      (left.inlineBytes_length.trans hc) (right.inlineBytes_length.trans hc)
    have hb : ∀ record : KeyRecord kind, record.encodedBytes =
        (range (remaining + 1)).flatMap (fun word => (wordBytes record.inlineBytes word).reverse) ++
          record.inlineBytes.drop ((remaining + 1) * 8) := by
      intro record
      rw [encodedBytes_eq_words, hf, inlineTail_eq record.inlineBytes_length, ← hw]
      rfl
    rw [hw, hl, ← hb, ← hb, storedKeyOrder, hf]
    simp

theorem strictWeakOrder_radixSortKeyLess (heapKeyOffset : ℕ) :
    StrictWeakOrder (@radixSortKeyLess kind heapKeyOffset) := by
  have ho := strictWeak_isLT (@storedKeyOrder kind heapKeyOffset)
  simpa only [← radixSortKeyLess_eq] using ho

end Bolt.RadixSort
