import Bolt.Lib.Bits
import Bolt.Data.OrderLaws
import Bolt.RadixSort.KeyEncode

/-!
# Scalar and string bodies

Both families of scalar encoders and both paths of the string encoder write the
same plain bytes, complemented in a descending column, and the plain bytes are an
order code for the values.
-/

namespace Bolt.RadixSort

open Std Data Lib.Bytes Lib.Compare Lib.OrderCode Lib.Sorting

theorem encodeUnsigned_eq (size value : ℕ) (descending : Bool) :
    encodeUnsigned size value descending = (beBytes size value).map (directedByte descending) := by
  rw [encodeUnsigned, beBytes_eq_map_shiftRight, List.map_map]
  rfl

private theorem storeUnaligned_complementWord (l : List UInt8) :
    storeUnaligned l.length (complementWord l.length (loadUnaligned l)) = l.map fun b => ~~~b := by
  unfold storeUnaligned complementWord loadUnaligned
  rw [← leValue_map_complement]
  simpa using leBytes_leValue (l.map fun b => ~~~b)

theorem directedByte_false : directedByte false = id := rfl

theorem directedByte_true : directedByte true = fun b => ~~~b := rfl

theorem encodeUnsignedWord_eq (size value : ℕ) (descending : Bool) :
    encodeUnsignedWord size value descending = (beBytes size value).map (directedByte descending) := by
  have hl : (beBytes size value).length = size := length_beBytes size value
  cases descending with
  | false =>
    have hs := leBytes_leValue (beBytes size value)
    simpa [encodeUnsignedWord, storeUnaligned, toBigEndian, byteSwap, directedByte_false] using hs
  | true =>
    have hs := storeUnaligned_complementWord (beBytes size value)
    simpa [encodeUnsignedWord, toBigEndian, byteSwap, loadUnaligned, directedByte_true] using hs

variable (descending : Bool)

variable (kind : ScalarKind)

/-- Both families of scalar encoders write the same bytes. -/
theorem encodeScalar_eq (value : kind.Native) :
    encodeFixedScalarValue descending kind value = encodeBytesFixedScalarValue descending kind value := by
  have heq : encodeUnsignedWord = encodeUnsigned := by
    funext size word descending
    rw [encodeUnsignedWord_eq, encodeUnsigned_eq]
  rw [encodeFixedScalarValue, encodeBytesFixedScalarValue, heq]

theorem toNat_flipSign {w : ℕ} (hw : 0 < w) (value : BitVec w) :
    ((flipSign value).toNat : ℤ) = value.toInt + 2 ^ (w - 1) :=
  Lib.Bits.toNat_xor_top hw value

theorem compare_flipSign {w : ℕ} (hw : 0 < w) (left right : BitVec w) :
    compare (flipSign left).toNat (flipSign right).toNat = compare left.toInt right.toInt := by
  have hl := toNat_flipSign hw left
  have hr := toNat_flipSign hw right
  rcases Int.lt_trichotomy left.toInt right.toInt with h | h | h
  · rw [Int.compare_eq_lt.mpr h, Nat.compare_eq_lt]
    omega
  · rw [Int.compare_eq_eq.mpr h, Nat.compare_eq_eq]
    omega
  · rw [Int.compare_eq_gt.mpr h, Nat.compare_eq_gt]
    omega

theorem toNat_encodeFloat (bits : BitVec 32) : (encodeFloat bits).toNat = binary32.sortKey bits.toNat :=
  Lib.Bits.toNat_ite_top bits

theorem toNat_encodeDouble (bits : BitVec 64) : (encodeDouble bits).toNat = binary64.sortKey bits.toNat :=
  Lib.Bits.toNat_ite_top bits

theorem toNat_flipSign_huge (value : BitVec 128) :
    (flipSign value).toNat = (flipSign (hugeUpper value)).toNat * 256 ^ 8 + (hugeLower value).toNat := by
  have hf := toNat_flipSign (by decide) value
  have hup := toNat_flipSign (by decide) (hugeUpper value)
  have hu : (hugeUpper value).toNat = value.toNat / 2 ^ 64 := by
    rw [hugeUpper, BitVec.toNat_setWidth, BitVec.toNat_ushiftRight, Nat.shiftRight_eq_div_pow]
    omega
  have hl : (hugeLower value).toNat = value.toNat % 2 ^ 64 := by
    rw [hugeLower, BitVec.toNat_setWidth]
  rw [BitVec.toInt_eq_toNat_cond] at hf hup
  split at hf <;> split at hup <;> push_cast at hf hup <;> omega

/-- The bytes of a scalar in an ascending column. -/
def scalarBytes (kind : ScalarKind) (value : kind.Native) : List UInt8 :=
  encodeScalarWith (fun size word _ => beBytes size word) false kind value

theorem encodeBytesScalar_eq (value : kind.Native) : encodeBytesFixedScalarValue descending kind value =
      (scalarBytes kind value).map (directedByte descending) := by
  have heq : encodeUnsigned = fun size word descending => (beBytes size word).map (directedByte descending) := by
    funext size word descending
    exact encodeUnsigned_eq size word descending
  rw [encodeBytesFixedScalarValue, heq, scalarBytes]
  cases kind <;> simp [encodeScalarWith, directedByte]

theorem length_encodeBytesScalar (scalar : ScalarKind) (value : scalar.Native) :
    (encodeBytesFixedScalarValue descending scalar value).length = bodySize scalar := by
  rw [encodeBytesScalar_eq]
  cases scalar <;> simp [scalarBytes, encodeScalarWith, bodySize]

private theorem orderCodeOn_signed {w : ℕ} (size : ℕ) (hw : 0 < w) (hs : 2 ^ w = 256 ^ size) :
    OrderCodeOn (fun _ => True) (fun left right : BitVec w => compare left.toInt right.toInt)
      (fun value => beBytes size (flipSign value).toNat) :=
  (orderCodeOn_beBytes size).comap (fun value => (flipSign value).toNat)
    (fun value _ => hs ▸ (flipSign value).isLt)
    (fun left right _ _ => (compare_flipSign hw left right).symm) (fun _ => rfl)

private theorem orderCodeOn_floating (f : Lib.Ieee.Format) {w : ℕ} (size : ℕ) (hw : 2 ^ w = 2 * f.sign)
    (hs : 2 ^ w = 256 ^ size) (encode : BitVec w → BitVec w)
    (hen : ∀ bits, (encode bits).toNat = f.sortKey bits.toNat) :
    OrderCodeOn (fun bits => f.Ordinary bits.toNat) (fun left right : BitVec w => f.compareValues left.toNat right.toNat)
      (fun bits => beBytes size (encode bits).toNat) := by
  refine (orderCodeOn_beBytes size).comap (fun bits => (encode bits).toNat)
    (fun bits _ => hs ▸ (encode bits).isLt) ?_ (fun _ => rfl)
  intro left right hl hr
  rw [hen, hen]
  exact (f.compare_sortKey (hw ▸ left.isLt) (hw ▸ right.isLt) hl hr).symm

private theorem orderCodeOn_boolean : OrderCodeOn (fun _ => True) (compare : Bool → Bool → Ordering)
      (fun value => [(if value then 1 else 0 : UInt8)]) := by
  intro left right _ _ r s
  have hb : compare (if left then 1 else 0 : UInt8) (if right then 1 else 0 : UInt8) = compare left right := by
    revert left right
    decide
  simp [hb]

private theorem orderCodeOn_timestamp :
    OrderCodeOn (fun _ => True) ScalarKind.timestamp.order (scalarBytes .timestamp) := by
  have hs := orderCodeOn_signed (w := 64) 8 (by decide) (by decide)
  have hn := orderCodeOn_beBytes 8
  refine (hs.pair hn).comap (fun time : Timestamp => (time.seconds, time.nanos.toNat)) ?_
    (fun _ _ _ _ => rfl) (fun _ => rfl)
  exact fun time _ => ⟨trivial, time.nanos.isLt⟩

private theorem scalarBytes_hugeint (value : BitVec 128) :
    scalarBytes .hugeint value = beBytes 16 (flipSign value).toNat := by
  rw [beBytes_add 8 8, toNat_flipSign_huge]
  have hd : ((flipSign (hugeUpper value)).toNat * 256 ^ 8 + (hugeLower value).toNat) / 256 ^ 8 =
      (flipSign (hugeUpper value)).toNat := by omega
  have hm : beBytes 8 ((flipSign (hugeUpper value)).toNat * 256 ^ 8 + (hugeLower value).toNat) =
      beBytes 8 (hugeLower value).toNat := by
    rw [← beBytes_mod]
    congr 1
    omega
  rw [hd, hm]
  rfl

theorem orderCodeOn_scalarBytes : OrderCodeOn (Ordinary (.scalar kind)) kind.order (scalarBytes kind) := by
  have ht : ∀ {α : Type} {cmp : α → α → Ordering} {enc : α → List UInt8} {P : α → Prop},
      OrderCodeOn (fun _ => True) cmp enc → OrderCodeOn P cmp enc :=
    fun h => h.comap id (fun _ _ => trivial) (fun _ _ _ _ => rfl) (fun _ => rfl)
  cases kind with
  | boolean => exact ht orderCodeOn_boolean
  | tinyint => exact ht (orderCodeOn_signed 1 (by decide) (by decide))
  | smallint => exact ht (orderCodeOn_signed 2 (by decide) (by decide))
  | integer => exact ht (orderCodeOn_signed 4 (by decide) (by decide))
  | bigint => exact ht (orderCodeOn_signed 8 (by decide) (by decide))
  | hugeint =>
    have hc := orderCodeOn_signed (w := 128) 16 (by decide) (by decide)
    exact ht (hc.comap id (fun _ _ => trivial) (fun _ _ _ _ => rfl) scalarBytes_hugeint)
  | real => exact orderCodeOn_floating binary32 4 (by decide) (by decide) encodeFloat toNat_encodeFloat
  | double => exact orderCodeOn_floating binary64 8 (by decide) (by decide) encodeDouble toNat_encodeDouble
  | timestamp => exact ht orderCodeOn_timestamp

/-- Turning the bytes of a code around with the column direction turns its order
around. -/
theorem orderCodeOn_directed {α : Type} {P : α → Prop} {cmp : α → α → Ordering} {enc : α → List UInt8}
    (h : OrderCodeOn P cmp enc) (ascending : Bool) :
    OrderCodeOn P (directed ascending cmp) (fun a => (enc a).map (directedByte (!ascending))) := by
  cases ascending with
  | true => exact h.comap id (fun _ h => h) (fun _ _ _ _ => rfl) (fun a => List.map_id (enc a))
  | false => exact h.reverse reversesOrder_complement

theorem orderCodeOn_encodeBytesScalar (ascending : Bool) :
    OrderCodeOn (Ordinary (.scalar kind)) (directed ascending kind.order)
      (encodeBytesFixedScalarValue (!ascending) kind) :=
  (orderCodeOn_directed (orderCodeOn_scalarBytes kind) ascending).comap id (fun _ h => h)
    (fun _ _ _ _ => rfl) (encodeBytesScalar_eq (!ascending) kind)

theorem complementBytes_eq (l : List UInt8) : complementBytes l = l.map fun b => ~~~b := by
  fun_induction complementBytes l with
  | case1 b₀ b₁ b₂ b₃ b₄ b₅ b₆ b₇ rest ih =>
    have hw := storeUnaligned_complementWord [b₀, b₁, b₂, b₃, b₄, b₅, b₆, b₇]
    simp only [List.length_cons, List.length_nil] at hw
    rw [hw, ih]
    rfl
  | case2 rest _ => rfl

/-- The escaped bytes of a string in an ascending column, with the delimiter. -/
def stringBytes (value : List UInt8) : List UInt8 := value.flatMap (escapeByte false) ++ [stringDelimiter]

/-- Both paths of the string encoder write the escaped bytes. -/
theorem encodeStringValue_eq (value : List UInt8) :
    encodeStringValue descending value = (stringBytes value).map (directedByte descending) := by
  have hes : ∀ b, escapeByte descending b = (escapeByte false b).map (directedByte descending) := by
    intro b
    unfold escapeByte
    split <;> simp [directedByte_false]
  unfold encodeStringValue stringBytes
  split
  · -- no byte needs an escape, so the escaped bytes are the bytes themselves
    rename_i hp
    have hby : value.flatMap (escapeByte false) = value := by
      have hs : ∀ b ∈ value, escapeByte false b = [b] := by
        intro b hb
        have hgt : ¬b ≤ blobEscape := by
          intro hle
          have h01 : b = 0 ∨ b = 1 := by
            have hn : b.toNat ≤ 1 := hle
            rcases Nat.le_one_iff_eq_zero_or_eq_one.mp hn with h | h
            · exact .inl (UInt8.toNat_inj.mp h)
            · exact .inr (UInt8.toNat_inj.mp h)
          rcases h01 with rfl | rfl
          · exact hp.1 hb
          · exact hp.2 hb
        rw [escapeByte, if_neg hgt]
        rfl
      rw [List.flatMap_congr hs]
      simp
    rw [hby, complementBytes_eq]
    cases descending with
    | false => simp [directedByte_false, delimiter]
    | true => simp [directedByte_true, delimiter]
  · rw [List.map_append, List.map_flatMap, List.flatMap_congr fun b _ => hes b]
    rfl

private theorem orderCodeOn_escapeByte :
    OrderCodeOn (fun _ => True) (compare : UInt8 → UInt8 → Ordering) (escapeByte false) := by
  have hle : ∀ b : UInt8, b ≤ blobEscape ↔ b.toNat ≤ 1 := fun _ => .rfl
  -- an escaped byte is below the escape's successor, so it is below every plain byte
  have hl : ∀ a b : UInt8, a ≤ blobEscape → ¬b ≤ blobEscape →
      compare blobEscape b = .lt ∧ compare b blobEscape = .gt ∧ compare a b = .lt ∧ compare b a = .gt := by
    intro a b ha hb
    rw [hle] at ha hb
    simp only [compare_uint8, Nat.compare_eq_lt, Nat.compare_eq_gt]
    have hes : blobEscape.toNat = 1 := rfl
    omega
  intro a b _ _ r s
  by_cases ha : a ≤ blobEscape <;> by_cases hb : b ≤ blobEscape
  · simp [escapeByte, ha, hb, directedByte_false]
  · obtain ⟨hes, -, hab, -⟩ := hl a b ha hb
    simp [escapeByte, ha, hb, directedByte_false, hes, hab]
  · obtain ⟨-, hes, -, hab⟩ := hl b a hb ha
    simp [escapeByte, ha, hb, directedByte_false, hes, hab]
  · simp [escapeByte, ha, hb, directedByte_false]

theorem orderCodeOn_stringBytes :
    OrderCodeOn (fun _ => True) (compare : List UInt8 → List UInt8 → Ordering) stringBytes := by
  have hh : ∀ b, ∃ x t, escapeByte false b = x :: t ∧ compare stringDelimiter x = .lt ∧
      compare x stringDelimiter = Ordering.lt.swap := by
    intro b
    by_cases hb : b ≤ blobEscape
    · exact ⟨blobEscape, [b], by simp [escapeByte, hb, directedByte_false], by decide, by decide⟩
    · have hp : 1 < b.toNat := by
        have hle : ¬b.toNat ≤ 1 := hb
        omega
      refine ⟨b, [], by simp [escapeByte, hb, directedByte_false], ?_, ?_⟩
      · rw [compare_uint8, Nat.compare_eq_lt]
        exact Nat.lt_trans one_pos hp
      · rw [compare_uint8]
        exact Nat.compare_eq_gt.mpr (Nat.lt_trans one_pos hp)
  refine (orderCodeOn_escapeByte.seq stringDelimiter .lt (by decide) hh).comap id
    (fun _ _ _ _ => trivial) ?_ (fun _ => rfl)
  intro left right _ _
  rw [compareSeq_lt_eq]
  rfl

theorem orderCodeOn_encodeStringValue (ascending : Bool) :
    OrderCodeOn (fun _ => True) (directed ascending (compare : List UInt8 → List UInt8 → Ordering))
      (encodeStringValue (!ascending)) :=
  (orderCodeOn_directed orderCodeOn_stringBytes ascending).comap id (fun _ h => h)
    (fun _ _ _ _ => rfl) (encodeStringValue_eq (!ascending))

end Bolt.RadixSort
