import Bolt.RadixSort.KeyDecode

/-!
# Decoding what the encoder wrote

Every decoder finds behind its encoder the value that was encoded. A map comes back with its
entries in the order of its keys; everything else comes back as it was, floating-point
values with all their bits.
-/

namespace Bolt.RadixSort

open Std Data Lib.Bytes Lib.Compare Lib.Sorting Lib.Readers List

variable (kind : ScalarKind) (descending : Bool) {byte : UInt8}

theorem directedByte_twice (byte : UInt8) : directedByte descending (directedByte descending byte) = byte := by
  cases descending with
  | false => rfl
  | true => exact UInt8.not_not

theorem directedWord_beValue {size : ℕ} {bytes : List UInt8} (hl : bytes.length = size) :
    directedWord size descending (beValue bytes) = beValue (bytes.map (directedByte descending)) := by
  subst hl
  cases descending with
  | false => simp [directedWord, directedByte_false]
  | true =>
    have hc := leValue_map_complement bytes.reverse
    rw [leValue_eq_beValue, leValue_eq_beValue, ← map_reverse, reverse_reverse, length_reverse] at hc
    rw [directedWord, if_pos rfl, complementWord, ← hc, directedByte_true]

theorem decodeUnsigned_eq {size : ℕ} {bytes : List UInt8} (hl : bytes.length = size) :
    decodeUnsigned size descending bytes = beValue (bytes.map (directedByte descending)) := by
  cases descending with
  | false =>
    rw [decodeUnsigned, directedWord, if_neg (by decide), fromBigEndian_load hl, directedByte_false, map_id]
  | true =>
    have hlo : complementWord size (loadUnaligned bytes) = loadUnaligned (bytes.map fun byte => ~~~byte) := by
      rw [loadUnaligned, loadUnaligned, leValue_map_complement, complementWord, hl]
    rw [decodeUnsigned, directedWord, if_pos rfl, hlo, fromBigEndian_load (by rw [length_map, hl]), directedByte_true]

theorem bytesAt_map (f : UInt8 → UInt8) (bytes : List UInt8) (offset size : ℕ) :
    bytesAt (bytes.map f) offset size = (bytesAt bytes offset size).map f := by
  rw [bytesAt, bytesAt, ← map_drop, map_take]

theorem decodeSigned_flipSign {w : ℕ} (value : BitVec w) : decodeSigned w (flipSign value).toNat = value := by
  rw [decodeSigned, BitVec.ofNat_toNat, BitVec.setWidth_eq, flipSign, flipSign, BitVec.xor_assoc, BitVec.xor_self,
    BitVec.xor_zero]

/-- The two ways the top bit of a floating-point value is treated undo each other. -/
private theorem undo_top {w : ℕ} (hw : 0 < w) (bits enc : BitVec w)
    (h : enc = if bits &&& (1#w <<< (w - 1)) = 0 then bits ||| (1#w <<< (w - 1)) else ~~~bits) :
    (if enc &&& (1#w <<< (w - 1)) ≠ 0 then enc ^^^ (1#w <<< (w - 1)) else ~~~enc) = bits := by
  have ht : ∀ i < w, (1#w <<< (w - 1)).getLsbD i = decide (i = w - 1) := by
    intro i hi
    by_cases hl : i = w - 1
    · simp [hl, hw]
    · have hlt : i < w - 1 := by omega
      simp [hl, hlt]
  have ha : ∀ v : BitVec w, v &&& (1#w <<< (w - 1)) = 0 ↔ v.getLsbD (w - 1) = false := by
    intro v
    constructor
    · intro hz
      have hb := congrArg (fun x => x.getLsbD (w - 1)) hz
      simpa [ht (w - 1) (by omega)] using hb
    · intro hb
      apply BitVec.eq_of_getLsbD_eq
      intro i hi
      rw [BitVec.getLsbD_and, ht i hi]
      by_cases hl : i = w - 1
      · simp [hl, hb]
      · simp [hl]
  split_ifs at h with hz
  · have hb := (ha bits).mp hz
    have hs : enc &&& (1#w <<< (w - 1)) ≠ 0 := by
      rw [Ne, ha, h, BitVec.getLsbD_or, ht _ (by omega)]
      simp
    rw [if_pos hs, h]
    apply BitVec.eq_of_getLsbD_eq
    intro i hi
    rw [BitVec.getLsbD_xor, BitVec.getLsbD_or, ht i hi]
    by_cases hl : i = w - 1
    · simp [hl, hb]
    · simp [hl]
  · have hb : bits.getLsbD (w - 1) = true := by
      rw [ha] at hz
      simpa using hz
    have hc : enc &&& (1#w <<< (w - 1)) = 0 := by
      rw [ha, h, BitVec.getLsbD_not, hb]
      simp
    rw [if_neg (not_not_intro hc), h, BitVec.not_not]

theorem decodeFloat_encodeFloat (bits : BitVec 32) : decodeFloat (encodeFloat bits) = bits :=
  undo_top (by decide) bits _ rfl

theorem decodeDouble_encodeDouble (bits : BitVec 64) : decodeDouble (encodeDouble bits) = bits :=
  undo_top (by decide) bits _ rfl

theorem hugeBuild_halves (value : BitVec 128) : hugeBuild (hugeUpper value) (hugeLower value) = value := by
  apply BitVec.eq_of_getLsbD_eq
  intro i hi
  simp only [hugeBuild, hugeUpper, hugeLower, BitVec.getLsbD_or, BitVec.getLsbD_shiftLeft, BitVec.getLsbD_setWidth,
    BitVec.getLsbD_ushiftRight]
  by_cases hl : i < 64
  · simp [hl, hi]
  · have hh : i - 64 < 64 := by omega
    simp [hl, hi, hh, show 64 + (i - 64) = i by omega, show i - 64 < 128 by omega]

theorem decodeScalarWith_scalarBytes (value : kind.Native) :
    decodeScalarWith (fun offset size => beValue (bytesAt (scalarBytes kind value) offset size))
      ((scalarBytes kind value).getD 0 0) kind = value := by
  have hw : ∀ size word, word < 256 ^ size → beValue (bytesAt (beBytes size word) 0 size) = word := by
    intro size word hlt
    rw [bytesAt, drop_zero, take_of_length_le (Nat.le_of_eq (length_beBytes _ _)), beValue_beBytes, Nat.mod_eq_of_lt hlt]
  have hf : ∀ first second, first < 256 ^ 8 → beValue (bytesAt (beBytes 8 first ++ beBytes 8 second) 0 8) = first := by
    intro first second hlt
    rw [bytesAt, drop_zero, take_left' (length_beBytes _ _), beValue_beBytes, Nat.mod_eq_of_lt hlt]
  have hs : ∀ first second, second < 256 ^ 8 →
      beValue (bytesAt (beBytes 8 first ++ beBytes 8 second) 8 8) = second := by
    intro first second hlt
    rw [bytesAt, drop_left' (length_beBytes _ _), take_of_length_le (Nat.le_of_eq (length_beBytes _ _)),
      beValue_beBytes, Nat.mod_eq_of_lt hlt]
  cases kind with
  | boolean => cases value <;> decide
  | tinyint => exact (congrArg (decodeSigned 8) (hw 1 _ (flipSign value).isLt)).trans (decodeSigned_flipSign value)
  | smallint => exact (congrArg (decodeSigned 16) (hw 2 _ (flipSign value).isLt)).trans (decodeSigned_flipSign value)
  | integer => exact (congrArg (decodeSigned 32) (hw 4 _ (flipSign value).isLt)).trans (decodeSigned_flipSign value)
  | bigint => exact (congrArg (decodeSigned 64) (hw 8 _ (flipSign value).isLt)).trans (decodeSigned_flipSign value)
  | hugeint =>
    have hu := hf (flipSign (hugeUpper value)).toNat (hugeLower value).toNat (flipSign (hugeUpper value)).isLt
    have hl := hs (flipSign (hugeUpper value)).toNat (hugeLower value).toNat (hugeLower value).isLt
    rw [decodeScalarWith, scalarBytes, encodeScalarWith, hu, hl, decodeSigned_flipSign, BitVec.ofNat_toNat,
      BitVec.setWidth_eq, hugeBuild_halves]
  | real =>
    rw [decodeScalarWith, scalarBytes, encodeScalarWith, hw 4 _ (encodeFloat value).isLt, BitVec.ofNat_toNat,
      BitVec.setWidth_eq, decodeFloat_encodeFloat]
  | double =>
    rw [decodeScalarWith, scalarBytes, encodeScalarWith, hw 8 _ (encodeDouble value).isLt, BitVec.ofNat_toNat,
      BitVec.setWidth_eq, decodeDouble_encodeDouble]
  | timestamp =>
    have hse := hf (flipSign value.seconds).toNat value.nanos.toNat (flipSign value.seconds).isLt
    have hn := hs (flipSign value.seconds).toNat value.nanos.toNat value.nanos.isLt
    rw [decodeScalarWith, scalarBytes, encodeScalarWith, hse, hn, decodeSigned_flipSign, BitVec.ofNat_toNat,
      BitVec.setWidth_eq]

/-- Only words of at most eight bytes within the body are read. -/
theorem decodeScalarWith_congr {word word' : ℕ → ℕ → ℕ} (byte : UInt8)
    (h : ∀ offset size, 0 < size → size ≤ 8 → offset + size ≤ bodySize kind → offset ≤ 8 →
      (offset = 0 ∨ bodySize kind = 16) → word offset size = word' offset size) :
    decodeScalarWith word byte kind = decodeScalarWith word' byte kind := by
  cases kind <;> simp (disch := decide) only [decodeScalarWith, h]

theorem scalarOfBody_encode (value : kind.Native) :
    scalarOfBody kind descending (encodeBytesFixedScalarValue descending kind value) = value := by
  have hl := length_encodeBytesScalar descending kind value
  have hpl : (encodeBytesFixedScalarValue descending kind value).map (directedByte descending) =
      scalarBytes kind value := by
    rw [encodeBytesScalar_eq, map_map]
    exact (map_congr_left fun byte _ => directedByte_twice descending byte).trans (map_id _)
  have hb : directedByte descending ((encodeBytesFixedScalarValue descending kind value).getD 0 0) =
      (scalarBytes kind value).getD 0 0 := by
    have hp : 0 < (encodeBytesFixedScalarValue descending kind value).length := by
      rw [hl]
      cases kind <;> decide
    rw [← hpl, getD_eq_getElem _ _ hp, getD_eq_getElem _ _ (by rwa [length_map]), getElem_map]
  rw [scalarOfBody, hb]
  refine (decodeScalarWith_congr kind _ ?_).trans (decodeScalarWith_scalarBytes kind value)
  intro offset size _ _ hf _ _
  rw [decodeUnsigned_eq descending (length_bytesAt (by omega)), ← bytesAt_map, hpl]

theorem decodesOn_decodeScalar : DecodesOn (fun _ => True) (encodeBytesFixedScalarValue descending kind) id
      (decodeFixedScalarValue kind descending) := by
  intro value _ r
  have hl := length_encodeBytesScalar descending kind value
  rw [decodeFixedScalarValue, run_bind_ok (run_taken _ hl r), scalarOfBody_encode]
  rfl

variable {descending}

theorem directedByte_inj {a b : UInt8} (h : directedByte descending a = directedByte descending b) : a = b := by
  rw [← directedByte_twice descending a, h, directedByte_twice]

theorem directedByte_eq_iff {a b : UInt8} : directedByte descending a = b ↔ a = directedByte descending b := by
  constructor
  · rintro rfl
    exact (directedByte_twice descending a).symm
  · rintro rfl
    exact directedByte_twice descending b

private theorem scanStringLoop_plain (hd : byte ≠ delimiter descending)
    (hes : byte ≠ directedByte descending blobEscape) (rest : List UInt8) (cursor size : ℕ) :
    scanStringLoop descending (byte :: rest) cursor size =
      scanStringLoop descending rest (cursor + 1) (size + 1) := by
  have hd' : directedByte descending byte ≠ stringDelimiter := fun h => hd (directedByte_eq_iff.mp h)
  have hes' : directedByte descending byte ≠ blobEscape := fun h => hes (directedByte_eq_iff.mp h)
  cases rest <;> simp only [scanStringLoop, if_neg hd', if_neg hes']

private theorem scanStringLoop_delimiter (descending : Bool) (rest : List UInt8) (cursor size : ℕ) :
    scanStringLoop descending (delimiter descending :: rest) cursor size = .ok (size, cursor + 1) := by
  have hd : directedByte descending (delimiter descending) = stringDelimiter :=
    directedByte_twice descending stringDelimiter
  cases rest <;> rw [scanStringLoop, if_pos hd]

/-- The bytes before the first delimiter and escape are only counted. -/
private theorem scanStringLoop_drop : (body : List UInt8) → (count cursor size : ℕ) → count ≤ body.length →
    (∀ byte ∈ body.take count, byte ≠ delimiter descending ∧ byte ≠ directedByte descending blobEscape) →
    scanStringLoop descending body cursor size =
      scanStringLoop descending (body.drop count) (cursor + count) (size + count)
  | _, 0, _, _, _, _ => rfl
  | byte :: rest, count + 1, cursor, size, hl, hp => by
    obtain ⟨hd, hes⟩ := hp byte mem_cons_self
    have hr := scanStringLoop_drop rest count (cursor + 1) (size + 1) (Nat.le_of_succ_le_succ hl)
      (fun other ho => hp other (mem_cons_of_mem byte ho))
    rw [scanStringLoop_plain hd hes, hr, drop_succ_cons, Nat.add_right_comm cursor,
      Nat.add_right_comm size]
    rfl

private theorem memchr_eq_some {body : List UInt8} {index : ℕ} (h : memchr body byte = some index) :
    ∃ rest, body.drop index = byte :: rest ∧ index < body.length ∧ byte ∉ body.take index := by
  obtain ⟨hlt, hb, hbe⟩ := findIdx?_eq_some_iff_getElem.mp h
  have hg : body[index] = byte := by simpa using hb
  refine ⟨body.drop (index + 1), by rw [drop_eq_getElem_cons hlt, hg], hlt, ?_⟩
  intro hm
  obtain ⟨i, hi, hb'⟩ := mem_take_iff_getElem.mp hm
  exact absurd hb' (by simpa using hbe i (by omega))

private theorem memchr_eq_none {body : List UInt8} (h : memchr body byte = none) : byte ∉ body := by
  intro hm
  have hn := findIdx?_eq_none_iff.mp h byte hm
  simp at hn

/-- The search in a long body finds what the loop from its start finds. -/
theorem scanStringBody_eq (descending : Bool) (body : List UInt8) :
    scanStringBody descending body = scanStringLoop descending body 0 0 := by
  have hs : ∀ count ≤ body.length, delimiter descending ∉ body.take count →
      directedByte descending blobEscape ∉ body.take count →
      scanStringLoop descending body 0 0 = scanStringLoop descending (body.drop count) count count := by
    intro count hc hde hes
    have hd := scanStringLoop_drop body count 0 0 hc fun byte hby =>
      ⟨fun heq => hde (heq ▸ hby), fun heq => hes (heq ▸ hby)⟩
    rwa [Nat.zero_add] at hd
  have ht : ∀ {byte : UInt8} {count other : ℕ}, count ≤ other → byte ∉ body.take other → byte ∉ body.take count :=
    fun hle hno hm => hno ((take_subset_take_left body hle) hm)
  unfold scanStringBody
  split
  · split
    · rename_i stop hst hn
      obtain ⟨rest, hd, hlt, hb⟩ := memchr_eq_some hst
      have hes := memchr_eq_none hn
      rw [hs stop (Nat.le_of_lt hlt) hb (fun hm => hes (mem_of_mem_take hm)), hd,
        scanStringLoop_delimiter]
    · rename_i stop escape hst hfo
      obtain ⟨rest, hd, hlt, hb⟩ := memchr_eq_some hst
      obtain ⟨-, -, hlt', hb'⟩ := memchr_eq_some hfo
      split
      · rename_i hf
        rw [hs stop (Nat.le_of_lt hlt) hb (ht (Nat.le_of_lt hf) hb'), hd, scanStringLoop_delimiter]
      · rename_i hf
        exact (hs escape (Nat.le_of_lt hlt') (ht (Nat.le_of_not_lt hf) hb) hb').symm
    · rename_i escape hn hfo
      obtain ⟨-, -, hlt', hb'⟩ := memchr_eq_some hfo
      have hde := memchr_eq_none hn
      exact (hs escape (Nat.le_of_lt hlt') (fun hm => hde (mem_of_mem_take hm)) hb').symm
    · rfl
  · rfl

/-- What the encoder writes for one byte of a string: the byte, behind an escape if it
is not above it. -/
private theorem escapeByte_cases (byte : UInt8) : (escapeByte false byte = [blobEscape, byte]) ∨
      (escapeByte false byte = [byte] ∧ byte ≠ stringDelimiter ∧ byte ≠ blobEscape) := by
  by_cases hb : byte ≤ blobEscape
  · left
    simp [escapeByte, hb, directedByte_false]
  · right
    refine ⟨by simp [escapeByte, hb, directedByte_false], ?_, ?_⟩
    · rintro rfl
      exact hb (by decide)
    · rintro rfl
      exact hb (by decide)

private theorem scanStringLoop_escapeByte (descending : Bool) (byte : UInt8) (rest : List UInt8)
    (cursor size : ℕ) :
    scanStringLoop descending ((escapeByte false byte).map (directedByte descending) ++ rest) cursor size =
      scanStringLoop descending rest (cursor + (escapeByte false byte).length) (size + 1) := by
  rcases escapeByte_cases byte with hc | ⟨hc, hd, hes⟩
  · rw [hc, map_cons, map_cons, map_nil, cons_append, cons_append, nil_append,
      scanStringLoop, directedByte_twice, if_neg (by decide), if_pos rfl]
    rfl
  · rw [hc, map_cons, map_nil, cons_append, nil_append]
    exact scanStringLoop_plain (fun h => hd (directedByte_inj h)) (fun h => hes (directedByte_inj h)) _ _ _

private theorem unescape_plain (h : directedByte descending byte ≠ blobEscape) (rest : List UInt8) (decodedSize : ℕ) :
    unescape descending (byte :: rest) (decodedSize + 1) =
      directedByte descending byte :: unescape descending rest decodedSize := by
  cases rest <;> simp only [unescape, if_neg h]

variable (descending)

private theorem unescape_escapeByte (byte : UInt8) (rest : List UInt8) (decodedSize : ℕ) :
    unescape descending ((escapeByte false byte).map (directedByte descending) ++ rest) (decodedSize + 1) =
      byte :: unescape descending rest decodedSize := by
  rcases escapeByte_cases byte with hc | ⟨hc, -, hes⟩
  · rw [hc, map_cons, map_cons, map_nil, cons_append, cons_append, nil_append,
      unescape, directedByte_twice, if_pos rfl, directedByte_twice]
  · have hb : directedByte descending (directedByte descending byte) ≠ blobEscape := by
      rwa [directedByte_twice]
    rw [hc, map_cons, map_nil, cons_append, nil_append, unescape_plain hb, directedByte_twice]

private theorem encodeStringValue_append (value r : List UInt8) : encodeStringValue descending value ++ r =
      (value.flatMap (escapeByte false)).map (directedByte descending) ++ (delimiter descending :: r) := by
  rw [encodeStringValue_eq, stringBytes, map_append, append_assoc]
  rfl

private theorem scanStringLoop_encode (value r : List UInt8) (cursor size : ℕ) : scanStringLoop descending
        ((value.flatMap (escapeByte false)).map (directedByte descending) ++ (delimiter descending :: r))
        cursor size =
      .ok (size + value.length, cursor + (value.flatMap (escapeByte false)).length + 1) := by
  induction value generalizing cursor size with
  | nil => exact scanStringLoop_delimiter descending r cursor size
  | cons byte value ih =>
    rw [flatMap_cons, map_append, append_assoc, scanStringLoop_escapeByte, ih, length_append,
      length_cons, Nat.add_assoc, Nat.add_comm 1, Nat.add_assoc cursor]

private theorem unescape_encode (value r : List UInt8) : unescape descending
        ((value.flatMap (escapeByte false)).map (directedByte descending) ++ (delimiter descending :: r))
        value.length = value := by
  induction value with
  | nil => cases r <;> rfl
  | cons byte value ih =>
    rw [flatMap_cons, map_append, append_assoc, length_cons, unescape_escapeByte, ih]

/-- A string whose escaped bytes are as many as its own has none to escape. -/
private theorem flatMap_escapeByte_of_length {value : List UInt8}
    (h : (value.flatMap (escapeByte false)).length = value.length) : value.flatMap (escapeByte false) = value := by
  have hle : ∀ bytes : List UInt8, bytes.length ≤ (bytes.flatMap (escapeByte false)).length := by
    intro bytes
    induction bytes with
    | nil => exact Nat.le_refl 0
    | cons byte bytes ih =>
      rw [flatMap_cons, length_append, length_cons]
      rcases escapeByte_cases byte with hc | ⟨hc, -, -⟩
      · rw [hc, length_cons, length_singleton]
        omega
      · rw [hc, length_singleton]
        omega
  induction value with
  | nil => rfl
  | cons byte value ih =>
    have hv := hle value
    rw [flatMap_cons, length_append, length_cons] at h
    rcases escapeByte_cases byte with hc | ⟨hc, -, -⟩
    · rw [hc, length_cons, length_singleton] at h
      omega
    · rw [hc, length_singleton] at h
      rw [flatMap_cons, hc, ih (by omega)]
      rfl

private theorem writeDecodedString_encode (value r : List UInt8) : writeDecodedString descending
        ((value.flatMap (escapeByte false)).map (directedByte descending) ++ (delimiter descending :: r))
        value.length ((value.flatMap (escapeByte false)).length + 1) = value := by
  unfold writeDecodedString
  split
  · rename_i hsi
    have hs := flatMap_escapeByte_of_length (Nat.succ.inj hsi)
    have hc : ((value.map (directedByte descending)) ++ (delimiter descending :: r)).take value.length =
        value.map (directedByte descending) := take_left' (length_map _)
    rw [hs, hc]
    cases descending with
    | false => simp [directedByte_false]
    | true =>
      rw [if_pos rfl, complementBytes_eq, map_map]
      exact (map_congr_left fun byte _ => directedByte_twice true byte).trans (map_id _)
  · exact unescape_encode descending value r

theorem decodesOn_decodeString :
    DecodesOn (fun _ => True) (encodeStringValue descending) id (decodeString descending) := by
  intro value _ r
  have hl : ((value.flatMap (escapeByte false)).map (directedByte descending) ++ [delimiter descending]).length =
      (value.flatMap (escapeByte false)).length + 1 := by
    rw [length_append, length_map]
    rfl
  have hd : ((value.flatMap (escapeByte false)).map (directedByte descending) ++ (delimiter descending :: r)).drop
      ((value.flatMap (escapeByte false)).length + 1) = r := by
    rw [← singleton_append, ← append_assoc]
    exact drop_left' hl
  rw [encodeStringValue_append]
  show decodeString descending _ = _
  unfold decodeString
  rw [scanStringBody_eq, scanStringLoop_encode, Nat.zero_add, Nat.zero_add]
  dsimp only
  rw [writeDecodedString_encode, hd]
  rfl

mutual
/-- A value with the entries of its maps in the order of their keys, at every level. -/
def sortedDatum (S : ComparisonSort) : (type : SqlType) → Datum type → Datum type
  | .scalar _, value => value
  | .string _, value => value
  | .unknown, value => value
  | .array element, elements => elements.map (Option.map (sortedDatum S element))
  | .map key value, (entries : Entries key value) => (sortedEntries S entries).map fun entry =>
      (entry.1.map (sortedDatum S key), entry.2.map (sortedDatum S value))
  | .row children, fields => sortedFields S children fields
  | .function, value => value
@[inherit_doc sortedDatum]
def sortedFields (S : ComparisonSort) : (types : List SqlType) → Fields types → Fields types
  | [], fields => fields
  | type :: types, (value, values) => (value.map (sortedDatum S type), sortedFields S types values)
end

@[inherit_doc sortedDatum]
def sortedValue (S : ComparisonSort) (type : SqlType) (value : Value type) : Value type :=
  value.map (sortedDatum S type)

mutual
/-- What a value may come back as: itself, where a map is the same association of keys
and values, listed by ascending keys. -/
def ReturnedAs (S : ComparisonSort) : (type : SqlType) → Datum type → Datum type → Prop
  | .scalar _, value, returned => returned = value
  | .string _, value, returned => returned = value
  | .unknown, _, _ => True
  | .array element, elements, returned => Forall₂ (SameNullable (ReturnedAs S element)) elements returned
  | .map key value, (entries : Entries key value), (returned : Entries key value) =>
    ∃ ascending : Entries key value, ascending.Perm entries ∧
      ascending.Pairwise (fun x y => (sqlOrderValue S key {} x.1 y.1).isLE) ∧
      Forall₂ (fun x y => SameNullable (ReturnedAs S key) x.1 y.1 ∧ SameNullable (ReturnedAs S value) x.2 y.2)
        ascending returned
  | .row children, fields, returned => ReturnedFields S children fields returned
  | .function, _, _ => True
@[inherit_doc ReturnedAs]
def ReturnedFields (S : ComparisonSort) : (types : List SqlType) → Fields types → Fields types → Prop
  | [], _, _ => True
  | type :: types, (value, values), (returned, others) =>
    SameNullable (ReturnedAs S type) value returned ∧ ReturnedFields S types values others
end

private theorem sameNullable_map {α : Type} {same : α → α → Prop} {f : α → α} (h : ∀ a, same a (f a)) (x : Option α) :
    SameNullable same x (x.map f) := by
  cases x with
  | none => trivial
  | some a => exact h a

mutual
theorem returnedAs_sortedDatum (S : ComparisonSort) : (type : SqlType) → (value : Datum type) →
    ReturnedAs S type value (sortedDatum S type value)
  | .scalar _, value => by rw [ReturnedAs, sortedDatum]
  | .string _, value => by rw [ReturnedAs, sortedDatum]
  | .unknown, value => nomatch value
  | .array elem, elems => by
    rw [ReturnedAs, sortedDatum, forall₂_map_right_iff, forall₂_same]
    exact fun x _ => sameNullable_map (returnedAs_sortedDatum S elem) x
  | .map key value, entries => by
    rw [ReturnedAs, sortedDatum]
    refine ⟨sortedEntries S entries, sortedEntries_perm S entries, sortedEntries_sorted S entries, ?_⟩
    rw [forall₂_map_right_iff, forall₂_same]
    exact fun entry _ => ⟨sameNullable_map (returnedAs_sortedDatum S key) entry.1,
      sameNullable_map (returnedAs_sortedDatum S value) entry.2⟩
  | .row children, fields => by
    rw [ReturnedAs, sortedDatum]
    exact returnedFields_sortedFields S children fields
  | .function, value => nomatch value
theorem returnedFields_sortedFields (S : ComparisonSort) : (types : List SqlType) → (fields : Fields types) →
    ReturnedFields S types fields (sortedFields S types fields)
  | [], _ => trivial
  | type :: types, (value, values) =>
    ⟨sameNullable_map (returnedAs_sortedDatum S type) value, returnedFields_sortedFields S types values⟩
end

section Nested

variable {α β : Type} {flags : CompareFlags} {encodeBody : α → List UInt8} {view : α → β}

theorem decodesOn_decodeNullable {decodeBody : KeyDecoder β}
    (h : DecodesOn (fun _ => True) encodeBody view decodeBody) (flags : CompareFlags) :
    DecodesOn (fun _ => True) (encodeNullable flags encodeBody) (Option.map view) (decodeNullable flags decodeBody) := by
  intro value _ r
  cases value with
  | none =>
    rw [encodeNullable, decodeNullable, cons_append, run_bind_ok (run_next ..), if_pos rfl]
    rfl
  | some datum =>
    rw [encodeNullable, decodeNullable, cons_append, run_bind_ok (run_next ..),
      if_neg (nullMarker_ne_valid flags).symm, run_bind_ok (h datum trivial r)]
    rfl

section

variable {decodeElement : KeyDecoder β} {view : Option α → β}
  (h : DecodesOn (fun _ => True) (encodeNullable flags encodeBody) view decodeElement)

include h

theorem decodesOn_decodeElements : DecodesOn (fun _ => True)
      (fun l : List (Option α) => l.flatMap (encodeNullable flags encodeBody) ++ [delimiter (!flags.ascending)])
      (map view) (decodeElements flags decodeElement) := by
  have hh : ∀ x, True → ∃ marker rest, encodeNullable flags encodeBody x = marker :: rest ∧
      marker ≠ delimiter (!flags.ascending) := fun x _ => encodeNullable_ne_delimiter flags encodeBody x
  have hl := h.untilDelimiter DecodeError.truncated .roundsExhausted hh
  exact fun l _ r => hl l (fun _ _ => trivial) r

theorem decodesOn_decodeMapValues (l : List (Option α)) (r : List UInt8) : (decodeMapValues decodeElement l.length).run
        (l.flatMap (encodeNullable flags encodeBody) ++ [delimiter (!flags.ascending)] ++ r) =
      .ok (l.map view, r) := by
  have hel := h.times l (fun _ _ => trivial) ([delimiter (!flags.ascending)] ++ r)
  rw [decodeMapValues, append_assoc, run_bind_ok hel, singleton_append, run_bind_ok (run_next ..)]
  rfl

end

end Nested

private theorem encodeNullable_scalar (flags : CompareFlags) :
    DecodesOn (fun _ => True) (encodeNullable flags (encodeBytesFixedScalarValue (!flags.ascending) kind))
      (fun _ => ()) (scanFixedElement kind flags) := by
  intro value _ r
  cases value with
  | none =>
    rw [encodeNullable, scanFixedElement, cons_append, run_bind_ok (run_next ..), if_pos rfl]
    rfl
  | some datum =>
    have hl := length_encodeBytesScalar (!flags.ascending) kind datum
    rw [encodeNullable, scanFixedElement, cons_append, run_bind_ok (run_next ..),
      if_neg (nullMarker_ne_valid flags).symm, run_bind_ok (run_taken _ hl r)]
    rfl

/-- Counting the elements first and then decoding as many finds what the element loop
finds. -/
theorem decodesOn_decodeFixedScalarArrayElements (flags : CompareFlags) : DecodesOn (fun _ => True)
      (fun l => l.flatMap (encodeNullable flags (encodeBytesFixedScalarValue (!flags.ascending) kind)) ++
        [delimiter (!flags.ascending)])
      id (decodeFixedScalarArrayElements kind flags) := by
  intro elems _ r
  have hs := decodesOn_decodeElements (encodeNullable_scalar kind flags) elems trivial r
  rw [decodeElements] at hs
  have hel := decodesOn_decodeNullable (decodesOn_decodeScalar kind (!flags.ascending)) flags
  have hd := decodesOn_decodeMapValues hel elems r
  rw [Option.map_id, map_id] at hd
  have hg : ∀ text : List UInt8, (get : KeyDecoder (List UInt8)).run text = .ok (text, text) := fun _ => rfl
  have hse : ∀ text text' : List UInt8, (set text : KeyDecoder PUnit).run text' = .ok (⟨⟩, text) := fun _ _ => rfl
  rw [decodeFixedScalarArrayElements, run_bind_ok (hg _), run_bind_ok hs, run_bind_ok (hse _ _), length_map]
  exact hd

private theorem decodesOn_fixedElements (S : ComparisonSort) (flags : CompareFlags) {kind : ScalarKind}
    (r : List UInt8) (elems : List (Value (.scalar kind))) :
    (decodeFixedScalarArrayElements kind flags).run
        (elems.flatMap (encodeNullable flags (encodeBody S (.scalar kind) flags)) ++
          [delimiter (!flags.ascending)] ++ r) =
      .ok (elems.map (Option.map (sortedDatum S (.scalar kind))), r) := by
  have hb : encodeBody S (.scalar kind) flags = encodeBytesFixedScalarValue (!flags.ascending) kind := by
    funext value
    rw [encodeBody]
  have hs : sortedDatum S (.scalar kind) = id := by
    funext value
    rfl
  rw [hb, hs, Option.map_id, map_id]
  exact decodesOn_decodeFixedScalarArrayElements kind flags elems trivial r

section Elements

variable {S : ComparisonSort} {type : SqlType} {flags : CompareFlags}
  (h : DecodesOn (fun _ => True) (encodeBody S type flags) (sortedDatum S type) (decodeBody type flags))
include h

private theorem decodesOn_element :
    DecodesOn (fun _ => True) (encodeNullable flags (encodeBody S type flags)) (Option.map (sortedDatum S type))
      (decodeNullable flags (decodeBody type flags)) :=
  decodesOn_decodeNullable h flags

theorem decodesOn_decodeKeyElements : DecodesOn (fun _ => True)
      (fun l : List (Value type) => l.flatMap (encodeNullable flags (encodeBody S type flags)) ++
        [delimiter (!flags.ascending)])
      (map (Option.map (sortedDatum S type))) (decodeKeyElements type flags) := by
  have hl := decodesOn_decodeElements (decodesOn_element h)
  intro elems _ r
  cases type with
  | scalar kind =>
    rw [decodeKeyElements]
    exact decodesOn_fixedElements S flags r elems
  | _ =>
    rw [decodeKeyElements]
    · exact hl elems trivial r
    · intro kind hki
      cases hki

theorem decodesOn_decodeValueElements (elems : List (Value type)) (r : List UInt8) :
    (decodeValueElements type flags elems.length).run
        (elems.flatMap (encodeNullable flags (encodeBody S type flags)) ++ [delimiter (!flags.ascending)] ++ r) =
      .ok (elems.map (Option.map (sortedDatum S type)), r) := by
  have hl := decodesOn_decodeMapValues (decodesOn_element h) elems r
  cases type with
  | scalar kind =>
    rw [decodeValueElements]
    exact decodesOn_fixedElements S flags r elems
  | _ =>
    rw [decodeValueElements]
    · exact hl
    · intro kind hki
      cases hki

theorem decodesOn_decodeArray : DecodesOn (fun _ => True) (encodeBody S (.array type) flags) (sortedDatum S (.array type))
      (decodeBody (.array type) flags) := by
  have hl := decodesOn_decodeElements (decodesOn_element h)
  intro elems _ r
  rw [encodeBody_array, sortedDatum]
  cases type with
  | scalar kind =>
    have hf := decodesOn_fixedElements S flags r elems
    rw [decodeBody]
    cases elems with
    | nil =>
      rw [flatMap_nil, nil_append, singleton_append, run_bind_ok (run_peek ..), if_pos rfl, run_bind_ok (run_next ..)]
      rfl
    | cons elem elems =>
      obtain ⟨marker, rest, hc, hne⟩ :=
        encodeNullable_ne_delimiter flags (encodeBody S (.scalar kind) flags) elem
      have hp : (peek DecodeError.truncated).run
          ((elem :: elems).flatMap (encodeNullable flags (encodeBody S (.scalar kind) flags)) ++
            [delimiter (!flags.ascending)] ++ r) =
          .ok (marker, (elem :: elems).flatMap (encodeNullable flags (encodeBody S (.scalar kind) flags)) ++
            [delimiter (!flags.ascending)] ++ r) := by
        rw [flatMap_cons, hc]
        rfl
      rw [run_bind_ok hp, if_neg hne]
      exact hf
  | _ =>
    rw [decodeBody]
    · exact hl elems trivial r
    · intro kind hki
      cases hki

end Elements

mutual
/-- Decoding the body of a value finds the value with its maps sorted, and consumes
exactly what the encoder wrote for it. -/
theorem decodesOn_decodeBody (S : ComparisonSort) : (type : SqlType) → (flags : CompareFlags) →
    DecodesOn (fun _ => True) (encodeBody S type flags) (sortedDatum S type) (decodeBody type flags)
  | .scalar kind, flags => by
    intro value _ r
    rw [encodeBody, decodeBody, sortedDatum]
    exact decodesOn_decodeScalar kind (!flags.ascending) value trivial r
  | .string _, flags => by
    intro value _ r
    rw [encodeBody, decodeBody, sortedDatum]
    exact decodesOn_decodeString (!flags.ascending) value trivial r
  | .unknown, _ => fun value => nomatch value
  | .array elem, flags => decodesOn_decodeArray (decodesOn_decodeBody S elem flags)
  | .map key value, flags => by
    intro entries _ r
    have hke := decodesOn_decodeKeyElements (decodesOn_decodeBody S key flags)
      ((sortedEntries S entries).map Prod.fst) trivial
    have hv := decodesOn_decodeValueElements (decodesOn_decodeBody S value flags)
      ((sortedEntries S entries).map Prod.snd) r
    rw [length_map] at hv
    rw [encodeBody_map, decodeBody, append_assoc, run_bind_ok (hke _), length_map, length_map,
      run_bind_ok hv, sortedDatum, if_neg (by simp)]
    show Except.ok (zip _ _, r) = _
    rw [map_map, map_map, zip_map']
    rfl
  | .row children, flags => by
    intro fields _ r
    rw [encodeBody, decodeBody, sortedDatum]
    exact decodesOn_decodeFields S children flags fields trivial r
  | .function, _ => fun value => nomatch value
theorem decodesOn_decodeFields (S : ComparisonSort) : (types : List SqlType) → (flags : CompareFlags) →
    DecodesOn (fun _ => True) (encodeFields S types flags) (sortedFields S types) (decodeFields types flags)
  | [], _ => by
    intro fields _ r
    rw [encodeFields, decodeFields, sortedFields]
    rfl
  | type :: types, flags => by
    rintro ⟨value, values⟩ _ r
    have hva := decodesOn_decodeNullable (decodesOn_decodeBody S type flags) flags value trivial
    have hv := decodesOn_decodeFields S types flags values trivial r
    rw [encodeFields, decodeFields, append_assoc, run_bind_ok (hva _), run_bind_ok hv]
    rfl
end

end Bolt.RadixSort
