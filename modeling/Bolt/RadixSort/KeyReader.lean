import Bolt.Lib.Readers
import Bolt.RadixSort.KeyOrder

/-!
# Reading encoded keys

`EncodedKeyReader` and `skipValue`. A reader is the part of the encoded key it has
not consumed; its checked operations fail where the source throws. Entry counts of maps
are natural numbers: a counted key takes at least one byte of a key whose size fits in
64 bits, so the overflow check of the source never fires.
-/

namespace Bolt.RadixSort

open Std Data Lib.Bytes Lib.Compare Lib.OrderCode Lib.Sorting Lib.Readers List

/-- The failures of the key readers: "Radix sort key input is truncated", "Invalid
radix sort key marker while skipping {}", "Invalid radix sort key marker", "UNKNOWN
radix sort key must use the null marker", "Invalid radix sort encoded map delimiter",
"Radix sort key skip is not implemented for {}". The last constructor is the bound on
the rounds of a loop of the model; no loop over what the encoder wrote reaches it. -/
inductive KeyError where
  | truncated
  | invalidMarkerSkipping (type : SqlType)
  | invalidMarker
  | unknownNotNull
  | invalidMapDelimiter
  | skipNotImplemented (type : SqlType)
  | roundsExhausted

abbrev EncodedKeyReader := Reader KeyError UInt8

def checkedReadByte : EncodedKeyReader UInt8 := next .truncated

def checkedSkip (bytes : ℕ) : EncodedKeyReader Unit := do
  let _ ← taken .truncated bytes

def skipStringLoop (delimiter escape : UInt8) : List UInt8 → Except KeyError (Unit × List UInt8)
  | [] => .error .truncated
  | byte :: rest =>
    if byte = delimiter then .ok ((), rest)
    else if byte = escape then
      match rest with
      | [] => .error .truncated
      | _ :: rest => skipStringLoop delimiter escape rest
    else skipStringLoop delimiter escape rest

def skipStringBody (descending : Bool) : EncodedKeyReader Unit :=
  skipStringLoop (delimiter descending) (directedByte descending blobEscape)

def skipElements (flags : CompareFlags) (skipElement : EncodedKeyReader Unit) : EncodedKeyReader (List Unit) :=
  untilDelimiter .truncated .roundsExhausted (delimiter (!flags.ascending)) skipElement

/-- The marker that `skipValue` reads first, around a reader of bodies. -/
def skipMarked (type : SqlType) (flags : CompareFlags) (skipBody : EncodedKeyReader Unit) : EncodedKeyReader Unit := do
  let marker ← checkedReadByte
  if marker ≠ nullMarker flags ∧ marker ≠ validMarker flags then throw (.invalidMarkerSkipping type)
  else if marker = nullMarker flags then return
  else skipBody

mutual
/-- `skipValue` behind a valid marker. -/
def skipBody : SqlType → CompareFlags → EncodedKeyReader Unit
  | .scalar kind, _ => checkedSkip (bodySize kind)
  | .string _, flags => skipStringBody (!flags.ascending)
  | .unknown, _ => throw .unknownNotNull
  | .array element, flags => do
    let _ ← skipElements flags (skipMarked element flags (skipBody element flags))
  | .map key value, flags => do
    let keys ← skipElements flags (skipMarked key flags (skipBody key flags))
    let _ ← times (skipMarked value flags (skipBody value flags)) keys.length
    let finalDelimiter ← checkedReadByte
    if finalDelimiter ≠ delimiter (!flags.ascending) then throw .invalidMapDelimiter
  | .row children, flags => skipFields children flags
  | .function, _ => throw (.skipNotImplemented .function)
def skipFields : List SqlType → CompareFlags → EncodedKeyReader Unit
  | [], _ => return
  | type :: types, flags => do
    skipMarked type flags (skipBody type flags)
    skipFields types flags
end

def skipValue (type : SqlType) (flags : CompareFlags) : EncodedKeyReader Unit :=
  skipMarked type flags (skipBody type flags)

/-! ## Skipping what the encoder wrote -/

theorem nullMarker_ne_valid (flags : CompareFlags) : nullMarker flags ≠ validMarker flags := by
  unfold nullMarker validMarker
  cases flags.nullsFirst <;> decide

private theorem skipStringLoop_delimiter (delimiter escape : UInt8) (rest : List UInt8) :
    skipStringLoop delimiter escape (delimiter :: rest) = .ok ((), rest) := by
  cases rest <;> simp [skipStringLoop]

private theorem skipStringLoop_escape {delimiter escape : UInt8} (h : escape ≠ delimiter) (byte : UInt8)
    (rest : List UInt8) :
    skipStringLoop delimiter escape (escape :: byte :: rest) = skipStringLoop delimiter escape rest := by
  simp [skipStringLoop, h]

private theorem skipStringLoop_plain {delimiter escape byte : UInt8} (hd : byte ≠ delimiter)
    (hes : byte ≠ escape) (rest : List UInt8) :
    skipStringLoop delimiter escape (byte :: rest) = skipStringLoop delimiter escape rest := by
  cases rest <;> simp [skipStringLoop, hd, hes]

private theorem skipStringLoop_escapeByte (descending : Bool) (byte : UInt8) (rest : List UInt8) :
    skipStringLoop (delimiter descending) (directedByte descending blobEscape)
        ((escapeByte false byte).map (directedByte descending) ++ rest) =
      skipStringLoop (delimiter descending) (directedByte descending blobEscape) rest := by
  have hinj : Function.Injective (directedByte descending) := by
    intro a b h
    cases descending with
    | false => exact h
    | true => exact UInt8.not_inj.mp h
  have hes : directedByte descending blobEscape ≠ delimiter descending :=
    fun h => absurd (hinj h) (by decide)
  by_cases hb : byte ≤ blobEscape
  · have hc : escapeByte false byte = [blobEscape, byte] := by simp [escapeByte, hb, directedByte_false]
    rw [hc]
    exact skipStringLoop_escape hes _ rest
  · have hc : escapeByte false byte = [byte] := by simp [escapeByte, hb, directedByte_false]
    have hd : directedByte descending byte ≠ delimiter descending := by
      intro h
      rw [hinj h] at hb
      exact hb (by decide)
    have hp : directedByte descending byte ≠ directedByte descending blobEscape := by
      intro h
      rw [hinj h] at hb
      exact hb (by decide)
    rw [hc]
    exact skipStringLoop_plain hd hp rest

theorem decodesOn_skipStringBody (desc : Bool) :
    DecodesOn (fun _ => True) (encodeStringValue desc) (fun _ => ()) (skipStringBody desc) := by
  intro value _ r
  rw [encodeStringValue_eq, stringBytes, skipStringBody]
  show skipStringLoop _ _ _ = _
  induction value with
  | nil => exact skipStringLoop_delimiter _ _ r
  | cons byte value ih =>
    rw [flatMap_cons, append_assoc, map_append, append_assoc, skipStringLoop_escapeByte]
    exact ih

theorem decodesOn_skipMarked {α : Type} {encodeBody : α → List UInt8} {skipBody : EncodedKeyReader Unit}
    (h : DecodesOn (fun _ => True) encodeBody (fun _ => ()) skipBody) (type : SqlType) (flags : CompareFlags) :
    DecodesOn (fun _ => True) (encodeNullable flags encodeBody) (fun _ => ()) (skipMarked type flags skipBody) := by
  intro value _ r
  cases value with
  | none =>
    rw [encodeNullable, skipMarked, checkedReadByte, cons_append, run_bind_ok (run_next ..)]
    rw [if_neg (by simp), if_pos rfl]
    rfl
  | some datum =>
    rw [encodeNullable, skipMarked, checkedReadByte, cons_append, run_bind_ok (run_next ..)]
    rw [if_neg (by simp), if_neg (nullMarker_ne_valid flags).symm]
    exact h datum trivial r

theorem encodeNullable_ne_delimiter {α : Type} (flags : CompareFlags) (encodeBody : α → List UInt8) (x : Option α) :
    ∃ marker rest, encodeNullable flags encodeBody x = marker :: rest ∧ marker ≠ delimiter (!flags.ascending) := by
  obtain ⟨marker, rest, hc, hlt, -⟩ := encodeNullable_head flags encodeBody x
  exact ⟨marker, rest, hc, ne_delimiter flags.shorterOrder_ne_eq hlt⟩

theorem decodesOn_skipElements {α : Type} {encodeBody : α → List UInt8} {skipElement : EncodedKeyReader Unit}
    {flags : CompareFlags}
    (h : DecodesOn (fun _ => True) (encodeNullable flags encodeBody) (fun _ => ()) skipElement) :
    DecodesOn (fun _ => True)
      (fun l : List (Option α) => l.flatMap (encodeNullable flags encodeBody) ++ [delimiter (!flags.ascending)])
      (map fun _ => ()) (skipElements flags skipElement) := by
  have hh : ∀ x, True → ∃ marker rest, encodeNullable flags encodeBody x = marker :: rest ∧
      marker ≠ delimiter (!flags.ascending) := fun x _ => encodeNullable_ne_delimiter flags encodeBody x
  have hl := h.untilDelimiter KeyError.truncated .roundsExhausted hh
  exact fun l _ r => hl l (fun _ _ => trivial) r

theorem encodeBody_map (S : ComparisonSort) (key value : SqlType) (flags : CompareFlags) (entries : Entries key value) :
    encodeBody S (.map key value) flags entries =
      (((sortedEntries S entries).map Prod.fst).flatMap (encodeNullable flags (encodeBody S key flags)) ++
        [delimiter (!flags.ascending)]) ++
      (((sortedEntries S entries).map Prod.snd).flatMap (encodeNullable flags (encodeBody S value flags)) ++
        [delimiter (!flags.ascending)]) := by
  rw [encodeBody, withSortedIndices_eq, sortedEntries]
  simp [flatMap_map]

mutual
/-- Skipping the body of a value consumes exactly what the encoder wrote for it. -/
theorem decodesOn_skipBody (S : ComparisonSort) : (type : SqlType) → (flags : CompareFlags) →
    DecodesOn (fun _ => True) (encodeBody S type flags) (fun _ => ()) (skipBody type flags)
  | .scalar kind, flags => by
    intro value _ r
    have hl := length_encodeBytesScalar (!flags.ascending) kind value
    rw [encodeBody, skipBody, checkedSkip, run_bind_ok (run_taken _ hl r)]
    rfl
  | .string _, flags => by
    intro value _ r
    rw [encodeBody, skipBody]
    exact decodesOn_skipStringBody (!flags.ascending) value trivial r
  | .unknown, _ => fun value => nomatch value
  | .array elem, flags => by
    intro elems _ r
    have hel := decodesOn_skipMarked (decodesOn_skipBody S elem flags) elem flags
    rw [encodeBody_array, skipBody, run_bind_ok (decodesOn_skipElements hel elems trivial r)]
    rfl
  | .map key value, flags => by
    intro entries _ r
    have hkey := decodesOn_skipMarked (decodesOn_skipBody S key flags) key flags
    have hva := decodesOn_skipMarked (decodesOn_skipBody S value flags) value flags
    have hke := decodesOn_skipElements hkey ((sortedEntries S entries).map Prod.fst) trivial
    have hv := hva.times ((sortedEntries S entries).map Prod.snd) (fun _ _ => trivial)
      ([delimiter (!flags.ascending)] ++ r)
    rw [encodeBody_map, skipBody, append_assoc, run_bind_ok (hke _), append_assoc]
    rw [length_map] at hv
    rw [length_map, length_map, run_bind_ok hv, checkedReadByte, singleton_append,
      run_bind_ok (run_next ..), if_neg (not_not_intro rfl)]
    rfl
  | .row children, flags => by
    intro fields _ r
    rw [encodeBody, skipBody]
    exact decodesOn_skipFields S children flags fields trivial r
  | .function, _ => fun value => nomatch value
theorem decodesOn_skipFields (S : ComparisonSort) : (types : List SqlType) → (flags : CompareFlags) →
    DecodesOn (fun _ => True) (encodeFields S types flags) (fun _ => ()) (skipFields types flags)
  | [], _ => fun _ _ _ => rfl
  | type :: types, flags => by
    rintro ⟨value, values⟩ _ r
    have hv := decodesOn_skipMarked (decodesOn_skipBody S type flags) type flags
    rw [encodeFields, skipFields, append_assoc, run_bind_ok (hv value trivial _)]
    exact decodesOn_skipFields S types flags values trivial r
end

theorem decodesOn_skipValue (S : ComparisonSort) (type : SqlType) (flags : CompareFlags) :
    DecodesOn (fun _ => True) (encodeValue S type flags) (fun _ => ()) (skipValue type flags) :=
  decodesOn_skipMarked (decodesOn_skipBody S type flags) type flags

end Bolt.RadixSort
