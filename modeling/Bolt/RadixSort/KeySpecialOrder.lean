import Bolt.RadixSort.KeySpecial

/-!
# The order of keys with special floating-point values

Where the special-value flags cover the values of two rows, the selected comparators find
the sign of the SQL order: every NaN is equal to every other and above all numbers, and the
two zeros are equal.
-/

namespace Bolt.RadixSort

open Std Data Lib.Bytes Lib.Compare Lib.OrderCode Lib.Sorting Lib.Readers List

variable {α : Type} {encodeBody : α → List UInt8} {P : Option α → Prop} {cmp : Option α → Option α → Ordering}
variable (S : ComparisonSort) (flags : CompareFlags)

mutual
/-- Every REAL and DOUBLE column inside the type that holds a NaN or a negative zero
is flagged. -/
def Covered : (type : SqlType) → SpecialValues type → Datum type → Prop
  | .scalar kind, hasSpecialValues, value => hasSpecialValues = true ∨ Ordinary (.scalar kind) value
  | .string _, _, _ => True
  | .unknown, _, _ => True
  | .array element, special, elements => ∀ x ∈ elements, ∀ a, x = some a → Covered element special.2 a
  | .map key value, special, entries => ∀ x ∈ entries,
    (∀ a, x.1 = some a → Covered key special.2.1 a) ∧ (∀ a, x.2 = some a → Covered value special.2.2 a)
  | .row children, special, fields => CoveredFields children special.2 fields
  | .function, _, _ => True
def CoveredFields : (types : List SqlType) → SpecialFields types → Fields types → Prop
  | [], _, _ => True
  | type :: types, (special, specials), (value, values) =>
    (∀ a, value = some a → Covered type special a) ∧ CoveredFields types specials values
end

theorem floatingPoint_of_encodedSpecial (type : SqlType) (special : SpecialValues type)
    (h : encodedSpecialValues type special = true) : containsFloatingPoint type = true := by
  cases type <;> (rw [encodedSpecialValues, Bool.and_eq_true] at h; exact h.1)

theorem anyFloatingPoint_of_encodedSpecial : (types : List SqlType) → (specials : SpecialFields types) →
    anyEncodedSpecialValues types specials = true → anyFloatingPoint types = true
  | [], _, h => nomatch h
  | type :: types, (special, specials), h => by
    rw [anyEncodedSpecialValues, Bool.or_eq_true] at h
    rw [anyFloatingPoint, Bool.or_eq_true]
    rcases h with h | h
    · exact Or.inl (floatingPoint_of_encodedSpecial type special h)
    · exact Or.inr (anyFloatingPoint_of_encodedSpecial types specials h)

private theorem eq_false_of_and_or {whole own children : Bool} (h : (whole && (own || children)) = false)
    (hw : children = true → whole = true) : children = false := by
  cases children with
  | false => rfl
  | true =>
    rw [hw rfl, Bool.or_true] at h
    exact h

mutual
/-- A column whose comparator was left alone holds no special value. -/
theorem ordinary_of_covered : (type : SqlType) → (special : SpecialValues type) → (datum : Datum type) →
    encodedSpecialValues type special = false → Covered type special datum → Ordinary type datum
  | .scalar kind, hass, value, h, hc => by
    rw [Covered] at hc
    rcases hc with rfl | ho
    · rw [encodedSpecialValues, Bool.and_true] at h
      cases kind with
      | real | double => exact absurd h (by decide)
      | _ => exact trivial
    · exact ho
  | .string _, _, _, _, _ => by rw [Ordinary]; exact trivial
  | .unknown, _, datum, _, _ => nomatch datum
  | .array elem, (hass, child), elems, h, hc => by
    have hch : encodedSpecialValues elem child = false := by
      refine eq_false_of_and_or h fun ht => ?_
      exact floatingPoint_of_encodedSpecial elem child ht
    exact fun x hx a ha => ordinary_of_covered elem child a hch (hc x hx a ha)
  | .map key value, (hass, keys, values), entries, h, hc => by
    have hb : (encodedSpecialValues key keys || encodedSpecialValues value values) = false := by
      refine eq_false_of_and_or h fun ht => ?_
      rw [containsFloatingPoint, Bool.or_eq_true]
      exact (Bool.or_eq_true _ _ ▸ ht).imp (floatingPoint_of_encodedSpecial key keys)
        (floatingPoint_of_encodedSpecial value values)
    obtain ⟨hke, hv⟩ := Bool.or_eq_false_iff.mp hb
    intro x hx
    exact ⟨fun a ha => ordinary_of_covered key keys a hke ((hc x hx).1 a ha),
      fun a ha => ordinary_of_covered value values a hv ((hc x hx).2 a ha)⟩
  | .row children, (hass, specials), fields, h, hc => by
    have hchi : anyEncodedSpecialValues children specials = false := by
      refine eq_false_of_and_or h fun ht => ?_
      exact anyFloatingPoint_of_encodedSpecial children specials ht
    exact ordinaryFields_of_covered children specials fields hchi hc
  | .function, _, datum, _, _ => nomatch datum
theorem ordinaryFields_of_covered : (types : List SqlType) → (specials : SpecialFields types) →
    (fields : Fields types) → anyEncodedSpecialValues types specials = false →
    CoveredFields types specials fields → OrdinaryFields types fields
  | [], _, _, _, _ => by rw [OrdinaryFields]; exact trivial
  | type :: types, (special, specials), (value, values), h, hc => by
    rw [anyEncodedSpecialValues, Bool.or_eq_false_iff] at h
    rw [CoveredFields] at hc
    rw [OrdinaryFields]
    exact ⟨fun a ha => ordinary_of_covered type special a h.1 (hc.1 a ha),
      ordinaryFields_of_covered types specials values h.2 hc.2⟩
end

/-! ## The comparators compute the SQL order -/

theorem comparesOn_compareEncodedBytes (type : SqlType) (flags : CompareFlags) :
    ComparesOn (fun x : Value type => ∀ a, x = some a → Ordinary type a) (sqlOrderValue S type flags)
      (encodeValue S type flags) (compareEncodedBytes type flags) := by
  have hc := orderCodeOn_encodeNullable (orderCodeOn_encodeBody S type flags) flags
  exact comparesOn_of_orderCodeOn hc (fun value _ => decodesOn_skipValue S type flags value trivial)
    signOf_compareKeyBytes

theorem comparesOn_compareMarked {P : α → Prop} {cmp : α → α → Ordering} {compareBody : EncodedComparator}
    (h : ComparesOn P cmp encodeBody compareBody) (flags : CompareFlags) :
    ComparesOn (fun x : Option α => ∀ a, x = some a → P a) (compareOption cmp flags.nullOrder)
      (encodeNullable flags encodeBody) (compareMarked flags compareBody) := by
  have hr : ∀ (a b : UInt8) (r s : List UInt8), (compareMarked flags compareBody).run (a :: r, b :: s) =
      StateT.run (if a ≠ b then pure (threeWay a b) else if a = nullMarker flags then pure 0
        else if a ≠ validMarker flags then throw KeyError.invalidMarker else compareBody) (r, s) := by
    intro a b r s
    rw [compareMarked, checkedReadByte, run_bind_ok (run_left (run_next ..)), run_bind_ok (run_right (run_next ..))]
  have hne := nullMarker_ne_valid flags
  obtain ⟨hm, hs⟩ := compare_markers flags
  intro x y hx hy r s
  cases x with
  | none =>
    cases y with
    | none =>
      rw [encodeNullable, cons_append, cons_append, hr, if_neg (not_not_intro rfl), if_pos rfl]
      exact ⟨0, (r, s), rfl, rfl, fun _ => rfl⟩
    | some b =>
      rw [encodeNullable, encodeNullable, cons_append, cons_append, hr, if_pos hne]
      refine ⟨_, _, rfl, ?_, fun heq => absurd heq flags.nullOrder_ne_eq⟩
      rw [compareOption, ← hm]
      exact signOf_threeWay_uint8 _ _
  | some a =>
    cases y with
    | none =>
      rw [encodeNullable, encodeNullable, cons_append, cons_append, hr, if_pos hne.symm]
      refine ⟨_, _, rfl, ?_, fun heq => absurd (Ordering.swap_eq_eq.mp heq) flags.nullOrder_ne_eq⟩
      rw [compareOption, ← hs]
      exact signOf_threeWay_uint8 _ _
    | some b =>
      rw [encodeNullable, encodeNullable, cons_append, cons_append, hr, if_neg (not_not_intro rfl),
        if_neg hne.symm, if_neg (not_not_intro rfl)]
      exact h a b (hx a rfl) (hy b rfl) r s

theorem comparesOn_floatingBody {f : Lib.Ieee.Format} {size : ℕ} (hw : FloatingWidth f (size * 8))
    (ascending : Bool) (pattern : α → ℕ) (hp : ∀ a, pattern a < 2 * f.sign) :
    ComparesOn (fun _ => True) (directed ascending fun a b : α => f.compareValues (pattern a) (pattern b))
      (fun a => (beBytes size (f.sortKey (pattern a))).map (directedByte (!ascending)))
      (do
        let a ← left (taken KeyError.truncated size)
        let b ← right (taken KeyError.truncated size)
        return compareFloatingPointBody size a b (!ascending)) := by
  intro a b _ _ r s
  rw [run_bind_ok (run_left (run_taken _ (by simp) r)), run_bind_ok (run_right (run_taken _ (by simp) s))]
  refine ⟨_, (r, s), rfl, ?_, fun _ => rfl⟩
  exact signOf_compareFloatingBody hw ascending (hp a) (hp b)

theorem comparesOn_compareEncodedFloating (S : ComparisonSort) (flags : CompareFlags) (kind : ScalarKind)
    {f : Lib.Ieee.Format} {size : ℕ} (hw : FloatingWidth f (size * 8)) (pattern : kind.Native → ℕ)
    (hp : ∀ a, pattern a < 2 * f.sign)
    (ho : ∀ a b, kind.order a b = f.compareValues (pattern a) (pattern b))
    (hby : ∀ a, scalarBytes kind a = beBytes size (f.sortKey (pattern a))) :
    ComparesOn (fun _ : Value (.scalar kind) => True) (sqlOrderValue S (.scalar kind) flags)
      (encodeValue S (.scalar kind) flags) (compareEncodedFloating size flags) := by
  have hb := comparesOn_floatingBody hw flags.ascending pattern hp
  refine (comparesOn_compareMarked hb flags).comap id (fun _ _ _ _ => trivial) ?_ ?_
  · have hord : kind.order = fun a b => f.compareValues (pattern a) (pattern b) := by
      funext a b
      exact ho a b
    intro x y _ _
    cases x <;> cases y <;> simp only [sqlOrderValue, compareOption, sqlOrder, hord, id]
  · intro x _
    cases x with
    | none => rfl
    | some a =>
      rw [encodeValue, id, encodeNullable, encodeNullable, encodeBody, encodeBytesScalar_eq, hby]

theorem containerDelimiter_eq : containerDelimiter flags = delimiter (!flags.ascending) := by
  unfold containerDelimiter
  cases flags.ascending <;> rfl

theorem comparesOn_elements {child : EncodedComparator} (h : ComparesOn P cmp (encodeNullable flags encodeBody) child)
    {l m : List (Option α)} (hl : ∀ x ∈ l, P x) (hm : ∀ x ∈ m, P x) (r s : List UInt8) :
    ∃ result n rest, (compareUntil threeWay KeyError.truncated .roundsExhausted (containerDelimiter flags) child).run
        (l.flatMap (encodeNullable flags encodeBody) ++ delimiter (!flags.ascending) :: r,
          m.flatMap (encodeNullable flags encodeBody) ++ delimiter (!flags.ascending) :: s) = .ok ((result, n), rest) ∧
      compare result 0 = compareSeq cmp flags.shorterOrder l m ∧
      (compareSeq cmp flags.shorterOrder l m = .eq → rest = (r, s) ∧ n = l.length) := by
  rw [containerDelimiter_eq]
  exact h.compareUntil _ _ signOf_threeWay_uint8 flags.shorterOrder_ne_eq
    (fun x _ => encodeNullable_head flags encodeBody x) hl hm r s

theorem comparesOn_arrayBody {child : EncodedComparator} (h : ComparesOn P cmp (encodeNullable flags encodeBody) child) :
    ComparesOn (fun l : List (Option α) => ∀ x ∈ l, P x) (compareSeq cmp flags.shorterOrder)
      (fun l => l.flatMap (encodeNullable flags encodeBody) ++ [delimiter (!flags.ascending)])
      (do
        let (result, _) ← compareUntil threeWay .truncated .roundsExhausted (containerDelimiter flags) child
        return result) := by
  intro l m hl hm r s
  obtain ⟨result, n, rest, hru, hs, hr⟩ := comparesOn_elements flags h hl hm r s
  simp only [append_assoc, singleton_append]
  rw [run_bind_ok hru]
  exact ⟨result, rest, rfl, hs, fun heq => (hr heq).1⟩

theorem comparesOn_mapBody {β : Type} {Q : Option β → Prop} {cmp' : Option β → Option β → Ordering}
    {encodeKey : α → List UInt8} {encodeMapped : β → List UInt8} {key value : EncodedComparator}
    (hkey : ComparesOn P cmp (encodeNullable flags encodeKey) key)
    (hva : ComparesOn Q cmp' (encodeNullable flags encodeMapped) value) :
    ComparesOn (fun x : List (Option α) × List (Option β) =>
        ((∀ a ∈ x.1, P a) ∧ ∀ b ∈ x.2, Q b) ∧ x.1.length = x.2.length)
      (comparePair (compareSeq cmp flags.shorterOrder) (compareSeq cmp' flags.shorterOrder))
      (fun x => (x.1.flatMap (encodeNullable flags encodeKey) ++ [delimiter (!flags.ascending)]) ++
        (x.2.flatMap (encodeNullable flags encodeMapped) ++ [delimiter (!flags.ascending)]))
      (compareMapBody flags key value) := by
  rintro ⟨keys, values⟩ ⟨keys', values'⟩ ⟨⟨hk, hv⟩, hl⟩ ⟨⟨hk', hv'⟩, hlen'⟩ r s
  have hen : ∃ result rest, (compareMapEnd flags).run
      (delimiter (!flags.ascending) :: r, delimiter (!flags.ascending) :: s) = .ok (result, rest) ∧
        compare result 0 = .eq ∧ (Ordering.eq = .eq → rest = (r, s)) := by
    refine ⟨0, (r, s), ?_, rfl, fun _ => rfl⟩
    rw [compareMapEnd, checkedReadByte, run_bind_ok (run_left (run_next ..)), run_bind_ok (run_right (run_next ..)),
      containerDelimiter_eq, if_neg (not_not_intro rfl), if_neg (not_not_intro rfl)]
    rfl
  obtain ⟨result, n, rest, hru, hs, hr⟩ := comparesOn_elements flags hkey hk hk'
    (values.flatMap (encodeNullable flags encodeMapped) ++ delimiter (!flags.ascending) :: r)
    (values'.flatMap (encodeNullable flags encodeMapped) ++ delimiter (!flags.ascending) :: s)
  simp only [append_assoc, cons_append, nil_append]
  rw [compareMapBody, run_bind_ok hru, comparePair]
  dsimp only
  by_cases hz : result = 0
  · have hke : compareSeq cmp flags.shorterOrder keys keys' = .eq := by
      rw [← hs, hz]
      rfl
    obtain ⟨rfl, rfl⟩ := hr hke
    -- equal keys are equally many, so the value loop sees both value sequences whole
    have hc : keys.length = keys'.length := ((compareSeq_eq_eq flags.shorterOrder_ne_eq).mp hke).length_eq
    have hval := hva.compareTimes flags.shorterOrder (hl.symm.trans (hc.trans hlen')) hv hv'
      (delimiter (!flags.ascending) :: r) (delimiter (!flags.ascending) :: s)
    rw [if_neg (not_not_intro hz), hke, hl]
    have hb := run_firstDifference hval fun _ => hen
    rwa [Ordering.then_eq] at hb
  · have hke : compareSeq cmp flags.shorterOrder keys keys' ≠ .eq := by
      rw [← hs]
      exact fun heq => hz (signOf_eq_eq.mp heq)
    rw [if_pos hz]
    refine ⟨result, rest, rfl, ?_, fun heq => absurd (Ordering.then_eq_eq.mp heq).1 hke⟩
    rw [hs]
    revert hke
    cases compareSeq cmp flags.shorterOrder keys keys' <;> simp

/-- A column whose comparator was left alone, when its values are covered. -/
theorem comparesOn_encodedBytes {type : SqlType} (flags : CompareFlags) (special : SpecialValues type)
    (hs : encodedSpecialValues type special = false) :
    ComparesOn (fun x : Value type => ∀ a, x = some a → Covered type special a) (sqlOrderValue S type flags)
      (encodeValue S type flags) (compareEncodedBytes type flags) :=
  (comparesOn_compareEncodedBytes S type flags).comap id
    (fun _ hc a ha => ordinary_of_covered type special a hs (hc a ha)) (fun _ _ _ _ => rfl)
    (fun _ _ => rfl)

private theorem comparesOn_scalar (kind : ScalarKind) (flags : CompareFlags) (special : SpecialValues (.scalar kind)) :
    ComparesOn (fun x : Value (.scalar kind) => ∀ a, x = some a → Covered (.scalar kind) special a)
      (sqlOrderValue S (.scalar kind) flags) (encodeValue S (.scalar kind) flags)
      (encodedComparator (.scalar kind) flags special) := by
  rw [encodedComparator]
  by_cases hs : encodedSpecialValues (.scalar kind) special = true
  · have hf := floatingPoint_of_encodedSpecial _ special hs
    rw [if_pos hs]
    cases kind with
    | real =>
      have h := @comparesOn_compareEncodedFloating S flags .real _ 4 floatingWidth_real (fun bits => bits.toNat)
        (fun bits => bits.isLt) (fun _ _ => rfl) fun bits => by rw [← toNat_encodeFloat]; rfl
      exact h.comap id (fun _ _ => trivial) (fun _ _ _ _ => rfl) (fun _ _ => rfl)
    | double =>
      have h := @comparesOn_compareEncodedFloating S flags .double _ 8 floatingWidth_double (fun bits => bits.toNat)
        (fun bits => bits.isLt) (fun _ _ => rfl) fun bits => by rw [← toNat_encodeDouble]; rfl
      exact h.comap id (fun _ _ => trivial) (fun _ _ _ _ => rfl) (fun _ _ => rfl)
    | _ => exact absurd hf (by decide)
  · rw [if_neg hs]
    exact comparesOn_encodedBytes S flags special (Bool.eq_false_iff.mpr hs)

mutual
/-- A column's comparator finds the sign of the SQL order of two covered values. -/
theorem comparesOn_comparator (S : ComparisonSort) : (type : SqlType) → (flags : CompareFlags) →
    (special : SpecialValues type) →
    ComparesOn (fun x : Value type => ∀ a, x = some a → Covered type special a) (sqlOrderValue S type flags)
      (encodeValue S type flags) (encodedComparator type flags special)
  | .scalar kind, flags, special => comparesOn_scalar S kind flags special
  | .string kind, flags, special => by
    rw [encodedComparator]
    exact comparesOn_encodedBytes S flags special rfl
  | .unknown, flags, special => by
    rw [encodedComparator]
    exact comparesOn_encodedBytes S flags special rfl
  | .array elem, flags, special => by
    rw [encodedComparator]
    by_cases hs : encodedSpecialValues (.array elem) special = true
    · have hb := comparesOn_arrayBody flags (comparesOn_comparator S elem flags special.2)
      rw [if_pos hs]
      refine (comparesOn_compareMarked hb flags).comap id ?_ ?_ ?_
      · intro x hx elems hel
        have hc := hx elems hel
        rw [Covered] at hc
        exact hc
      · intro x y _ _
        cases x <;> cases y <;> simp only [sqlOrderValue, compareOption, sqlOrder, id]
      · intro x _
        cases x with
        | none => rfl
        | some elems => exact congrArg (validMarker flags :: ·) (encodeBody_array S elem flags elems)
    · rw [if_neg hs]
      exact comparesOn_encodedBytes S flags special (Bool.eq_false_iff.mpr hs)
  | .map key value, flags, special => by
    rw [encodedComparator]
    by_cases hs : encodedSpecialValues (.map key value) special = true
    · have hb := comparesOn_mapBody flags (comparesOn_comparator S key flags special.2.1)
        (comparesOn_comparator S value flags special.2.2)
      have hso : ComparesOn (Covered (.map key value) special) (sqlOrder S (.map key value) flags)
          (encodeBody S (.map key value) flags) (compareMapBody flags (encodedComparator key flags special.2.1)
            (encodedComparator value flags special.2.2)) := by
        refine hb.comap (fun entries : Entries key value =>
          ((sortedEntries S entries).map Prod.fst, (sortedEntries S entries).map Prod.snd)) ?_ ?_ ?_
        · intro entries hc
          refine ⟨⟨?_, ?_⟩, by simp⟩ <;> intro x hx <;> obtain ⟨entry, hen, rfl⟩ := mem_map.mp hx
          · exact (hc entry ((sortedEntries_perm S entries).mem_iff.mp hen)).1
          · exact (hc entry ((sortedEntries_perm S entries).mem_iff.mp hen)).2
        · intro left right _ _
          simp only [comparePair, sortedEntries, map_map]
          rfl
        · intro entries _
          exact encodeBody_map S key value flags entries
      rw [if_pos hs]
      exact comparesOn_compareMarked hso flags
    · rw [if_neg hs]
      exact comparesOn_encodedBytes S flags special (Bool.eq_false_iff.mpr hs)
  | .row children, flags, special => by
    rw [encodedComparator]
    by_cases hs : encodedSpecialValues (.row children) special = true
    · have hb := comparesOn_compareEncodedRow S children flags special.2
      rw [if_pos hs]
      refine (comparesOn_compareMarked hb flags).comap id ?_ ?_ ?_
      · intro x hx fields hfields
        have hc := hx fields hfields
        exact hc
      · intro x y _ _
        cases x <;> cases y <;> simp only [sqlOrderValue, compareOption, sqlOrder, id]
      · intro x _
        cases x with
        | none => rfl
        | some fields => rw [encodeValue, id, encodeNullable, encodeNullable, encodeBody]
    · rw [if_neg hs]
      exact comparesOn_encodedBytes S flags special (Bool.eq_false_iff.mpr hs)
  | .function, flags, special => by
    exact comparesOn_encodedBytes S flags special rfl
theorem comparesOn_compareEncodedRow (S : ComparisonSort) : (types : List SqlType) → (flags : CompareFlags) →
    (specials : SpecialFields types) →
    ComparesOn (CoveredFields types specials) (sqlOrderFields S types flags) (encodeFields S types flags)
      (compareEncodedRow types flags specials)
  | [], flags, _ => fun _ _ _ _ r s => ⟨0, (r, s), rfl, by rw [sqlOrderFields]; rfl, fun _ => rfl⟩
  | type :: types, flags, (special, specials) => by
    have hh := comparesOn_comparator S type flags special
    have ht := comparesOn_compareEncodedRow S types flags specials
    rw [compareEncodedRow]
    refine (hh.pair ht).comap id ?_ ?_ ?_
    · rintro ⟨value, values⟩ hc
      rw [CoveredFields] at hc
      exact hc
    · rintro ⟨left, lefts⟩ ⟨right, rights⟩ _ _
      rw [sqlOrderFields]
      rfl
    · rintro ⟨value, values⟩ _
      rw [encodeFields]
      rfl
end

def CoveredRow : (columns : List RadixSortKeyColumn) → RowSpecialValues columns → KeyRow columns → Prop
  | [], _, _ => True
  | column :: columns, (special, specials), (value, values) =>
    (∀ a, value = some a → Covered column.type special a) ∧ CoveredRow columns specials values

def sqlOrderSuffix (S : ComparisonSort) : (columns : List RadixSortKeyColumn) → (firstColumn : ℕ) →
    KeyRow columns → KeyRow columns → Ordering
  | _ :: columns, firstColumn + 1, (_, lefts), (_, rights) => sqlOrderSuffix S columns firstColumn lefts rights
  | [], _, _, _ => .eq
  | column :: columns, 0, left, right => sqlOrderRow S (column :: columns) left right

variable (columns : List RadixSortKeyColumn)

theorem sqlOrderSuffix_zero : sqlOrderSuffix S columns 0 = sqlOrderRow S columns := by
  cases columns <;> rfl

theorem encodeSuffix_zero (row : KeyRow columns) :
    encodeSuffixColumns S columns 0 row = encodeColumns S columns 0 row := by
  cases columns <;> rfl

theorem encodeVariableColumn_eq (type : SqlType) (flags : CompareFlags) (value : Value type) :
    encodeVariableColumn S false type flags value = encodeValue S type flags value := by
  cases type with
  | scalar kind =>
    cases value with
    | none => rfl
    | some datum =>
      rw [encodeVariableColumn, encodeFixedColumn, encodeValue, encodeNullable, encodeBody, encodeScalar_eq]
  | string kind =>
    cases value with
    | none => rfl
    | some datum => rw [encodeVariableColumn, encodeStringColumn, encodeValue, encodeNullable, encodeBody]
  | unknown =>
    cases value with
    | none => rfl
    | some datum => exact datum.elim
  | array elem | map key mapped | row children | function => rfl

/-- No column at or behind `last` holds a floating-point value. -/
def NoFloatingPointFrom (last : ℕ) (columns : List RadixSortKeyColumn) : Prop :=
  ∀ i column, columns[i]? = some column → last ≤ i → containsFloatingPoint column.type = false

theorem NoFloatingPointFrom.tail {last : ℕ} {column : RadixSortKeyColumn} {columns : List RadixSortKeyColumn}
    (h : NoFloatingPointFrom last (column :: columns)) : NoFloatingPointFrom (last - 1) columns :=
  fun i c hc hl => h (i + 1) c hc (by omega)

private theorem floatingPointEndLoop_spec (index : ℕ) {floatingPointEnd : ℕ} (hle : floatingPointEnd ≤ index) :
    floatingPointEnd ≤ floatingPointEndLoop index floatingPointEnd columns ∧
      ∀ i column, columns[i]? = some column → floatingPointEndLoop index floatingPointEnd columns ≤ index + i →
        containsFloatingPoint column.type = false := by
  induction columns generalizing index floatingPointEnd with
  | nil => exact ⟨Nat.le_refl _, fun i column h => nomatch h⟩
  | cons column columns ih =>
    rw [floatingPointEndLoop]
    have hn : (if containsFloatingPoint column.type then index + 1 else floatingPointEnd) ≤ index + 1 := by
      split <;> omega
    obtain ⟨hm, ht⟩ := ih (index + 1) hn
    refine ⟨Nat.le_trans (by split <;> omega) hm, ?_⟩
    intro i c hc hen
    cases i with
    | zero =>
      obtain rfl := Option.some.inj hc
      rw [Bool.eq_false_iff]
      intro htr
      simp only [htr, if_true] at hm hen
      omega
    | succ i => exact ht i c hc (by omega)

theorem noFloatingPointFrom_floatingPointEnd : NoFloatingPointFrom (floatingPointEnd columns) columns := by
  intro i column hc hl
  exact (floatingPointEndLoop_spec columns 0 (Nat.le_refl 0)).2 i column hc (by rwa [Nat.zero_add])

theorem ordinaryRow_of_noFloatingPoint : (columns : List RadixSortKeyColumn) → (specials : RowSpecialValues columns) →
    (row : KeyRow columns) → NoFloatingPointFrom 0 columns → CoveredRow columns specials row →
    OrdinaryRow columns row
  | [], _, _, _, _ => trivial
  | column :: columns, (special, specials), (value, values), hn, hc => by
    have hs : encodedSpecialValues column.type special = false := by
      rw [Bool.eq_false_iff]
      intro ht
      have hf := floatingPoint_of_encodedSpecial column.type special ht
      rw [hn 0 column rfl (Nat.le_refl 0)] at hf
      cases hf
    exact ⟨fun a ha => ordinary_of_covered column.type special a hs (hc.1 a ha),
      ordinaryRow_of_noFloatingPoint columns specials values hn.tail hc.2⟩

theorem run_compareEncodedColumns (S : ComparisonSort) : (columns : List RadixSortKeyColumn) →
    (specials : RowSpecialValues columns) → (col last : ℕ) → NoFloatingPointFrom last columns →
    (left right : KeyRow columns) → CoveredRow columns specials left → CoveredRow columns specials right →
    (r s : List UInt8) →
    ∃ result rest, (compareEncodedColumns columns specials col last).run
        (encodeSuffixColumns S columns col left ++ r, encodeSuffixColumns S columns col right ++ s) =
          .ok (result, rest) ∧
      signOf result = (sqlOrderSuffix S columns col left right).then (compare r s)
  | [], _, col, last, _, _, _, _, _, r, s => by
    refine ⟨compareKeyBytes r s, (r, s), ?_, ?_⟩
    · cases col <;> cases last <;> rfl
    · rw [signOf_compareKeyBytes]
      cases col <;> rfl
  | column :: columns, (_, specials), col + 1, last, hla, (_, lefts), (_, rights), hl, hr, r, s =>
    run_compareEncodedColumns S columns specials col (last - 1) hla.tail lefts rights hl.2 hr.2 r s
  | column :: columns, specials, 0, 0, hla, left, right, hl, hr, r, s => by
    refine ⟨_, _, rfl, ?_⟩
    have hc := orderCodeOn_encodeColumns S (column :: columns) 0
    rw [signOf_compareKeyBytes, sqlOrderSuffix]
    exact hc left right (ordinaryRow_of_noFloatingPoint _ specials left hla hl)
      (ordinaryRow_of_noFloatingPoint _ specials right hla hr) r s
  | column :: columns, (special, specials), 0, last + 1, hla, (left, lefts), (right, rights), hl, hr, r, s => by
    have hh := comparesOn_comparator S column.type column.flags special left right hl.1 hr.1
      (encodeColumns S columns 0 lefts ++ r) (encodeColumns S columns 0 rights ++ s)
    obtain ⟨result, rest, hru, hs⟩ :=
      run_compareEncodedColumns S columns specials 0 last hla.tail lefts rights hl.2 hr.2 r s
    rw [encodeSuffix_zero, encodeSuffix_zero] at hru
    rw [encodeSuffix_zero, encodeSuffix_zero, encodeColumns, encodeColumns, compareEncodedColumns,
      append_assoc, append_assoc]
    simp only [Nat.lt_irrefl, decide_false, Nat.zero_sub, encodeVariableColumn_eq]
    rw [sqlOrderSuffix_zero] at hs ⊢
    have ht : ∃ result' rest', (compareEncodedColumns columns specials 0 last).run
        (encodeColumns S columns 0 lefts ++ r, encodeColumns S columns 0 rights ++ s) = .ok (result', rest') ∧
          compare result' 0 = (sqlOrderRow S columns lefts rights).then (compare r s) ∧
          ((sqlOrderRow S columns lefts rights).then (compare r s) = .eq → rest' = rest) :=
      ⟨result, rest, hru, hs, fun _ => rfl⟩
    obtain ⟨total, final, hd, hto, -⟩ := run_firstDifference hh fun _ => ht
    refine ⟨total, final, hd, ?_⟩
    rw [sqlOrderRow, Ordering.then_assoc]
    exact hto

/-- `compareEncoded` finds the sign of the SQL order of the columns from `firstColumn`
on, with all NaNs equal and last and the two zeros equal, and compares what follows
the keys only when these columns are equal. -/
theorem compareEncoded_spec {columns : List RadixSortKeyColumn} {specials : RowSpecialValues columns}
    {left right : KeyRow columns} (hl : CoveredRow columns specials left) (hr : CoveredRow columns specials right)
    (col : ℕ) (r s : List UInt8) :
    ∃ result, compareEncoded columns specials (encodeSuffixColumns S columns col left ++ r)
        (encodeSuffixColumns S columns col right ++ s) col = .ok result ∧
      signOf result = (sqlOrderSuffix S columns col left right).then (compare r s) := by
  obtain ⟨result, rest, hru, hs⟩ := run_compareEncodedColumns S columns specials col
    (floatingPointEnd columns) (noFloatingPointFrom_floatingPointEnd columns) left right hl hr r s
  refine ⟨result, ?_, hs⟩
  rw [compareEncoded, StateT.run'_eq, hru]
  rfl

end Bolt.RadixSort
