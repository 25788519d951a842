import Bolt.RadixSort.KeyScalars

/-!
# The order of encoded keys

The encoding of a key row is an order code for the column-by-column SQL order of key rows.
The argument follows the type: markers, delimiters and bodies are composed as the encoder
composes them.
-/

namespace Bolt.RadixSort

open Std Data Lib.Bytes Lib.Compare Lib.OrderCode Lib.Sorting

variable {α : Type} {P : α → Prop} {cmp : α → α → Ordering}

/-! ## Sorted map entries -/

private theorem pairwise_range_of_adjacent {less : ℕ → ℕ → Bool} (h : StrictWeakOrder less) {count : ℕ}
    (ha : ∀ index < count - 1, less index (index + 1) = true) :
    (List.range count).Pairwise (fun i j => less i j = true) := by
  rw [List.pairwise_iff_getElem]
  intro i j hi hj hij
  simp only [List.getElem_range]
  simp only [List.length_range] at hj
  -- from `i` to `j` one adjacent step at a time
  induction j, hij using Nat.le_induction with
  | base => exact ha i (by omega)
  | succ j hij ih => exact h.trans i j (j + 1) (ih (by omega)) (ha j (by omega))

variable (S : ComparisonSort)

theorem withSortedIndices_eq {key value : SqlType} (entries : Entries key value) :
    withSortedIndices S (fun i j => decide (compareValue S key {} (keyAt entries i) (keyAt entries j) < 0))
      entries.length = keyOrder S (sqlOrderValue S key {}) entries := by
  have hl : (fun i j => decide (compareValue S key {} (keyAt entries i) (keyAt entries j) < 0)) =
      fun i j => (sqlOrderValue S key {} (keyAt entries i) (keyAt entries j)).isLT := by
    funext i j
    rw [← signOf_isLT, signOf_compareValue S key {} rfl]
  have ho := strictWeakOrder_keys S entries
  rw [hl, withSortedIndices, keyOrder]
  split
  · rename_i hc
    refine (S.sort_eq_self ho ?_).symm
    exact pairwise_range_of_adjacent ho (by omega)
  · split
    · rename_i hs
      refine (S.sort_eq_self ho ?_).symm
      exact pairwise_range_of_adjacent ho (by simpa using hs)
    · rfl

theorem compare_markers (flags : CompareFlags) : compare (nullMarker flags) (validMarker flags) = flags.nullOrder ∧
      compare (validMarker flags) (nullMarker flags) = flags.nullOrder.swap := by
  unfold nullMarker validMarker CompareFlags.nullOrder
  cases flags.nullsFirst <;> decide

theorem orderCodeOn_nullable {enc : α → List UInt8} (h : OrderCodeOn P cmp enc) (flags : CompareFlags)
    (filling : List UInt8) :
    OrderCodeOn (fun x : Option α => ∀ a, x = some a → P a) (compareOption cmp flags.nullOrder) (fun x => match x with
        | none => nullMarker flags :: filling
        | some a => validMarker flags :: enc a) := by
  obtain ⟨hm, hs⟩ := compare_markers flags
  have hc := h.option (nullMarker flags) (validMarker flags) filling
    (by rw [hm]; exact flags.nullOrder_ne_eq) (by rw [hs, hm])
  rwa [hm] at hc

theorem orderCodeOn_encodeNullable {encodeBody : α → List UInt8} (h : OrderCodeOn P cmp encodeBody)
    (flags : CompareFlags) :
    OrderCodeOn (fun x : Option α => ∀ a, x = some a → P a) (compareOption cmp flags.nullOrder)
      (encodeNullable flags encodeBody) := by
  refine (orderCodeOn_nullable h flags []).comap id (fun _ h => h) (fun _ _ _ _ => rfl) ?_
  intro x
  cases x <;> rfl

/-- An encoded value opens with a marker, which no delimiter equals. -/
theorem encodeNullable_head (flags : CompareFlags) (encodeBody : α → List UInt8) (x : Option α) :
    ∃ marker rest, encodeNullable flags encodeBody x = marker :: rest ∧
      compare (delimiter (!flags.ascending)) marker = flags.shorterOrder ∧
      compare marker (delimiter (!flags.ascending)) = flags.shorterOrder.swap := by
  have hm : ∀ marker, marker = nullMarker flags ∨ marker = validMarker flags →
      compare (delimiter (!flags.ascending)) marker = flags.shorterOrder ∧
      compare marker (delimiter (!flags.ascending)) = flags.shorterOrder.swap := by
    intro marker h
    unfold nullMarker validMarker at h
    unfold delimiter directedByte CompareFlags.shorterOrder
    cases flags.ascending <;> cases hn : flags.nullsFirst <;> rw [hn] at h <;>
      rcases h with rfl | rfl <;> decide
  cases x with
  | none => exact ⟨nullMarker flags, [], rfl, hm _ (.inl rfl)⟩
  | some a => exact ⟨validMarker flags, encodeBody a, rfl, hm _ (.inr rfl)⟩

theorem orderCodeOn_delimited {encodeBody : α → List UInt8} (h : OrderCodeOn P cmp encodeBody) (flags : CompareFlags) :
    OrderCodeOn (fun l : List (Option α) => ∀ x ∈ l, ∀ a, x = some a → P a)
      (compareSeq (compareOption cmp flags.nullOrder) flags.shorterOrder)
      (fun l => l.flatMap (encodeNullable flags encodeBody) ++ [delimiter (!flags.ascending)]) :=
  (orderCodeOn_encodeNullable h flags).seq _ _ flags.shorterOrder_ne_eq
    (encodeNullable_head flags encodeBody)

/-- The fast path for fixed scalar elements writes what the general loop would. -/
theorem encodeBody_array (elem : SqlType) (flags : CompareFlags) (elems : List (Value elem)) :
    encodeBody S (.array elem) flags elems =
      elems.flatMap (encodeNullable flags (encodeBody S elem flags)) ++ [delimiter (!flags.ascending)] := by
  cases elem with
  | scalar kind =>
    rw [encodeBody, encodeFixedScalarArrayElements]
    congr 1
    refine List.flatMap_congr fun value _ => ?_
    cases value with
    | none => rfl
    | some value => rw [encodeNullable, encodeBody]
  | string kind | unknown | array elem | map key value | row children | function => rw [encodeBody]; simp

mutual
theorem orderCodeOn_encodeBody (S : ComparisonSort) : (type : SqlType) → (flags : CompareFlags) →
    OrderCodeOn (Ordinary type) (sqlOrder S type flags) (encodeBody S type flags)
  | .scalar kind, flags =>
    (orderCodeOn_encodeBytesScalar kind flags.ascending).comap id (fun _ h => h)
      (fun _ _ _ _ => by rw [sqlOrder]; rfl) (fun _ => by rw [encodeBody]; rfl)
  | .string _, flags =>
    (orderCodeOn_encodeStringValue flags.ascending).comap id (fun _ _ => trivial)
      (fun _ _ _ _ => by rw [sqlOrder]; rfl) (fun _ => by rw [encodeBody]; rfl)
  | .unknown, _ => fun a => nomatch a
  | .array elem, flags =>
    (orderCodeOn_delimited (orderCodeOn_encodeBody S elem flags) flags).comap id
      (fun _ h => by rw [Ordinary] at h; exact h) (fun _ _ _ _ => by rw [sqlOrder]; rfl)
      (encodeBody_array S elem flags)
  | .map key value, flags => by
    have hke := orderCodeOn_delimited (orderCodeOn_encodeBody S key flags) flags
    have hv := orderCodeOn_delimited (orderCodeOn_encodeBody S value flags) flags
    refine (hke.pair hv).comap (fun entries : Entries key value =>
      ((keyOrder S (sqlOrderValue S key {}) entries).map (keyAt entries),
        (keyOrder S (sqlOrderValue S key {}) entries).map (valueAt entries))) ?_ ?_ ?_
    · intro entries h
      rw [Ordinary] at h
      refine ⟨?_, ?_⟩ <;> intro x hx <;> obtain ⟨index, hind, rfl⟩ := List.mem_map.mp hx
      · exact (h _ (entry_mem S entries hind)).1
      · exact (h _ (entry_mem S entries hind)).2
    · intro left right _ _
      rw [sqlOrder]
      rfl
    · intro entries
      rw [encodeBody, withSortedIndices_eq]
      simp [List.flatMap_map]
  | .row children, flags =>
    (orderCodeOn_encodeFields S children flags).comap id (fun _ h => by rw [Ordinary] at h; exact h)
      (fun _ _ _ _ => by rw [sqlOrder]; rfl) (fun _ => by rw [encodeBody]; rfl)
  | .function, _ => fun a => nomatch a
theorem orderCodeOn_encodeFields (S : ComparisonSort) : (types : List SqlType) → (flags : CompareFlags) →
    OrderCodeOn (OrdinaryFields types) (sqlOrderFields S types flags) (encodeFields S types flags)
  | [], _ => fun _ _ _ _ _ _ => rfl
  | type :: types, flags => by
    have hh := orderCodeOn_encodeNullable (orderCodeOn_encodeBody S type flags) flags
    refine (hh.pair (orderCodeOn_encodeFields S types flags)).comap id ?_ ?_ ?_
    · rintro ⟨value, values⟩ h
      rw [OrdinaryFields] at h
      exact h
    · rintro ⟨left, lefts⟩ ⟨right, rights⟩ _ _
      rw [sqlOrderFields]
      rfl
    · rintro ⟨value, values⟩
      rw [encodeFields]
      rfl
end

def sqlOrderRow (S : ComparisonSort) : (columns : List RadixSortKeyColumn) → KeyRow columns → KeyRow columns → Ordering
  | [], _, _ => .eq
  | column :: columns, (left, lefts), (right, rights) =>
    (sqlOrderValue S column.type column.flags left right).then (sqlOrderRow S columns lefts rights)

/-- No floating-point value in the row is a NaN or the negative zero. -/
def OrdinaryRow : (columns : List RadixSortKeyColumn) → KeyRow columns → Prop
  | [], _ => True
  | column :: columns, (value, values) =>
    (∀ datum, value = some datum → Ordinary column.type datum) ∧ OrdinaryRow columns values

/-- The same key row, where maps may list their entries in any order. -/
def SameRow : (columns : List RadixSortKeyColumn) → KeyRow columns → KeyRow columns → Prop
  | [], _, _ => True
  | column :: columns, (left, lefts), (right, rights) =>
    SameValue column.type left right ∧ SameRow columns lefts rights

theorem orderCodeOn_encodeFixedColumn (kind : ScalarKind) (flags : CompareFlags) (wide : Bool) :
    OrderCodeOn (fun x : Option kind.Native => ∀ a, x = some a → Ordinary (.scalar kind) a)
      (compareOption (directed flags.ascending kind.order) flags.nullOrder)
      (encodeFixedColumn kind flags wide) := by
  have hb := orderCodeOn_encodeBytesScalar kind flags.ascending
  refine (orderCodeOn_nullable hb flags (if wide then List.replicate (bodySize kind) 0 else [])).comap
    id (fun _ h => h) (fun _ _ _ _ => rfl) ?_
  intro x
  cases x with
  | none => cases wide <;> rfl
  | some value =>
    rw [encodeFixedColumn, encodeScalar_eq]
    rfl

/-- A column's encoder, whichever of the column encoders its type selects. -/
theorem orderCodeOn_encodeVariableColumn (wide : Bool) (type : SqlType) (flags : CompareFlags) :
    OrderCodeOn (fun x : Value type => ∀ a, x = some a → Ordinary type a) (sqlOrderValue S type flags)
      (encodeVariableColumn S wide type flags) := by
  have hv := orderCodeOn_encodeNullable (orderCodeOn_encodeBody S type flags) flags
  cases type with
  | scalar kind =>
    refine (orderCodeOn_encodeFixedColumn kind flags wide).comap id (fun _ h => h) ?_ (fun _ => rfl)
    intro left right _ _
    cases left <;> cases right <;> rfl
  | string kind =>
    refine hv.comap id (fun _ h => h) (fun _ _ _ _ => rfl) ?_
    intro x
    cases x <;> rfl
  | unknown =>
    refine hv.comap id (fun _ h => h) (fun _ _ _ _ => rfl) ?_
    intro x
    cases x with
    | none => rfl
    | some value => exact nomatch value
  | array elem | map key value | row children | function => exact hv

theorem orderCodeOn_encodeColumns (S : ComparisonSort) : (columns : List RadixSortKeyColumn) →
    (pre : ℕ) → OrderCodeOn (OrdinaryRow columns) (sqlOrderRow S columns)
      (encodeColumns S columns pre)
  | [], _ => fun _ _ _ _ _ _ => rfl
  | column :: columns, pre => by
    have hh := orderCodeOn_encodeVariableColumn S (0 < pre) column.type column.flags
    have ht := orderCodeOn_encodeColumns S columns (pre - 1)
    exact (hh.pair ht).comap id (fun _ h => h) (fun _ _ _ _ => rfl) (fun _ => rfl)

theorem sameRow_of_sqlOrderRow (S : ComparisonSort) : (columns : List RadixSortKeyColumn) →
    (left right : KeyRow columns) → OrdinaryRow columns left → OrdinaryRow columns right →
    sqlOrderRow S columns left right = .eq → SameRow columns left right
  | [], _, _, _, _, _ => trivial
  | column :: columns, (left, lefts), (right, rights), hl, hr, h => by
    obtain ⟨hh, ht⟩ := Ordering.then_eq_eq.mp h
    exact ⟨sameValue_of_sqlOrderValue S column.type column.flags hl.1 hr.1 hh,
      sameRow_of_sqlOrderRow S columns lefts rights hl.2 hr.2 ht⟩

/-- The concatenated encodings of two key rows compare, as unsigned bytes, as the
rows do in SQL; equal encodings come from the same row, and no encoding is a proper
prefix of another. -/
theorem encodeColumns_orderEmbedding (S : ComparisonSort) {types : List SqlType} {flags : List CompareFlags}
    {codec : RadixSortKeyCodec} (hbind : bind types flags = .ok codec) (prefixColumns : ℕ)
    (left right : KeyRow codec.columns) (hl : OrdinaryRow codec.columns left)
    (hr : OrdinaryRow codec.columns right) :
    codec.columns.map (·.type) = types ∧ codec.columns.map (·.flags) = flags ∧
    compare (encodeColumns S codec.columns prefixColumns left)
      (encodeColumns S codec.columns prefixColumns right) = sqlOrderRow S codec.columns left right ∧
    (encodeColumns S codec.columns prefixColumns left = encodeColumns S codec.columns prefixColumns right →
      SameRow codec.columns left right) ∧
    (encodeColumns S codec.columns prefixColumns left <+: encodeColumns S codec.columns prefixColumns right →
      encodeColumns S codec.columns prefixColumns left = encodeColumns S codec.columns prefixColumns right) := by
  have hcode := orderCodeOn_encodeColumns S codec.columns prefixColumns
  obtain ⟨htypes, hflags⟩ := bind_columns hbind
  refine ⟨htypes, hflags, hcode.compare_eq hl hr, ?_, hcode.eq_of_isPrefix hl hr⟩
  intro heq
  exact sameRow_of_sqlOrderRow S codec.columns left right hl hr (hcode.eq_of_enc_eq hl hr heq)

def arrayThenReal : List RadixSortKeyColumn :=
  [⟨.array (.scalar .integer), {}, none, rfl, rfl⟩, ⟨.scalar .real, { ascending := false }, none, rfl, rfl⟩]

/-- The longer array is later whatever the second column holds. -/
theorem encodeColumns_orderEmbedding_arrayThenReal :
    bind [.array (.scalar .integer), .scalar .real] [{}, { ascending := false }] = .ok ⟨arrayThenReal, none⟩ ∧
    compare (encodeColumns .insertion arrayThenReal 0 (some [some 1#32, none], some 0x3f800000#32, ()))
      (encodeColumns .insertion arrayThenReal 0 (some [some 1#32], some 0xbf800000#32, ())) = .gt := by
  have hbind : bind [.array (.scalar .integer), .scalar .real] [{}, { ascending := false }] =
      .ok ⟨arrayThenReal, none⟩ := rfl
  have hordinary : ∀ (elements : List (Option (BitVec 32))) bits, binary32.Ordinary bits.toNat →
      OrdinaryRow arrayThenReal (some elements, some bits, ()) := by
    intro elements bits hbits
    refine ⟨?_, ?_, trivial⟩
    · rintro datum -
      exact fun _ _ _ _ => trivial
    · rintro datum ⟨⟩
      exact hbits
  have h := encodeColumns_orderEmbedding .insertion hbind 0 (some [some 1#32, none], some 0x3f800000#32, ())
    (some [some 1#32], some 0xbf800000#32, ()) (hordinary _ _ (by decide)) (hordinary _ _ (by decide))
  exact ⟨hbind, h.2.2.1.trans (by decide)⟩

end Bolt.RadixSort
